import MillScript.Proofs.Decimal.Exact
import MillScript.Proofs.Machining.Faults
import MillScript.Scopes

/-! # Shapes of values

    The shape of a value is what is left of it without magnitude, unit,
    wording and number of items.  Arithmetic and calls are refused for a kind
    of value or a choice of parameters by the shapes of what they are given:
    two of them with operands or arguments of the same shapes end in the same
    way, unless one is stopped by the values at hand, and give results of the
    same shape. -/

namespace MillScript

/-! ## Shapes -/

/-- Values that differ in magnitude, unit, wording or number of items only.
    Sequences have items, which are numbers of one kind. -/
inductive SameShape : Value → Value → Prop
  | none : SameShape .none .none
  | number {a b : Quantity} (h : a.isLength = b.isLength) : SameShape (.number a) (.number b)
  | string (s t : String) : SameShape (.string s) (.string t)
  | sequence {as bs : List Quantity} (isLength : Bool) (has : as ≠ []) (hbs : bs ≠ [])
      (ha : ∀ q ∈ as, q.isLength = isLength) (hb : ∀ q ∈ bs, q.isLength = isLength) :
      SameShape (.sequence (as.map .number)) (.sequence (bs.map .number))

namespace SameShape

theorem symm {v w : Value} (h : SameShape v w) : SameShape w v := by
  cases h with
  | none => exact .none
  | number h => exact .number h.symm
  | string s t => exact .string t s
  | sequence isLength has hbs ha hb => exact .sequence isLength hbs has hb ha

/-- Messages do not tell values of one shape apart. -/
theorem kind_eq {v w : Value} (h : SameShape v w) : v.kind = w.kind := by
  cases h with
  | none => rfl
  | number h =>
      show ValueKind.ofNumber _ = ValueKind.ofNumber _
      rw [h]
  | string s t => rfl
  | sequence isLength has hbs ha hb => rfl

/-- Parameters do not tell values of one shape apart. -/
theorem fits_eq {v w : Value} (h : SameShape v w) (kind : ParamKind) :
    v.fits kind = w.fits kind := by
  cases h with
  | none => cases kind <;> rfl
  | number h => cases kind <;> simp [Value.fits, h]
  | string s t => cases kind <;> rfl
  | sequence isLength has hbs ha hb => cases kind <;> rfl

end SameShape

/-- Variables, or arguments, with the same names and shapes. -/
def Matching (look look' : String → Option Value) : Prop :=
  ∀ name, Option.Rel SameShape (look name) (look' name)

namespace Matching

theorem symm {look look' : String → Option Value} (h : Matching look look') :
    Matching look' look := by
  intro name
  have hname := h name
  generalize look name = v, look' name = v' at hname
  cases hname with
  | some h => exact .some h.symm
  | none => exact .none

/-- A frame more has no variables of its own. -/
theorem push {s t : Scopes} (h : Matching s.lookup t.lookup) :
    Matching s.push.lookup t.push.lookup := by
  intro name
  rw [Scopes.lookup_push, Scopes.lookup_push]
  exact h name

/-- Names bound to values of one shape match as the others do. -/
theorem bind {s t : Scopes} (h : Matching s.lookup t.lookup) {v w : Value}
    (hv : SameShape v w) (name : String) :
    Matching (s.bind name v).lookup (t.bind name w).lookup := by
  intro other
  by_cases hname : other = name
  · rw [hname, Scopes.lookup_bind_self, Scopes.lookup_bind_self]
    exact .some hv
  · rw [Scopes.lookup_bind_of_ne _ hname, Scopes.lookup_bind_of_ne _ hname]
    exact h other

theorem cons {args args' : Arguments}
    (h : Matching (List.lookup · args) (List.lookup · args')) {v w : Value}
    (hv : SameShape v w) (name : String) :
    Matching (List.lookup · ((name, v) :: args)) (List.lookup · ((name, w) :: args')) := by
  intro other
  show Option.Rel SameShape (List.lookup other _) (List.lookup other _)
  rw [List.lookup_cons, List.lookup_cons]
  cases other == name with
  | true => exact .some hv
  | false => exact h other

section Arguments

variable {args args' : Arguments} (h : Matching (List.lookup · args) (List.lookup · args'))

include h

/-- Arguments of one shape are given or left out together. -/
theorem has_eq (name : String) : args.has name = args'.has name := by
  have hname : Option.Rel SameShape (args.lookup name) (args'.lookup name) := h name
  rw [Arguments.has, Arguments.has]
  generalize args.lookup name = v, args'.lookup name = v' at hname
  cases hname with
  | some h => rfl
  | none => rfl

/-- Arguments of one shape are lengths together. -/
theorem isLength_quantity (name : String) :
    (args.quantity name).isLength = (args'.quantity name).isLength := by
  have hname : Option.Rel SameShape (args.lookup name) (args'.lookup name) := h name
  rw [Arguments.quantity, Arguments.quantity]
  generalize args.lookup name = v, args'.lookup name = v' at hname
  cases hname with
  | none => rfl
  | some h =>
      cases h with
      | none => rfl
      | number h => exact h
      | string s t => rfl
      | sequence isLength has hbs ha hb => rfl

end Arguments

end Matching

/-! ## Work on two machines -/

namespace Machining

variable {α α' β β' : Type}

/-- Whatever the state of the machines, the two fail for the values at hand
    or come to one end. -/
def InStep (Q : α → β → Prop) (x : Machining α) (y : Machining β) : Prop :=
  ∀ j k, Comparable (fun f : Fault => f.isDynamic = true) (fun a _ b _ => Q a b) (x j) (y k)

theorem inStep_pure {Q : α → β → Prop} {a : α} {b : β} (h : Q a b) :
    InStep Q (pure a) (pure b) := fun _ _ => .ok h

/-- Work that is refused for the same is in step. -/
theorem inStep_refused (Q : α → β → Prop) (f : Fault) :
    InStep Q (ofExcept (.error f)) (ofExcept (.error f)) := fun _ _ => .error f

/-- Work that goes on in step from results in step stays so. -/
theorem InStep.bind {Q : α → β → Prop} {Q' : α' → β' → Prop} {x : Machining α}
    {y : Machining β} {f : α → Machining α'} {g : β → Machining β'} (h : InStep Q x y)
    (hf : ∀ a b, Q a b → InStep Q' (f a) (g b)) : InStep Q' (x >>= f) (y >>= g) :=
  fun j k => (h j k).bind fun a _ b _ hab => hf a b hab _ _

/-- Work that fails for the values at hand only. -/
theorem FailsOnValues.inStep {x : Machining α} {y : Machining β} (hx : FailsOnValues x)
    (hy : FailsOnValues y) : InStep (fun _ _ => True) x y :=
  fun _ _ => FailsWith.comparable hx hy fun _ _ _ _ _ _ => trivial

/-- Calls without a value are in step if they fail on values only. -/
theorem FailsOnValues.inStep_none {x : Machining α} {y : Machining β} (hx : FailsOnValues x)
    (hy : FailsOnValues y) :
    InStep SameShape (do let _ ← x; return Value.none) (do let _ ← y; return Value.none) :=
  (FailsOnValues.inStep hx hy).bind fun _ _ _ => inStep_pure .none

/-- Results are in step if all that they fail for hangs on values. -/
theorem inStep_ofExcept {Q : α → β → Prop} {r : Except Fault α} {r' : Except Fault β}
    (hr : FailsOnValues (ofExcept r)) (hr' : FailsOnValues (ofExcept r'))
    (h : ∀ a b, r = .ok a → r' = .ok b → Q a b) : InStep Q (ofExcept r) (ofExcept r') := by
  intro j k
  refine FailsWith.comparable hr hr' fun a u b v ha hb => ?_
  cases r with
  | error f => cases ha
  | ok a' =>
      cases r' with
      | error f => cases hb
      | ok b' =>
          injection ha with ha _
          injection hb with hb _
          exact h a b (congrArg _ ha) (congrArg _ hb)

/-- Values that are computed, or refused. -/
abbrev ResultsInStep (Q : α → β → Prop) (r : Except Fault α) (r' : Except Fault β) : Prop :=
  InStep Q (ofExcept r) (ofExcept r')

/-- What is made of results in step is in step. -/
theorem ResultsInStep.map {Q : α → β → Prop} {Q' : α' → β' → Prop} {r : Except Fault α}
    {r' : Except Fault β} (h : ResultsInStep Q r r') {f : α → α'} {g : β → β'}
    (hf : ∀ a b, Q a b → Q' (f a) (g b)) : ResultsInStep Q' (r.map f) (r'.map g) := by
  have hmap : ∀ {γ γ' : Type} (q : Except Fault γ) (m : γ → γ'),
      ofExcept (q.map m) = (ofExcept q >>= fun c => pure (m c)) := by
    intro γ γ' q m
    cases q <;> rfl
  rw [ResultsInStep, hmap, hmap]
  exact InStep.bind h fun a b hab => inStep_pure (hf a b hab)

end Machining

/-! ## Arithmetic -/

namespace Quantity

open Machining

/-- Quantities of one kind. -/
def SameKind (a b : Quantity) : Prop := a.isLength = b.isLength

/-- Only the unit matters. -/
theorem sameKind_mk (x y : Float) {u u' : Option LengthUnit} (h : u.isSome = u'.isSome) :
    SameKind ⟨x, u⟩ ⟨y, u'⟩ := h

section

variable {a a' b b' : Quantity} (ha : SameKind a a') (hb : SameKind b b')

include ha hb in
/-- The fault of two operands names their kinds and nothing else. -/
theorem operandFault_congr (op : BinaryOp) : operandFault op a b = operandFault op a' b' := by
  rw [operandFault, operandFault, kind, kind, kind, kind, ha, hb]

/-- A result is refused for being out of range only. -/
theorem failsOnValues_checked (op : BinaryOp) (a b r : Quantity) :
    FailsOnValues (Machining.ofExcept (checked op a b r)) := by
  refine failsWith_ofExcept fun f h => ?_
  rw [checked] at h
  split at h
  · cases h
  · rw [← Except.error.inj h]
    rfl

/-- A result that passes its check is not changed by it. -/
theorem eq_of_checked {op : BinaryOp} {a b r q : Quantity} (h : checked op a b r = .ok q) :
    r = q := by
  rw [checked] at h
  split at h
  · exact Except.ok.inj h
  · cases h

/-- The check does not ask for the kind of a result. -/
theorem inStep_checked (op : BinaryOp) {r r' : Quantity} (h : SameKind r r') :
    ResultsInStep SameKind (checked op a b r) (checked op a' b' r') := by
  refine inStep_ofExcept (failsOnValues_checked _ _ _ _) (failsOnValues_checked _ _ _ _) ?_
  intro q q' hq hq'
  rw [← eq_of_checked hq, ← eq_of_checked hq']
  exact h

include ha hb

/-- Sums and differences ask for operands of one kind. -/
theorem inStep_additive (op : BinaryOp) (sign : Float) :
    ResultsInStep SameKind (additive op sign a b) (additive op sign a' b') := by
  rw [additive, additive, operandFault_congr ha hb, ha, hb]
  by_cases hkinds : (a'.isLength != b'.isLength) = true
  · rw [if_pos hkinds, if_pos hkinds]
    exact inStep_refused _ _
  · rw [if_neg hkinds, if_neg hkinds]
    by_cases hlength : a'.isLength = true
    · rw [if_pos hlength, if_pos hlength]
      exact inStep_checked op (sameKind_mk _ _ rfl)
    · rw [if_neg hlength, if_neg hlength]
      exact inStep_checked op (sameKind_mk _ _ rfl)

/-- Products ask that not both operands are lengths. -/
theorem inStep_multiply : ResultsInStep SameKind (multiply a b) (multiply a' b') := by
  rw [multiply, multiply, operandFault_congr ha hb, ha, hb]
  by_cases hkinds : (a'.isLength && b'.isLength) = true
  · rw [if_pos hkinds, if_pos hkinds]
    exact inStep_refused _ _
  · rw [if_neg hkinds, if_neg hkinds]
    refine inStep_checked _ (sameKind_mk _ _ ?_)
    rw [Option.isSome_or, Option.isSome_or]
    exact congr (congrArg or ha) hb

/-- Quotients ask for a divisor that is a plain number and not zero. -/
theorem inStep_divide : ResultsInStep SameKind (divide a b) (divide a' b') := by
  rw [divide, divide, operandFault_congr ha hb, hb]
  by_cases hlength : b'.isLength = true
  · rw [if_pos hlength, if_pos hlength]
    exact inStep_refused _ _
  · rw [if_neg hlength, if_neg hlength]
    by_cases hz : (b.value == 0) = true
    · rw [if_pos hz]
      exact fun j k => .left rfl
    · rw [if_neg hz]
      by_cases hz' : (b'.value == 0) = true
      · rw [if_pos hz']
        exact fun j k => .right rfl
      · rw [if_neg hz']
        exact inStep_checked _ (sameKind_mk _ _ ha)

/-- Powers ask for plain numbers. -/
theorem inStep_power : ResultsInStep SameKind (power a b) (power a' b') := by
  rw [power, power, operandFault_congr ha hb, ha, hb]
  by_cases hkinds : (a'.isLength || b'.isLength) = true
  · rw [if_pos hkinds, if_pos hkinds]
    exact inStep_refused _ _
  · rw [if_neg hkinds, if_neg hkinds]
    exact inStep_checked _ (sameKind_mk _ _ rfl)

/-- No operation on numbers tells quantities of one kind apart but by their
    magnitudes. -/
theorem inStep_binary (op : BinaryOp) :
    ResultsInStep SameKind (binary op a b) (binary op a' b') := by
  cases op with
  | add => exact inStep_additive ha hb _ _
  | subtract => exact inStep_additive ha hb _ _
  | multiply => exact inStep_multiply ha hb
  | divide => exact inStep_divide ha hb
  | power => exact inStep_power ha hb

end

/-- The factorial of a plain number is refused for its value only. -/
theorem failsOnValues_factorial {a : Quantity} (h : a.isLength = false) :
    FailsOnValues (Machining.ofExcept a.factorial) := by
  refine failsWith_ofExcept fun f hf => ?_
  rw [factorial, if_neg (by simp [h])] at hf
  split at hf
  · rw [← Except.error.inj hf]
    rfl
  · split at hf
    · rw [← Except.error.inj hf]
      rfl
    · cases hf

/-- A factorial is a plain number. -/
theorem isLength_of_factorial {a q : Quantity} (h : a.factorial = .ok q) : q.isLength = false := by
  rw [factorial] at h
  repeat' split at h
  all_goals cases h
  rfl

theorem inStep_unary {a a' : Quantity} (ha : SameKind a a') (op : UnaryOp) :
    ResultsInStep SameKind (unary op a) (unary op a') := by
  cases op with
  | negate => exact inStep_pure ha
  | factorial =>
      show ResultsInStep SameKind a.factorial a'.factorial
      by_cases hlength : a'.isLength = true
      · have hkind : a.kind = a'.kind := by rw [kind, kind, ha]
        rw [factorial, factorial, ha, if_pos hlength, if_pos hlength, hkind]
        exact inStep_refused _ _
      · have hnumber : a'.isLength = false := by simpa using hlength
        refine inStep_ofExcept (failsOnValues_factorial (ha.trans hnumber))
          (failsOnValues_factorial hnumber) fun q q' hq hq' => ?_
        exact (isLength_of_factorial hq).trans (isLength_of_factorial hq').symm

end Quantity

namespace Value

open Machining

/-- Operators refuse operands by their kinds, and kinds are the same for one
    shape. -/
theorem inStep_binary {a a' b b' : Value} (ha : SameShape a a') (hb : SameShape b b')
    (op : BinaryOp) :
    ResultsInStep SameShape (binary op a b) (binary op a' b') := by
  have hrefused : ResultsInStep SameShape (.error (TypeFault.binaryOperands op a.kind b.kind))
      (.error (TypeFault.binaryOperands op a'.kind b'.kind)) := by
    rw [ha.kind_eq, hb.kind_eq]
    exact inStep_refused _ _
  cases ha with
  | number ha =>
      cases hb with
      | number hb => exact (Quantity.inStep_binary ha hb op).map fun _ _ h => .number h
      | none => exact hrefused
      | string s t => exact hrefused
      | sequence isLength has hbs ha hb => exact hrefused
  | none => exact hrefused
  | string s t => exact hrefused
  | sequence isLength has hbs ha hb => exact hrefused

theorem inStep_unary {a a' : Value} (ha : SameShape a a') (op : UnaryOp) :
    ResultsInStep SameShape (unary op a) (unary op a') := by
  have hrefused : ResultsInStep SameShape (.error (TypeFault.unaryOperand op a.kind))
      (.error (TypeFault.unaryOperand op a'.kind)) := by
    rw [ha.kind_eq]
    exact inStep_refused _ _
  cases ha with
  | number ha => exact (Quantity.inStep_unary ha op).map fun _ _ h => .number h
  | none => exact hrefused
  | string s t => exact hrefused
  | sequence isLength has hbs ha hb => exact hrefused

end Value

/-! ## Calls -/

namespace Spacing

open Machining

/-- Once the ends are of one kind, spaced numbers are refused for their values
    only. -/
theorem failsOnValues_items {start stop : Quantity} (h : start.isLength = stop.isLength)
    (count : Quantity) (limit : Nat) :
    FailsOnValues (Machining.ofExcept (items start stop count limit)) := by
  refine failsWith_ofExcept fun f hf => ?_
  rw [items, if_neg (by simp [h])] at hf
  split at hf
  · rw [← Except.error.inj hf]
    rfl
  · split at hf
    · rw [← Except.error.inj hf]
      rfl
    · cases hf

/-- Spaced numbers are of the kind of their ends, and there is at least one. -/
theorem shape_of_items {start stop count : Quantity} {limit : Nat} {spaced : List Quantity}
    (h : items start stop count limit = .ok spaced) :
    spaced ≠ [] ∧ ∀ q ∈ spaced, q.isLength = start.isLength := by
  rw [items] at h
  split at h
  · cases h
  · split at h
    · cases h
    · rename_i hcount
      split at h
      · cases h
      · rw [← Except.ok.inj h]
        simp only [Bool.or_eq_true, Bool.not_eq_true', decide_eq_true_eq, not_or,
          Bool.not_eq_false] at hcount
        constructor
        · have hone : 1 ≤ Decimal.floor count.value := Decimal.one_le_floor hcount.1 hcount.2
          intro hnil
          rw [List.map_eq_nil_iff, List.range_eq_nil] at hnil
          omega
        · intro q hq
          obtain ⟨i, -, rfl⟩ := List.mem_map.mp hq
          show (if start.isLength then some LengthUnit.mm else none).isSome = start.isLength
          cases start.isLength <;> rfl

end Spacing

namespace Call

open Machining

variable {args args' : Arguments} (h : Matching (List.lookup · args) (List.lookup · args'))

include h

/-- Whether a round pocket is given by radius or diameter is read off the
    names. -/
theorem inStep_circlePocket :
    InStep SameShape (do circlePocket args; return Value.none)
      (do circlePocket args'; return Value.none) := by
  by_cases hsize : args.has "radius" = args.has "diameter"
  · have hsize' : args'.has "radius" = args'.has "diameter" := by
      rw [← h.has_eq, ← h.has_eq, hsize]
    rw [circlePocket, circlePocket, if_pos hsize, if_pos hsize']
    exact fun _ _ => .error _
  · have hsize' : args'.has "radius" ≠ args'.has "diameter" := by
      rw [← h.has_eq, ← h.has_eq]
      exact hsize
    exact FailsOnValues.inStep_none (failsOnValues_circlePocket hsize)
      (failsOnValues_circlePocket hsize')

/-- Which of its parameters give the end of a groove is read off their names. -/
theorem inStep_grooveEnd (start start' : Vec2) :
    ResultsInStep (fun _ _ => True) (grooveEnd args start) (grooveEnd args' start') := by
  rw [grooveEnd, grooveEnd, ← h.has_eq, ← h.has_eq, ← h.has_eq]
  by_cases hend : (args.has "x2" || args.has "y2") = args.has "up"
  · rw [if_pos hend, if_pos hend]
    exact inStep_refused _ _
  · rw [if_neg hend, if_neg hend]
    by_cases hpoint : (args.has "x2" || args.has "y2") = true
    · rw [if_pos hpoint, if_pos hpoint]
      by_cases hboth : (args.has "x2" && args.has "y2") = true
      · rw [if_pos hboth, if_pos hboth]
        exact FailsOnValues.inStep (failsOnValues_groovePoint _) (failsOnValues_groovePoint _)
      · rw [if_neg hboth, if_neg hboth]
        exact inStep_refused _ _
    · rw [if_neg hpoint, if_neg hpoint]
      exact FailsOnValues.inStep (failsOnValues_grooveUp _ _) (failsOnValues_grooveUp _ _)

/-- Whether a groove has an arc is read off the names. -/
theorem inStep_groove :
    InStep SameShape (do groove args; return Value.none) (do groove args'; return Value.none) := by
  refine InStep.bind (Q := fun _ _ => True) ?_ fun _ _ _ => inStep_pure .none
  have hlength := fun name => FailsOnValues.inStep (failsOnValues_length args name)
    (failsOnValues_length args' name)
  refine (hlength _).bind fun x x' _ => (hlength _).bind fun y y' _ => ?_
  refine InStep.bind (inStep_grooveEnd h _ _) fun stop stop' _ => ?_
  rw [← h.has_eq, ← h.has_eq]
  by_cases hhalf : (args.has "cx" != args.has "cy") = true
  · rw [if_pos hhalf, if_pos hhalf]
    exact fun _ _ => .error _
  · rw [if_neg hhalf, if_neg hhalf]
    exact FailsOnValues.inStep
      (.ite (failsOnValues_grooveArc _ _ _) (failsOnValues_grooveStraight _ _ _))
      (.ite (failsOnValues_grooveArc _ _ _) (failsOnValues_grooveStraight _ _ _))

/-- Spaced numbers between ends of one kind have this kind, however many there
    are. -/
theorem inStep_linspace : InStep SameShape (linspace args) (linspace args') := by
  have hstart := h.isLength_quantity "start"
  have hstop := h.isLength_quantity "stop"
  refine InStep.bind (Q := fun _ _ => True) (fun j k => .ok trivial) fun job job' _ => ?_
  refine InStep.bind (Q := fun qs qs' => SameShape (.sequence (qs.map .number))
    (.sequence (qs'.map .number))) ?_ fun qs qs' hqs => inStep_pure hqs
  by_cases hkinds : (args.quantity "start").isLength = (args.quantity "stop").isLength
  · have hkinds' : (args'.quantity "start").isLength = (args'.quantity "stop").isLength := by
      rw [← hstart, ← hstop, hkinds]
    refine inStep_ofExcept (Spacing.failsOnValues_items hkinds _ _)
      (Spacing.failsOnValues_items hkinds' _ _) fun qs qs' hqs hqs' => ?_
    obtain ⟨hne, hall⟩ := Spacing.shape_of_items hqs
    obtain ⟨hne', hall'⟩ := Spacing.shape_of_items hqs'
    refine .sequence (args.quantity "start").isLength hne hne' hall ?_
    rw [hstart]
    exact hall'
  · have hkinds' : (args'.quantity "start").isLength ≠ (args'.quantity "stop").isLength := by
      rw [← hstart, ← hstop]
      exact hkinds
    rw [Spacing.items, Spacing.items, if_pos (by simpa using hkinds),
      if_pos (by simpa using hkinds'),
      Quantity.kind, Quantity.kind, Quantity.kind, Quantity.kind, hstart, hstop]
    exact inStep_refused _ _

/-- **Calls are in step** if their arguments have the same shapes. -/
theorem inStep_apply (f : Builtin) : InStep SameShape (apply args f) (apply args' f) := by
  cases f with
  | cutterDiameter =>
      exact FailsOnValues.inStep_none (failsOnValues_setCutter _) (failsOnValues_setCutter _)
  | material =>
      exact FailsOnValues.inStep_none (failsOnValues_selectMaterial _)
        (failsOnValues_selectMaterial _)
  | defineMaterial =>
      refine InStep.bind (FailsOnValues.inStep (failsOnValues_describeMaterial args)
        (failsOnValues_describeMaterial args')) fun m m' _ => ?_
      exact FailsOnValues.inStep_none (failsOnValues_set _) (failsOnValues_set _)
  | rpm => exact FailsOnValues.inStep_none (failsOnValues_setSpeed _) (failsOnValues_setSpeed _)
  | scale => exact FailsOnValues.inStep_none (failsOnValues_setScale _) (failsOnValues_setScale _)
  | comment =>
      exact FailsOnValues.inStep_none (failsWith_record _) (failsWith_record _)
  | dwell =>
      exact FailsOnValues.inStep_none (failsInExecution_dwell _).onValues
        (failsInExecution_dwell _).onValues
  | drill => exact FailsOnValues.inStep_none (failsOnValues_drill _) (failsOnValues_drill _)
  | circlePocket => exact inStep_circlePocket h
  | groove => exact inStep_groove h
  | groovePocket =>
      exact FailsOnValues.inStep_none (failsOnValues_groovePocket _)
        (failsOnValues_groovePocket _)
  | linspace => exact inStep_linspace h

end Call

end MillScript
