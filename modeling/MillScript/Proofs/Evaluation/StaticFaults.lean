import MillScript.Proofs.Evaluation.Frames
import MillScript.Proofs.Evaluation.Shapes

/-! # Names, kinds and parameters are a matter of shape

    A program that uses a name that is not defined, a value of the wrong kind
    or parameters that do not go together does so whatever the numbers, units,
    texts and lengths of sequences it works with, and whatever the machine.
    Two starts whose variables have the same shapes are run side by side: as
    long as neither run is stopped by the values at hand, they stay in step
    and are refused for the same reason at the same place.

    A loop is the one place where the two runs may take a different number of
    steps.  Its rounds start from the same frames, so once one round has gone
    through in one run, no round of either run is refused. -/

namespace MillScript

namespace Run

/-! ## Steps of evaluation -/

variable {α α' β β' : Type}

/-- Two runs in worlds whose variables match come to one end, with results
    that are related and variables that match, unless one of them is stopped
    by the values at hand. -/
def InStep (Q : α → β → Prop) (x : Run α) (y : Run β) : Prop :=
  ∀ w v : World, Matching w.scopes.lookup v.scopes.lookup →
    Comparable (fun e : Error => e.fault.isDynamic = true)
      (fun a w' b v' => Q a b ∧ Matching w'.scopes.lookup v'.scopes.lookup) (x w) (y v)

theorem inStep_pure {Q : α → β → Prop} {a : α} {b : β} (h : Q a b) :
    InStep Q (pure a) (pure b) := fun _ _ hw => .ok ⟨h, hw⟩

/-- The same error is raised in both. -/
theorem inStep_throw (Q : α → β → Prop) (e : Error) : InStep Q (throw e) (throw e) :=
  fun _ _ _ => .error e

/-- Work that goes on in step from values in step stays so. -/
theorem InStep.bind {Q : α → β → Prop} {Q' : α' → β' → Prop} {x : Run α} {y : Run β}
    {f : α → Run α'} {g : β → Run β'} (h : InStep Q x y)
    (hf : ∀ a b, Q a b → InStep Q' (f a) (g b)) : InStep Q' (x >>= f) (y >>= g) :=
  fun w v hw => (h w v hw).bind fun a w' b v' hab => hf a b hab.1 w' v' hab.2

/-- What the machine does in step, whatever its state, a script does in
    step. -/
theorem inStep_machining {Q : α → β → Prop} {x : Machining α} {y : Machining β}
    (h : Machining.InStep Q x y) : InStep Q (machining x) (machining y) := by
  intro w v hw
  have hjobs := h w.job v.job
  rw [machining, machining]
  generalize x w.job = r, y v.job = r' at hjobs
  cases hjobs with
  | ok h => exact .ok ⟨h, hw⟩
  | error f => exact .error _
  | left h => exact .left h
  | right h => exact .right h

/-- A result is work of the machine that leaves it alone. -/
theorem ofExcept_eq_machining (r : Except Fault α) :
    ofExcept r = machining (Machining.ofExcept r) := by
  funext w
  cases r <;> rfl

theorem inStep_ofExcept {Q : α → β → Prop} {r : Except Fault α} {r' : Except Fault β}
    (h : Machining.ResultsInStep Q r r') : InStep Q (ofExcept r) (ofExcept r') := by
  rw [ofExcept_eq_machining, ofExcept_eq_machining]
  exact inStep_machining h

/-- An error is given the same place in both. -/
theorem InStep.locating {Q : α → β → Prop} {x : Run α} {y : Run β} (h : InStep Q x y)
    (l : Location) : InStep Q (Run.locating l x) (Run.locating l y) := by
  intro w v hw
  have hruns := h w v hw
  rw [Run.locating, Run.locating]
  generalize x w = r, y v = r' at hruns
  cases hruns with
  | ok h => exact .ok h
  | error e => exact .error _
  | @left e _ r' h =>
      refine .left ?_
      rw [fault_locate]
      exact h
  | @right r e _ h =>
      refine .right ?_
      rw [fault_locate]
      exact h

/-- A variable is bound in both or in neither, to values of one shape. -/
theorem inStep_lookup (name : String) : InStep SameShape (lookup name) (lookup name) := by
  intro w v hw
  have hname := hw name
  rw [lookup, lookup]
  generalize w.scopes.lookup name = value, v.scopes.lookup name = value' at hname
  cases hname with
  | some h => exact .ok ⟨h, hw⟩
  | none => exact .error _

theorem inStep_bindName (name : String) {a b : Value} (h : SameShape a b) :
    InStep (fun _ _ => True) (bindName name a) (bindName name b) :=
  fun _ _ hw => .ok ⟨trivial, hw.bind h name⟩

theorem inStep_say (text text' : World → String) :
    InStep (fun _ _ => True) (say text) (say text') := fun _ _ hw => .ok ⟨trivial, hw⟩

theorem inStep_setLine (line : Int) :
    InStep (fun _ _ => True) (setLine line) (setLine line) := fun _ _ hw => .ok ⟨trivial, hw⟩

/-- An argument is refused by its kind, which is the same for one shape. -/
theorem inStep_checkArgument (f : Builtin) (p : Param) (l : Location) {a b : Value}
    (h : SameShape a b) :
    InStep (fun _ _ => True) (checkArgument f p l a) (checkArgument f p l b) := by
  intro w v hw
  rw [checkArgument, checkArgument, h.fits_eq, h.kind_eq]
  split
  · exact .ok ⟨trivial, hw⟩
  · exact .error _

/-- Work in a frame puts back the variables that matched before it. -/
theorem InStep.inFrame {Q : α → β → Prop} {x : Run α} {y : Run β} (h : InStep Q x y)
    (hx : Scripted x) (hy : Scripted y) : InStep Q (Run.inFrame x) (Run.inFrame y) := by
  intro w v hw
  have hruns := h { w with scopes := w.scopes.push } { v with scopes := v.scopes.push } hw.push
  have hleft := hx.scopes_inFrame w
  have hright := hy.scopes_inFrame v
  rw [Run.inFrame] at hleft hright ⊢
  rw [Run.inFrame]
  generalize x { w with scopes := w.scopes.push } = r,
    y { v with scopes := v.scopes.push } = r' at hruns hleft hright
  cases hruns with
  | ok h =>
      refine .ok ⟨h.1, ?_⟩
      have hw' := congrArg Scopes.lookup hleft
      have hv' := congrArg Scopes.lookup hright
      dsimp only [endState] at hw' hv'
      rw [hw', hv']
      exact hw
  | error e => exact .error e
  | left h => exact .left h
  | right h => exact .right h

/-! ## Loops -/

section Rounds

variable {body : Value → Run Unit}
  (hbody : ∀ a b, SameShape a b → InStep (fun _ _ => True) (body a) (body b))
  (hkeep : ∀ a w, (endState (body a w)).scopes = w.scopes)

include hbody hkeep

/-- Once a round has gone through, rounds with items of the same shape can
    be stopped by the values at hand only. -/
theorem forM_of_round {b : Value} {v v' : World} (hround : body b v = .ok () v')
    (items : List Value) (hitems : ∀ a ∈ items, SameShape a b) (w : World)
    (hw : Matching w.scopes.lookup v.scopes.lookup) :
    (∃ w', items.forM body w = .ok () w' ∧ w'.scopes = w.scopes)
      ∨ ∃ e w', items.forM body w = .error e w' ∧ e.fault.isDynamic = true := by
  induction items generalizing w with
  | nil => exact .inl ⟨w, rfl, rfl⟩
  | cons a rest ih =>
      -- every round is compared with the one that went through, as the scopes are put back
      have hstep := hbody a b (hitems a List.mem_cons_self) w v hw
      have hscopes := hkeep a w
      show (∃ w', (body a >>= fun _ => rest.forM body) w = .ok () w' ∧ _)
        ∨ ∃ e w', (body a >>= fun _ => rest.forM body) w = .error e w' ∧ _
      rw [hround] at hstep
      rw [bind_apply]
      cases ha : body a w with
      | error e w' =>
          rw [ha] at hstep
          cases hstep with
          | left h => exact .inr ⟨e, w', rfl, h⟩
      | ok u w' =>
          rw [ha] at hscopes
          have hw' : w'.scopes = w.scopes := hscopes
          have hrest := ih (fun a' ha' => hitems a' (List.mem_cons_of_mem _ ha')) w'
            (by rw [hw']; exact hw)
          rw [hw'] at hrest
          exact hrest

/-- Loops over items of one shape are in step even if their numbers differ: the
    first round shows every static fault there is. -/
theorem inStep_forM {items items' : List Value} (hne : items ≠ []) (hne' : items' ≠ [])
    (hitems : ∀ a ∈ items, ∀ b ∈ items', SameShape a b) :
    InStep (fun _ _ => True) (items.forM body) (items'.forM body) := by
  intro w v hw
  obtain ⟨a, rest, rfl⟩ := List.exists_cons_of_ne_nil hne
  obtain ⟨b, rest', rfl⟩ := List.exists_cons_of_ne_nil hne'
  have hab := hitems a List.mem_cons_self b List.mem_cons_self
  have hstep := hbody a b hab w v hw
  have hscopes := hkeep a w
  have hscopes' := hkeep b v
  show Comparable _ _ ((body a >>= fun _ => rest.forM body) w)
    ((body b >>= fun _ => rest'.forM body) v)
  rw [bind_apply, bind_apply]
  cases ha : body a w with
  | error e w' =>
      rw [ha] at hstep
      generalize body b v = r at hstep
      cases hstep with
      | error e => exact .error e
      | left h => exact .left h
      | right h => exact .right h
  | ok u w' =>
      cases hb : body b v with
      | error e v' =>
          rw [ha, hb] at hstep
          cases hstep with
          | right h => exact .right h
      | ok u' v' =>
          rw [ha] at hscopes
          rw [hb] at hscopes'
          have hw' : w'.scopes = w.scopes := hscopes
          have hv' : v'.scopes = v.scopes := hscopes'
          -- each first round vouches for the further rounds of the other run
          have hleft := forM_of_round hbody hkeep hb rest
            (fun a' ha' => hitems a' (List.mem_cons_of_mem _ ha') b List.mem_cons_self) w'
            (by rw [hw']; exact hw)
          have hright := forM_of_round hbody hkeep ha rest'
            (fun b' hb' => (hitems a List.mem_cons_self b' (List.mem_cons_of_mem _ hb')).symm) v'
            (by rw [hv']; exact hw.symm)
          rcases hleft with ⟨w'', hw'', hend⟩ | ⟨e, w'', hw'', hdynamic⟩
          · rcases hright with ⟨v'', hv'', hend'⟩ | ⟨e, v'', hv'', hdynamic⟩
            · show Comparable _ _ (rest.forM body w') (rest'.forM body v')
              rw [hw'', hv'']
              refine .ok ⟨trivial, ?_⟩
              rw [hend, hend', hw', hv']
              exact hw
            · show Comparable _ _ (rest.forM body w') (rest'.forM body v')
              rw [hv'']
              exact .right hdynamic
          · show Comparable _ _ (rest.forM body w') (rest'.forM body v')
            rw [hw'']
            exact .left hdynamic

end Rounds

/-! ## Programs -/

mutual

/-- **Expressions are in step** in worlds whose variables have the same
    shapes. -/
theorem inStep_expr (e : Expr) : InStep SameShape e.eval e.eval := by
  match e with
  | .number l q => exact inStep_pure (.number rfl)
  | .string l s => exact inStep_pure (.string s s)
  | .identifier l name => exact (inStep_lookup name).locating l
  | .binary l op lhs rhs =>
      refine InStep.locating ((inStep_expr lhs).bind fun a a' ha => ?_) l
      refine (inStep_expr rhs).bind fun b b' hb => ?_
      exact inStep_ofExcept (Value.inStep_binary ha hb op)
  | .unary l op operand =>
      refine InStep.locating ((inStep_expr operand).bind fun a a' ha => ?_) l
      exact inStep_ofExcept (Value.inStep_unary ha op)
  | .assign l name value =>
      refine InStep.locating ((inStep_expr value).bind fun a a' ha => ?_) l
      exact (inStep_bindName name ha).bind fun _ _ _ => inStep_pure ha
  | .call l f slots =>
      refine InStep.locating ((inStep_slots f f.params slots).bind fun args args' hargs => ?_) l
      refine (inStep_setLine l.line).bind fun _ _ _ => ?_
      exact inStep_machining (Call.inStep_apply hargs f)

theorem inStep_slots (f : Builtin) (params : List Param) (slots : List Slot) :
    InStep (fun args args' : Arguments => Matching (List.lookup · args) (List.lookup · args'))
      (Slot.evalAll f params slots) (Slot.evalAll f params slots) := by
  match params, slots with
  | _ :: params, .absent :: slots =>
      rw [Slot.evalAll]
      exact inStep_slots f params slots
  | p :: params, .given l value :: slots =>
      rw [Slot.evalAll]
      refine (inStep_expr value).bind fun a a' ha => ?_
      refine (inStep_checkArgument f p l ha).bind fun _ _ _ => ?_
      refine (inStep_slots f params slots).bind fun args args' hargs => ?_
      exact inStep_pure (hargs.cons ha p.name)
  | [], [] => exact inStep_pure fun _ => .none
  | [], _ :: _ => exact inStep_pure fun _ => .none
  | _ :: _, [] => exact inStep_pure fun _ => .none

end

mutual

/-- **Statements are in step**, loops included. -/
theorem inStep_stmt (s : Stmt) : InStep SameShape s.eval s.eval := by
  match s with
  | .expr e =>
      rw [Stmt.eval]
      exact inStep_expr e
  | .block l body =>
      rw [Stmt.eval]
      have hbody := (inStep_stmts body).inFrame (scripted_stmts body) (scripted_stmts body)
      exact InStep.locating (hbody.bind fun _ _ _ => inStep_pure .none) l
  | .forLoop l item source opened body =>
      rw [Stmt.eval]
      refine InStep.locating ((inStep_expr source).bind fun a a' ha => ?_) l
      cases ha with
      | none => exact inStep_throw _ _
      | @number q q' h =>
          show InStep _ (throw ⟨TypeFault.notIterable q.kind, _⟩)
            (throw ⟨TypeFault.notIterable q'.kind, _⟩)
          rw [Quantity.kind, Quantity.kind, h]
          exact inStep_throw _ _
      | string s t => exact inStep_throw _ _
      | @sequence as bs isLength has hbs ha hb =>
          refine (inStep_say _ _).bind fun _ _ _ => ?_
          refine InStep.bind (Q := fun _ _ => True) ?_ fun _ _ _ => inStep_pure .none
          have hscripted := fun v => (Scripted.bindName item v).bind fun _ => scripted_stmts body
          refine inStep_forM (fun a b hab => ?_) (fun a w => (hscripted a).scopes_inFrame w)
            (by simpa using has) (by simpa using hbs) ?_
          · refine InStep.inFrame ?_ (hscripted a) (hscripted b)
            exact (inStep_bindName item hab).bind fun _ _ _ => inStep_stmts body
          · intro v hv v' hv'
            obtain ⟨q, hq, rfl⟩ := List.mem_map.mp hv
            obtain ⟨q', hq', rfl⟩ := List.mem_map.mp hv'
            exact .number ((ha q hq).trans (hb q' hq').symm)

theorem inStep_stmts (body : List Stmt) :
    InStep (fun _ _ => True) (Stmt.evalAll body) (Stmt.evalAll body) := by
  match body with
  | [] =>
      rw [Stmt.evalAll]
      exact inStep_pure trivial
  | s :: rest =>
      rw [Stmt.evalAll]
      exact (inStep_stmt s).bind fun _ _ _ => inStep_stmts rest

end

theorem inStep_runAll (statements : List Stmt) :
    InStep (fun _ _ => True) (Program.runAll statements) (Program.runAll statements) := by
  induction statements with
  | nil => exact inStep_pure trivial
  | cons s rest ih =>
      exact (inStep_say _ _).bind fun _ _ _ => (inStep_stmt s).bind fun _ _ _ => ih

end Run

/-- **Faults of names, kinds and parameters do not hang on values.**  If a
    program fails for one of them at one start, then at every start with
    variables of the same names and shapes it fails, too: for the same fault
    at the same place, unless a number or a material stops it.  If both runs
    go through, the variables have the same names and shapes again. -/
theorem Program.static_faults_of_shapes (p : Program) {w v : World}
    (h : Matching w.scopes.lookup v.scopes.lookup) :
    (∀ e w', p.run w = .error e w' → e.fault.isStatic = true →
        ∃ e' v', p.run v = .error e' v' ∧ (e' = e ∨ e'.fault.isDynamic = true))
      ∧ ∀ w' v', p.run w = .ok () w' → p.run v = .ok () v' →
        Matching w'.scopes.lookup v'.scopes.lookup := by
  have hruns : Comparable _ _ (p.run w) (p.run v) := Run.inStep_runAll p.statements w v h
  constructor
  · intro e w' hw hstatic
    rw [hw] at hruns
    generalize p.run v = r at hruns
    cases hruns with
    | error e => exact ⟨e, _, rfl, .inl rfl⟩
    | left hdynamic =>
        -- no fault is of both classes
        exfalso
        cases hfault : e.fault <;> rw [hfault] at hstatic hdynamic <;> cases hstatic
          <;> cases hdynamic
    | right hdynamic => exact ⟨_, _, rfl, .inr hdynamic⟩
  · intro w' v' hw hv
    rw [hw, hv] at hruns
    cases hruns with
    | ok h => exact h.2

/-- `for i in xs { y = x + i; y + 1; }` -/
def sumsOverItems : Program where
  location := ⟨1, 1⟩
  statements :=
    [.forLoop ⟨1, 1⟩ "i" (.identifier ⟨1, 10⟩ "xs") ⟨1, 13⟩
      [.expr (.assign ⟨1, 15⟩ "y"
        (.binary ⟨1, 21⟩ .add (.identifier ⟨1, 19⟩ "x") (.identifier ⟨1, 23⟩ "i"))),
        .expr (.binary ⟨1, 28⟩ .add (.identifier ⟨1, 26⟩ "y") (.number ⟨1, 30⟩ ⟨1, none⟩))]]

/-- The world of a new machine without materials. -/
def newWorld (config : Config) : World :=
  .ofMachine
    { config
      materials := []
      cutterDiameter := config.cutterDiameter
      material := ⟨config.material, 1, 1, 1, 1, 0⟩
      rpm := 0
      position := ⟨0, 0, config.safeHeight⟩ }

/-- A new machine, with values for `x` and `xs`. -/
def startWith (config : Config) (x : Quantity) (xs : List Quantity) : World :=
  { newWorld config with
    scopes := ((newWorld config).scopes.bind "x" (.number x)).bind "xs"
      (.sequence (xs.map .number)) }

/-- Two variables of one shape are all that these worlds have. -/
theorem matching_startWith (config config' : Config) {x x' : Quantity} {xs xs' : List Quantity}
    (hx : SameShape (.number x) (.number x'))
    (hxs : SameShape (.sequence (xs.map .number)) (.sequence (xs'.map .number))) :
    Matching (startWith config x xs).scopes.lookup (startWith config' x' xs').scopes.lookup := by
  have hempty : Matching (newWorld config).scopes.lookup (newWorld config').scopes.lookup := by
    intro name
    rw [Scopes.lookup_eq, Scopes.lookup_eq]
    exact .none
  exact (hempty.bind hx "x").bind hxs "xs"

/-- The error that a program fails with, if it does. -/
def Program.error? (p : Program) (w : World) : Option Error :=
  match p.run w with
  | .ok _ _ => none
  | .error e _ => some e

/-- The error that a run shows is the one it fails with. -/
theorem Program.run_of_error? {p : Program} {w : World} {e : Error} (h : p.error? w = some e) :
    ∃ w', p.run w = .error e w' := by
  rw [error?] at h
  cases hrun : p.run w with
  | ok u w' =>
      rw [hrun] at h
      cases h
  | error e' w' =>
      rw [hrun] at h
      rw [Option.some.inj h]
      exact ⟨w', rfl⟩

theorem Program.static_faults_of_shapes_sums :
    sumsOverItems.error? (startWith {} ⟨1, some .mm⟩ [⟨1, some .mm⟩])
        = some ⟨TypeFault.binaryOperands .add .length .unitless, ⟨1, 28⟩⟩
      ∧ ∃ e' v', sumsOverItems.run (startWith { safeHeight := 20, precision := 0 } ⟨2, some .inch⟩
          [⟨3, some .cm⟩, ⟨4, some .ft⟩]) = .error e' v'
        ∧ (e' = ⟨TypeFault.binaryOperands .add .length .unitless, ⟨1, 28⟩⟩
          ∨ e'.fault.isDynamic = true) := by
  have hx : SameShape (.number ⟨1, some .mm⟩) (.number ⟨2, some .inch⟩) :=
    .number (Quantity.sameKind_mk 1 2 rfl)
  have hxs : SameShape (.sequence ([⟨1, some .mm⟩].map .number))
      (.sequence ([⟨3, some .cm⟩, ⟨4, some .ft⟩].map .number)) :=
    .sequence true (List.cons_ne_nil _ _) (List.cons_ne_nil _ _) (by simp [Quantity.isLength])
      (by simp [Quantity.isLength])
  have hmatching := matching_startWith {} { safeHeight := 20, precision := 0 } hx hxs
  have hfirst : sumsOverItems.error? (startWith {} ⟨1, some .mm⟩ [⟨1, some .mm⟩])
      = some ⟨TypeFault.binaryOperands .add .length .unitless, ⟨1, 28⟩⟩ := by decide +kernel
  obtain ⟨w', hrun⟩ := run_of_error? hfirst
  exact ⟨hfirst, (Program.static_faults_of_shapes sumsOverItems hmatching).1 _ _ hrun rfl⟩

end MillScript
