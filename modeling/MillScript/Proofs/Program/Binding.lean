import Mathlib.Data.List.Forall2
import MillScript.Proofs.Grammar.Lowering
import MillScript.Proofs.Outcome
import MillScript.Proofs.Program.Arguments

/-! # Arguments are bound as they fit

    Lowering a call goes over its arguments twice: positional ones are taken
    off first, then named ones are put into slots that are still empty, one
    after the other.  Each pass succeeds under a condition on the arguments
    and refuses the call otherwise (`BindsIff`), and together the conditions
    are that the arguments fit. -/

namespace MillScript

/-! ## Binding -/

section Binding

variable {α β : Type}

/-- Refused for the arguments of a call. -/
def Misbound (r : Except Error α) : Prop :=
  ∃ (fault : BindingFault) (l : Location), r = .error ⟨fault, l⟩

/-- An outcome that is a given one where a condition holds, and a refusal of
    the arguments where it does not. -/
def BindsIff (fits : Prop) (a : α) (r : Except Error α) : Prop :=
  (fits → r = .ok a) ∧ (¬ fits → Misbound r)

theorem bindsIff_ok {fits : Prop} (h : fits) (a : α) : BindsIff fits a (.ok a) :=
  ⟨fun _ => rfl, fun hn => absurd h hn⟩

theorem bindsIff_error {fits : Prop} (h : ¬ fits) (a : α) (fault : BindingFault) (l : Location) :
    BindsIff fits a (.error ⟨fault, l⟩) :=
  ⟨fun hfits => absurd hfits h, fun _ => ⟨fault, l, rfl⟩⟩

theorem BindsIff.congr {fits fits' : Prop} {a : α} {r : Except Error α} (h : BindsIff fits a r)
    (hiff : fits ↔ fits') : BindsIff fits' a r := by
  rw [← hiff]
  exact h

/-- Arguments fit as a whole if they do in both parts. -/
theorem BindsIff.bind {fits fits' : Prop} {a : α} {b : β} {r : Except Error α}
    {k : α → Except Error β} (hr : BindsIff fits a r) (hk : fits → BindsIff fits' b (k a)) :
    BindsIff (fits ∧ fits') b (r >>= k) := by
  constructor
  · rintro ⟨hfits, hfits'⟩
    rw [hr.1 hfits]
    exact (hk hfits).1 hfits'
  · intro hn
    by_cases hfits : fits
    · rw [hr.1 hfits]
      exact (hk hfits).2 fun hfits' => hn ⟨hfits, hfits'⟩
    · obtain ⟨fault, l, hr⟩ := hr.2 hfits
      rw [hr]
      exact ⟨fault, l, rfl⟩

end Binding

namespace Tree

/-- The argument of a parameter of a call, if its expression is lowered. -/
def argument? : Tree → Option Argument
  | ⟨.positionalParam, _, _, l, [value]⟩ =>
    match value.lowerExpr with
    | .ok e => some ⟨none, l, e⟩
    | .error _ => none
  | ⟨.namedParam, _, _, l, [name, value]⟩ =>
    match value.lowerExpr with
    | .ok e => some ⟨some name.text, l, e⟩
    | .error _ => none
  | _ => none

/-- The arguments of a call. -/
def arguments (params : List Tree) : List Argument := params.filterMap argument?

/-- Parameters that each have an argument. -/
def Write (params : List Tree) (args : List Argument) : Prop :=
  List.Forall₂ (fun p a => p.argument? = some a) params args

/-- A parameter that has an argument is of one of two shapes. -/
theorem argument?_cases {p : Tree} {a : Argument} (h : p.argument? = some a) :
    (∃ text unit value, p = ⟨.positionalParam, text, unit, a.location, [value]⟩
        ∧ value.lowerExpr = .ok a.value ∧ a.name = none)
      ∨ ∃ text unit name value, p = ⟨.namedParam, text, unit, a.location, [name, value]⟩
        ∧ value.lowerExpr = .ok a.value ∧ a.name = some name.text := by
  rw [argument?.eq_def] at h
  split at h
  · rename_i text unit l value
    split at h
    · rename_i e he
      cases h
      exact .inl ⟨text, unit, value, rfl, he, rfl⟩
    · cases h
  · rename_i text unit l name value
    split at h
    · rename_i e he
      cases h
      exact .inr ⟨text, unit, name, value, rfl, he, rfl⟩
    · cases h
  · cases h

theorem Write.exists_argument {params : List Tree} {args : List Argument}
    (h : Write params args) {p : Tree} (hp : p ∈ params) : ∃ a, p.argument? = some a := by
  induction h with
  | nil => cases hp
  | cons hhead _ ih =>
      rcases List.mem_cons.mp hp with rfl | hp
      · exact ⟨_, hhead⟩
      · exact ih hp

/-- Where every parameter has an argument, the arguments are one for each. -/
theorem write_arguments {params : List Tree} (h : ∀ p ∈ params, ∃ a, p.argument? = some a) :
    Write params (arguments params) := by
  induction params with
  | nil => exact .nil
  | cons p params ih =>
      obtain ⟨⟨a, ha⟩, hparams⟩ := List.forall_mem_cons.mp h
      rw [arguments, List.filterMap_cons_some ha]
      exact .cons ha (ih hparams)

open Argument

variable {f : Builtin} {params : List Tree} {args : List Argument}

/-- Positional arguments are taken in order, as many as there are
    parameters. -/
theorem bindsIff_lowerPositional (h : Write params args) (given : List Slot)
    (hgiven : given.length ≤ f.params.length) :
    BindsIff (given.length + (positional args).length ≤ f.params.length)
      (given ++ (positional args).map fun a => .given a.location a.value)
      (lowerPositional f given params) := by
  induction h generalizing given with
  | nil =>
      rw [lowerPositional, positional, List.filter_nil, List.map_nil, List.append_nil]
      exact bindsIff_ok hgiven given
  | @cons p a params args hp _ ih =>
      obtain ⟨text, unit, value, rfl, hvalue, hname⟩ | ⟨text, unit, name, value, rfl, -, hname⟩ :=
        argument?_cases hp
      · rw [lowerPositional, positional_cons_of_none hname, List.length_cons]
        split
        · exact bindsIff_error (by omega) _ _ _
        · have hrest := ih (given ++ [.given a.location a.value])
            (by rw [List.length_append, List.length_singleton]; omega)
          rw [List.length_append, List.length_singleton, List.append_assoc] at hrest
          rw [hvalue]
          exact hrest.congr (by omega)
      · rw [lowerPositional, positional_cons_of_some hname]
        · exact ih given hgiven
        · intro hrule
          cases hrule
        · intro value hrule
          cases hrule

/-- The slots after one more argument by name. -/
def put (f : Builtin) (positional : Nat) (slots : List Slot) (name : String) (a : Argument) :
    Except Error (List Slot) :=
  match f.slot? name with
  | none => .error ⟨BindingFault.noSuchParameter f name, a.location⟩
  | some k =>
    if (slots.getD k .absent).isGiven then
      .error ⟨if k < positional then BindingFault.givenPositionally f name
        else BindingFault.givenTwice f name, a.location⟩
    else .ok (slots.set k (.given a.location a.value))

/-- An argument with a name goes to the slot of this name. -/
theorem lowerNamed_cons_of_some {p : Tree} {a : Argument} {name : String}
    (hp : p.argument? = some a) (hname : a.name = some name) (n : Nat) (slots : List Slot) :
    lowerNamed f n slots (p :: params)
      = put f n slots name a >>= fun slots => lowerNamed f n slots params := by
  obtain ⟨_, _, _, rfl, -, hnone⟩ | ⟨text, unit, word, value, rfl, hvalue, hword⟩ :=
    argument?_cases hp
  · rw [hnone] at hname
    cases hname
  · cases hname.symm.trans hword
    rw [lowerNamed, put, hvalue]
    cases f.slot? word.text with
    | none => rfl
    | some k =>
        dsimp only
        split <;> rfl

/-- An argument without a name has its slot already. -/
theorem lowerNamed_cons_of_none {p : Tree} {a : Argument} (hp : p.argument? = some a)
    (hname : a.name = none) (n : Nat) (slots : List Slot) :
    lowerNamed f n slots (p :: params) = lowerNamed f n slots params := by
  obtain ⟨_, _, _, rfl, -, -⟩ | ⟨_, _, _, _, -, -, hsome⟩ := argument?_cases hp
  · rw [lowerNamed]
  · rw [hname] at hsome
    cases hsome

/-- An argument by name goes to the slot of its name, if that is there and
    empty. -/
theorem bindsIff_put {a : Argument} {name : String} (hname : a.name = some name)
    (first done : List Argument) :
    BindsIff (Free f first.length name ∧ name ∉ names done) (fill f first (done ++ [a]))
      (put f first.length (fill f first done) name a) := by
  rw [put]
  cases hslot : f.slot? name with
  | none =>
      refine bindsIff_error ?_ _ _ _
      rintro ⟨⟨k, q, hq, hqname, -⟩, -⟩
      rw [Builtin.slot?_eq_some_iff.mpr ⟨q, hq, hqname⟩] at hslot
      cases hslot
  | some k =>
      obtain ⟨q, hq, rfl⟩ := Builtin.slot?_eq_some_iff.mp hslot
      dsimp only
      split
      · rename_i hgiven
        have htaken : ¬ (Free f first.length q.name ∧ q.name ∉ names done) := by
          rintro ⟨hfree, hnew⟩
          have hk := hfree.le hq
          rcases (isGiven_fill hq).mp hgiven with hlt | hmem
          · omega
          · exact hnew hmem
        split <;> exact bindsIff_error htaken _ _ _
      · rename_i hempty
        have hfilled := mt (isGiven_fill hq).mpr hempty
        rw [not_or] at hfilled
        have hk : first.length ≤ k := Nat.le_of_not_lt hfilled.1
        rw [set_fill hq hk hname hfilled.2]
        exact bindsIff_ok ⟨⟨k, q, hq, rfl, hk⟩, hfilled.2⟩ _

/-- Named arguments go to slots of their own.  `done` are those that have
    been put there before. -/
theorem bindsIff_lowerNamed (h : Write params args) (first done : List Argument)
    (hdone : (names done).Nodup) :
    BindsIff ((∀ name ∈ names args, Free f first.length name) ∧ (names (done ++ args)).Nodup)
      (fill f first (done ++ args))
      (lowerNamed f first.length (fill f first done) params) := by
  induction h generalizing done with
  | nil =>
      rw [lowerNamed, List.append_nil]
      exact bindsIff_ok ⟨fun name hmem => absurd hmem List.not_mem_nil, hdone⟩ _
  | @cons p a params args hp _ ih =>
      rw [List.append_cons]
      -- Positional arguments are passed over here, so `done` may have them too.
      cases hname : a.name with
      | none =>
          have hnames : names (done ++ [a]) = names done := by
            rw [names_append, names_cons_of_none hname]
            exact List.append_nil _
          have hfill : fill f first (done ++ [a]) = fill f first done := fill_concat_of_none hname
          rw [lowerNamed_cons_of_none hp hname, names_cons_of_none hname, ← hfill]
          exact ih (done ++ [a]) (hnames ▸ hdone)
      | some name =>
          have hnames : names (done ++ [a]) = names done ++ [name] := by
            rw [names_append, names_cons_of_some hname]
            rfl
          rw [lowerNamed_cons_of_some hp hname, names_cons_of_some hname, List.forall_mem_cons]
          have hnodup : name ∉ names done ↔ (names (done ++ [a])).Nodup := by
            rw [hnames, List.nodup_append_comm, List.singleton_append, List.nodup_cons]
            exact ⟨fun hnew => ⟨hnew, hdone⟩, And.left⟩
          refine ((bindsIff_put hname first done).bind fun hput =>
            ih (done ++ [a]) (hnodup.mp hput.2)).congr ?_
          constructor
          · rintro ⟨⟨hfree, -⟩, hfrees, hall⟩
            exact ⟨⟨hfree, hfrees⟩, hall⟩
          · rintro ⟨⟨hfree, hfrees⟩, hall⟩
            have hfront := hall
            rw [names_append, List.nodup_append] at hfront
            exact ⟨⟨hfree, hnodup.mpr hfront.1⟩, hfrees, hall⟩

/-! ## Calls -/

/-- The tree of a call. -/
def callNode (l m : Location) (name : Tree) (params : List Tree) : Tree :=
  node .call l [name, node .params m params]

/-- A call is lowered exactly if its arguments fit. -/
theorem bindsIff_lowerExpr {name : Tree} (hf : Builtin.ofName? name.text = some f)
    (h : Write params args) (l m : Location) :
    BindsIff (Fits f args) (.call l f (Argument.slots f args))
      (callNode l m name params).lowerExpr := by
  have hpositional := bindsIff_lowerPositional (f := f) h [] (Nat.zero_le _)
  have hnamed := bindsIff_lowerNamed (f := f) h (positional args) [] List.nodup_nil
  rw [List.length_nil, Nat.zero_add, List.nil_append] at hpositional
  rw [List.nil_append] at hnamed
  rw [callNode, node, node, lowerExpr, hf]
  have hfits : (positional args).length ≤ f.params.length
        ∧ ((∀ name ∈ names args, Free f (positional args).length name) ∧ (names args).Nodup)
        ∧ (∀ k p, f.params[k]? = some p → p.required = true →
            k < (positional args).length ∨ p.name ∈ names args)
      ↔ Fits f args := by
    constructor
    · rintro ⟨hroom, ⟨hfree, honce⟩, henough⟩
      exact ⟨hroom, hfree, honce, henough⟩
    · intro h
      exact ⟨h.room, ⟨h.free, h.once⟩, h.enough⟩
  refine (hpositional.bind fun hroom => ?_).congr hfits
  rw [List.length_map, positionalSlots_eq hroom]
  refine hnamed.bind fun _ => ?_
  cases hmissing : missing? f (fill f (positional args) args) with
  | none => exact bindsIff_ok (missing?_fill.mp hmissing) _
  | some param =>
      refine bindsIff_error (fun henough => ?_) _ _ _
      rw [missing?_fill.mpr henough] at hmissing
      cases hmissing

/-- The parameters that go by their place. -/
def positionalParams (params : List Tree) : List Tree :=
  params.filter (·.rule = .positionalParam)

/-- Arguments without names are those of the positional parameters. -/
theorem positional_arguments (h : Write params args) :
    positional args = arguments (positionalParams params) := by
  induction h with
  | nil => rfl
  | @cons p a params args hp _ ih =>
      obtain ⟨_, _, _, rfl, -, hname⟩ | ⟨_, _, _, _, rfl, -, hname⟩ := argument?_cases hp
      · rw [positional_cons_of_none hname, ih, positionalParams, positionalParams,
          List.filter_cons_of_pos rfl, arguments, arguments, List.filterMap_cons_some hp]
      · rw [positional_cons_of_some hname, ih, positionalParams, positionalParams,
          List.filter_cons_of_neg (of_decide_eq_false rfl)]

/-- The parameters of a call by the grammar, once their expressions are
    lowered. -/
theorem write_of_derives {ts : List Token} (h : Parsing.Derives .arguments ts params)
    (hvalues : ∀ p ∈ params, ∀ value, p.children.getLast? = some value →
      ∃ e, value.lowerExpr = .ok e) : Write params (arguments params) := by
  apply write_arguments
  intro p hp
  have hshape : ParamLowers p := h.lowers p hp
  cases hshape with
  | @positional l value _ =>
      obtain ⟨e, he⟩ := hvalues _ hp value rfl
      exact ⟨⟨none, l, e⟩, by rw [node, argument?, he]⟩
  | @named l name value _ =>
      obtain ⟨e, he⟩ := hvalues _ hp value rfl
      exact ⟨⟨some name.text, l, e⟩, by rw [node, argument?, he]⟩

/-- **Arguments are bound exactly, and by their names wherever they stand.**
    A call whose expressions are lowered is lowered if its arguments fit the
    function, with the slots of `Argument.slots`, and refused for its
    arguments if they do not.  Moving named arguments around changes neither,
    as long as positional ones keep their order. -/
theorem binding_exact {ts : List Token} (h : Parsing.Derives .arguments ts params)
    (hvalues : ∀ p ∈ params, ∀ value, p.children.getLast? = some value →
      ∃ e, value.lowerExpr = .ok e)
    {name : Tree} (hf : Builtin.ofName? name.text = some f) (l m : Location) :
    Write params (arguments params)
      ∧ BindsIff (Fits f (arguments params)) (.call l f (Argument.slots f (arguments params)))
          (callNode l m name params).lowerExpr
      ∧ ∀ params', params'.Perm params → positionalParams params' = positionalParams params →
          (∃ e, (callNode l m name params').lowerExpr = .ok e
              ∧ (callNode l m name params).lowerExpr = .ok e)
            ∨ Misbound (callNode l m name params').lowerExpr
              ∧ Misbound (callNode l m name params).lowerExpr := by
  have hwrite := write_of_derives h hvalues
  have hbinds := bindsIff_lowerExpr hf hwrite l m
  refine ⟨hwrite, hbinds, ?_⟩
  intro params' hperm hpositional
  have hwrite' : Write params' (arguments params') := by
    apply write_arguments
    intro p hp
    exact hwrite.exists_argument (hperm.mem_iff.mp hp)
  have hbinds' := bindsIff_lowerExpr hf hwrite' l m
  have hargs : (arguments params').Perm (arguments params) := hperm.filterMap _
  have hsame : positional (arguments params') = positional (arguments params) := by
    rw [positional_arguments hwrite', positional_arguments hwrite, hpositional]
  by_cases hfits : Fits f (arguments params)
  · refine .inl ⟨_, ?_, hbinds.1 hfits⟩
    rw [hbinds'.1 (hfits.of_perm hargs hsame), slots_of_perm hargs hsame hfits.once]
  · refine .inr ⟨hbinds'.2 fun hfits' => hfits ?_, hbinds.2 hfits⟩
    exact hfits'.of_perm hargs.symm hsame.symm

/-- A name as a token. -/
def nameAt (text : String) (column : Nat) : Token := ⟨.identifier text, ⟨1, column⟩⟩

open Parsing in
theorem derives_name (text : String) (column : Nat) :
    Derives .math [nameAt text column] [leaf .identifier (nameAt text column)] :=
  .loneTerm (.firstTerm (.loneFactor (.firstFactor (.powerUnary (.primaryPower (.loneAtom
    (.name ⟨text, rfl⟩)))))))

open Parsing in
theorem derives_namedParam (name value : String) (i j k : Nat) :
    Derives .param [nameAt name i, ⟨.symbol .assign, ⟨1, j⟩⟩, nameAt value k]
      [node .namedParam ⟨1, i⟩
        [leaf .identifier (nameAt name i), leaf .identifier (nameAt value k)]] :=
  .namedParam ⟨name, rfl⟩ rfl (.mathExpr (derives_name value k))

/-- The parameters of `drill(depth = d, a, y = b)`. -/
def scattered : List Tree :=
  [node .namedParam ⟨1, 7⟩ [leaf .identifier (nameAt "depth" 7), leaf .identifier (nameAt "d" 15)],
    node .positionalParam ⟨1, 18⟩ [leaf .identifier (nameAt "a" 18)],
    node .namedParam ⟨1, 21⟩ [leaf .identifier (nameAt "y" 21), leaf .identifier (nameAt "b" 25)]]

/-- The same with the first two exchanged. -/
def gathered : List Tree :=
  [node .positionalParam ⟨1, 18⟩ [leaf .identifier (nameAt "a" 18)],
    node .namedParam ⟨1, 7⟩ [leaf .identifier (nameAt "depth" 7), leaf .identifier (nameAt "d" 15)],
    node .namedParam ⟨1, 21⟩ [leaf .identifier (nameAt "y" 21), leaf .identifier (nameAt "b" 25)]]

/-- A call of `drill` at the start of a line. -/
def drillWith (params : List Tree) : Tree :=
  callNode ⟨1, 1⟩ ⟨1, 6⟩ (leaf .identifier (nameAt "drill" 1)) params

theorem binding_exact_scattered :
    Fits .drill (arguments scattered)
      ∧ (drillWith gathered).lowerExpr
        = .ok (.call ⟨1, 1⟩ .drill
            [.given ⟨1, 18⟩ (.identifier ⟨1, 18⟩ "a"), .given ⟨1, 21⟩ (.identifier ⟨1, 25⟩ "b"),
              .given ⟨1, 7⟩ (.identifier ⟨1, 15⟩ "d"), .absent]) := by
  have hcomma (k : Nat) : Parsing.IsSymbol ⟨.symbol .comma, ⟨1, k⟩⟩ .comma := rfl
  have hderives : Parsing.Derives .arguments
      [nameAt "depth" 7, ⟨.symbol .assign, ⟨1, 13⟩⟩, nameAt "d" 15, ⟨.symbol .comma, ⟨1, 16⟩⟩,
        nameAt "a" 18, ⟨.symbol .comma, ⟨1, 19⟩⟩, nameAt "y" 21, ⟨.symbol .assign, ⟨1, 23⟩⟩,
        nameAt "b" 25] scattered :=
    .someArguments (.moreParams
      (.moreParams (.firstParam (derives_namedParam "depth" "d" 7 13 15)) (hcomma 16)
        (.positionalParam (derives_name "a" 18)))
      (hcomma 19) (derives_namedParam "y" "b" 21 23 25))
  have hvalues : ∀ p ∈ scattered, ∀ value, p.children.getLast? = some value →
      ∃ e, value.lowerExpr = .ok e := by
    intro p hp value hvalue
    simp only [scattered, List.mem_cons, List.not_mem_nil, or_false] at hp
    rcases hp with rfl | rfl | rfl
    all_goals
      cases hvalue
      exact ⟨_, rfl⟩
  have hdrill : Builtin.ofName? (leaf .identifier (nameAt "drill" 1)).text = some .drill := by
    decide
  obtain ⟨-, hbinds, hmoved⟩ := binding_exact hderives hvalues hdrill ⟨1, 1⟩ ⟨1, 6⟩
  have hlower : (drillWith scattered).lowerExpr
      = .ok (.call ⟨1, 1⟩ .drill
          [.given ⟨1, 18⟩ (.identifier ⟨1, 18⟩ "a"), .given ⟨1, 21⟩ (.identifier ⟨1, 25⟩ "b"),
            .given ⟨1, 7⟩ (.identifier ⟨1, 15⟩ "d"), .absent]) := rfl
  have hbound : ¬ Misbound (drillWith scattered).lowerExpr := by
    rintro ⟨fault, l, herror⟩
    rw [hlower] at herror
    cases herror
  refine ⟨Classical.byContradiction fun hfits => hbound (hbinds.2 hfits), ?_⟩
  rcases hmoved gathered (.swap _ _ _) rfl with ⟨e, hgathered, hscattered⟩ | ⟨-, hrefused⟩
  · exact hgathered.trans (hscattered.symm.trans hlower)
  · exact absurd hrefused hbound

end Tree

end MillScript
