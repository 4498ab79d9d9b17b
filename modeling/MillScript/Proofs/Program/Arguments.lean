import Mathlib.Data.List.Nodup
import Mathlib.Data.List.Perm.Basic
import MillScript.Program.Lower

/-! # Arguments and parameters

    Arguments of a call are positional or named.  `Argument.Fits` and
    `Argument.slots` say when they fit a function and what each of its
    parameters then gets, from the list of arguments as a whole.  Named
    arguments are only looked up by name, so it does not matter where they
    stand. -/

namespace MillScript

/-! ## What is written -/

/-- An argument of a call, with the name of its parameter if that is
    written. -/
structure Argument where
  name : Option String
  location : Location
  value : Expr

/-- What a parameter gets from the argument for it, if there is one. -/
def Slot.ofArgument? : Option Argument → Slot
  | some a => .given a.location a.value
  | none => .absent

@[simp] theorem Slot.isGiven_ofArgument? (a : Option Argument) :
    (ofArgument? a).isGiven = a.isSome := by
  cases a <;> rfl

namespace Argument

/-- The arguments that go by their place among the others. -/
def positional (args : List Argument) : List Argument := args.filter (·.name.isNone)

/-- The names that are written. -/
def names (args : List Argument) : List String := args.filterMap (·.name)

/-- The argument that is given by a name. -/
def called (args : List Argument) (name : String) : Option Argument :=
  args.find? (·.name == some name)

/-- Slots for a function from arguments in declared order and arguments by
    name. -/
def fill (f : Builtin) (first named : List Argument) : List Slot :=
  f.params.mapIdx fun k p => Slot.ofArgument? (first[k]?.or (called named p.name))

/-- The slots of a call: the `k`-th positional argument goes to the `k`-th
    parameter, and a parameter after those gets the argument of its name. -/
def slots (f : Builtin) (args : List Argument) : List Slot := fill f (positional args) args

/-- A parameter of a name that is not among the first `n`. -/
def Free (f : Builtin) (n : Nat) (name : String) : Prop :=
  ∃ k p, f.params[k]? = some p ∧ p.name = name ∧ n ≤ k

/-- Arguments that a function can be called with. -/
structure Fits (f : Builtin) (args : List Argument) : Prop where
  room : (positional args).length ≤ f.params.length
  free : ∀ name ∈ names args, Free f (positional args).length name
  once : (names args).Nodup
  enough : ∀ k p, f.params[k]? = some p → p.required = true →
    k < (positional args).length ∨ p.name ∈ names args

end Argument

/-! ## Names of parameters -/

namespace Builtin

/-- No function has two parameters of one name. -/
theorem nodup_params (f : Builtin) : (f.params.map Param.name).Nodup := by
  cases f <;> decide

/-- Each name stands for one parameter. -/
theorem params_inj {f : Builtin} {j k : Nat} {p q : Param} (hp : f.params[j]? = some p)
    (hq : f.params[k]? = some q) (h : p.name = q.name) : j = k := by
  have hj : j < (f.params.map Param.name).length := by
    rw [List.length_map]
    exact (List.getElem?_eq_some_iff.mp hp).1
  refine (List.getElem?_inj hj f.nodup_params).mp ?_
  rw [List.getElem?_map, List.getElem?_map, hp, hq, Option.map_some, Option.map_some, h]

/-- A parameter is found by its name at its place, and nothing else is. -/
theorem slot?_eq_some_iff {f : Builtin} {name : String} {k : Nat} :
    f.slot? name = some k ↔ ∃ p, f.params[k]? = some p ∧ p.name = name := by
  rw [slot?, List.findIdx?_eq_some_iff_getElem]
  constructor
  · rintro ⟨hk, hname, -⟩
    exact ⟨f.params[k], List.getElem?_eq_getElem hk, beq_iff_eq.mp hname⟩
  · rintro ⟨p, hp, rfl⟩
    obtain ⟨hk, hget⟩ := List.getElem?_eq_some_iff.mp hp
    refine ⟨hk, by rw [hget, beq_self_eq_true], ?_⟩
    intro j hj hname
    have hlt : j < f.params.length := Nat.lt_trans hj hk
    have hjk := params_inj (List.getElem?_eq_getElem hlt) hp (beq_iff_eq.mp hname)
    omega

end Builtin

/-! ## Slots -/

namespace Argument

variable {f : Builtin} {first named args : List Argument} {k : Nat} {p : Param} {a : Argument}
  {name : String}

/-- Arguments without a name go by position. -/
theorem positional_cons_of_none (h : a.name = none) :
    positional (a :: args) = a :: positional args :=
  List.filter_cons_of_pos (Option.isNone_iff_eq_none.mpr h)

theorem positional_cons_of_some (h : a.name = some name) :
    positional (a :: args) = positional args :=
  List.filter_cons_of_neg fun hnone => by
    rw [Option.isNone_iff_eq_none, h] at hnone
    cases hnone

theorem names_cons_of_none (h : a.name = none) : names (a :: args) = names args :=
  List.filterMap_cons_none h

theorem names_cons_of_some (h : a.name = some name) : names (a :: args) = name :: names args :=
  List.filterMap_cons_some h

theorem names_append (args args' : List Argument) :
    names (args ++ args') = names args ++ names args' :=
  List.filterMap_append

/-- The slot of a free parameter is not one of the first. -/
theorem Free.le {n : Nat} (h : Free f n p.name) (hp : f.params[k]? = some p) : n ≤ k := by
  obtain ⟨j, q, hq, hname, hj⟩ := h
  rw [← Builtin.params_inj hq hp hname]
  exact hj

/-- A parameter gets the argument at its position or else the one of its
    name. -/
theorem getElem?_fill (f : Builtin) (first named : List Argument) (k : Nat) :
    (fill f first named)[k]?
      = f.params[k]?.map fun p => Slot.ofArgument? (first[k]?.or (called named p.name)) := by
  rw [fill, List.getElem?_mapIdx]

/-- There is a slot for every parameter. -/
theorem length_fill (f : Builtin) (first named : List Argument) :
    (fill f first named).length = f.params.length := by
  rw [fill, List.length_mapIdx]

/-- A name is called just if an argument has it. -/
theorem isSome_called (args : List Argument) (name : String) :
    (called args name).isSome = true ↔ name ∈ names args := by
  rw [called, List.find?_isSome, names, List.mem_filterMap]
  constructor
  · rintro ⟨a, ha, hname⟩
    exact ⟨a, ha, beq_iff_eq.mp hname⟩
  · rintro ⟨a, ha, hname⟩
    exact ⟨a, ha, beq_iff_eq.mpr hname⟩

/-- A slot is filled by position or by name. -/
theorem isGiven_fill (hp : f.params[k]? = some p) :
    ((fill f first named).getD k .absent).isGiven = true
      ↔ k < first.length ∨ p.name ∈ names named := by
  rw [List.getD_eq_getElem?_getD, getElem?_fill, hp, Option.map_some, Option.getD_some,
    Slot.isGiven_ofArgument?, Option.isSome_or, Bool.or_eq_true, isSome_called, isSome_getElem?]

theorem called_concat_of_ne (h : a.name ≠ some name) :
    called (named ++ [a]) name = called named name := by
  rw [called, List.find?_append, List.find?_singleton, if_neg (mt beq_iff_eq.mp h), Option.or_none,
    called]

/-- A name that is new is called by the argument that brings it. -/
theorem called_concat_self (hname : a.name = some name) (h : name ∉ names named) :
    called (named ++ [a]) name = some a := by
  have hnone : named.find? (·.name == some name) = none := by
    rw [← Option.not_isSome_iff_eq_none]
    exact mt (isSome_called named name).mp h
  rw [called, List.find?_append, hnone, List.find?_singleton, if_pos (beq_iff_eq.mpr hname),
    Option.none_or]

/-- An argument that is put into the slot of its name is one more that is
    given by name. -/
theorem set_fill (hp : f.params[k]? = some p) (hk : first.length ≤ k)
    (ha : a.name = some p.name) (hnew : p.name ∉ names named) :
    (fill f first named).set k (.given a.location a.value) = fill f first (named ++ [a]) := by
  apply List.ext_getElem?
  intro j
  rw [List.getElem?_set, getElem?_fill, getElem?_fill, length_fill]
  by_cases hj : k = j
  · subst hj
    have hlt := (List.getElem?_eq_some_iff.mp hp).1
    rw [if_pos rfl, if_pos hlt, hp, Option.map_some, List.getElem?_eq_none hk, Option.none_or,
      called_concat_self ha hnew, Slot.ofArgument?]
  -- Another parameter has another name, so nothing is found for it that was not before.
  · rw [if_neg hj]
    cases hq : f.params[j]? with
    | none => rfl
    | some q =>
        have hne : a.name ≠ some q.name := by
          rw [ha]
          intro hname
          exact hj (Builtin.params_inj hp hq (Option.some.inj hname))
        rw [Option.map_some, Option.map_some, called_concat_of_ne hne]

/-- What is given by position is not looked up. -/
theorem fill_concat_of_none (h : a.name = none) :
    fill f first (named ++ [a]) = fill f first named := by
  have hcalled (p : Param) : called (named ++ [a]) p.name = called named p.name :=
    called_concat_of_ne (by rw [h]; exact Option.some_ne_none _ |>.symm)
  simp only [fill, hcalled]

/-- Before the named arguments, only the first slots are filled. -/
theorem positionalSlots_eq (h : first.length ≤ f.params.length) :
    Tree.positionalSlots f (first.map fun a => .given a.location a.value) = fill f first [] := by
  apply List.ext_getElem?
  intro j
  rw [Tree.positionalSlots, getElem?_fill, List.length_map, List.getElem?_append, List.length_map,
    List.getElem?_replicate, List.getElem?_map]
  by_cases hj : j < first.length
  · have hlt : j < f.params.length := by omega
    rw [if_pos hj, List.getElem?_eq_getElem hj, List.getElem?_eq_getElem hlt]
    rfl
  · rw [if_neg hj, List.getElem?_eq_none (Nat.le_of_not_lt hj)]
    by_cases hlt : j < f.params.length
    · rw [if_pos (by omega), List.getElem?_eq_getElem hlt]
      rfl
    · rw [if_neg (by omega), List.getElem?_eq_none (Nat.le_of_not_lt hlt)]
      rfl

/-- Nothing is missing just if every required parameter has an argument by
    position or name. -/
theorem missing?_fill :
    Tree.missing? f (fill f first named) = none
      ↔ ∀ k p, f.params[k]? = some p → p.required = true →
          k < first.length ∨ p.name ∈ names named := by
  rw [Tree.missing?, Option.map_eq_none_iff, List.find?_eq_none]
  constructor
  · intro h k p hp hrequired
    have hslot : (fill f first named)[k]?
        = some (Slot.ofArgument? (first[k]?.or (called named p.name))) := by
      rw [getElem?_fill, hp, Option.map_some]
    have hmem : (p, Slot.ofArgument? (first[k]?.or (called named p.name)))
        ∈ f.params.zip (fill f first named) :=
      List.mem_of_getElem? (List.getElem?_zip_eq_some.mpr ⟨hp, hslot⟩)
    rw [← isGiven_fill hp, List.getD_eq_getElem?_getD, hslot, Option.getD_some]
    have hgiven := h _ hmem
    generalize Slot.ofArgument? _ = s at hgiven ⊢
    simpa [hrequired] using hgiven
  · rintro h ⟨p, s⟩ hmem
    obtain ⟨k, hk⟩ := List.mem_iff_getElem?.mp hmem
    obtain ⟨hp, hslot⟩ := List.getElem?_zip_eq_some.mp hk
    have hgiven : p.required = true → s.isGiven = true := by
      intro hrequired
      have hfilled : ((fill f first named).getD k .absent).isGiven = true :=
        (isGiven_fill hp).mpr (h k p hp hrequired)
      rwa [List.getD_eq_getElem?_getD, hslot, Option.getD_some] at hfilled
    simpa using hgiven

end Argument

/-! ## Arguments in another order -/

namespace Argument

variable {f : Builtin} {args args' : List Argument}

/-- A name that is given once stands for one argument. -/
theorem eq_of_name {name : String} (h : (names args).Nodup) {a b : Argument} (ha : a ∈ args)
    (hb : b ∈ args) (hname : a.name = some name) (hname' : b.name = some name) : a = b := by
  have hapart := List.pairwise_filterMap.mp h
  induction hapart with
  | nil => cases ha
  | cons hhead htail ih =>
      rcases List.mem_cons.mp ha with rfl | ha'
      · rcases List.mem_cons.mp hb with rfl | hb'
        · rfl
        · exact absurd rfl (hhead b hb' name hname name hname')
      · rcases List.mem_cons.mp hb with rfl | hb'
        · exact absurd rfl (hhead a ha' name hname' name hname)
        · exact ih (List.pairwise_filterMap.mpr htail) ha' hb'

/-- What is called by a name is an argument of this name. -/
theorem mem_of_called {name : String} {a : Argument} (h : called args name = some a) :
    a ∈ args ∧ a.name = some name := by
  have hname : (a.name == some name) = true :=
    List.find?_some (p := fun b : Argument => b.name == some name) h
  exact ⟨List.mem_of_find?_eq_some h, beq_iff_eq.mp hname⟩

/-- If no name is there twice, a name calls just its argument. -/
theorem called_eq_some_iff (h : (names args).Nodup) {name : String} {a : Argument} :
    called args name = some a ↔ a ∈ args ∧ a.name = some name := by
  refine ⟨mem_of_called, ?_⟩
  rintro ⟨ha, hname⟩
  have hmem : name ∈ names args := List.mem_filterMap.mpr ⟨a, ha, hname⟩
  obtain ⟨b, hb⟩ := Option.isSome_iff_exists.mp ((isSome_called args name).mpr hmem)
  obtain ⟨hbmem, hbname⟩ := mem_of_called hb
  rw [hb, eq_of_name h hbmem ha hbname hname]

/-- The order of arguments with names does not matter, if no name is there
    twice. -/
theorem called_of_perm (hperm : args'.Perm args) (h : (names args).Nodup) (name : String) :
    called args' name = called args name := by
  have h' : (names args').Nodup := (hperm.filterMap _).nodup_iff.mpr h
  apply Option.ext
  intro a
  rw [called_eq_some_iff h, called_eq_some_iff h', hperm.mem_iff]

/-- Arguments that fit do so in every order that keeps those by position in
    theirs. -/
theorem Fits.of_perm (hperm : args'.Perm args) (hpositional : positional args' = positional args)
    (h : Fits f args) : Fits f args' := by
  have hnames : (names args').Perm (names args) := hperm.filterMap _
  refine ⟨?_, ?_, ?_, ?_⟩
  · rw [hpositional]
    exact h.room
  · rw [hpositional]
    intro name hname
    exact h.free name (hnames.mem_iff.mp hname)
  · exact hnames.nodup_iff.mpr h.once
  · rw [hpositional]
    intro k p hp hrequired
    rw [hnames.mem_iff]
    exact h.enough k p hp hrequired

/-- Slots do not depend on where named arguments stand. -/
theorem slots_of_perm (hperm : args'.Perm args) (hpositional : positional args' = positional args)
    (h : (names args).Nodup) : slots f args' = slots f args := by
  simp only [slots, fill, hpositional, called_of_perm hperm h]

end Argument

end MillScript
