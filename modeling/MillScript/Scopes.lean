import MillScript.Value

/-! # Scopes

    Frames of variables, one inside the other.  They lie in one arena in the
    order in which they were entered, and each points at the frame around it.
    A name is looked up from the innermost frame outwards along these links
    and always bound in the innermost one; the outermost frame cannot be
    left. -/

namespace MillScript

/-- Variables with their values; each name stands once. -/
abbrev Bindings := List (String × Value)

namespace Bindings

/-- Gives a name a value, in place of the one it had. -/
def bind (name : String) (value : Value) : Bindings → Bindings
  | [] => [(name, value)]
  | (n, v) :: rest => if n = name then (n, value) :: rest else (n, v) :: bind name value rest

theorem lookup_bind_self (name : String) (value : Value) (b : Bindings) :
    (b.bind name value).lookup name = some value := by
  induction b with
  | nil => simp [bind]
  | cons entry rest ih =>
    obtain ⟨n, v⟩ := entry
    by_cases h : n = name
    · subst h
      simp [bind]
    · have hne : (name == n) = false := by simp [Ne.symm h]
      rw [bind, if_neg h, List.lookup_cons, hne]
      exact ih

theorem lookup_bind_of_ne {name other : String} (h : other ≠ name) (value : Value)
    (b : Bindings) : (b.bind name value).lookup other = b.lookup other := by
  induction b with
  | nil =>
    have hne : (other == name) = false := by simp [h]
    rw [bind, List.lookup_cons, hne]
  | cons entry rest ih =>
    obtain ⟨n, v⟩ := entry
    by_cases hn : n = name
    · subst hn
      have hne : (other == n) = false := by simp [h]
      rw [bind, if_pos rfl, List.lookup_cons, List.lookup_cons, hne]
    · rw [bind, if_neg hn, List.lookup_cons, List.lookup_cons, ih]

end Bindings

/-- A frame: its variables, and the place in the arena of the frame around
    it. -/
structure Frame where
  vars : Bindings := []
  parent : Option Nat := none

namespace Frame

/-- The link of the frame at a place: to the one entered before it, and
    nowhere from the outermost. -/
def link : Nat → Option Nat
  | 0 => none
  | k + 1 => some k

theorem lt_of_link {k p : Nat} (h : link k = some p) : p < k := by
  cases k with
  | zero => cases h
  | succ k => exact Option.some.inj h ▸ Nat.lt_succ_self k

end Frame

/-- The frames, the outermost first; there is always one. -/
structure Scopes where
  frames : Array Frame := #[{}]
  nonempty : 0 < frames.size := by decide
  linked : ∀ k (h : k < frames.size), frames[k].parent = Frame.link k := by decide

namespace Scopes

/-- The number of frames. -/
def depth (s : Scopes) : Nat := s.frames.size

/-- The place of the innermost frame. -/
def top (s : Scopes) : Nat := s.frames.size - 1

theorem top_lt (s : Scopes) : s.top < s.frames.size := Nat.sub_one_lt_of_lt s.nonempty

/-- The innermost frame. -/
def inner (s : Scopes) : Frame :=
  have := s.top_lt
  s.frames[s.top]

/-- Enters a fresh frame, linked to the one that was innermost. -/
def push (s : Scopes) : Scopes where
  frames := s.frames.push { parent := some s.top }
  nonempty := by
    rw [Array.size_push]
    exact Nat.succ_pos _
  linked := by
    intro k hk
    rw [Array.getElem_push]
    split
    · exact s.linked k _
    · rw [Array.size_push] at hk
      have hnonempty := s.nonempty
      have hlast : k = s.top + 1 := by
        unfold top
        omega
      rw [hlast]
      rfl

/-- The frames around the innermost one. -/
def outer (s : Scopes) : Array Frame := s.frames.pop

theorem lt_of_lt_outer (s : Scopes) {k : Nat} (hk : k < s.outer.size) : k < s.frames.size := by
  rw [outer, Array.size_pop] at hk
  omega

theorem getElem_outer (s : Scopes) {k : Nat} (hk : k < s.outer.size) (hk' : k < s.frames.size) :
    s.outer[k] = s.frames[k] := Array.getElem_pop hk

theorem outer_linked (s : Scopes) (k : Nat) (hk : k < s.outer.size) :
    s.outer[k].parent = Frame.link k := by
  rw [s.getElem_outer hk (s.lt_of_lt_outer hk)]
  exact s.linked k _

/-- Leaves the innermost frame, unless it is the outermost. -/
def pop? (s : Scopes) : Option Scopes :=
  if h : 0 < s.outer.size then some ⟨s.outer, h, s.outer_linked⟩ else none

/-- Gives a name a value in the innermost frame. -/
def bind (s : Scopes) (name : String) (value : Value) : Scopes where
  frames := s.frames.set s.top { s.inner with vars := s.inner.vars.bind name value } s.top_lt
  nonempty := by
    rw [Array.size_set]
    exact s.nonempty
  linked := by
    intro k hk
    rw [Array.getElem_set]
    split
    · rename_i htop
      subst htop
      exact s.linked s.top s.top_lt
    · exact s.linked k _

/-- The value of a name in the frame at a place, or else in the nearest one
    around it that has it. -/
def lookupFrom (s : Scopes) (name : String) (k : Nat) (hk : k < s.frames.size) : Option Value :=
  match s.frames[k].vars.lookup name with
  | some v => some v
  | none =>
    match hparent : s.frames[k].parent with
    | none => none
    | some p =>
      have hlink : p < k := Frame.lt_of_link (s.linked k hk ▸ hparent)
      s.lookupFrom name p (Nat.lt_trans hlink hk)
termination_by k

/-- The value of a name in the nearest frame that has it. -/
def lookup (s : Scopes) (name : String) : Option Value := s.lookupFrom name s.top s.top_lt

/-! ## What the operations do to each other -/

@[ext] theorem ext {s t : Scopes} (h : s.frames = t.frames) : s = t := by
  cases s
  cases t
  cases h
  rfl

theorem outer_push (s : Scopes) : s.push.outer = s.frames := Array.pop_push

theorem inner_push (s : Scopes) : s.push.inner = { parent := some s.top } := by
  simp [inner, push, top]

theorem outer_bind (s : Scopes) (name : String) (value : Value) :
    (s.bind name value).outer = s.outer := by
  refine Array.ext ?_ ?_
  · simp [outer, bind]
  · intro k hk hk'
    have hlt : k < s.frames.size - 1 := Array.size_pop ▸ hk'
    have hne : ¬ s.top = k := by
      unfold top
      omega
    simp only [outer, bind, Array.getElem_pop, Array.getElem_set, if_neg hne]

theorem inner_bind (s : Scopes) (name : String) (value : Value) :
    (s.bind name value).inner = { s.inner with vars := s.inner.vars.bind name value } := by
  simp [inner, bind, top]

/-- Scopes that differ in the innermost frame only are left alike. -/
theorem pop?_congr {s t : Scopes} (h : s.outer = t.outer) : s.pop? = t.pop? := by
  unfold pop?
  simp only [h]

theorem pop?_eq_some {s t : Scopes} (h : s.outer = t.frames) : s.pop? = some t := by
  have hsize : 0 < s.outer.size := h ▸ t.nonempty
  rw [pop?, dif_pos hsize]
  exact congrArg some (ext h)

@[simp] theorem pop?_push (s : Scopes) : s.push.pop? = some s := pop?_eq_some s.outer_push

theorem lookupFrom_zero (s : Scopes) (name : String) (h : 0 < s.frames.size) :
    s.lookupFrom name 0 h = s.frames[0].vars.lookup name := by
  rw [lookupFrom]
  cases s.frames[0].vars.lookup name with
  | some v => rfl
  | none =>
    dsimp only
    split
    · rfl
    · rename_i hparent
      rw [s.linked 0 h] at hparent
      cases hparent

theorem lookupFrom_succ (s : Scopes) (name : String) {k : Nat} (h : k + 1 < s.frames.size) :
    s.lookupFrom name (k + 1) h
      = (s.frames[k + 1].vars.lookup name).or (s.lookupFrom name k (Nat.lt_of_succ_lt h)) := by
  rw [lookupFrom]
  cases s.frames[k + 1].vars.lookup name with
  | some v => rfl
  | none =>
    dsimp only
    split
    · rename_i hparent
      rw [s.linked (k + 1) h] at hparent
      cases hparent
    · rename_i p hparent
      rw [s.linked (k + 1) h] at hparent
      obtain rfl := Option.some.inj hparent
      rfl

/-- What a name stands for at a place hangs on the frames up to it only. -/
theorem lookupFrom_congr {s t : Scopes} (name : String) {k : Nat} (hs : k < s.frames.size)
    (ht : k < t.frames.size)
    (h : ∀ j (hj : j ≤ k), s.frames[j].vars = t.frames[j].vars) :
    s.lookupFrom name k hs = t.lookupFrom name k ht := by
  induction k with
  | zero => rw [lookupFrom_zero, lookupFrom_zero, h 0 (Nat.le_refl 0)]
  | succ k ih =>
    rw [lookupFrom_succ, lookupFrom_succ, h (k + 1) (Nat.le_refl _),
      ih _ _ fun j hj => h j (Nat.le_succ_of_le hj)]

/-- A name that the innermost frame does not have stands for what it stood
    for outside. -/
theorem lookup_eq (s : Scopes) (name : String) :
    s.lookup name = (s.inner.vars.lookup name).or (s.pop?.bind fun t => t.lookup name) := by
  have hsize : s.outer.size = s.top := Array.size_pop
  -- the innermost frame is the outermost or has one around it
  have htop : ∀ k (hk : k < s.frames.size), k = s.top →
      s.lookupFrom name k hk
        = (s.frames[k].vars.lookup name).or (s.pop?.bind fun t => t.lookup name) := by
    intro k hk hktop
    cases k with
    | zero => rw [lookupFrom_zero, pop?, dif_neg (by omega), Option.bind_none, Option.or_none]
    | succ k =>
      have houter : 0 < s.outer.size := by omega
      rw [lookupFrom_succ, pop?, dif_pos houter, Option.bind_some]
      have hinner : (Scopes.mk s.outer houter s.outer_linked).top = k := by
        show s.outer.size - 1 = k
        omega
      unfold lookup
      simp only [hinner]
      refine congrArg _ (lookupFrom_congr name _ _ fun j hj => ?_)
      rw [s.getElem_outer]
  exact htop s.top s.top_lt rfl

@[simp] theorem lookup_push (s : Scopes) (name : String) : s.push.lookup name = s.lookup name := by
  rw [lookup_eq, inner_push, pop?_push]
  rfl

theorem lookup_bind_self (s : Scopes) (name : String) (value : Value) :
    (s.bind name value).lookup name = some value := by
  rw [lookup_eq, inner_bind, Bindings.lookup_bind_self, Option.some_or]

theorem lookup_bind_of_ne (s : Scopes) {name other : String} (h : other ≠ name) (value : Value) :
    (s.bind name value).lookup other = s.lookup other := by
  rw [lookup_eq, inner_bind, Bindings.lookup_bind_of_ne h,
    pop?_congr (s.outer_bind name value), ← lookup_eq]

end Scopes

end MillScript
