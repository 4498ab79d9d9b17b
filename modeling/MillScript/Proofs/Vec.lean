import MillScript.Vec

/-! # Equality of coordinates

    Machines compare numbers as numbers: the two zeros are equal and what is
    not a number equals nothing.  On real numbers this is an equivalence. -/

namespace MillScript

section

open Float.Model

/-- Finite numbers compare equal just if they are the same. -/
theorem compare_finite {s t : UnpackedFloat.Sign} {m m' : Nat} {e e' : Int} {hm : 0 < m}
    {hm' : 0 < m'} :
    (UnpackedFloat.finite s m e hm).compare (.finite t m' e' hm') = some .eq
      ↔ s = t ∧ m = m' ∧ e = e' := by
  cases s with
  | positive =>
      cases t with
      | positive =>
          show some ((compare e e').then (compare m m')) = some .eq ↔ _
          simp [Ordering.then_eq_eq, and_comm]
      | negative => exact iff_of_false (fun h => by cases h) (fun h => by cases h.1)
  | negative =>
      cases t with
      | positive => exact iff_of_false (fun h => by cases h) (fun h => by cases h.1)
      | negative =>
          show some ((compare e e').then (compare m m')).swap = some .eq ↔ _
          simp [Ordering.swap_eq_eq, Ordering.then_eq_eq, and_comm]

/-- All but what is not a number equals itself. -/
theorem compare_self {u : UnpackedFloat} (h : u ≠ .notANumber) : u.compare u = some .eq := by
  cases u with
  | notANumber => exact absurd rfl h
  | infinity s => cases s <;> rfl
  | zero s => rfl
  | finite s m e hm => exact compare_finite.mpr ⟨rfl, rfl, rfl⟩

/-- Numbers are equal if both are zero or they are the same. -/
theorem compare_eq_some_eq {u v : UnpackedFloat} :
    u.compare v = some .eq
      ↔ (∃ s t, u = .zero s ∧ v = .zero t) ∨ (u = v ∧ u ≠ .notANumber) := by
  constructor
  · intro h
    cases u with
    | notANumber => cases h
    | infinity s =>
        cases v with
        | infinity t =>
            refine .inr ⟨?_, fun hnan => by cases hnan⟩
            cases s with
            | positive =>
                cases t with
                | positive => rfl
                | negative => cases h
            | negative =>
                cases t with
                | positive => cases h
                | negative => rfl
        | zero t => cases s <;> cases h
        | finite t m e hm => cases s <;> cases h
        | notANumber => cases s <;> cases h
    | zero s =>
        cases v with
        | zero t => exact .inl ⟨s, t, rfl, rfl⟩
        | infinity t => cases t <;> cases h
        | finite t m e hm => cases t <;> cases h
        | notANumber => cases h
    | finite s m e hm =>
        cases v with
        | finite t m' e' hm' =>
            obtain ⟨rfl, rfl, rfl⟩ := compare_finite.mp h
            exact .inr ⟨rfl, fun hnan => by cases hnan⟩
        | infinity t => cases s <;> cases t <;> cases h
        | zero t => cases s <;> cases h
        | notANumber => cases s <;> cases h
  · rintro (⟨s, t, rfl, rfl⟩ | ⟨rfl, hreal⟩)
    · rfl
    · exact compare_self hreal

end

/-- Equality is read off the comparison. -/
theorem beq_iff_compare {a b : Float} :
    (a == b) = true ↔ a.toModel.unpack.compare b.toModel.unpack = some .eq := by
  show (a.toModel.unpack.compare b.toModel.unpack == some .eq) = true ↔ _
  exact beq_iff_eq

theorem beq_self_of_isFinite {a : Float} (h : a.isFinite = true) : (a == a) = true := by
  rw [beq_iff_compare, compare_eq_some_eq]
  refine .inr ⟨rfl, ?_⟩
  intro hnan
  have hfinite : a.toModel.unpack.isFinite = true := h
  rw [hnan] at hfinite
  cases hfinite

/-- Just what is not a number does not equal itself. -/
theorem beq_self_iff {a : Float} : (a == a) = true ↔ a.isNaN = false := by
  have hnan : a.isNaN = a.toModel.unpack.isNaN := rfl
  rw [beq_iff_compare, compare_eq_some_eq, hnan]
  cases a.toModel.unpack with
  | notANumber => exact iff_of_false (by rintro (⟨s, t, h, -⟩ | ⟨-, h⟩) <;> trivial) (by decide)
  | infinity s => exact iff_of_true (.inr ⟨rfl, fun h => by cases h⟩) rfl
  | zero s => exact iff_of_true (.inr ⟨rfl, fun h => by cases h⟩) rfl
  | finite s m e hm => exact iff_of_true (.inr ⟨rfl, fun h => by cases h⟩) rfl

theorem beq_symm {a b : Float} (h : (a == b) = true) : (b == a) = true := by
  rw [beq_iff_compare, compare_eq_some_eq] at h ⊢
  rcases h with ⟨s, t, ha, hb⟩ | ⟨hab, ha⟩
  · exact .inl ⟨t, s, hb, ha⟩
  · rw [hab] at ha
    exact .inr ⟨hab.symm, ha⟩

/-- Numbers equal to one number equal each other. -/
theorem beq_trans {a b c : Float} (h : (a == b) = true) (h' : (b == c) = true) :
    (a == c) = true := by
  rw [beq_iff_compare, compare_eq_some_eq] at h h' ⊢
  rcases h with ⟨s, t, ha, hb⟩ | ⟨hab, ha⟩
  · rcases h' with ⟨-, u, -, hc⟩ | ⟨hbc, -⟩
    · exact .inl ⟨s, u, ha, hc⟩
    · exact .inl ⟨s, t, ha, hbc ▸ hb⟩
  · rw [hab] at ha ⊢
    exact h'

/-- What is not a number equals nothing. -/
theorem beq_eq_false_of_isNaN {a : Float} (h : a.isNaN = true) (b : Float) : (a == b) = false := by
  rw [Bool.eq_false_iff]
  intro hequal
  have hself := beq_self_iff.mp (beq_trans hequal (beq_symm hequal))
  rw [hself] at h
  cases h

namespace Vec3

/-- Points are equal by their coordinates. -/
theorem beq_iff {a b : Vec3} :
    (a == b) = true ↔ (a.x == b.x) = true ∧ (a.y == b.y) = true ∧ (a.z == b.z) = true := by
  show (a.x == b.x && a.y == b.y && a.z == b.z) = true ↔ _
  rw [Bool.and_eq_true, Bool.and_eq_true, and_assoc]

/-- A place is real if its coordinates are. -/
theorem isFinite_iff {a : Vec3} :
    a.isFinite = true ↔ a.x.isFinite = true ∧ a.y.isFinite = true ∧ a.z.isFinite = true := by
  rw [isFinite, Bool.and_eq_true, Bool.and_eq_true, and_assoc]

end Vec3

end MillScript
