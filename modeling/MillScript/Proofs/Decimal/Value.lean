import Mathlib.Algebra.Order.Field.Power
import Mathlib.Algebra.Order.Ring.Rat
import Mathlib.Data.Nat.Cast.Order.Field
import Mathlib.Order.Compare
import Mathlib.Tactic.FieldSimp
import Mathlib.Tactic.Linarith
import Mathlib.Tactic.NormNum
import Mathlib.Tactic.Positivity
import MillScript.Proofs.Decimal.Exact

/-! # Doubles as rational numbers

    Every real double stands for a rational number.  A double is kept with as
    many digits as it has room for, which is why comparing exponents first
    and mantissas second compares the numbers. -/

namespace MillScript.Decimal

open Float.Model

/-- The factor of a sign. -/
def factor : UnpackedFloat.Sign → ℚ
  | .negative => -1
  | .positive => 1

/-- The number that an unpacked double stands for; zero if it stands for
    none. -/
def number : UnpackedFloat → ℚ
  | .finite s m e _ => factor s * (m * 2 ^ e)
  | _ => 0

@[simp] theorem number_zero (s : UnpackedFloat.Sign) : number (.zero s) = 0 := rfl

@[simp] theorem number_finite (s : UnpackedFloat.Sign) {m : Nat} (e : Int) (hm : 0 < m) :
    number (.finite s m e hm) = factor s * (m * 2 ^ e) := rfl

/-- The number that a double stands for; zero if it stands for none. -/
def value (x : Float) : ℚ := number x.toModel.unpack

/-- A finite number is zero or has a mantissa. -/
theorem unpack_of_isFinite {x : Float} (h : x.isFinite = true) :
    (∃ s, x.toModel.unpack = .zero s)
      ∨ ∃ s m e hm, x.toModel.unpack = .finite s m e hm := by
  have hreal : x.toModel.unpack.isFinite = true := h
  cases hx : x.toModel.unpack with
  | notANumber =>
      rw [hx] at hreal
      cases hreal
  | infinity s =>
      rw [hx] at hreal
      cases hreal
  | zero s => exact .inl ⟨s, rfl⟩
  | finite s m e hm => exact .inr ⟨s, m, e, hm, rfl⟩

/-- What is not finite is taken for zero. -/
theorem value_of_not_isFinite {x : Float} (h : ¬ x.isFinite = true) : value x = 0 := by
  have hreal : ¬ x.toModel.unpack.isFinite = true := h
  rw [value]
  cases hx : x.toModel.unpack with
  | notANumber => rfl
  | infinity s => rfl
  | zero s => rfl
  | finite s m e hm =>
      rw [hx] at hreal
      exact absurd rfl hreal

/-! ## Mantissas with as many digits as there is room for -/

/-- A mantissa has at most 53 digits, and just as many unless the exponent is
    the least one. -/
structure Canonical (m : Nat) (e : Int) : Prop where
  lt : m < Nat.pow 2 53
  full : Nat.pow 2 52 ≤ m ∨ e = -1074
  least : -1074 ≤ e

/-- Each double has one mantissa and exponent: the mantissa is full, or the
    exponent the least. -/
theorem unpack_canonical {b : BitVec Format.binary64.numBits} {s : UnpackedFloat.Sign} {m : Nat}
    {e : Int} {hm : 0 < m} (h : UnpackedFloat.unpack .binary64 b = .finite s m e hm) :
    Canonical m e := by
  rcases unpack_eq_finite h with ⟨-, rfl⟩ | ⟨hfull, -, hleast, -⟩
  · exact ⟨(unpack_bounds h).1, .inr rfl, le_rfl⟩
  · exact ⟨(unpack_bounds h).1, .inl hfull, hleast⟩

/-- A greater exponent makes a greater number. -/
theorem lt_of_exponent_lt {m m' : Nat} {e e' : Int} (h : Canonical m e) (h' : Canonical m' e')
    (hlt : e < e') : (m : ℚ) * 2 ^ e < m' * 2 ^ e' := by
  have hfull : Nat.pow 2 52 ≤ m' := by
    rcases h'.full with hfull | hleast
    · exact hfull
    · have := h.least
      omega
  have hm : (m : ℚ) < 2 ^ (53 : ℤ) := by exact_mod_cast h.lt
  have hm' : (2 : ℚ) ^ (52 : ℤ) ≤ m' := by exact_mod_cast hfull
  calc (m : ℚ) * 2 ^ e < 2 ^ (53 : ℤ) * 2 ^ e := by gcongr
    _ = 2 ^ (52 : ℤ) * 2 ^ (e + 1) := by
        rw [← zpow_add₀ two_ne_zero, ← zpow_add₀ two_ne_zero]
        congr 1
        omega
    _ ≤ 2 ^ (52 : ℤ) * 2 ^ e' := by
        gcongr
        · exact one_le_two
        · omega
    _ ≤ m' * 2 ^ e' := by gcongr

/-- Exponents first and mantissas second compare as the numbers do. -/
theorem compares_canonical {m m' : Nat} {e e' : Int} (h : Canonical m e) (h' : Canonical m' e') :
    ((compare e e').then (compare m m')).Compares ((m : ℚ) * 2 ^ e) (m' * 2 ^ e') := by
  rcases Int.lt_trichotomy e e' with hlt | rfl | hgt
  · rw [Int.compare_eq_lt.mpr hlt]
    exact lt_of_exponent_lt h h' hlt
  · rw [Int.compare_eq_eq.mpr rfl]
    have hpos : (0 : ℚ) < 2 ^ e := by positivity
    rcases Nat.lt_trichotomy m m' with hlt | rfl | hgt
    · rw [Nat.compare_eq_lt.mpr hlt]
      show (m : ℚ) * 2 ^ e < m' * 2 ^ e
      gcongr
    · rw [Nat.compare_eq_eq.mpr rfl]
      show (m : ℚ) * 2 ^ e = m * 2 ^ e
      rfl
    · rw [Nat.compare_eq_gt.mpr hgt]
      show (m' : ℚ) * 2 ^ e < m * 2 ^ e
      gcongr
  · rw [Int.compare_eq_gt.mpr hgt]
    exact lt_of_exponent_lt h' h hgt

/-! ## Order -/

theorem magnitude_pos {m : Nat} (e : Int) (hm : 0 < m) : (0 : ℚ) < m * 2 ^ e := by
  have hm : (0 : ℚ) < m := by exact_mod_cast hm
  positivity

/-- The sign of a number is that of its value. -/
theorem number_neg {m : Nat} {e : Int} (hm : 0 < m) :
    number (.finite .negative m e hm) < 0 := by
  have hpos := magnitude_pos e hm
  rw [number_finite, factor]
  linarith

theorem number_pos {m : Nat} {e : Int} (hm : 0 < m) :
    0 < number (.finite .positive m e hm) := by
  have hpos := magnitude_pos e hm
  rw [number_finite, factor]
  linarith

/-- Numbers on the other side of zero compare the other way round. -/
theorem compares_neg {o : Ordering} {a b : ℚ} (h : o.Compares a b) :
    o.Compares (-1 * b) (-1 * a) := by
  cases o with
  | lt =>
      have hlt : a < b := h
      show -1 * b < -1 * a
      linarith
  | eq =>
      have heq : a = b := h
      show -1 * b = -1 * a
      rw [heq]
  | gt =>
      have hgt : b < a := h
      show -1 * a < -1 * b
      linarith

/-- Finite numbers compare as their values do. -/
theorem compares_finite {s s' : UnpackedFloat.Sign} {m m' : Nat} {e e' : Int} {hm : 0 < m}
    {hm' : 0 < m'} (h : Canonical m e) (h' : Canonical m' e') :
    ∃ o, (UnpackedFloat.finite s m e hm).compare (.finite s' m' e' hm') = some o
      ∧ o.Compares (number (.finite s m e hm)) (number (.finite s' m' e' hm')) := by
  have hcompares := compares_canonical h h'
  cases s with
  | negative =>
      cases s' with
      | negative =>
          refine ⟨_, rfl, ?_⟩
          rw [Ordering.compares_swap, number_finite, number_finite, factor]
          exact compares_neg hcompares
      | positive => exact ⟨_, rfl, (number_neg hm).trans (number_pos hm')⟩
  | positive =>
      cases s' with
      | negative => exact ⟨_, rfl, (number_neg hm').trans (number_pos hm)⟩
      | positive =>
          refine ⟨_, rfl, ?_⟩
          rw [number_finite, number_finite, factor, one_mul, one_mul]
          exact hcompares

/-- Real doubles compare as their numbers do. -/
theorem compares_value {x y : Float} (hx : x.isFinite = true) (hy : y.isFinite = true) :
    ∃ o, x.toModel.unpack.compare y.toModel.unpack = some o
      ∧ o.Compares (value x) (value y) := by
  rw [value, value]
  obtain ⟨s, hx⟩ | ⟨s, m, e, hm, hx⟩ := unpack_of_isFinite hx
  · obtain ⟨t, hy⟩ | ⟨t, m', e', hm', hy⟩ := unpack_of_isFinite hy
    · rw [hx, hy]
      exact ⟨.eq, rfl, rfl⟩
    · rw [hx, hy]
      cases t with
      | negative => exact ⟨.gt, rfl, number_neg hm'⟩
      | positive => exact ⟨.lt, rfl, number_pos hm'⟩
  · obtain ⟨t, hy⟩ | ⟨t, m', e', hm', hy⟩ := unpack_of_isFinite hy
    · rw [hx, hy]
      cases s with
      | negative => exact ⟨.lt, rfl, number_neg hm⟩
      | positive => exact ⟨.gt, rfl, number_pos hm⟩
    · have hcanonical := unpack_canonical hx
      have hcanonical' := unpack_canonical hy
      rw [hx, hy]
      exact compares_finite hcanonical hcanonical'

/-- The order of finite doubles is that of their values. -/
theorem lt_iff_value {x y : Float} (hx : x.isFinite = true) (hy : y.isFinite = true) :
    x < y ↔ value x < value y := by
  obtain ⟨o, ho, hcompares⟩ := compares_value hx hy
  rw [lt_iff_compare, ho, Option.some_inj, hcompares.eq_lt]

/-- The order is read off the comparison. -/
theorem le_iff_compare {x y : Float} :
    x ≤ y ↔ (x.toModel.unpack.compare y.toModel.unpack).any (·.isLE) = true := by
  show decide ((x.toModel.unpack.compare y.toModel.unpack).any (·.isLE) = true) = true ↔ _
  rw [decide_eq_true_iff]

/-- The weak order of finite doubles is that of their values, too. -/
theorem le_iff_value {x y : Float} (hx : x.isFinite = true) (hy : y.isFinite = true) :
    x ≤ y ↔ value x ≤ value y := by
  obtain ⟨o, ho, hcompares⟩ := compares_value hx hy
  rw [le_iff_compare, ho, Option.any_some, Ordering.isLE_iff_ne_gt]
  exact hcompares.ne_gt

/-! ## Rounding up to a whole number -/

/-- A mantissa and an exponent are a fraction. -/
theorem Magnitude.number_eq (m : Magnitude) :
    (m.mantissa : ℚ) * 2 ^ m.exponent = m.num / m.den := by
  have hnum : (m.num : ℚ) = m.mantissa * 2 ^ m.exponent.toNat := by
    rw [num]
    exact_mod_cast rfl
  have hden : (m.den : ℚ) = 2 ^ (-m.exponent).toNat := by
    rw [den]
    exact_mod_cast rfl
  rw [hnum, hden, mul_div_assoc]
  congr 1
  rw [← zpow_natCast, ← zpow_natCast, ← zpow_sub₀ two_ne_zero]
  congr 1
  omega

/-- No whole number above a magnitude is smaller than its ceiling. -/
theorem Magnitude.ceil_le {m : Magnitude} {n : Nat} (h : (m.mantissa : ℚ) * 2 ^ m.exponent ≤ n) :
    m.ceil ≤ n := by
  have hden : (0 : ℚ) < m.den := by exact_mod_cast m.den_pos
  rw [m.number_eq, div_le_iff₀ hden] at h
  have hnum : m.num ≤ n * m.den := by exact_mod_cast h
  have hpos := m.den_pos
  rw [ceil, ← Nat.lt_add_one_iff, Nat.div_lt_iff_lt_mul hpos, Nat.add_mul, Nat.one_mul]
  omega

/-- The ceiling is not below the magnitude. -/
theorem Magnitude.le_ceil (m : Magnitude) : (m.mantissa : ℚ) * 2 ^ m.exponent ≤ m.ceil := by
  have hden : (0 : ℚ) < m.den := by exact_mod_cast m.den_pos
  rw [m.number_eq, div_le_iff₀ hden]
  have hpos := m.den_pos
  have hup : m.num + m.den - 1 < (m.ceil + 1) * m.den :=
    (Nat.div_lt_iff_lt_mul hpos).mp (Nat.lt_add_one _)
  rw [Nat.add_mul, Nat.one_mul] at hup
  have hnum : m.num ≤ m.ceil * m.den := by omega
  exact_mod_cast hnum

/-- No whole number above a value is smaller than its ceiling. -/
theorem ceil_le {x : Float} {n : Nat} (h : value x ≤ n) : ceil x ≤ n := by
  rw [value] at h
  rw [ceil, read]
  cases hx : x.toModel.unpack with
  | notANumber => exact Nat.zero_le n
  | infinity s => exact Nat.zero_le n
  | zero s =>
      cases s with
      | negative => exact Nat.zero_le n
      | positive => exact Magnitude.ceil_le (m := ⟨0, 0⟩) (by simp)
  | finite s m e hm =>
      cases s with
      | negative => exact Nat.zero_le n
      | positive =>
          rw [hx, number_finite, factor, one_mul] at h
          exact Magnitude.ceil_le (m := ⟨m, e⟩) h

/-- The ceiling is not below the value. -/
theorem le_ceil (x : Float) : value x ≤ ceil x := by
  rw [value, ceil, read]
  cases hx : x.toModel.unpack with
  | notANumber => exact Nat.cast_nonneg _
  | infinity s => exact Nat.cast_nonneg _
  | zero s => exact Nat.cast_nonneg _
  | finite s m e hm =>
      cases s with
      | negative => exact (number_neg hm).le.trans (Nat.cast_nonneg _)
      | positive =>
          rw [number_finite, factor, one_mul]
          exact Magnitude.le_ceil ⟨m, e⟩

end MillScript.Decimal
