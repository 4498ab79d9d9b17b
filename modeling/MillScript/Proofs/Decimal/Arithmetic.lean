import MillScript.Proofs.Decimal.Rounding

/-! # Arithmetic on doubles

    Each operation on real doubles is the exact operation followed by one
    rounding. -/

namespace MillScript.Decimal

open Float.Model

/-! ## Whole digits -/

/-- Rounding a mantissa to its digits gives a double for the number it stands
    for. -/
theorem rounds_round (s : UnpackedFloat.Sign) {m : Nat} (hm : 0 < m) (e : Int) :
    Rounds (factor s * (m * 2 ^ e))
      (Float.Model.pack (UnpackedFloat.round .binary64 s m e)).unpack := by
  have hround : UnpackedFloat.round .binary64 s m e
      = UnpackedFloat.roundWithAccuracy .binary64 s
        (m <<< (e - Format.binary64.targetExponent (totalExponent m e)).toNat)
        (e - (e - Format.binary64.targetExponent (totalExponent m e)).toNat) .exact := rfl
  rw [hround, targetExponent_eq, Nat.shiftLeft_eq]
  generalize hk : (e - lastDigit m e).toNat = k
  have hvalue : (m : ℚ) * 2 ^ e = ((m * 2 ^ k : Nat) : ℚ) * 2 ^ (e - k) := by
    push_cast
    rw [mul_assoc, ← zpow_natCast, ← zpow_add₀ two_ne_zero]
    congr 2
    omega
  rw [hvalue]
  refine rounds_roundWithAccuracy s (truncates_exact _) ?_
  -- the digits that were added are above the last one
  have hlog : m.log2 + k ≤ (m * 2 ^ k).log2 := by
    rw [Nat.le_log2 (Nat.mul_ne_zero hm.ne' (Nat.two_pow_pos k).ne'), Nat.pow_add]
    exact Nat.mul_le_mul_right _ (Nat.log2_self_le hm.ne')
  rw [lastDigit] at hk ⊢
  omega

/-- A positive integer is rounded with a positive sign. -/
theorem normalize_of_pos {n : Int} (hn : 0 < n) {e : Int} {z : UnpackedFloat.Sign} :
    UnpackedFloat.normalize .binary64 n e z
      = UnpackedFloat.round .binary64 .positive n.toNat e := by
  unfold UnpackedFloat.normalize
  rw [Int.compare_eq_gt.mpr hn]

/-- An integer times a power of two is rounded whatever its sign; zero takes
    the sign it is told. -/
theorem rounds_normalize (n e : Int) (z : UnpackedFloat.Sign) :
    Rounds (n * 2 ^ e) (Float.Model.pack (UnpackedFloat.normalize .binary64 n e z)).unpack := by
  rcases Int.lt_trichotomy n 0 with hneg | rfl | hpos
  · have hnormal : UnpackedFloat.normalize .binary64 n e z
        = UnpackedFloat.round .binary64 .negative (-n).toNat e := by
      unfold UnpackedFloat.normalize
      rw [Int.compare_eq_lt.mpr hneg]
    have hvalue : (n : ℚ) * 2 ^ e = factor .negative * ((-n).toNat * 2 ^ e) := by
      have hcast : (((-n).toNat : Int) : ℚ) = -n := by
        rw [Int.toNat_of_nonneg (by omega), Int.cast_neg]
      rw [Int.cast_natCast] at hcast
      rw [hcast, factor]
      ring
    rw [hnormal, hvalue]
    exact rounds_round .negative (by omega) e
  · have hnormal : UnpackedFloat.normalize .binary64 0 e z = .zero z := rfl
    rw [hnormal, Int.cast_zero, zero_mul]
    exact rounds_zero z
  · have hvalue : (n : ℚ) * 2 ^ e = factor .positive * (n.toNat * 2 ^ e) := by
      have hcast : ((n.toNat : Int) : ℚ) = n := by rw [Int.toNat_of_nonneg (by omega)]
      rw [Int.cast_natCast] at hcast
      rw [hcast, factor, one_mul]
    rw [normalize_of_pos hpos, hvalue]
    exact rounds_round .positive (by omega) e

/-! ## Sums and differences -/

/-- A number with its digits down to a lower exponent. -/
theorem number_aligned (s : UnpackedFloat.Sign) (m : Nat) {e t : Int} (h : t ≤ e) :
    factor s * (m * 2 ^ e) = (s.apply ((m <<< (e - t).toNat : Nat) : Int) : ℚ) * 2 ^ t := by
  have hshift : (m : ℚ) * 2 ^ e = ((m <<< (e - t).toNat : Nat) : ℚ) * 2 ^ t := by
    rw [Nat.shiftLeft_eq]
    push_cast
    rw [mul_assoc, ← zpow_natCast, ← zpow_add₀ two_ne_zero]
    congr 2
    omega
  rw [hshift, ← mul_assoc]
  congr 1
  cases s with
  | negative =>
      show -1 * _ = ((-_ : Int) : ℚ)
      rw [Int.cast_neg, Int.cast_natCast, neg_one_mul]
  | positive =>
      rw [factor, one_mul, ← Int.cast_natCast]
      rfl

/-- A real double is kept as it is. -/
theorem rounds_self {x : Float} {s : UnpackedFloat.Sign} {m : Nat} {e : Int} {hm : 0 < m}
    (h : x.toModel.unpack = .finite s m e hm) (t : UnpackedFloat.Sign) :
    Rounds (factor t * (m * 2 ^ e)) (Float.Model.pack (.finite t m e hm)).unpack :=
  rounds_pack (unpack_canonical h) (.refl _)

section Operations

variable {x y : Float}

/-- **Sums are rounded once**, from the exact sum. -/
theorem rounds_add (hx : x.isFinite = true) (hy : y.isFinite = true) :
    Rounds (value x + value y) (x + y).toModel.unpack := by
  show Rounds _ (Float.Model.pack (UnpackedFloat.add .binary64 x.toModel.unpack
    y.toModel.unpack)).unpack
  rw [value, value]
  obtain ⟨s, hx⟩ | ⟨s, m, e, hm, hx⟩ := unpack_of_isFinite hx
  · obtain ⟨t, hy⟩ | ⟨t, m', e', hm', hy⟩ := unpack_of_isFinite hy
    · rw [hx, hy, number_zero, number_zero, add_zero]
      cases s <;> cases t <;> exact rounds_zero _
    · have hself := rounds_self hy t
      rw [hx, hy, number_zero, number_finite, zero_add]
      exact hself
  · obtain ⟨t, hy⟩ | ⟨t, m', e', hm', hy⟩ := unpack_of_isFinite hy
    · have hself := rounds_self hx s
      rw [hx, hy, number_zero, number_finite, add_zero]
      exact hself
    · -- both mantissas are taken down to the lower exponent
      rw [hx, hy, number_finite, number_finite, number_aligned s m (min_le_left e e'),
        number_aligned t m' (min_le_right e e'), ← add_mul, ← Int.cast_add]
      exact rounds_normalize _ _ _

/-- The other sign is the other factor. -/
theorem factor_neg (s : UnpackedFloat.Sign) : factor (-s) = -factor s := by
  cases s with
  | negative => exact (neg_neg 1).symm
  | positive => rfl

/-- **Differences are rounded once**, from the exact difference. -/
theorem rounds_sub (hx : x.isFinite = true) (hy : y.isFinite = true) :
    Rounds (value x - value y) (x - y).toModel.unpack := by
  show Rounds _ (Float.Model.pack (UnpackedFloat.sub .binary64 x.toModel.unpack
    y.toModel.unpack)).unpack
  rw [value, value]
  obtain ⟨s, hx⟩ | ⟨s, m, e, hm, hx⟩ := unpack_of_isFinite hx
  · obtain ⟨t, hy⟩ | ⟨t, m', e', hm', hy⟩ := unpack_of_isFinite hy
    · rw [hx, hy, number_zero, number_zero, sub_zero]
      cases s <;> cases t <;> exact rounds_zero _
    · have hself := rounds_self hy (-t)
      rw [hx, hy, number_zero, number_finite, zero_sub, ← neg_mul, ← factor_neg]
      exact hself
  · obtain ⟨t, hy⟩ | ⟨t, m', e', hm', hy⟩ := unpack_of_isFinite hy
    · have hself := rounds_self hx s
      rw [hx, hy, number_zero, number_finite, sub_zero]
      exact hself
    · rw [hx, hy, number_finite, number_finite, number_aligned s m (min_le_left e e'),
        number_aligned t m' (min_le_right e e'), ← sub_mul, ← Int.cast_sub]
      exact rounds_normalize _ _ _

/-! ## Products and quotients -/

/-- Signs are multiplied as their factors are. -/
theorem factor_mul (s t : UnpackedFloat.Sign) : factor (s * t) = factor s * factor t := by
  cases s <;> cases t <;> decide +kernel

theorem factor_div (s t : UnpackedFloat.Sign) : factor (s / t) = factor s / factor t := by
  cases s <;> cases t <;> decide +kernel

/-- A product has digits enough. -/
theorem le_lastDigit_mul {m m' : Nat} {e e' : Int} (hm : 0 < m) (hm' : 0 < m')
    (h : Canonical m e) (h' : Canonical m' e') : e + e' ≤ lastDigit (m * m') (e + e') := by
  have hlog : ∀ {n}, Nat.pow 2 52 ≤ n → n ≤ m * m' → 52 ≤ (m * m').log2 := by
    intro n hn hle
    rw [Nat.le_log2 (Nat.mul_pos hm hm').ne']
    exact hn.trans hle
  rw [lastDigit]
  rcases h.full with hfull | hleast
  · have := hlog hfull (Nat.le_mul_of_pos_right m hm')
    omega
  · rcases h'.full with hfull' | hleast'
    · have := hlog hfull' (Nat.le_mul_of_pos_left m' hm)
      omega
    · omega

/-- **Products are rounded once**, from the exact product. -/
theorem rounds_mul (hx : x.isFinite = true) (hy : y.isFinite = true) :
    Rounds (value x * value y) (x * y).toModel.unpack := by
  show Rounds _ (Float.Model.pack (UnpackedFloat.mul .binary64 x.toModel.unpack
    y.toModel.unpack)).unpack
  rw [value, value]
  obtain ⟨s, hx⟩ | ⟨s, m, e, hm, hx⟩ := unpack_of_isFinite hx
  · rw [hx, number_zero, zero_mul]
    obtain ⟨t, hy⟩ | ⟨t, m', e', hm', hy⟩ := unpack_of_isFinite hy
    · rw [hy]
      exact rounds_zero (s * t)
    · rw [hy]
      exact rounds_zero (s * t)
  · obtain ⟨t, hy⟩ | ⟨t, m', e', hm', hy⟩ := unpack_of_isFinite hy
    · rw [hx, hy, number_zero, mul_zero]
      exact rounds_zero (s * t)
    · have hdigits := le_lastDigit_mul hm hm' (unpack_canonical hx) (unpack_canonical hy)
      have hvalue : factor s * (m * 2 ^ e) * (factor t * (m' * 2 ^ e'))
          = factor (s * t) * ((m * m' : Nat) * 2 ^ (e + e')) := by
        rw [factor_mul, zpow_add₀ two_ne_zero]
        push_cast
        ring
      rw [hx, hy, number_finite, number_finite, hvalue]
      exact rounds_roundWithAccuracy (s * t) (truncates_exact _) hdigits

/-- A fraction of a unit, cut off. -/
theorem truncates_fraction (n : Nat) {d : Nat} (hd : 0 < d) :
    Truncates (.ofMantissaAndAccuracy (n / d) (UnpackedFloat.accuracyOfFraction (n % d) d))
      ((n : ℚ) / d) := by
  have hpos : (0 : ℚ) < d := by exact_mod_cast hd
  have hdivision : (n : ℚ) = (n / d : Nat) * d + (n % d : Nat) := by
    exact_mod_cast (Nat.div_add_mod' n d).symm
  have hrest : ((n % d : Nat) : ℚ) < d := by exact_mod_cast Nat.mod_lt n hd
  refine ⟨?_, ?_, ?_⟩
  · rw [mantissa_ofMantissaAndAccuracy, le_div_iff₀ hpos]
    linarith [Nat.cast_nonneg (α := ℚ) (n % d)]
  · rw [mantissa_ofMantissaAndAccuracy, div_lt_iff₀ hpos]
    linarith
  · rw [mantissa_ofMantissaAndAccuracy, div_eq_iff hpos.ne']
    by_cases hzero : n % d = 0
    · have hexact : UnpackedFloat.accuracyOfFraction (n % d) d = .exact := if_pos hzero
      rw [hzero, Nat.cast_zero, add_zero] at hdivision
      rw [hexact]
      exact iff_of_true hdivision ⟨rfl, rfl⟩
    · have hinexact : UnpackedFloat.accuracyOfFraction (n % d) d
          = .inexact (compare (2 * (n % d)) d) := if_neg hzero
      rw [hinexact]
      refine iff_of_false ?_ ?_
      · intro heq
        have hcast : ((n % d : Nat) : ℚ) = 0 := by linarith
        exact hzero (by exact_mod_cast hcast)
      · cases compare (2 * (n % d)) d with
        | lt => rintro ⟨-, ⟨⟩⟩
        | eq => rintro ⟨⟨⟩, -⟩
        | gt => rintro ⟨⟨⟩, -⟩

/-- A quotient has digits enough. -/
theorem le_lastDigit_div {m m' k : Nat} {t : Int} (hm : 0 < m) (hm' : 0 < m')
    (h : t ≤ -1074 ∨ m'.log2 + 53 ≤ m.log2 + k) : t ≤ lastDigit (m * 2 ^ k / m') t := by
  rw [lastDigit]
  rcases h with hleast | hdigits
  · omega
  · have hfull : 2 ^ 52 ≤ m * 2 ^ k / m' := by
      rw [Nat.le_div_iff_mul_le hm']
      calc 2 ^ 52 * m' ≤ 2 ^ 52 * 2 ^ (m'.log2 + 1) :=
            Nat.mul_le_mul_left _ Nat.lt_log2_self.le
        _ = 2 ^ (m'.log2 + 53) := by rw [← Nat.pow_add]; congr 1; omega
        _ ≤ 2 ^ (m.log2 + k) := Nat.pow_le_pow_right two_pos hdigits
        _ = 2 ^ m.log2 * 2 ^ k := Nat.pow_add _ _ _
        _ ≤ m * 2 ^ k := Nat.mul_le_mul_right _ (Nat.log2_self_le hm.ne')
    have hlog : 52 ≤ (m * 2 ^ k / m').log2 :=
      (Nat.le_log2 (Nat.two_pow_pos 52 |>.trans_le hfull).ne').mpr hfull
    omega

/-- The quotient of two mantissas is cut off far enough below the last
    digit. -/
theorem rounds_divCore (s t : UnpackedFloat.Sign) {m m' : Nat} {e e' : Int} (hm : 0 < m)
    (hm' : 0 < m') :
    Rounds (factor s * (m * 2 ^ e) / (factor t * (m' * 2 ^ e')))
      (Float.Model.pack (UnpackedFloat.div .binary64 (.finite s m e hm)
        (.finite t m' e' hm'))).unpack := by
  have hdiv : UnpackedFloat.div .binary64 (.finite s m e hm) (.finite t m' e' hm')
      = UnpackedFloat.roundWithAccuracy .binary64 (s / t)
        ((m <<< (e - e' - min (e - e') (Format.binary64.targetExponent
          (totalExponent m e - totalExponent m' e'))).toNat) / m')
        (min (e - e') (Format.binary64.targetExponent
          (totalExponent m e - totalExponent m' e')))
        (UnpackedFloat.accuracyOfFraction
          ((m <<< (e - e' - min (e - e') (Format.binary64.targetExponent
            (totalExponent m e - totalExponent m' e'))).toNat) % m') m') := rfl
  have htarget : Format.binary64.targetExponent (totalExponent m e - totalExponent m' e')
      = max (((m.log2 + 1 + e) - (m'.log2 + 1 + e') : Int) - 53) (-1074) := rfl
  rw [hdiv, htarget, Nat.shiftLeft_eq]
  generalize hlow : min (e - e') (max (((m.log2 + 1 + e) - (m'.log2 + 1 + e') : Int) - 53) (-1074))
    = low
  generalize hk : (e - e' - low).toNat = k
  have hvalue : factor s * (m * 2 ^ e) / (factor t * (m' * 2 ^ e'))
      = factor (s / t) * (((m * 2 ^ k : Nat) : ℚ) / m' * 2 ^ low) := by
    have hexponent : (2 : ℚ) ^ e = 2 ^ k * 2 ^ low * 2 ^ e' := by
      rw [← zpow_natCast, ← zpow_add₀ two_ne_zero, ← zpow_add₀ two_ne_zero]
      congr 1
      omega
    rw [factor_div, hexponent]
    push_cast
    field_simp
  rw [hvalue]
  refine rounds_roundWithAccuracy (s / t) (truncates_fraction _ hm') (le_lastDigit_div hm hm' ?_)
  omega

/-- **Quotients are rounded once**, from the exact quotient. -/
theorem rounds_div (hx : x.isFinite = true) (hy : y.isFinite = true) (hne : value y ≠ 0) :
    Rounds (value x / value y) (x / y).toModel.unpack := by
  show Rounds _ (Float.Model.pack (UnpackedFloat.div .binary64 x.toModel.unpack
    y.toModel.unpack)).unpack
  rw [value] at hne
  rw [value, value]
  obtain ⟨t, hy⟩ | ⟨t, m', e', hm', hy⟩ := unpack_of_isFinite hy
  · rw [hy] at hne
    exact absurd rfl hne
  · obtain ⟨s, hx⟩ | ⟨s, m, e, hm, hx⟩ := unpack_of_isFinite hx
    · rw [hx, hy, number_zero, zero_div]
      exact rounds_zero (s / t)
    · rw [hx, hy, number_finite, number_finite]
      exact rounds_divCore s t hm hm'

end Operations

/-! ## Results -/

/-- A rounded number that is finite lies near the exact one. -/
theorem Rounds.nearby {v : ℚ} {x : Float} (h : Rounds v x.toModel.unpack)
    (hx : x.isFinite = true) : Nearby v (value x) := by
  obtain ⟨w, hw, ⟨-, hvalue⟩ | ⟨s, hinfinite, -⟩⟩ := h
  · rw [value, hvalue]
    exact hw
  · have hreal : x.toModel.unpack.isFinite = true := hx
    rw [hinfinite] at hreal
    cases hreal

/-- Rounding makes a number of a number. -/
theorem Rounds.isNaN_eq_false {v : ℚ} {x : Float} (h : Rounds v x.toModel.unpack) :
    x.isNaN = false := by
  show x.toModel.unpack.isNaN = false
  obtain ⟨w, -, ⟨hreal, -⟩ | ⟨s, hinfinite, -⟩⟩ := h
  · cases hx : x.toModel.unpack with
    | notANumber =>
        rw [hx] at hreal
        cases hreal
    | infinity s => rfl
    | zero s => rfl
    | finite s m e hm => rfl
  · rw [hinfinite]
    rfl

/-- The value of a double has no more digits than a double holds. -/
theorem short_value {x : Float} (hx : x.isFinite = true) : Short (value x) := by
  obtain ⟨s, hx⟩ | ⟨s, m, e, hm, hx⟩ := unpack_of_isFinite hx
  · refine ⟨0, 0, ?_, by norm_num, by norm_num⟩
    rw [value, hx, number_zero, Int.cast_zero, zero_mul]
  · have hcanonical := unpack_canonical hx
    have hlt : (m : ℚ) < 2 ^ 53 := by exact_mod_cast hcanonical.lt
    refine ⟨s.apply m, e, ?_, ?_, hcanonical.least⟩
    · rw [value, hx, number_finite, number_aligned s m le_rfl, sub_self]
      rfl
    · cases s with
      | negative =>
          show |((-m : Int) : ℚ)| < 2 ^ 53
          rw [Int.cast_neg, abs_neg, Int.cast_natCast, Nat.abs_cast]
          exact hlt
      | positive =>
          show |((m : Int) : ℚ)| < 2 ^ 53
          rw [Int.cast_natCast, Nat.abs_cast]
          exact hlt

/-- A short number is not moved by rounding. -/
theorem Nearby.eq_of_short {v w : ℚ} (h : Nearby v w) (hv : Short v) : w = v :=
  le_antisymm (h.le v hv le_rfl) (h.ge v hv le_rfl)

/-- What a double can hold is rounded to itself. -/
theorem Rounds.exact_of_short {v : ℚ} {x : Float} (h : Rounds v x.toModel.unpack) (hv : Short v)
    (hlt : |v| < limit) : x.isFinite = true ∧ value x = v := by
  obtain ⟨w, hw, ⟨hreal, hvalue⟩ | ⟨s, -, hgreat⟩⟩ := h
  · exact ⟨hreal, hvalue.trans (hw.eq_of_short hv)⟩
  · rw [hw.eq_of_short hv] at hgreat
    rw [abs_lt] at hlt
    cases s with
    | negative =>
        rw [factor] at hgreat
        linarith
    | positive =>
        rw [factor] at hgreat
        linarith

/-! ## Order -/

/-- No double reaches the limit. -/
theorem abs_value_lt_limit (x : Float) : |value x| < limit := by
  have hlimit : (2 : ℚ) ^ (53 : ℤ) * 2 ^ (971 : ℤ) = limit := (zpow_add₀ two_ne_zero 53 971).symm
  by_cases hx : x.isFinite = true
  · obtain ⟨s, hx⟩ | ⟨s, m, e, hm, hx⟩ := unpack_of_isFinite hx
    · rw [value, hx, number_zero, abs_zero, limit]
      positivity
    · obtain ⟨hlt, he⟩ := unpack_bounds hx
      have hm : (m : ℚ) < 2 ^ (53 : ℤ) := by exact_mod_cast hlt
      have hfactor : |factor s| = 1 := by
        cases s with
        | negative => exact (abs_neg 1).trans abs_one
        | positive => exact abs_one
      rw [value, hx, number_finite, abs_mul, hfactor, one_mul, abs_of_nonneg (by positivity),
        ← hlimit]
      exact mul_lt_mul hm (zpow_le_zpow_right₀ one_le_two he) (by positivity) (by positivity)
  · rw [value_of_not_isFinite hx, abs_zero, limit]
    positivity

/-- Rounding does not go past a double. -/
theorem le_of_rounds {v : ℚ} {x y : Float} (h : Rounds v x.toModel.unpack)
    (hy : y.isFinite = true) (hv : v ≤ value y) : x ≤ y := by
  obtain ⟨w, hw, ⟨hreal, hvalue⟩ | ⟨s, hinfinite, hgreat⟩⟩ := h
  · rw [le_iff_value hreal hy, value, hvalue]
    exact hw.le _ (short_value hy) hv
  · cases s with
    | positive =>
        -- too great a number for a double would have gone past
        have hlt := (abs_lt.mp (abs_value_lt_limit y)).2
        have hle := hw.le _ (short_value hy) hv
        rw [factor] at hgreat
        linarith
    | negative =>
        rw [le_iff_compare, hinfinite]
        obtain ⟨t, hy⟩ | ⟨t, m, e, hm, hy⟩ := unpack_of_isFinite hy
        · rw [hy]
          rfl
        · rw [hy]
          cases t <;> rfl

/-- Infinity is not below a finite number. -/
theorem not_le_of_infinity {x y : Float} (hx : x.toModel.unpack = .infinity .positive)
    (hy : y.isFinite = true) : ¬ x ≤ y := by
  intro hle
  rw [le_iff_compare, hx] at hle
  obtain ⟨t, hy⟩ | ⟨t, m, e, hm, hy⟩ := unpack_of_isFinite hy
  · rw [hy] at hle
    cases hle
  · rw [hy] at hle
    cases t <;> cases hle

/-- Infinity less a finite number is infinity of the same sign. -/
theorem unpack_sub_of_infinity {x y : Float} {s : UnpackedFloat.Sign}
    (hx : x.toModel.unpack = .infinity s) (hy : y.isFinite = true) :
    (x - y).toModel.unpack = .infinity s := by
  have hsub : (x - y).toModel.unpack = (Float.Model.pack (UnpackedFloat.sub .binary64
    x.toModel.unpack y.toModel.unpack)).unpack := rfl
  rw [hsub, hx]
  obtain ⟨t, hy⟩ | ⟨t, m, e, hm, hy⟩ := unpack_of_isFinite hy
  · rw [hy]
    exact unpack_pack_infinity s
  · rw [hy]
    exact unpack_pack_infinity s

/-- What is rounded from a number that is not far below zero is real if it is
    not above a real number. -/
theorem Rounds.isFinite_of_le {v : ℚ} {x y : Float} (h : Rounds v x.toModel.unpack)
    (hv : -1 ≤ v) (hle : x ≤ y) (hy : y.isFinite = true) : x.isFinite = true := by
  obtain ⟨w, hw, ⟨hreal, -⟩ | ⟨s, hinfinite, hgreat⟩⟩ := h
  · exact hreal
  · cases s with
    | positive => exact absurd hle (not_le_of_infinity hinfinite hy)
    | negative =>
        have hshort : Short (-1) := ⟨-1, 0, by norm_num, by norm_num, by norm_num⟩
        have hge := hw.ge _ hshort hv
        have hone : 1 < limit := one_lt_zpow₀ one_lt_two (by norm_num)
        rw [factor] at hgreat
        linarith

/-! ## Whole numbers -/

/-- Numbers below `2 ^ 53` fit into the digits of a double. -/
theorem short_natCast {n : Nat} (hn : n < Nat.pow 2 53) : Short n := by
  have hlt : (n : ℚ) < 2 ^ 53 := by exact_mod_cast hn
  refine ⟨n, 0, ?_, ?_, by norm_num⟩
  · rw [zpow_zero, mul_one, Int.cast_natCast]
  · rw [Int.cast_natCast, Nat.abs_cast]
    exact hlt

/-- A whole number is converted and then multiplied by one. -/
theorem ofNat_eq {n : Nat} (hn : n < Nat.pow 2 53) :
    Float.ofNat n = n.toUInt64.toFloat * Float.exactlyRepresentablePowersOfTen[0] := by
  have hfast : n < 2 ^ 53 ∧ 0 ≤ 22 := ⟨hn, by decide⟩
  show Float.ofScientific n false 0 = _
  unfold Float.ofScientific
  rw [dif_pos hfast]
  rfl

/-- Such a number is turned into a double as it is. -/
theorem rounds_toFloat {n : Nat} (hn : n < Nat.pow 2 53) :
    Rounds n n.toUInt64.toFloat.toModel.unpack := by
  have hbits : n.toUInt64.toNat = n := Nat.mod_eq_of_lt (hn.trans (by decide))
  have hrounds := rounds_normalize (n.toUInt64.toNat : Int) 0 .positive
  rw [zpow_zero, mul_one, Int.cast_natCast, hbits] at hrounds
  have hmodel : n.toUInt64.toFloat.toModel.unpack = (Float.Model.pack
      (UnpackedFloat.normalize .binary64 (n.toUInt64.toNat : Int) 0 .positive)).unpack := rfl
  rw [hmodel, hbits]
  exact hrounds

/-- Whole numbers that are not too great are doubles. -/
theorem value_ofNat {n : Nat} (hn : n < Nat.pow 2 53) :
    (Float.ofNat n).isFinite = true ∧ value (Float.ofNat n) = n := by
  have hlt : (n : ℚ) < 2 ^ 53 := by exact_mod_cast hn
  have hsmall : |(n : ℚ)| < limit := by
    rw [Nat.abs_cast]
    exact hlt.trans (zpow_lt_zpow_right₀ one_lt_two (by norm_num : (53 : ℤ) < 1024))
  have hone : value Float.exactlyRepresentablePowersOfTen[0] = 1 := by
    show factor .positive * ((4503599627370496 : Nat) * 2 ^ (-52 : Int)) = 1
    norm_num [factor]
  obtain ⟨hreal, hvalue⟩ := (rounds_toFloat hn).exact_of_short (short_natCast hn) hsmall
  have hproduct := rounds_mul (y := Float.exactlyRepresentablePowersOfTen[0]) hreal rfl
  rw [hvalue, hone, mul_one, ← ofNat_eq hn] at hproduct
  exact hproduct.exact_of_short (short_natCast hn) hsmall

/-- What is not above a whole number is not above it when rounded up. -/
theorem ceil_le_of_le {x : Float} {n : Nat} (hn : n < Nat.pow 2 53) (h : x ≤ Float.ofNat n) :
    ceil x ≤ n := by
  obtain ⟨hreal, hvalue⟩ := value_ofNat hn
  apply ceil_le
  by_cases hx : x.isFinite = true
  · rw [← hvalue]
    exact (le_iff_value hx hreal).mp h
  · rw [value_of_not_isFinite hx]
    exact Nat.cast_nonneg n

/-! ## What is real comes of what is real -/

/-- Packing does not make a finite number of what is none. -/
theorem isFinite_of_pack {u : UnpackedFloat}
    (h : (Float.Model.pack u).unpack.isFinite = true) : u.isFinite = true := by
  cases u with
  | notANumber =>
      rw [not_isFinite_pack_nan] at h
      cases h
  | infinity s =>
      rw [not_isFinite_pack_infinity] at h
      cases h
  | zero s => rfl
  | finite s m e hm => rfl

section Real

variable {x y : Float}

/-- A sum is finite only if both its parts are. -/
theorem isFinite_of_add (h : (x + y).isFinite = true) :
    x.isFinite = true ∧ y.isFinite = true := by
  have hsum : (UnpackedFloat.add .binary64 x.toModel.unpack y.toModel.unpack).isFinite = true :=
    isFinite_of_pack h
  show x.toModel.unpack.isFinite = true ∧ y.toModel.unpack.isFinite = true
  generalize x.toModel.unpack = u at hsum
  generalize y.toModel.unpack = v at hsum
  cases u with
  | notANumber => cases hsum
  | infinity s =>
      cases v with
      | infinity t => cases s <;> cases t <;> cases hsum
      | _ => cases hsum
  | zero s =>
      cases v with
      | notANumber => cases hsum
      | infinity t => cases hsum
      | _ => exact ⟨rfl, rfl⟩
  | finite s m e hm =>
      cases v with
      | notANumber => cases hsum
      | infinity t => cases hsum
      | _ => exact ⟨rfl, rfl⟩

/-- A difference is finite only if both its parts are. -/
theorem isFinite_of_sub (h : (x - y).isFinite = true) :
    x.isFinite = true ∧ y.isFinite = true := by
  have hdiff : (UnpackedFloat.sub .binary64 x.toModel.unpack y.toModel.unpack).isFinite = true :=
    isFinite_of_pack h
  show x.toModel.unpack.isFinite = true ∧ y.toModel.unpack.isFinite = true
  generalize x.toModel.unpack = u at hdiff
  generalize y.toModel.unpack = v at hdiff
  cases u with
  | notANumber => cases hdiff
  | infinity s =>
      cases v with
      | infinity t => cases s <;> cases t <;> cases hdiff
      | _ => cases hdiff
  | zero s =>
      cases v with
      | notANumber => cases hdiff
      | infinity t => cases hdiff
      | _ => exact ⟨rfl, rfl⟩
  | finite s m e hm =>
      cases v with
      | notANumber => cases hdiff
      | infinity t => cases hdiff
      | _ => exact ⟨rfl, rfl⟩

/-- A product is finite only if its second factor is. -/
theorem isFinite_right_of_mul (h : (x * y).isFinite = true) : y.isFinite = true := by
  have hproduct :
      (UnpackedFloat.mul .binary64 x.toModel.unpack y.toModel.unpack).isFinite = true :=
    isFinite_of_pack h
  show y.toModel.unpack.isFinite = true
  generalize x.toModel.unpack = u at hproduct
  generalize y.toModel.unpack = v at hproduct
  cases v with
  | notANumber => cases u <;> cases hproduct
  | infinity t => cases u <;> cases hproduct
  | zero t => rfl
  | finite t m e hm => rfl

/-- A quotient is finite only if what is divided is; the divisor may be
    infinite. -/
theorem isFinite_of_div (h : (x / y).isFinite = true) : x.isFinite = true := by
  have hquotient :
      (UnpackedFloat.div .binary64 x.toModel.unpack y.toModel.unpack).isFinite = true :=
    isFinite_of_pack h
  show x.toModel.unpack.isFinite = true
  generalize x.toModel.unpack = u at hquotient
  generalize y.toModel.unpack = v at hquotient
  cases u with
  | notANumber => cases hquotient
  | infinity s => cases v <;> cases hquotient
  | zero s => rfl
  | finite s m e hm => rfl

/-! ## Real results

    A real result is near the exact one. -/

theorem nearby_add (h : (x + y).isFinite = true) :
    Nearby (value x + value y) (value (x + y)) :=
  (rounds_add (isFinite_of_add h).1 (isFinite_of_add h).2).nearby h

theorem nearby_sub (h : (x - y).isFinite = true) :
    Nearby (value x - value y) (value (x - y)) :=
  (rounds_sub (isFinite_of_sub h).1 (isFinite_of_sub h).2).nearby h

theorem nearby_mul (h : (x * y).isFinite = true) :
    Nearby (value x * value y) (value (x * y)) :=
  (rounds_mul (isFinite_of_mul h) (isFinite_right_of_mul h)).nearby h

theorem nearby_div (h : (x / y).isFinite = true) (hy : y.isFinite = true) (hne : value y ≠ 0) :
    Nearby (value x / value y) (value (x / y)) :=
  (rounds_div (isFinite_of_div h) hy hne).nearby h

end Real

end MillScript.Decimal
