import Mathlib.Tactic.Ring
import MillScript.Proofs.Decimal.Value

/-! # Rounding

    The result of an operation on doubles is a number near the exact result.
    `Nearby` says how near: the error is small against the result or is at
    most the least positive double, and no number that a double could stand
    for lies between the two.  `Rounds` adds that a result with too great an
    exponent is infinite. -/

namespace MillScript.Decimal

open Float.Model

/-! ## Packing -/

/-- The sign bit is read back. -/
theorem unpackSign_packComponents (s : UnpackedFloat.Sign) (x : BitVec 11) (y : BitVec 52) :
    UnpackedFloat.Sign.ofBitVec
      (UnpackedFloat.unpackSign (UnpackedFloat.packComponents .binary64 s x y)) = s := by
  have hbit : UnpackedFloat.unpackSign (UnpackedFloat.packComponents .binary64 s x y)
      = s.toBitVec := by
    refine BitVec.eq_of_toNat_eq ?_
    show ((s.toBitVec ++ x ++ y).extractLsb 63 63).toNat = _
    rw [BitVec.extractLsb_toNat, BitVec.toNat_append, BitVec.toNat_append,
      ← Nat.shiftLeft_add_eq_or_of_lt x.isLt, ← Nat.shiftLeft_add_eq_or_of_lt y.isLt,
      Nat.shiftRight_eq_div_pow, Nat.shiftLeft_eq, Nat.shiftLeft_eq]
    have hx := x.isLt
    have hy := y.isLt
    have hs := s.toBitVec.isLt
    omega
  rw [hbit]
  cases s <;> rfl

theorem finite_congr {s s' : UnpackedFloat.Sign} {m m' : Nat} {e e' : Int} {hm : 0 < m}
    {hm' : 0 < m'} (hsign : s = s') (hmantissa : m = m') (hexponent : e = e') :
    UnpackedFloat.finite s m e hm = .finite s' m' e' hm' := by
  subst hsign hmantissa hexponent
  rfl

/-- The leading bit that is not stored is worth `2 ^ 52`. -/
theorem toNat_implicit (y : BitVec 52) : (1#1 ++ y).toNat = Nat.pow 2 52 + y.toNat := by
  rw [BitVec.toNat_append, ← Nat.shiftLeft_add_eq_or_of_lt y.isLt]
  rfl

/-- With an exponent of zero a double has no leading bit: its digits end at `2
    ^ -1074`. -/
theorem unpack_packComponents_least (s : UnpackedFloat.Sign) {y : BitVec 52} (hy : 0 < y.toNat) :
    UnpackedFloat.unpack .binary64 (UnpackedFloat.packComponents .binary64 s 0#11 y)
      = .finite s y.toNat (-1074) hy := by
  have hexponent : UnpackedFloat.unpackExponent
      (UnpackedFloat.packComponents .binary64 s 0#11 y) = 0#11 :=
    UnpackedFloat.unpackExponent_packComponents
  have hmantissa : UnpackedFloat.unpackMantissa
      (UnpackedFloat.packComponents .binary64 s 0#11 y) = y :=
    UnpackedFloat.unpackMantissa_packComponents
  have hpos : UnpackedFloat.unpackMantissa
      (UnpackedFloat.packComponents .binary64 s 0#11 y) ≠ 0#52 := by
    intro hzero
    rw [hmantissa] at hzero
    rw [hzero] at hy
    cases hy
  unfold UnpackedFloat.unpack
  dsimp only
  rw [if_neg (by rw [hexponent]; decide), if_pos hexponent, dif_neg hpos]
  refine finite_congr (unpackSign_packComponents s _ _) (by rw [hmantissa]) ?_
  rw [hexponent]
  rfl

/-- With any other exponent but the highest it has one. -/
theorem unpack_packComponents_of_ne (s : UnpackedFloat.Sign) {x : BitVec 11} (y : BitVec 52)
    (hx : x ≠ 0#11) (htop : x ≠ -1#11) :
    ∃ hpos, UnpackedFloat.unpack .binary64 (UnpackedFloat.packComponents .binary64 s x y)
      = .finite s (Nat.pow 2 52 + y.toNat) (x.toNat - 1075) hpos := by
  have hexponent : UnpackedFloat.unpackExponent
      (UnpackedFloat.packComponents .binary64 s x y) = x :=
    UnpackedFloat.unpackExponent_packComponents
  unfold UnpackedFloat.unpack
  dsimp only
  rw [if_neg (by rw [hexponent]; exact htop), if_neg (by rw [hexponent]; exact hx)]
  refine ⟨Nat.add_pos_left (by decide) _, finite_congr (unpackSign_packComponents s _ _) ?_ ?_⟩
  · rw [toNat_implicit, UnpackedFloat.unpackMantissa_packComponents]
  · rw [hexponent]
    rfl

/-- A mantissa with the implicit digit is packed under its exponent, one
    without under the least exponent. -/
theorem pack_finite (s : UnpackedFloat.Sign) {m : Nat} (e : Int) (hm : 0 < m) :
    UnpackedFloat.pack .binary64 (.finite s m e hm)
      = if 2048 ≤ (e + 1023 + 52).toNat + 1 then UnpackedFloat.packedInfinity .binary64 s
        else if m.log2 + 1 = 53 then UnpackedFloat.packComponents .binary64 s
          (BitVec.ofNat 11 (e + 1023 + 52).toNat) (BitVec.ofNat 52 m)
        else UnpackedFloat.packComponents .binary64 s 0#11 (BitVec.ofNat 52 m) := rfl

/-- The highest exponent is that of infinity. -/
theorem exponent_ne_top {k : Nat} (hlt : k < 2047) : BitVec.ofNat 11 k ≠ -1#11 := by
  intro htop
  have hsame := congrArg BitVec.toNat htop
  have hgreatest : (-1#11).toNat = 2047 := rfl
  rw [BitVec.toNat_ofNat, hgreatest, Nat.mod_eq_of_lt (by omega)] at hsame
  omega

/-- Packing loses nothing where the exponent fits. -/
theorem unpack_pack {s : UnpackedFloat.Sign} {m : Nat} {e : Int} {hm : 0 < m}
    (h : Canonical m e) (he : e ≤ 971) :
    (Float.Model.pack (.finite s m e hm)).unpack = .finite s m e hm := by
  have hleast := h.least
  have hlt : m < 2 ^ 53 := h.lt
  show UnpackedFloat.unpack .binary64 (UnpackedFloat.pack .binary64 (.finite s m e hm)) = _
  rw [pack_finite, if_neg (by omega)]
  -- the implicit digit is there or the exponent is the least one
  by_cases hfull : 2 ^ 52 ≤ m
  · have hlog : m.log2 + 1 = 53 := by
      have hlow : 52 ≤ m.log2 := (Nat.le_log2 (by omega)).mpr hfull
      have hhigh : m.log2 < 53 := (Nat.log2_lt (by omega)).mpr hlt
      omega
    have hexponent : (BitVec.ofNat 11 (e + 1023 + 52).toNat).toNat = (e + 1023 + 52).toNat := by
      rw [BitVec.toNat_ofNat, Nat.mod_eq_of_lt (by omega)]
    have hnonzero : BitVec.ofNat 11 (e + 1023 + 52).toNat ≠ 0#11 := by
      intro hzero
      rw [hzero, BitVec.toNat_zero] at hexponent
      omega
    obtain ⟨_, hunpack⟩ := unpack_packComponents_of_ne s (BitVec.ofNat 52 m) hnonzero
      (exponent_ne_top (by omega))
    rw [if_pos hlog, hunpack]
    refine finite_congr rfl ?_ (by omega)
    rw [BitVec.toNat_ofNat]
    show 2 ^ 52 + m % 2 ^ 52 = m
    omega
  · have hlog : ¬ m.log2 + 1 = 53 := by
      have hhigh : m.log2 < 52 := (Nat.log2_lt (by omega)).mpr (by omega)
      omega
    have hmantissa : (BitVec.ofNat 52 m).toNat = m := by
      rw [BitVec.toNat_ofNat, Nat.mod_eq_of_lt (by omega)]
    rw [if_neg hlog, unpack_packComponents_least s (by rw [hmantissa]; exact hm)]
    refine finite_congr rfl hmantissa ?_
    rcases h.full with hmore | hexponent
    · exact absurd hmore hfull
    · exact hexponent.symm

/-- A number whose exponent does not fit is packed as infinite. -/
theorem unpack_pack_of_lt {s : UnpackedFloat.Sign} {m : Nat} {e : Int} {hm : 0 < m}
    (he : 971 < e) : (Float.Model.pack (.finite s m e hm)).unpack = .infinity s := by
  show UnpackedFloat.unpack .binary64 (UnpackedFloat.pack .binary64 (.finite s m e hm)) = _
  rw [pack_finite, if_pos (by omega)]
  cases s <;> rfl

/-! ## Digits that are cut off -/

open UnpackedFloat (ExtendedMantissa Accuracy)

/-- A number lies less than one unit above a mantissa, and on it just if no
    bit is set below. -/
structure Truncates (em : ExtendedMantissa) (x : ℚ) : Prop where
  le : (em.mantissa : ℚ) ≤ x
  lt : x < em.mantissa + 1
  exact_iff : x = em.mantissa ↔ em.roundBit = false ∧ em.stickyBit = false

/-- An exact mantissa is the number itself. -/
theorem truncates_exact (m : Nat) : Truncates (.ofMantissaAndAccuracy m .exact) m := by
  refine ⟨le_rfl, ?_, iff_of_true rfl ⟨rfl, rfl⟩⟩
  show (m : ℚ) < m + 1
  linarith

/-- One digit is cut off: what it was is kept in the two bits below. -/
theorem Truncates.shiftRightOne {em : ExtendedMantissa} {x : ℚ} (h : Truncates em x) :
    Truncates em.shiftRightOne (x / 2) := by
  obtain ⟨m, round, sticky⟩ := em
  obtain ⟨hle, hlt, hexact⟩ := h
  dsimp only at hle hlt hexact
  have hsticky : (round || sticky) = false ↔ round = false ∧ sticky = false := Bool.or_eq_false_iff
  rcases Nat.mod_two_eq_zero_or_one m with heven | hodd
  · have hm : (m : ℚ) = 2 * (m / 2 : Nat) := by
      have hnat : m = 2 * (m / 2) := by omega
      exact_mod_cast hnat
    refine ⟨?_, ?_, ?_⟩
    · show ((m / 2 : Nat) : ℚ) ≤ x / 2
      linarith
    · show x / 2 < (m / 2 : Nat) + 1
      linarith
    · show x / 2 = (m / 2 : Nat) ↔ (m % 2 != 0) = false ∧ (round || sticky) = false
      rw [heven, hsticky, ← hexact]
      constructor
      · intro h
        exact ⟨rfl, by linarith⟩
      · rintro ⟨-, h⟩
        linarith
  · have hm : (m : ℚ) = 2 * (m / 2 : Nat) + 1 := by
      have hnat : m = 2 * (m / 2) + 1 := by omega
      exact_mod_cast hnat
    refine ⟨?_, ?_, ?_⟩
    · show ((m / 2 : Nat) : ℚ) ≤ x / 2
      linarith
    · show x / 2 < (m / 2 : Nat) + 1
      linarith
    · -- the bit that is cut off is set
      show x / 2 = (m / 2 : Nat) ↔ (m % 2 != 0) = false ∧ (round || sticky) = false
      rw [hodd]
      refine iff_of_false ?_ ?_
      · intro h
        linarith
      · rintro ⟨h, -⟩
        cases h

/-- Several digits are cut off one after the other. -/
theorem Truncates.shiftRight {em : ExtendedMantissa} {x : ℚ} (h : Truncates em x) (n : Nat) :
    Truncates (em >>> n) (x / 2 ^ n) := by
  show Truncates (n.repeat ExtendedMantissa.shiftRightOne em) (x / 2 ^ n)
  induction n with
  | zero =>
      rw [pow_zero, div_one]
      exact h
  | succ n ih =>
      rw [pow_succ, ← div_div]
      exact ih.shiftRightOne

/-- A mantissa is rounded down or, unless it is exact, up. -/
theorem roundedMantissa_cases (em : ExtendedMantissa) :
    em.roundedMantissa = em.mantissa ∨ em.roundedMantissa = em.mantissa + 1
      ∧ ¬ (em.roundBit = false ∧ em.stickyBit = false) := by
  obtain ⟨m, round, sticky⟩ := em
  cases round with
  | false => cases sticky <;> exact .inl rfl
  | true =>
      cases sticky with
      | false =>
          -- half way: to the even one
          rcases Nat.mod_two_eq_zero_or_one m with heven | hodd
          · exact .inl (congrArg (m + ·) heven)
          · exact .inr ⟨congrArg (m + ·) hodd, by rintro ⟨h, -⟩; cases h⟩
      | true => exact .inr ⟨rfl, by rintro ⟨h, -⟩; cases h⟩

/-- Rounding moves a number by less than one unit. -/
theorem Truncates.abs_rounded_sub_lt {em : ExtendedMantissa} {x : ℚ} (h : Truncates em x) :
    |(em.roundedMantissa : ℚ) - x| < 1 := by
  have hle := h.le
  have hlt := h.lt
  rw [abs_lt]
  rcases roundedMantissa_cases em with hdown | ⟨hup, hinexact⟩
  · rw [hdown]
    exact ⟨by linarith, by linarith⟩
  · have hne : (em.mantissa : ℚ) ≠ x := fun heq => hinexact (h.exact_iff.mp heq.symm)
    have hless := lt_of_le_of_ne hle hne
    rw [hup, Nat.cast_add, Nat.cast_one]
    exact ⟨by linarith, by linarith⟩

/-! ## Near a number -/

/-- A number of at most 53 binary digits, none of them below the least digit
    of a double. -/
def Short (y : ℚ) : Prop := ∃ k e : ℤ, y = k * 2 ^ e ∧ |(k : ℚ)| < 2 ^ 53 ∧ -1074 ≤ e

theorem Short.neg {y : ℚ} (h : Short y) : Short (-y) := by
  obtain ⟨k, e, rfl, hk, he⟩ := h
  refine ⟨-k, e, ?_, ?_, he⟩
  · rw [Int.cast_neg, neg_mul]
  · rw [Int.cast_neg, abs_neg]
    exact hk

/-- The least positive double. -/
def least : ℚ := 2 ^ (-1074 : ℤ)

theorem least_pos : 0 < least := by
  rw [least]
  positivity

/-- The least power of two that no real double reaches. -/
def limit : ℚ := 2 ^ (1024 : ℤ)

/-- A number that another one may be rounded to. -/
structure Nearby (v w : ℚ) : Prop where
  close : |w - v| ≤ |v| / 2 ^ 52 + least
  ge : ∀ y, Short y → y ≤ v → y ≤ w
  le : ∀ y, Short y → v ≤ y → w ≤ y

theorem Nearby.refl (v : ℚ) : Nearby v v := by
  refine ⟨?_, fun _ _ h => h, fun _ _ h => h⟩
  rw [sub_self, abs_zero]
  exact add_nonneg (by positivity) least_pos.le

section Grid

variable {v : ℚ} {r t : ℤ}

/-- Rounding on a grid passes no short number, as the grid is fine enough:
    what is shorter than its unit is less than the number itself. -/
theorem le_of_grid (h : |r * 2 ^ t - v| < 2 ^ t) (hfull : t ≤ -1074 ∨ 2 ^ 52 * 2 ^ t ≤ |v|)
    {y : ℚ} (hy : Short y) (hle : y ≤ v) : y ≤ r * 2 ^ t := by
  obtain ⟨k, e, rfl, hk, he⟩ := hy
  have hunit : (0 : ℚ) < 2 ^ t := by positivity
  have hbelow : v < (r + 1) * 2 ^ t := by
    rw [abs_lt] at h
    linarith [h.1]
  by_cases hcoarse : t ≤ e
  · -- a multiple of the unit
    have hmultiple : (k : ℚ) * 2 ^ e = (k * 2 ^ (e - t).toNat : ℤ) * 2 ^ t := by
      push_cast
      rw [mul_assoc, ← zpow_natCast, ← zpow_add₀ two_ne_zero]
      congr 2
      omega
    rw [hmultiple] at hle ⊢
    have hlt := lt_of_mul_lt_mul_right (hle.trans_lt hbelow) hunit.le
    have hint : k * 2 ^ (e - t).toNat ≤ r := Int.lt_add_one_iff.mp (by exact_mod_cast hlt)
    have hcast : ((k * 2 ^ (e - t).toNat : ℤ) : ℚ) ≤ r := by exact_mod_cast hint
    exact mul_le_mul_of_nonneg_right hcast hunit.le
  · -- with digits below the unit, and so with fewer above it
    have hsmall : |(k : ℚ) * 2 ^ e| < 2 ^ 52 * 2 ^ t := by
      have hpos : (0 : ℚ) < 2 ^ e := by positivity
      rw [abs_mul, abs_of_pos hpos]
      calc |(k : ℚ)| * 2 ^ e < 2 ^ 53 * 2 ^ e := by gcongr
        _ = 2 ^ 52 * 2 ^ (e + 1) := by
            rw [zpow_add_one₀ two_ne_zero]
            ring
        _ ≤ 2 ^ 52 * 2 ^ t := by
            gcongr
            · exact one_le_two
            · omega
    have hgreat : 2 ^ 52 * 2 ^ t ≤ |v| := hfull.resolve_left (by omega)
    rw [abs_lt] at hsmall
    rcases abs_cases v with ⟨habs, -⟩ | ⟨habs, -⟩
    · rw [habs] at hgreat
      have hlt := lt_of_mul_lt_mul_right (hgreat.trans_lt hbelow) hunit.le
      have hint : 2 ^ 52 ≤ r := Int.lt_add_one_iff.mp (by exact_mod_cast hlt)
      have hcast : (2 : ℚ) ^ 52 ≤ r := by exact_mod_cast hint
      exact hsmall.2.le.trans (mul_le_mul_of_nonneg_right hcast hunit.le)
    · linarith [hsmall.1]

/-- A point of a grid within one step of a number lies near it, if the grid is
    as fine as doubles are there. -/
theorem nearby_of_grid (h : |r * 2 ^ t - v| < 2 ^ t) (ht : -1074 ≤ t)
    (hfull : t = -1074 ∨ 2 ^ 52 * 2 ^ t ≤ |v|) : Nearby v (r * 2 ^ t) := by
  refine ⟨?_, fun y hy => le_of_grid h (hfull.imp_left le_of_eq) hy, ?_⟩
  · rcases hfull with rfl | hfull
    · have hpos : 0 ≤ |v| / 2 ^ 52 := by positivity
      rw [least]
      linarith
    · have hunit : (2 : ℚ) ^ t ≤ |v| / 2 ^ 52 := by
        rw [le_div_iff₀ (by positivity)]
        linarith
      linarith [least_pos]
  · -- the same below zero
    intro y hy hle
    have hneg : |((-r : ℤ) : ℚ) * 2 ^ t - -v| < 2 ^ t := by
      rw [Int.cast_neg, neg_mul, sub_neg_eq_add, neg_add_eq_sub, abs_sub_comm]
      exact h
    rw [← abs_neg] at hfull
    have hge := le_of_grid hneg (hfull.imp_left le_of_eq) hy.neg (neg_le_neg hle)
    rw [Int.cast_neg, neg_mul] at hge
    exact neg_le_neg_iff.mp hge

end Grid

/-! ## Rounding to a double -/

/-- The exponent of the last digit that is kept. -/
def lastDigit (m : Nat) (e : Int) : Int := max (m.log2 + e - 52) (-1074)

/-- The exponent that rounding aims at is that of the last digit. -/
theorem targetExponent_eq (m : Nat) (e : Int) :
    Format.binary64.targetExponent (totalExponent m e) = lastDigit m e := by
  show max ((m.log2 : Int) + 1 + e - (53 : Nat)) (-1074) = max (m.log2 + e - 52) (-1074)
  congr 1
  omega

/-- Cutting off the digits below the last one leaves the number in units of
    that digit. -/
theorem truncates_shiftToTargetExponent {m : Nat} {e : Int} {acc : Accuracy} {x : ℚ}
    (hx : Truncates (.ofMantissaAndAccuracy m acc) x) (he : e ≤ lastDigit m e) :
    Truncates (UnpackedFloat.shiftToTargetExponent .binary64 m e acc).1
        (x * 2 ^ e / 2 ^ lastDigit m e)
      ∧ (UnpackedFloat.shiftToTargetExponent .binary64 m e acc).2 = lastDigit m e := by
  show Truncates (ExtendedMantissa.ofMantissaAndAccuracy m acc
      >>> (Format.binary64.targetExponent (totalExponent m e) - e).toNat) _
    ∧ e + (Format.binary64.targetExponent (totalExponent m e) - e).toNat = _
  rw [targetExponent_eq]
  refine ⟨?_, by omega⟩
  have hshift : x * 2 ^ e / 2 ^ lastDigit m e = x / 2 ^ (lastDigit m e - e).toNat := by
    rw [← zpow_natCast, Int.toNat_of_nonneg (by omega), zpow_sub₀ two_ne_zero]
    field_simp
  rw [hshift]
  exact hx.shiftRight _

/-- A mantissa that has at most one digit too many loses nothing but a zero. -/
theorem exact_shiftToTargetExponent {r : Nat} {t : Int} (hr : r ≤ Nat.pow 2 53) (ht : -1074 ≤ t)
    (hfull : Nat.pow 2 52 ≤ r ∨ t = -1074) :
    ∃ em e, UnpackedFloat.shiftToTargetExponent .binary64 r t .exact = (em, e)
      ∧ Canonical em.mantissa e ∧ (em.mantissa : ℚ) * 2 ^ e = r * 2 ^ t := by
  refine ⟨ExtendedMantissa.ofMantissaAndAccuracy r .exact
      >>> (Format.binary64.targetExponent (totalExponent r t) - t).toNat,
    t + (Format.binary64.targetExponent (totalExponent r t) - t).toNat, rfl, ?_⟩
  rw [targetExponent_eq]
  rcases Nat.lt_or_eq_of_le hr with hlt | rfl
  · -- no digit too many: nothing is shifted
    have hlog : r.log2 ≤ 52 := by
      rcases Nat.eq_zero_or_pos r with rfl | hpos
      · decide
      · exact Nat.lt_succ_iff.mp ((Nat.log2_lt hpos.ne').mpr hlt)
    have hshift : (lastDigit r t - t).toNat = 0 := by
      rw [lastDigit]
      omega
    rw [hshift]
    show Canonical r (t + 0) ∧ (r : ℚ) * 2 ^ (t + 0) = r * 2 ^ t
    rw [add_zero]
    exact ⟨⟨hlt, hfull, ht⟩, rfl⟩
  · -- rounded up to a power of two
    have hshift : (lastDigit (Nat.pow 2 53) t - t).toNat = 1 := by
      have hlog : (Nat.pow 2 53).log2 = 53 := Nat.log2_two_pow
      rw [lastDigit, hlog]
      omega
    rw [hshift]
    show Canonical (Nat.pow 2 52) (t + 1) ∧ ((Nat.pow 2 52 : Nat) : ℚ) * 2 ^ (t + 1) = _
    refine ⟨⟨by decide, .inl le_rfl, by omega⟩, ?_⟩
    have hhalf : ((Nat.pow 2 53 : Nat) : ℚ) = (Nat.pow 2 52 : Nat) * 2 := by norm_num
    rw [zpow_add_one₀ two_ne_zero, hhalf]
    ring

/-- What a number becomes as a double: a number near it, or infinite if that
    has too great an exponent. -/
def Rounds (v : ℚ) (u : UnpackedFloat) : Prop :=
  ∃ w, Nearby v w ∧ (u.isFinite = true ∧ number u = w
    ∨ ∃ s, u = .infinity s ∧ limit ≤ factor s * w)

theorem unpack_pack_zero (s : UnpackedFloat.Sign) :
    (Float.Model.pack (.zero s)).unpack = .zero s := by
  cases s <;> rfl

theorem unpack_pack_infinity (s : UnpackedFloat.Sign) :
    (Float.Model.pack (.infinity s)).unpack = .infinity s := by
  cases s <;> rfl

theorem rounds_zero (s : UnpackedFloat.Sign) :
    Rounds 0 (Float.Model.pack (.zero s)).unpack := by
  rw [unpack_pack_zero]
  exact ⟨0, .refl 0, .inl ⟨rfl, rfl⟩⟩

/-- A mantissa and exponent that a double can hold are held as they are. -/
theorem rounds_pack {v : ℚ} {s : UnpackedFloat.Sign} {m : Nat} {e : Int} {hm : 0 < m}
    (h : Canonical m e) (hv : Nearby v (factor s * (m * 2 ^ e))) :
    Rounds v (Float.Model.pack (.finite s m e hm)).unpack := by
  refine ⟨_, hv, ?_⟩
  by_cases he : e ≤ 971
  · rw [unpack_pack h he]
    exact .inl ⟨rfl, rfl⟩
  · rw [unpack_pack_of_lt (by omega)]
    refine .inr ⟨s, rfl, ?_⟩
    have hfull : Nat.pow 2 52 ≤ m := h.full.resolve_right (by omega)
    have hm : (2 : ℚ) ^ (52 : ℤ) ≤ m := by exact_mod_cast hfull
    have hsign : factor s * (factor s * (m * 2 ^ e)) = m * 2 ^ e := by
      cases s <;> rw [factor] <;> ring
    rw [hsign]
    calc limit = 2 ^ (52 : ℤ) * 2 ^ (972 : ℤ) := (zpow_add₀ two_ne_zero 52 972)
      _ ≤ m * 2 ^ e := by
          gcongr
          · exact one_le_two
          · omega

/-- Nearness does not hang on the sign. -/
theorem nearby_factor {v : ℚ} {r : Nat} {t : Int} (s : UnpackedFloat.Sign)
    (h : |(r : ℚ) * 2 ^ t - v| < 2 ^ t) (ht : -1074 ≤ t)
    (hfull : t = -1074 ∨ 2 ^ 52 * 2 ^ t ≤ |v|) :
    Nearby (factor s * v) (factor s * (r * 2 ^ t)) := by
  cases s with
  | positive =>
      rw [factor, one_mul, one_mul]
      exact nearby_of_grid (r := (r : ℤ)) h ht hfull
  | negative =>
      have hcast : factor .negative * ((r : ℚ) * 2 ^ t) = ((-r : ℤ) : ℚ) * 2 ^ t := by
        rw [factor]
        push_cast
        ring
      rw [hcast]
      refine nearby_of_grid ?_ ht ?_
      · rw [← hcast, factor, ← mul_sub, abs_mul, abs_neg, abs_one, one_mul]
        exact h
      · rw [factor, neg_one_mul, abs_neg]
        exact hfull

section Round

variable {m : Nat} {e : Int} {acc : Accuracy} {x : ℚ}

/-- Unless the last digit is the least one, a number has 53 digits above
    it. -/
theorem full_of_lastDigit (hx : (m : ℚ) ≤ x) (he : e ≤ lastDigit m e) :
    lastDigit m e = -1074 ∨ 2 ^ 52 * 2 ^ lastDigit m e ≤ x * 2 ^ e := by
  by_cases hleast : lastDigit m e = -1074
  · exact .inl hleast
  · have hdigit : lastDigit m e = m.log2 + e - 52 := by
      rw [lastDigit] at hleast ⊢
      omega
    have hm : m ≠ 0 := by
      rintro rfl
      rw [Nat.log2_zero] at hdigit
      omega
    have hlog : (2 : ℚ) ^ (m.log2 : ℤ) ≤ m := by exact_mod_cast Nat.log2_self_le hm
    refine .inr ?_
    calc (2 : ℚ) ^ 52 * 2 ^ lastDigit m e = 2 ^ (m.log2 : ℤ) * 2 ^ e := by
          rw [hdigit, ← zpow_natCast, ← zpow_add₀ two_ne_zero, ← zpow_add₀ two_ne_zero]
          congr 1
          omega
      _ ≤ x * 2 ^ e := by
          gcongr
          exact hlog.trans hx

/-- A number has at most 53 digits above its last one. -/
theorem lt_of_lastDigit (hx : x < m + 1) : x * 2 ^ e / 2 ^ lastDigit m e < 2 ^ 53 := by
  have hlog : (m : ℚ) + 1 ≤ 2 ^ ((m.log2 : ℤ) + 1) := by
    have hnat : m + 1 ≤ 2 ^ (m.log2 + 1) := Nat.lt_log2_self
    exact_mod_cast hnat
  rw [div_lt_iff₀ (by positivity)]
  calc x * 2 ^ e < 2 ^ ((m.log2 : ℤ) + 1) * 2 ^ e := by
        gcongr
        exact hx.trans_le hlog
    _ = 2 ^ ((m.log2 : ℤ) + 1 + e) := by rw [← zpow_add₀ two_ne_zero]
    _ ≤ 2 ^ (53 + lastDigit m e) := by
        refine zpow_le_zpow_right₀ one_le_two ?_
        rw [lastDigit]
        omega
    _ = 2 ^ 53 * 2 ^ lastDigit m e := by
        rw [zpow_add₀ two_ne_zero]
        norm_num

section Rounded

variable {r : Nat} {t : Int} {v : ℚ} (hnear : |(r : ℚ) - v / 2 ^ t| < 1)

include hnear

/-- A rounded mantissa has at most one digit too many, -/
theorem le_of_rounded (hdigits : v / 2 ^ t < 2 ^ 53) : r ≤ Nat.pow 2 53 := by
  rw [abs_lt] at hnear
  have hcast : (r : ℚ) < 2 ^ 53 + 1 := by linarith
  exact Nat.lt_succ_iff.mp (by exact_mod_cast hcast)

/-- and no digit too few. -/
theorem full_of_rounded (hfull : t = -1074 ∨ 2 ^ 52 * 2 ^ t ≤ v) :
    Nat.pow 2 52 ≤ r ∨ t = -1074 := by
  rcases hfull with hleast | hfull
  · exact .inr hleast
  · rw [← le_div_iff₀ (by positivity)] at hfull
    rw [abs_lt] at hnear
    have hcast : (2 : ℚ) ^ 52 < r + 1 := by linarith
    exact .inl (Nat.lt_succ_iff.mp (by exact_mod_cast hcast))

/-- The rounded mantissa lies within one unit of the last digit. -/
theorem abs_mul_sub_lt : |(r : ℚ) * 2 ^ t - v| < 2 ^ t := by
  have hunit : (0 : ℚ) < 2 ^ t := by positivity
  have hscale : (r : ℚ) * 2 ^ t - v = (r - v / 2 ^ t) * 2 ^ t := by field_simp
  rw [hscale, abs_mul, abs_of_pos hunit]
  calc |(r : ℚ) - v / 2 ^ t| * 2 ^ t < 1 * 2 ^ t := by gcongr
    _ = 2 ^ t := one_mul _

end Rounded

/-- Digits are cut off and rounded, and if that made one too many it is cut
    off as well. -/
theorem roundWithAccuracy_eq (s : UnpackedFloat.Sign) (m : Nat) (e : Int) (acc : Accuracy) :
    UnpackedFloat.roundWithAccuracy .binary64 s m e acc
      = if h : (UnpackedFloat.shiftToTargetExponent .binary64
            (UnpackedFloat.shiftToTargetExponent .binary64 m e acc).1.roundedMantissa
            (UnpackedFloat.shiftToTargetExponent .binary64 m e acc).2 .exact).1.mantissa = 0
        then .zero s
        else .finite s _ (UnpackedFloat.shiftToTargetExponent .binary64
            (UnpackedFloat.shiftToTargetExponent .binary64 m e acc).1.roundedMantissa
            (UnpackedFloat.shiftToTargetExponent .binary64 m e acc).2 .exact).2
            (Nat.pos_of_ne_zero h) := rfl

/-- A mantissa is kept, whatever was cut off before. -/
theorem mantissa_ofMantissaAndAccuracy (m : Nat) (acc : Accuracy) :
    (ExtendedMantissa.ofMantissaAndAccuracy m acc).mantissa = m := by
  cases acc with
  | exact => rfl
  | inexact o => cases o <;> rfl

/-- **Digits are rounded to a double near the number that they stand for.** -/
theorem rounds_roundWithAccuracy (s : UnpackedFloat.Sign)
    (hx : Truncates (.ofMantissaAndAccuracy m acc) x) (he : e ≤ lastDigit m e) :
    Rounds (factor s * (x * 2 ^ e))
      (Float.Model.pack (UnpackedFloat.roundWithAccuracy .binary64 s m e acc)).unpack := by
  obtain ⟨htruncates, hdigit⟩ := truncates_shiftToTargetExponent hx he
  have hround := roundWithAccuracy_eq s m e acc
  have hnear := htruncates.abs_rounded_sub_lt
  rw [hdigit] at hround
  generalize (UnpackedFloat.shiftToTargetExponent .binary64 m e acc).1.roundedMantissa = r
    at hround hnear
  have hle := hx.le
  have hlt := hx.lt
  rw [mantissa_ofMantissaAndAccuracy] at hle hlt
  have hleast : -1074 ≤ lastDigit m e := le_max_right _ _
  have hfull := full_of_lastDigit hle he
  have hdigits := lt_of_lastDigit (e := e) hlt
  generalize lastDigit m e = t at hround hnear hleast hfull hdigits
  have hv : 0 ≤ x * 2 ^ e := mul_nonneg ((Nat.cast_nonneg m).trans hle) (by positivity)
  have hnearby : Nearby (factor s * (x * 2 ^ e)) (factor s * (r * 2 ^ t)) := by
    refine nearby_factor s (abs_mul_sub_lt hnear) hleast ?_
    rw [abs_of_nonneg hv]
    exact hfull
  obtain ⟨em, e', hshift, hcanonical, hvalue⟩ := exact_shiftToTargetExponent
    (le_of_rounded hnear hdigits) hleast (full_of_rounded hnear hfull)
  rw [hshift] at hround
  rw [← hvalue] at hnearby
  rw [hround]
  by_cases hzero : em.mantissa = 0
  · rw [dif_pos hzero, unpack_pack_zero]
    rw [hzero, Nat.cast_zero, zero_mul, mul_zero] at hnearby
    exact ⟨0, hnearby, .inl ⟨rfl, rfl⟩⟩
  · rw [dif_neg hzero]
    exact rounds_pack hcanonical hnearby

end Round

end MillScript.Decimal
