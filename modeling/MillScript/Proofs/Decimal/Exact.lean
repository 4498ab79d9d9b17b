import MillScript.Decimal.Exact

/-! # Doubles by their exact reading

    Facts about the order of doubles, their whole part and whether they are
    real numbers, by cases on what a double stands for. -/

namespace MillScript.Decimal

open Float.Model

/-! ## Whole parts -/

/-- The strict order is read off the comparison. -/
theorem lt_iff_compare {a b : Float} :
    a < b ↔ a.toModel.unpack.compare b.toModel.unpack = some .lt := by
  show decide ((a.toModel.unpack.compare b.toModel.unpack == some .lt) = true) = true ↔ _
  rw [decide_eq_true_iff, beq_iff_eq]

theorem unpack_one : ∃ m e hm, (1 : Float).toModel.unpack = .finite .positive m e hm :=
  ⟨_, _, _, rfl⟩

/-- A magnitude that is whole and not zero is at least one. -/
theorem Magnitude.one_le_floor {m : Magnitude} (hwhole : m.isWhole = true)
    (hpos : 0 < m.mantissa) : 1 ≤ m.floor := by
  have hmod : m.num % m.den = 0 := by simpa [isWhole] using hwhole
  have hnum : 0 < m.num := Nat.mul_pos hpos (Nat.two_pow_pos _)
  have hle : m.den ≤ m.num := Nat.le_of_dvd hnum (Nat.dvd_of_mod_eq_zero hmod)
  exact Nat.div_pos hle m.den_pos

/-- A whole number that is not below one has a whole part of at least one. -/
theorem one_le_floor {x : Float} (hwhole : isWhole x = true) (hone : ¬ x < 1) :
    1 ≤ floor x := by
  obtain ⟨n, e, hn, hunit⟩ := unpack_one
  rw [lt_iff_compare, hunit] at hone
  rw [isWhole, read] at hwhole
  rw [floor, read]
  cases hx : x.toModel.unpack with
  | notANumber =>
      rw [hx] at hwhole
      cases hwhole
  | infinity s =>
      rw [hx] at hwhole
      cases hwhole
  | zero s =>
      rw [hx] at hone
      exact absurd rfl hone
  | finite s m e' hm =>
      rw [hx] at hone hwhole
      cases s with
      | negative => exact absurd rfl hone
      | positive =>
          have hmagnitude : (Magnitude.mk m e').isWhole = true := hwhole
          exact Magnitude.one_le_floor hmagnitude hm

/-- A larger fraction has no smaller floor. -/
theorem Magnitude.floor_le_floor {m n : Magnitude} (h : m.num * n.den ≤ n.num * m.den) :
    m.floor ≤ n.floor := by
  have hdown : m.floor * m.den ≤ m.num := Nat.div_mul_le_self _ _
  refine (Nat.le_div_iff_mul_le n.den_pos).mpr (Nat.le_of_mul_le_mul_right ?_ m.den_pos)
  calc m.floor * n.den * m.den = m.floor * m.den * n.den := by
        rw [Nat.mul_assoc, Nat.mul_comm n.den, ← Nat.mul_assoc]
    _ ≤ m.num * n.den := Nat.mul_le_mul_right _ hdown
    _ ≤ n.num * m.den := h

/-! ## Real numbers -/

/-- A packed number is a real one unless its exponent is the greatest. -/
theorem isFinite_unpack (b : BitVec Format.binary64.numBits) :
    (UnpackedFloat.unpack .binary64 b).isFinite = true
      ↔ UnpackedFloat.unpackExponent b ≠ -1#_ := by
  unfold UnpackedFloat.unpack
  dsimp only
  by_cases hexp : UnpackedFloat.unpackExponent b = -1#11
  · rw [if_pos hexp]
    refine iff_of_false ?_ fun h => h hexp
    by_cases hmantissa : UnpackedFloat.unpackMantissa b = 0#52
    · rw [if_pos hmantissa]
      exact Bool.false_ne_true
    · rw [if_neg hmantissa]
      exact Bool.false_ne_true
  · rw [if_neg hexp]
    refine iff_of_true ?_ hexp
    by_cases hzero : UnpackedFloat.unpackExponent b = 0#11
    · rw [if_pos hzero]
      by_cases hmantissa : UnpackedFloat.unpackMantissa b = 0#52
      · rw [dif_pos hmantissa]
        rfl
      · rw [dif_neg hmantissa]
        rfl
    · rw [if_neg hzero]
      rfl

/-- A packed number that is real and not zero has the least exponent, or one
    digit more than it shows. -/
theorem unpack_eq_finite {b : BitVec Format.binary64.numBits} {s : UnpackedFloat.Sign} {m : Nat}
    {e : Int} {hm : 0 < m} (h : UnpackedFloat.unpack .binary64 b = .finite s m e hm) :
    m < Nat.pow 2 52 ∧ e = -1074
      ∨ Nat.pow 2 52 ≤ m ∧ m < Nat.pow 2 53 ∧ -1074 ≤ e ∧ e ≤ 971 := by
  show m < 2 ^ 52 ∧ _ ∨ 2 ^ 52 ≤ m ∧ m < 2 ^ 53 ∧ _
  unfold UnpackedFloat.unpack at h
  dsimp only at h
  have hmantissa : (UnpackedFloat.unpackMantissa b).toNat < 2 ^ 52 :=
    (UnpackedFloat.unpackMantissa b).isLt
  have hbias : (Format.binary64.exponentBias : Int) = 1023 := rfl
  by_cases hgreatest : UnpackedFloat.unpackExponent b = -1#11
  · rw [if_pos hgreatest] at h
    by_cases hnone : UnpackedFloat.unpackMantissa b = 0#52
    · rw [if_pos hnone] at h
      cases h
    · rw [if_neg hnone] at h
      cases h
  · rw [if_neg hgreatest] at h
    by_cases hzero : UnpackedFloat.unpackExponent b = 0#11
    · -- too small for an implicit bit
      rw [if_pos hzero] at h
      by_cases hnone : UnpackedFloat.unpackMantissa b = 0#52
      · rw [dif_pos hnone] at h
        cases h
      · rw [dif_neg hnone] at h
        injection h with _ hm he
        rw [hzero, hbias] at he
        refine .inl ⟨by omega, ?_⟩
        rw [← he]
        decide
    · rw [if_neg hzero] at h
      injection h with _ hm he
      have hdigit : (1#1 ++ UnpackedFloat.unpackMantissa b).toNat
          = 2 ^ 52 + (UnpackedFloat.unpackMantissa b).toNat := by
        rw [BitVec.toNat_append, ← Nat.shiftLeft_add_eq_or_of_lt hmantissa]
        rfl
      have hlt : (UnpackedFloat.unpackExponent b).toNat < 2 ^ 11 :=
        (UnpackedFloat.unpackExponent b).isLt
      have hne : (UnpackedFloat.unpackExponent b).toNat ≠ 2047 := by
        intro htop
        refine hgreatest (BitVec.eq_of_toNat_eq ?_)
        rw [htop]
        rfl
      have hpos : (UnpackedFloat.unpackExponent b).toNat ≠ 0 := by
        intro hnone
        refine hzero (BitVec.eq_of_toNat_eq ?_)
        rw [hnone]
        rfl
      rw [hbias] at he
      have hbits : ((52 : Nat) : Int) = 52 := rfl
      exact .inr ⟨by omega, by omega, by omega, by omega⟩

/-- Mantissa and exponent of a double are bounded. -/
theorem unpack_bounds {b : BitVec Format.binary64.numBits} {s : UnpackedFloat.Sign} {m : Nat}
    {e : Int} {hm : 0 < m} (h : UnpackedFloat.unpack .binary64 b = .finite s m e hm) :
    m < Nat.pow 2 53 ∧ e ≤ 971 := by
  have hpow : Nat.pow 2 52 < Nat.pow 2 53 := by decide
  rcases unpack_eq_finite h with ⟨hm, he⟩ | ⟨-, hm, -, he⟩
  · exact ⟨Nat.lt_trans hm hpow, by omega⟩
  · exact ⟨hm, he⟩

/-- A number whose exponent fits stays a real one when it is packed. -/
theorem isFinite_pack {s : UnpackedFloat.Sign} {m : Nat} {e : Int} (hm : 0 < m) (h : e ≤ 971) :
    (UnpackedFloat.unpack .binary64 (UnpackedFloat.pack .binary64 (.finite s m e hm))).isFinite
      = true := by
  rw [isFinite_unpack]
  have hbias : (Format.binary64.exponentBias : Int) = 1023 := rfl
  unfold UnpackedFloat.pack
  dsimp only
  have hbiased : (e + Format.binary64.exponentBias + (52 : Nat)).toNat ≤ 2046 := by
    rw [hbias]
    omega
  rw [if_neg (by omega)]
  split
  · rw [UnpackedFloat.unpackExponent_packComponents]
    intro htop
    have hnat := congrArg BitVec.toNat htop
    rw [BitVec.toNat_ofNat, Nat.mod_eq_of_lt (by omega)] at hnat
    have hgreatest : (-1#11).toNat = 2047 := rfl
    omega
  · rw [UnpackedFloat.unpackExponent_packComponents]
    decide

/-- The negative of a finite number is finite. -/
theorem isFinite_neg {x : Float} (h : x.isFinite = true) : (-x).isFinite = true := by
  have hx : x.toModel.unpack.isFinite = true := h
  show (Float.Model.pack x.toModel.unpack.neg).unpack.isFinite = true
  cases hu : x.toModel.unpack with
  | notANumber =>
      rw [hu] at hx
      cases hx
  | infinity s =>
      rw [hu] at hx
      cases hx
  | zero s => cases s <;> rfl
  | finite s m e hm => exact isFinite_pack hm (unpack_bounds hu).2

theorem not_isFinite_pack_nan : (Float.Model.pack .notANumber).unpack.isFinite = false := rfl

theorem not_isFinite_pack_infinity (s : UnpackedFloat.Sign) :
    (Float.Model.pack (.infinity s)).unpack.isFinite = false := by
  cases s <;> rfl

/-- What is not a real number does not become one by a factor. -/
theorem isFinite_of_mul {x y : Float} (h : (x * y).isFinite = true) : x.isFinite = true := by
  have hproduct : (Float.Model.pack (UnpackedFloat.mul .binary64 x.toModel.unpack
      y.toModel.unpack)).unpack.isFinite = true := h
  show x.toModel.unpack.isFinite = true
  generalize y.toModel.unpack = u at hproduct
  cases hx : x.toModel.unpack with
  | zero s => rfl
  | finite s m e hm => rfl
  | notANumber =>
      have hnan : UnpackedFloat.mul .binary64 .notANumber u = .notANumber := rfl
      rw [hx, hnan, not_isFinite_pack_nan] at hproduct
      cases hproduct
  | infinity s =>
      rw [hx] at hproduct
      cases u with
      | notANumber =>
          have hnan : UnpackedFloat.mul .binary64 (.infinity s) .notANumber = .notANumber := rfl
          rw [hnan, not_isFinite_pack_nan] at hproduct
          cases hproduct
      | zero t =>
          have hnan : UnpackedFloat.mul .binary64 (.infinity s) (.zero t) = .notANumber := rfl
          rw [hnan, not_isFinite_pack_nan] at hproduct
          cases hproduct
      | infinity t =>
          have hinfinite : UnpackedFloat.mul .binary64 (.infinity s) (.infinity t)
              = .infinity (s * t) := rfl
          rw [hinfinite, not_isFinite_pack_infinity] at hproduct
          cases hproduct
      | finite t m e hm =>
          have hinfinite : UnpackedFloat.mul .binary64 (.infinity s) (.finite t m e hm)
              = .infinity (s * t) := rfl
          rw [hinfinite, not_isFinite_pack_infinity] at hproduct
          cases hproduct

/-! ## Whole parts in order -/

/-- Of two positive numbers, where the mantissa of the greater one is full. -/
theorem Magnitude.cross_le {m m' : Nat} {e e' : Int} (hfull : Nat.pow 2 52 ≤ m)
    (hm' : m' < Nat.pow 2 53)
    (h : e' < e ∨ e' = e ∧ m' ≤ m) :
    (Magnitude.mk m' e').num * (Magnitude.mk m e).den
      ≤ (Magnitude.mk m e).num * (Magnitude.mk m' e').den := by
  show m' * 2 ^ e'.toNat * 2 ^ (-e).toNat ≤ m * 2 ^ e.toNat * 2 ^ (-e').toNat
  rw [Nat.mul_assoc, Nat.mul_assoc, ← Nat.pow_add, ← Nat.pow_add]
  rcases h with hlt | ⟨rfl, hle⟩
  · calc m' * 2 ^ (e'.toNat + (-e).toNat) ≤ 2 ^ 53 * 2 ^ (e'.toNat + (-e).toNat) :=
          Nat.mul_le_mul_right _ (Nat.le_of_lt hm')
      _ = 2 ^ 52 * 2 ^ (e'.toNat + (-e).toNat + 1) := by rw [Nat.pow_succ, Nat.pow_succ]; omega
      _ ≤ 2 ^ 52 * 2 ^ (e.toNat + (-e').toNat) :=
          Nat.mul_le_mul_left _ (Nat.pow_le_pow_right (by decide) (by omega))
      _ ≤ m * 2 ^ (e.toNat + (-e').toNat) := Nat.mul_le_mul_right _ hfull
  · exact Nat.mul_le_mul_right _ hle

/-- The whole part of a number that is not above another one. -/
theorem floor_le_of_not_lt {c x : Float} {m : Nat} {e : Int} {hm : 0 < m}
    (hc : c.toModel.unpack = .finite .positive m e hm) (hfull : Nat.pow 2 52 ≤ m)
    (h : ¬ c < x) :
    floor x ≤ (Magnitude.mk m e).floor := by
  rw [lt_iff_compare, hc] at h
  rw [floor, read]
  cases hx : x.toModel.unpack with
  | notANumber => exact Nat.zero_le _
  | infinity s => exact Nat.zero_le _
  | zero s =>
      cases s with
      | negative => exact Nat.zero_le _
      | positive =>
          show 0 * 2 ^ (0 : Int).toNat / _ ≤ _
          rw [Nat.zero_mul, Nat.zero_div]
          exact Nat.zero_le _
  | finite s m' e' hm' =>
      cases s with
      | negative => exact Nat.zero_le _
      | positive =>
          rw [hx] at h
          have horder : (compare e e').then (compare m m') ≠ .lt := fun hlt => h (congrArg some hlt)
          refine Magnitude.floor_le_floor (Magnitude.cross_le hfull (unpack_bounds hx).1 ?_)
          rcases Int.lt_trichotomy e e' with hlt | heq | hgt
          · exact absurd (by rw [Int.compare_eq_lt.mpr hlt]; rfl) horder
          · refine .inr ⟨heq.symm, Nat.le_of_not_lt fun hlt => horder ?_⟩
            rw [Int.compare_eq_eq.mpr heq]
            exact Nat.compare_eq_lt.mpr hlt
          · exact .inl hgt

end MillScript.Decimal
