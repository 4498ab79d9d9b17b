import MillScript.Proofs.Decimal.Arithmetic
import MillScript.Vec

/-! # Lengths

    The length of a vector with real coordinates is a number and is not
    negative.  It need not be real: the squares of the coordinates can be too
    great, and then it is infinite. -/

namespace MillScript

namespace Decimal

open Float.Model

/-- A number, real or infinite, has a sign. -/
def HasSign (s : UnpackedFloat.Sign) : UnpackedFloat → Prop
  | .notANumber => False
  | .infinity t => t = s
  | .zero t => t = s
  | .finite t _ _ _ => t = s

/-! ## Packing keeps the sign -/

/-- A double has the sign that it is packed with. -/
theorem hasSign_packComponents (s : UnpackedFloat.Sign) {x : BitVec 11} (y : BitVec 52)
    (hx : x ≠ -1#11) :
    HasSign s (UnpackedFloat.unpack .binary64 (UnpackedFloat.packComponents .binary64 s x y)) := by
  by_cases hzero : x = 0#11
  · subst hzero
    by_cases hy : 0 < y.toNat
    · rw [unpack_packComponents_least s hy]
      rfl
    · have hnone : y = 0#52 := BitVec.eq_of_toNat_eq (Nat.eq_zero_of_not_pos hy)
      subst hnone
      cases s <;> rfl
  · obtain ⟨hpos, hunpack⟩ := unpack_packComponents_of_ne s y hzero hx
    rw [hunpack]
    rfl

theorem hasSign_pack (s : UnpackedFloat.Sign) {m : Nat} (e : Int) (hm : 0 < m) :
    HasSign s (Float.Model.pack (.finite s m e hm)).unpack := by
  by_cases he : 971 < e
  · rw [unpack_pack_of_lt he]
    rfl
  · show HasSign s (UnpackedFloat.unpack .binary64 (UnpackedFloat.pack .binary64
      (.finite s m e hm)))
    rw [pack_finite, if_neg (by omega)]
    split
    · exact hasSign_packComponents s _ (exponent_ne_top (by omega))
    · exact hasSign_packComponents s _ (by decide)

theorem hasSign_pack_infinity (s : UnpackedFloat.Sign) :
    HasSign s (Float.Model.pack (.infinity s)).unpack := by
  rw [unpack_pack_infinity]
  rfl

/-- Rounding keeps the sign. -/
theorem hasSign_roundWithAccuracy (s : UnpackedFloat.Sign) (m : Nat) (e : Int)
    (acc : UnpackedFloat.Accuracy) :
    HasSign s (Float.Model.pack (UnpackedFloat.roundWithAccuracy .binary64 s m e acc)).unpack := by
  rw [roundWithAccuracy_eq]
  generalize UnpackedFloat.shiftToTargetExponent .binary64 _ _ .exact = rounded
  by_cases hzero : rounded.1.mantissa = 0
  · rw [dif_pos hzero, unpack_pack_zero]
    rfl
  · rw [dif_neg hzero]
    exact hasSign_pack s _ _

/-! ## Squares, sums and roots -/

section Operations

variable {x y : Float}

/-- A square is positive. -/
theorem hasSign_mul_self (hx : x.isNaN = false) :
    HasSign .positive (x * x).toModel.unpack := by
  have hnumber : x.toModel.unpack.isNaN = false := hx
  show HasSign _ (Float.Model.pack (UnpackedFloat.mul .binary64 x.toModel.unpack
    x.toModel.unpack)).unpack
  generalize x.toModel.unpack = u at hnumber
  cases u with
  | notANumber => cases hnumber
  | infinity s => cases s <;> rfl
  | zero s => cases s <;> rfl
  | finite s m e hm =>
      have hsign : HasSign (s * s) (Float.Model.pack (UnpackedFloat.mul .binary64
          (.finite s m e hm) (.finite s m e hm))).unpack :=
        hasSign_roundWithAccuracy (s * s) (m * m) (e + e) .exact
      have hsquare : s * s = .positive := by cases s <;> rfl
      rw [hsquare] at hsign
      exact hsign

/-- A sum of positive numbers is positive. -/
theorem hasSign_add (hx : HasSign .positive x.toModel.unpack)
    (hy : HasSign .positive y.toModel.unpack) : HasSign .positive (x + y).toModel.unpack := by
  show HasSign _ (Float.Model.pack (UnpackedFloat.add .binary64 x.toModel.unpack
    y.toModel.unpack)).unpack
  generalize x.toModel.unpack = u at hx
  generalize y.toModel.unpack = v at hy
  cases u with
  | notANumber => exact hx.elim
  | infinity s =>
      cases hx
      cases v with
      | notANumber => exact hy.elim
      | infinity t =>
          cases hy
          exact hasSign_pack_infinity .positive
      | zero t => exact hasSign_pack_infinity .positive
      | finite t m e hm => exact hasSign_pack_infinity .positive
  | zero s =>
      cases hx
      cases v with
      | notANumber => exact hy.elim
      | infinity t =>
          cases hy
          exact hasSign_pack_infinity .positive
      | zero t =>
          cases hy
          rfl
      | finite t m e hm =>
          cases hy
          exact hasSign_pack .positive e hm
  | finite s m e hm =>
      cases hx
      cases v with
      | notANumber => exact hy.elim
      | infinity t =>
          cases hy
          exact hasSign_pack_infinity .positive
      | zero t => exact hasSign_pack .positive e hm
      | finite t m' e' hm' =>
          cases hy
          -- the digits of both, down to the lower exponent, add up
          have hleft : 0 < m <<< (e - min e e').toNat := by
            rw [Nat.shiftLeft_eq]
            exact Nat.mul_pos hm (Nat.two_pow_pos _)
          have hsum : (0 : Int) < (m <<< (e - min e e').toNat : Nat)
              + (m' <<< (e' - min e e').toNat : Nat) :=
            Int.add_pos_of_pos_of_nonneg (Int.natCast_pos.mpr hleft) (Int.natCast_nonneg _)
          have hadd : UnpackedFloat.add .binary64 (.finite .positive m e hm)
              (.finite .positive m' e' hm') = UnpackedFloat.normalize .binary64
                ((m <<< (e - min e e').toNat : Nat) + (m' <<< (e' - min e e').toNat : Nat))
                (min e e') .positive := rfl
          rw [hadd, normalize_of_pos hsum]
          exact hasSign_roundWithAccuracy .positive _ _ _

/-- The root of a positive number is positive. -/
theorem hasSign_sqrt (hx : HasSign .positive x.toModel.unpack) :
    HasSign .positive x.sqrt.toModel.unpack := by
  show HasSign _ (Float.Model.pack (UnpackedFloat.sqrt .binary64 x.toModel.unpack)).unpack
  generalize x.toModel.unpack = u at hx
  cases u with
  | notANumber => exact hx.elim
  | infinity s =>
      cases hx
      rfl
  | zero s =>
      cases hx
      rfl
  | finite s m e hm =>
      cases hx
      exact hasSign_roundWithAccuracy .positive _ _ _

end Operations

end Decimal

open Decimal

/-- The length of a vector of numbers is a number that is not negative. -/
theorem hasSign_length {v : Vec2} (hx : v.x.isNaN = false) (hy : v.y.isNaN = false) :
    HasSign .positive v.length.toModel.unpack := by
  have hzero : HasSign .positive (0 : Float).toModel.unpack := rfl
  exact hasSign_sqrt (hasSign_add (hasSign_add hzero (hasSign_mul_self hx)) (hasSign_mul_self hy))

end MillScript
