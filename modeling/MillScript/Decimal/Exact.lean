/-! # What a double stands for

    A finite double is exactly `± mantissa · 2 ^ exponent`.  Everything
    that turns doubles into decimal text or into whole numbers goes
    through this reading, so the results are those of exact arithmetic
    followed by one rounding. -/

namespace MillScript.Decimal

/-- The magnitude `mantissa · 2 ^ exponent`. -/
structure Magnitude where
  mantissa : Nat
  exponent : Int
deriving DecidableEq

namespace Magnitude

/-- Numerator of the magnitude as a fraction. -/
def num (m : Magnitude) : Nat := m.mantissa * Nat.pow 2 m.exponent.toNat

/-- Denominator of the magnitude as a fraction. -/
def den (m : Magnitude) : Nat := Nat.pow 2 (-m.exponent).toNat

/-- A power of two divides nothing away. -/
theorem den_pos (m : Magnitude) : 0 < m.den := Nat.two_pow_pos _

/-- The largest whole number that is not above the magnitude. -/
def floor (m : Magnitude) : Nat := m.num / m.den

/-- The smallest whole number that is not below the magnitude. -/
def ceil (m : Magnitude) : Nat := (m.num + m.den - 1) / m.den

/-- Whether the magnitude is a whole number. -/
def isWhole (m : Magnitude) : Bool := m.num % m.den == 0

end Magnitude

/-- The three things a double can be. -/
inductive Reading where
  | notANumber
  | infinite (negative : Bool)
  | finite (negative : Bool) (magnitude : Magnitude)

/-- Reads a double exactly. -/
def read (x : Float) : Reading :=
  match x.toModel.unpack with
  | .notANumber => .notANumber
  | .infinity sign => .infinite (sign == .negative)
  | .zero sign => .finite (sign == .negative) ⟨0, 0⟩
  | .finite sign mantissa exponent _ => .finite (sign == .negative) ⟨mantissa, exponent⟩

/-- Whether a double is a finite whole number. -/
def isWhole (x : Float) : Bool :=
  match read x with
  | .finite _ m => m.isWhole
  | _ => false

/-- The whole part of a double that is not negative; zero for anything else. -/
def floor (x : Float) : Nat :=
  match read x with
  | .finite false m => m.floor
  | _ => 0

/-- A double that is not negative, rounded up; zero for anything else. -/
def ceil (x : Float) : Nat :=
  match read x with
  | .finite false m => m.ceil
  | _ => 0

/-- The whole number nearest to `num / den`; a tie goes to the even one. -/
def roundDiv (num den : Nat) : Nat :=
  let quotient := num / den
  let twice := 2 * (num % den)
  if twice < den then quotient
  else if den < twice then quotient + 1
  else quotient + quotient % 2

end MillScript.Decimal
