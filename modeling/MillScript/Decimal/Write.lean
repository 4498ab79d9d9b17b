import MillScript.Decimal.Exact

/-! # Decimal text of doubles

    Two layouts.  `fixed` writes a chosen number of decimals.  `general`
    writes a chosen number of significant digits, drops the zeros that
    end a fraction, and goes over to an exponent when the leading digit
    stands below the fourth decimal or beyond the digits asked for.  The
    digits themselves are one exact rounding of `mantissa · 2 ^ exponent`. -/

namespace MillScript.Decimal

/-- The decimal digits of a number. -/
def digits (n : Nat) : List Char := Nat.toDigits 10 n

/-- The digits of a number, with zeros in front up to a least count. -/
def paddedDigits (least n : Nat) : List Char :=
  List.replicate (least - (digits n).length) '0' ++ digits n

theorem isDigit_of_mem_digits {n : Nat} {c : Char} (h : c ∈ digits n) : c.isDigit = true :=
  Nat.isDigit_of_mem_toDigits (by decide) (by decide) h

theorem isDigit_of_mem_paddedDigits {least n : Nat} {c : Char} (h : c ∈ paddedDigits least n) :
    c.isDigit = true := by
  rcases List.mem_append.mp h with hzero | hdigit
  · rw [List.eq_of_mem_replicate hzero]
    decide
  · exact isDigit_of_mem_digits hdigit

/-- The digits of `n / 10 ^ places` before and after the decimal point. -/
def pointed (n places : Nat) : List Char × List Char :=
  let ds := paddedDigits (places + 1) n
  ds.splitAt (ds.length - places)

/-- A fraction without the zeros at its end. -/
def trimFraction (fraction : List Char) : List Char :=
  (fraction.reverse.dropWhile (· == '0')).reverse

/-- A whole part and a fraction, the point only if a fraction is left. -/
def joinPoint (whole fraction : List Char) : List Char :=
  match fraction with
  | [] => whole
  | _ => whole ++ '.' :: fraction

/-! ## A fixed number of decimals -/

/-- `m · 10 ^ places`, rounded to a whole number. -/
def scaled (places : Nat) (m : Magnitude) : Nat :=
  roundDiv (m.num * Nat.pow 10 places) m.den

/-- The magnitude rounded to `places` decimals, without superfluous zeros. -/
def fixed (places : Nat) (m : Magnitude) : List Char :=
  let parts := pointed (scaled places m) places
  joinPoint parts.1 (trimFraction parts.2)

/-! ## A fixed number of significant digits -/

/-- The exponent of the leading decimal digit of `num / den`, for `num > 0`. -/
def leadingExponent (num den : Nat) : Int :=
  if den ≤ num then ((digits (num / den)).length : Int) - 1
  else -((digits ((den - 1) / num)).length : Int)

/-- `num / den` times a power of ten, rounded to a whole number. -/
def scaledBy (power : Int) (num den : Nat) : Nat :=
  roundDiv (num * Nat.pow 10 power.toNat) (den * Nat.pow 10 (-power).toNat)

/-- `count` significant digits of a positive magnitude as one number, with
    the exponent of the leading digit; the number runs from
    `10 ^ (count - 1)` to `10 ^ count - 1`. -/
def significant (count : Nat) (m : Magnitude) : Nat × Int :=
  let lead := leadingExponent m.num m.den
  let n := scaledBy (count - 1 - lead) m.num m.den
  if n = Nat.pow 10 count then (Nat.pow 10 (count - 1), lead + 1) else (n, lead)

/-- The exponent part: a sign and at least two digits. -/
def exponentPart (e : Int) : List Char :=
  'e' :: (if e < 0 then '-' else '+') :: paddedDigits 2 e.natAbs

/-- A magnitude with at most `count` significant digits. -/
def general (count : Nat) (m : Magnitude) : List Char :=
  if m.mantissa = 0 then ['0']
  else
    let (n, lead) := significant count m
    if lead < -4 ∨ (count : Int) ≤ lead then
      let parts := pointed n (count - 1)
      joinPoint parts.1 (trimFraction parts.2) ++ exponentPart lead
    else
      let parts := pointed n ((count : Int) - 1 - lead).toNat
      joinPoint parts.1 (trimFraction parts.2)

/-- A double with at most `count` significant digits, specials by name. -/
def text (count : Nat) (x : Float) : String :=
  match read x with
  | .notANumber => "nan"
  | .infinite negative => if negative then "-inf" else "inf"
  | .finite negative m =>
    String.ofList (if negative then '-' :: general count m else general count m)

/-- The significant digits of a number that is shown to people. -/
def shownDigits : Nat := 6

/-- The text of a number in messages and listings. -/
def shown (x : Float) : String := text shownDigits x

end MillScript.Decimal
