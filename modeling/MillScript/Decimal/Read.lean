import MillScript.Decimal.Exact

/-! # Reading numbers from text

    `readNumber?` reads the longest prefix of a text that is a number:
    blanks, a sign, then a decimal or hexadecimal numeral, an infinity or
    a "not a number".  The value is the double nearest to the numeral,
    ties to the even mantissa. -/

namespace MillScript.Decimal

/-- The blanks that may stand before a number. -/
def isBlank (c : Char) : Bool :=
  c == ' ' || c == '\t' || c == '\n' || c == '\x0b' || c == '\x0c' || c == '\r'

/-- The value of a hexadecimal digit. -/
def hexDigit? (c : Char) : Option Nat :=
  if c.isDigit then some (c.toNat - '0'.toNat)
  else if 'a' ≤ c ∧ c ≤ 'f' then some (c.toNat - 'a'.toNat + 10)
  else if 'A' ≤ c ∧ c ≤ 'F' then some (c.toNat - 'A'.toNat + 10)
  else none

/-- The number that a digit sequence spells in a base. -/
def ofDigits (base : Nat) (ds : List Char) : Nat :=
  ds.foldl (fun n c => n * base + (hexDigit? c).getD 0) 0

/-- A maximal run of characters of a class, and what follows it. -/
def run (p : Char → Bool) (cs : List Char) : List Char × List Char :=
  (cs.takeWhile p, cs.dropWhile p)

/-- Drops a word from the front of a text, whatever its case. -/
def dropWord? (word : String) (cs : List Char) : Option (List Char) :=
  let n := word.length
  if (cs.take n).map Char.toLower = word.toList then some (cs.drop n) else none

/-- A sign in front of a text. -/
def sign (cs : List Char) : Bool × List Char :=
  match cs with
  | '-' :: rest => (true, rest)
  | '+' :: rest => (false, rest)
  | _ => (false, cs)

/-- Digits with an optional point: the digits before it, after it, and the
    rest; none when there is no digit at all. -/
def mantissa? (isDigit : Char → Bool) (cs : List Char) :
    Option (List Char × List Char × List Char) :=
  let (whole, rest) := run isDigit cs
  match rest with
  | '.' :: rest' =>
    let (fraction, rest'') := run isDigit rest'
    if whole.isEmpty && fraction.isEmpty then none else some (whole, fraction, rest'')
  | _ => if whole.isEmpty then none else some (whole, [], rest)

/-- An exponent after one of its two marks; nothing is read when no digit
    follows. -/
def exponent (lower upper : Char) (cs : List Char) : Int × List Char :=
  match cs with
  | c :: rest =>
    if c = lower ∨ c = upper then
      let (negative, rest') := sign rest
      let (ds, rest'') := run Char.isDigit rest'
      if ds.isEmpty then (0, cs)
      else
        let n : Int := ofDigits 10 ds
        (if negative then -n else n, rest'')
    else (0, cs)
  | [] => (0, cs)

/-- The double nearest to `m · 10 ^ e`. -/
def ofDecimal (m : Nat) (e : Int) : Float :=
  if e < 0 then Float.ofScientific m true (-e).toNat
  else Float.ofScientific m false e.toNat

/-- The double nearest to `m · 2 ^ e`.  What lies far below the smallest
    double is zero, and is not shifted bit by bit to find out. -/
def ofBinary (m : Nat) (e : Int) : Float :=
  if m = 0 ∨ e + m.log2 < -1100 then 0
  else .ofModel (.pack (.round .binary64 .positive m e))

/-- A decimal numeral. -/
def decimal? (cs : List Char) : Option (Float × List Char) := do
  let (whole, fraction, rest) ← mantissa? Char.isDigit cs
  let (e, rest') := exponent 'e' 'E' rest
  return (ofDecimal (ofDigits 10 (whole ++ fraction)) (e - fraction.length), rest')

/-- A hexadecimal numeral after its mark `0x`. -/
def hexadecimal? (cs : List Char) : Option (Float × List Char) := do
  let (whole, fraction, rest) ← mantissa? (fun c => (hexDigit? c).isSome) cs
  let (e, rest') := exponent 'p' 'P' rest
  return (ofBinary (ofDigits 16 (whole ++ fraction)) (e - 4 * fraction.length), rest')

/-- The payload that may follow "nan" in parentheses is skipped. -/
def skipPayload (cs : List Char) : List Char :=
  match cs with
  | '(' :: rest =>
    match rest.dropWhile (fun c => c.isAlphanum || c == '_') with
    | ')' :: rest' => rest'
    | _ => cs
  | _ => cs

/-- A number without its sign. -/
def unsigned? (cs : List Char) : Option (Float × List Char) :=
  (dropWord? "infinity" cs).map (ofDecimal 1 400, ·)
  <|> (dropWord? "inf" cs).map (ofDecimal 1 400, ·)
  <|> (dropWord? "nan" cs).map (fun rest => (0 / 0, skipPayload rest))
  <|> ((dropWord? "0x" cs).bind hexadecimal?)
  <|> decimal? cs

/-- The number at the front of a text and what follows it. -/
def readNumber? (cs : List Char) : Option (Float × List Char) :=
  let (negative, rest) := sign (cs.dropWhile isBlank)
  (unsigned? rest).map fun (x, rest') => (if negative then -x else x, rest')

/-- The number at the front of a text, zero when there is none. -/
def ofPrefix (s : String) : Float :=
  ((readNumber? s.toList).map Prod.fst).getD 0

/-- The number that makes up a whole text. -/
def ofWhole? (s : String) : Option Float :=
  match readNumber? s.toList with
  | some (x, []) => some x
  | _ => none

end MillScript.Decimal
