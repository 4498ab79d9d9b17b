import MillScript.Decimal.Write
import MillScript.Fault

/-! # Lines of G-code

    A program for the controller is a list of lines; a line is a comment or
    words, each a letter and a text.  Numbers have a fixed number of
    decimals at most, no superfluous zero, and no sign on zero. -/

namespace MillScript.Gcode

/-- A letter with its value. -/
structure Word where
  letter : Char
  text : String
deriving DecidableEq

namespace Word

def render (w : Word) : String := w.letter.toString ++ w.text

end Word

/-- One line for the controller. -/
inductive Line where
  | code (words : List Word)
  | comment (text : String)
deriving DecidableEq

namespace Line

/-- The text of a line without its end. -/
def render : Line → String
  | .code words => " ".intercalate (words.map Word.render)
  | .comment text => if text.isEmpty then ";" else "; " ++ text

end Line

/-- The text of a program: every line is ended. -/
def render (lines : List Line) : String :=
  lines.foldl (fun text line => text ++ line.render ++ "\n") ""

/-! ## Numbers -/

/-- Decimals when a negative number of them is asked for. -/
def defaultPlaces : Nat := 6

/-- The decimals that a precision stands for. -/
def places (precision : Int) : Nat :=
  if precision < 0 then defaultPlaces else precision.toNat

/-- The text of a number; zero has no sign. -/
def numberText (precision : Int) (negative : Bool) (m : Decimal.Magnitude) : String :=
  let digits := Decimal.fixed (places precision) m
  String.ofList (if negative && digits != ['0'] then '-' :: digits else digits)

/-- The text of a double, which has to be a real number. -/
def number (precision : Int) (x : Float) : Except Fault String :=
  match Decimal.read x with
  | .finite negative m => .ok (numberText precision negative m)
  | _ => .error RuntimeFault.nonFiniteNumber

/-! ## Comments -/

/-- The lines of a text.  A line feed at its end starts no further line. -/
def textLines : List Char → List (List Char)
  | [] => []
  | '\n' :: cs => [] :: textLines cs
  | c :: cs =>
    match textLines cs with
    | [] => [[c]]
    | line :: lines => (c :: line) :: lines

/-- A line without the carriage return at its end. -/
def dropReturn (line : List Char) : List Char :=
  if line.getLast? = some '\r' then line.dropLast else line

/-- A text as comments, one for each of its lines, and one if it has none. -/
def commentLines (text : String) : List Line :=
  match textLines text.toList with
  | [] => [.comment ""]
  | lines => lines.map fun line => .comment (String.ofList (dropReturn line))

end MillScript.Gcode
