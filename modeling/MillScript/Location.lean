/-! # Positions in a script

    A position is a 1-based line and column.  Columns count characters
    since the last line feed, and a script is a sequence of bytes, one
    character each, so they count bytes.  A position whose line is not
    positive stands for "not known". -/

namespace MillScript

/-- A line and a column of a script. -/
structure Location where
  line : Int
  column : Int
deriving DecidableEq

namespace Location

/-- The position that says nothing. -/
def unknown : Location := ⟨0, 0⟩

/-- The position of the first character of a script. -/
def start : Location := ⟨1, 1⟩

/-- Whether the position names a place at all. -/
def isKnown (l : Location) : Bool := decide (0 < l.line)

/-- The position after one more character. -/
def next (l : Location) (c : Char) : Location :=
  if c = '\n' then ⟨l.line + 1, 1⟩ else ⟨l.line, l.column + 1⟩

/-- The position after a piece of text. -/
def advance (l : Location) (text : List Char) : Location :=
  text.foldl next l

@[simp] theorem advance_nil (l : Location) : l.advance [] = l := rfl

@[simp] theorem advance_cons (l : Location) (c : Char) (text : List Char) :
    l.advance (c :: text) = (l.next c).advance text := rfl

theorem advance_append (l : Location) (s t : List Char) :
    l.advance (s ++ t) = (l.advance s).advance t := by
  simp [advance, List.foldl_append]

end Location

end MillScript
