/-! # Units of length

    Lengths are reckoned in millimetres; every other unit is an exact
    multiple of one. -/

namespace MillScript

/-- A unit that may follow a number in a script. -/
inductive LengthUnit where
  | mm
  | cm
  | m
  | inch
  | ft
  | yd
deriving DecidableEq

namespace LengthUnit

/-- All units, in the order in which they are listed to people. -/
def all : List LengthUnit := [.mm, .cm, .m, .inch, .ft, .yd]

/-- The suffix that denotes the unit. -/
def name : LengthUnit → String
  | .mm => "mm"
  | .cm => "cm"
  | .m => "m"
  | .inch => "in"
  | .ft => "ft"
  | .yd => "yd"

/-- Millimetres in one unit. -/
def factor : LengthUnit → Float
  | .mm => 1
  | .cm => 10
  | .m => 1000
  | .inch => 25.4
  | .ft => 304.8
  | .yd => 914.4

/-- The unit that a suffix denotes. -/
def ofName? (text : String) : Option LengthUnit :=
  all.find? fun u => u.name == text

@[simp] theorem ofName?_name (u : LengthUnit) : ofName? u.name = some u := by
  cases u <;> rfl

theorem name_of_ofName? {text : String} {u : LengthUnit} (h : ofName? text = some u) :
    u.name = text := by
  have hu := List.find?_some h
  exact eq_of_beq hu

end LengthUnit

end MillScript
