import MillScript.Decimal.Write
import MillScript.LengthUnit

/-! # Quantities

    The numbers of a script: a magnitude that is either a length in some
    unit or has no unit at all. -/

namespace MillScript

/-- A number with the unit it was given in, if any. -/
structure Quantity where
  value : Float
  unit : Option LengthUnit := none
deriving DecidableEq

namespace Quantity

/-- Whether the quantity is a length. -/
def isLength (q : Quantity) : Bool := q.unit.isSome

/-- Millimetres in one of the unit; a bare number counts as it stands. -/
def factor (unit : Option LengthUnit) : Float :=
  match unit with
  | some u => u.factor
  | none => 1

/-- The suffix of a unit, empty when there is none. -/
def unitName (unit : Option LengthUnit) : String :=
  match unit with
  | some u => u.name
  | none => ""

/-- A suffix tells which unit it is of, if any. -/
@[simp] theorem ofName?_unitName (unit : Option LengthUnit) :
    LengthUnit.ofName? (unitName unit) = unit := by
  cases unit with
  | none => rfl
  | some u => exact LengthUnit.ofName?_name u

/-- A value in a unit, in millimetres. -/
def toMillimetres (value : Float) (unit : Option LengthUnit) : Float :=
  value * factor unit

/-- A value in millimetres, in a unit. -/
def ofMillimetres (value : Float) (unit : Option LengthUnit) : Float :=
  value / factor unit

/-- The quantity in millimetres; a bare number stays as it is. -/
def canonical (q : Quantity) : Float := toMillimetres q.value q.unit

/-- Whether the value is a whole number. -/
def isWhole (q : Quantity) : Bool := Decimal.isWhole q.value

/-- The same length in another unit; bare numbers are left alone. -/
def convert (q : Quantity) (unit : Option LengthUnit) : Quantity :=
  if q.unit.isNone || unit.isNone then q else ⟨ofMillimetres q.canonical unit, unit⟩

/-- The quantity as shown to people. -/
def text (q : Quantity) : String := Decimal.shown q.value ++ unitName q.unit

end Quantity

end MillScript
