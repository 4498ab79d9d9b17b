/-! # Kinds of values, as far as messages tell them apart -/

namespace MillScript

/-- What a value is; lengths and bare numbers are different kinds. -/
inductive ValueKind where
  | none
  | length
  | unitless
  | string
  | sequence
deriving DecidableEq

namespace ValueKind

def name : ValueKind → String
  | .none => "none"
  | .length => "length"
  | .unitless => "unitless number"
  | .string => "string"
  | .sequence => "sequence"

/-- The kind of a number. -/
def ofNumber (isLength : Bool) : ValueKind := if isLength then .length else .unitless

end ValueKind

end MillScript
