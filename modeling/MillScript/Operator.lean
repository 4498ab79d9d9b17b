/-! # Operators of the script language -/

namespace MillScript

/-- Operators between two operands. -/
inductive BinaryOp where
  | add
  | subtract
  | multiply
  | divide
  | power
deriving DecidableEq

namespace BinaryOp

def symbol : BinaryOp → String
  | .add => "+"
  | .subtract => "-"
  | .multiply => "*"
  | .divide => "/"
  | .power => "^"

/-- The operator that a symbol denotes. -/
def ofSymbol? (text : String) : Option BinaryOp :=
  [add, subtract, multiply, divide, power].find? fun op => op.symbol == text

@[simp] theorem ofSymbol?_symbol (op : BinaryOp) : ofSymbol? op.symbol = some op := by
  cases op <;> rfl

end BinaryOp

/-- Operators on one operand: the sign before it, the factorial after it. -/
inductive UnaryOp where
  | negate
  | factorial
deriving DecidableEq

namespace UnaryOp

def symbol : UnaryOp → String
  | .negate => "-"
  | .factorial => "!"

end UnaryOp

end MillScript
