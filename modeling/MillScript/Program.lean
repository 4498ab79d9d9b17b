import MillScript.Builtin
import MillScript.Location
import MillScript.Operator
import MillScript.Quantity.Basic

/-! # Programs

    The script as it is evaluated: calls are resolved to functions, and
    their arguments stand in one slot per parameter, in declared order. -/

namespace MillScript

mutual

/-- An expression; every form keeps the place it is blamed on. -/
inductive Expr where
  | number (location : Location) (value : Quantity)
  | string (location : Location) (text : String)
  | identifier (location : Location) (name : String)
  | binary (location : Location) (op : BinaryOp) (lhs rhs : Expr)
  | unary (location : Location) (op : UnaryOp) (operand : Expr)
  | assign (location : Location) (name : String) (value : Expr)
  | call (location : Location) (function : Builtin) (slots : List Slot)

/-- The argument for one parameter, if it is given. -/
inductive Slot where
  | absent
  | given (location : Location) (value : Expr)

end

namespace Expr

/-- Where an expression is blamed for its errors. -/
def location : Expr → Location
  | .number l _ => l
  | .string l _ => l
  | .identifier l _ => l
  | .binary l _ _ _ => l
  | .unary l _ _ => l
  | .assign l _ _ => l
  | .call l _ _ => l

end Expr

namespace Slot

/-- Whether a slot has a value. -/
def isGiven : Slot → Bool
  | .absent => false
  | .given _ _ => true

end Slot

/-- A statement.  The body of a loop is a block with a place of its own. -/
inductive Stmt where
  | expr (value : Expr)
  | block (location : Location) (body : List Stmt)
  | forLoop (location : Location) (item : String) (source : Expr) (opened : Location)
      (body : List Stmt)

namespace Stmt

/-- Where a statement is blamed for its errors. -/
def location : Stmt → Location
  | .expr e => e.location
  | .block l _ => l
  | .forLoop l _ _ _ _ => l

end Stmt

/-- A whole script. -/
structure Program where
  location : Location
  statements : List Stmt

end MillScript
