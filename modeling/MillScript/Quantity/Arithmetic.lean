import MillScript.Fault

/-! # Arithmetic on quantities

    Sums take operands of one kind and give lengths in millimetres.
    Products and quotients keep the unit of the length among their
    operands.  A result that is not a real number is an error, so no
    infinity enters a script's values. -/

namespace MillScript

namespace Quantity

/-- The kind of a number, for messages. -/
def kind (q : Quantity) : ValueKind := ValueKind.ofNumber q.isLength

/-- The fault of operands whose kinds do not go together. -/
def operandFault (op : BinaryOp) (a b : Quantity) : Fault :=
  TypeFault.binaryOperands op a.kind b.kind

/-- A result, provided that it is a real number. -/
def checked (op : BinaryOp) (a b result : Quantity) : Except Fault Quantity :=
  if result.value.isFinite then .ok result
  else .error (RuntimeFault.resultOutOfRange op a b)

/-- The sum of `a` and `sign · b`. -/
def additive (op : BinaryOp) (sign : Float) (a b : Quantity) : Except Fault Quantity :=
  if a.isLength != b.isLength then .error (operandFault op a b)
  else if a.isLength then checked op a b ⟨a.canonical + sign * b.canonical, some .mm⟩
  else checked op a b ⟨a.value + sign * b.value, none⟩

def add (a b : Quantity) : Except Fault Quantity := additive .add 1 a b

def subtract (a b : Quantity) : Except Fault Quantity := additive .subtract (-1) a b

/-- There are no units of area, so at most one factor is a length. -/
def multiply (a b : Quantity) : Except Fault Quantity :=
  if a.isLength && b.isLength then .error (operandFault .multiply a b)
  else checked .multiply a b ⟨a.value * b.value, a.unit.or b.unit⟩

/-- The divisor is a plain number and not zero. -/
def divide (a b : Quantity) : Except Fault Quantity :=
  if b.isLength then .error (operandFault .divide a b)
  else if b.value == 0 then .error RuntimeFault.divisionByZero
  else checked .divide a b ⟨a.value / b.value, a.unit⟩

/-- Only plain numbers have powers. -/
def power (a b : Quantity) : Except Fault Quantity :=
  if a.isLength || b.isLength then .error (operandFault .power a b)
  else checked .power a b ⟨a.value.pow b.value, none⟩

/-- The value of an operator on two numbers. -/
def binary : BinaryOp → Quantity → Quantity → Except Fault Quantity
  | .add => add
  | .subtract => subtract
  | .multiply => multiply
  | .divide => divide
  | .power => power

def negate (a : Quantity) : Quantity := ⟨-a.value, a.unit⟩

/-- The largest number whose factorial is a double. -/
def maxFactorial : Float := 170

/-- The product of the numbers from 2 to `n`, taken from the left. -/
def factorialProduct (n : Nat) : Float :=
  (List.range' 2 (n - 1)).foldl (fun product k => product * Float.ofNat k) 1

/-- Only whole numbers that are not negative have factorials. -/
def factorial (a : Quantity) : Except Fault Quantity :=
  if a.isLength then .error (TypeFault.unaryOperand .factorial a.kind)
  else if !a.isWhole || a.value < 0 then .error (RuntimeFault.factorialDomain a)
  else if maxFactorial < a.value then .error (RuntimeFault.factorialOverflow a)
  else .ok ⟨factorialProduct (Decimal.floor a.value), none⟩

/-- The value of an operator on one number. -/
def unary : UnaryOp → Quantity → Except Fault Quantity
  | .negate, a => .ok a.negate
  | .factorial, a => a.factorial

end Quantity

end MillScript
