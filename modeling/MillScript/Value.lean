import MillScript.Quantity.Arithmetic

/-! # Values

    What expressions evaluate to. -/

namespace MillScript

/-- A value of a script. -/
inductive Value where
  | none
  | number (quantity : Quantity)
  | string (text : String)
  | sequence (items : List Value)

namespace Value

def kind : Value → ValueKind
  | .none => .none
  | .number q => q.kind
  | .string _ => .string
  | .sequence _ => .sequence

mutual

/-- The value as shown to people. -/
def text : Value → String
  | .none => "none"
  | .number q => q.text
  | .string s => "'" ++ s ++ "'"
  | .sequence [] => "[]"
  | .sequence (v :: vs) => textAfter ("[" ++ v.text) vs ++ "]"

/-- A listing, continued by more items. -/
def textAfter (shown : String) : List Value → String
  | [] => shown
  | v :: vs => textAfter (shown ++ ", " ++ v.text) vs

end

/-- Whether a value may be given for a parameter of a kind. -/
def fits : ParamKind → Value → Bool
  | .length, .number q => q.isLength
  | .number, .number q => !q.isLength
  | .anyNumber, .number _ => true
  | .string, .string _ => true
  | _, _ => false

/-- The value of an operator on two values. -/
def binary (op : BinaryOp) : Value → Value → Except Fault Value
  | .number a, .number b => (Quantity.binary op a b).map .number
  | a, b => .error (TypeFault.binaryOperands op a.kind b.kind)

/-- The value of an operator on one value. -/
def unary (op : UnaryOp) : Value → Except Fault Value
  | .number a => (Quantity.unary op a).map .number
  | a => .error (TypeFault.unaryOperand op a.kind)

end Value

/-- The arguments of a call by parameter name; what is not given is not
    listed. -/
abbrev Arguments := List (String × Value)

namespace Arguments

/-- Whether a parameter was given. -/
def has (args : Arguments) (name : String) : Bool := (args.lookup name).isSome

/-- The number given for a parameter, zero if there is none. -/
def quantity (args : Arguments) (name : String) : Quantity :=
  match args.lookup name with
  | some (.number q) => q
  | _ => ⟨0, none⟩

/-- The number given for a parameter, whatever its unit. -/
def number (args : Arguments) (name : String) : Float := (args.quantity name).value

/-- The text given for a parameter, empty if there is none. -/
def text (args : Arguments) (name : String) : String :=
  match args.lookup name with
  | some (.string s) => s
  | _ => ""

/-- The length given for a parameter in millimetres; it has to be a real
    number of them. -/
def length (args : Arguments) (name : String) : Except Fault Float :=
  let q := args.quantity name
  if q.canonical.isFinite then .ok q.canonical
  else .error (RuntimeFault.lengthOutOfRange q)

end Arguments

end MillScript
