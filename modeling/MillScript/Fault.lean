import MillScript.Builtin
import MillScript.Operator
import MillScript.Quantity.Basic
import MillScript.SyntaxTree
import MillScript.ValueKind

/-! # What can go wrong

    One type of causes for each kind of fault.  A cause carries what it is
    about, and all wording is here: `Fault.text` is the only place where a
    cause becomes words. -/

namespace MillScript

/-! ## Scripts that cannot be read -/

/-- What the grammar asks for where a script goes wrong. -/
inductive Expectation where
  | expression
  | semicolon
  | loopVariable
  | loopIn
  | openBlock
  | closeBlock
  | closeParenthesis
  | nextParameter
deriving DecidableEq

namespace Expectation

def text : Expectation → String
  | .expression => "expression"
  | .semicolon => "';' after expression"
  | .loopVariable => "identifier as loop variable"
  | .loopIn => "'in' after loop variable"
  | .openBlock => "'\x7b' to open block"
  | .closeBlock => "'\x7d' to close block"
  | .closeParenthesis => "')' to close parenthesis"
  | .nextParameter => "',' or ')' in parameter list"

end Expectation

/-- Faults of spelling and grammar. -/
inductive SyntaxFault where
  | unexpectedCharacter (c : Char)
  | unterminatedString
  | unknownUnitSuffix (suffix : String)
  /-- Something else was found, or the end of the script. -/
  | expected (what : Expectation) (found : Option String)
  | literalOutOfRange
  | malformedTree (rule : Rule)
deriving DecidableEq

namespace SyntaxFault

def text : SyntaxFault → String
  | .unexpectedCharacter c => "unexpected character '" ++ c.toString ++ "'"
  | .unterminatedString => "unterminated string"
  | .unknownUnitSuffix suffix =>
    "expected unit suffix (mm, cm, m, in, ft, yd), found '" ++ suffix ++ "'"
  | .expected what (some found) => "expected " ++ what.text ++ ", found '" ++ found ++ "'"
  | .expected what none => "expected " ++ what.text ++ ", found end of input"
  | .literalOutOfRange => "number literal out of range"
  | .malformedTree rule => "malformed syntax tree at " ++ rule.name

end SyntaxFault

/-! ## Names, kinds and parameters -/

/-- Names that stand for nothing. -/
inductive NameFault where
  | unknownFunction (name : String)
  | undefinedName (name : String)
deriving DecidableEq

namespace NameFault

def text : NameFault → String
  | .unknownFunction name => "unknown function '" ++ name ++ "'"
  | .undefinedName name => "name '" ++ name ++ "' is not defined"

end NameFault

/-- Values of the wrong kind. -/
inductive TypeFault where
  | binaryOperands (op : BinaryOp) (lhs rhs : ValueKind)
  | unaryOperand (op : UnaryOp) (operand : ValueKind)
  | notIterable (kind : ValueKind)
  | argument (f : Builtin) (param : Param) (kind : ValueKind)
  | spacingEnds (start stop : ValueKind)
deriving DecidableEq

namespace TypeFault

def text : TypeFault → String
  | .binaryOperands op lhs rhs =>
    "unsupported operands for '" ++ op.symbol ++ "': " ++ lhs.name ++ " and " ++ rhs.name
  | .unaryOperand op operand =>
    "unsupported operand for '" ++ op.symbol ++ "': " ++ operand.name
  | .notIterable kind => "for loop needs a sequence to iterate, got " ++ kind.name
  | .argument f param kind =>
    f.name ++ "() parameter '" ++ param.name ++ "' must be a " ++ param.kind.name
      ++ ", got " ++ kind.name
  | .spacingEnds start stop =>
    "linspace() start and stop must both be lengths or both unitless, got "
      ++ start.name ++ " and " ++ stop.name

end TypeFault

/-- Arguments that do not fit the parameters of a function. -/
inductive BindingFault where
  | tooManyPositional (f : Builtin)
  | noSuchParameter (f : Builtin) (name : String)
  | givenPositionally (f : Builtin) (name : String)
  | givenTwice (f : Builtin) (name : String)
  | missing (f : Builtin) (name : String)
  | pocketSize
  | grooveEnd
  | grooveEndHalf
  | grooveCentreHalf
deriving DecidableEq

namespace BindingFault

def text : BindingFault → String
  | .tooManyPositional f =>
    f.name ++ "() takes at most " ++ f.params.length.repr ++ " positional arguments"
  | .noSuchParameter f name => f.name ++ "() has no parameter '" ++ name ++ "'"
  | .givenPositionally f name =>
    f.name ++ "() parameter '" ++ name ++ "' already given positionally"
  | .givenTwice f name => f.name ++ "() parameter '" ++ name ++ "' given more than once"
  | .missing f name => f.name ++ "() missing required parameter '" ++ name ++ "'"
  | .pocketSize => "circle_pocket() needs exactly one of 'radius' or 'diameter'"
  | .grooveEnd => "groove() needs either 'x2' and 'y2' or 'up'"
  | .grooveEndHalf => "groove() needs both 'x2' and 'y2'"
  | .grooveCentreHalf => "groove() needs both 'cx' and 'cy' for an arc"

end BindingFault

/-! ## The shop around the script -/

/-- Materials and files that are not there. -/
inductive ConfigFault where
  | unknownMaterial (name : String)
  | cannotOpen (path : String)
deriving DecidableEq

namespace ConfigFault

def text : ConfigFault → String
  | .unknownMaterial name => "unknown material '" ++ name ++ "'"
  | .cannotOpen path => "cannot open '" ++ path ++ "'"

end ConfigFault

/-! ## Values that make no sense -/

/-- The most passes, pecks or rings that one operation may take. -/
def maxSteps : Nat := 100000

/-- Computations and operations that cannot be carried out. -/
inductive RuntimeFault where
  | resultOutOfRange (op : BinaryOp) (lhs rhs : Quantity)
  | divisionByZero
  | factorialDomain (operand : Quantity)
  | factorialOverflow (operand : Quantity)
  | lengthOutOfRange (length : Quantity)
  | spacingCount (count : Quantity)
  | spacingLimit (count : Quantity) (limit : Nat)
  | cutterDiameter (diameter : Quantity)
  | stepoverFraction
  | stepdown
  | rates
  | negativeSpeed
  | scaleFactors
  | negativeDwell
  | notPositive (what : String) (millimetres : Float)
  | tooManySteps (what : String) (distance step : Float)
  | roundPocketTooSmall (pocket cutter : Float)
  | pocketTooSmall (width height cutter : Float)
  | arcFromCentre
  | arcRadii (start stop : Float)
  | positionOutOfRange
  | unevenScale
  | nonFiniteNumber
  | arcWithoutStart
deriving DecidableEq

namespace RuntimeFault

/-- A length in millimetres as shown to people. -/
def lengthText (x : Float) : String := Decimal.shown x ++ "mm"

def text : RuntimeFault → String
  | .resultOutOfRange op lhs rhs =>
    "result of " ++ lhs.text ++ " " ++ op.symbol ++ " " ++ rhs.text ++ " is out of range"
  | .divisionByZero => "division by zero"
  | .factorialDomain q => "factorial needs a non-negative integer, got " ++ q.text
  | .factorialOverflow q => "factorial of " ++ q.text ++ " overflows"
  | .lengthOutOfRange q => "length " ++ q.text ++ " is out of range"
  | .spacingCount q => "linspace() count must be an integer of at least 1, got " ++ q.text
  | .spacingLimit q limit =>
    "linspace() count " ++ q.text ++ " exceeds the limit of " ++ limit.repr
  | .cutterDiameter q => "cutter diameter must be positive, got " ++ q.text
  | .stepoverFraction => "stepover must be a fraction in (0, 1]"
  | .stepdown => "stepdown must be positive"
  | .rates => "feed and plunge rates must be positive"
  | .negativeSpeed => "rpm must not be negative"
  | .scaleFactors => "scale factors must be positive"
  | .negativeDwell => "dwell time must not be negative"
  | .notPositive what x => what ++ " must be positive, got " ++ lengthText x
  | .tooManySteps what distance step =>
    "covering " ++ lengthText distance ++ " in " ++ what ++ " of " ++ lengthText step
      ++ " needs more than " ++ maxSteps.repr ++ " passes"
  | .roundPocketTooSmall pocket cutter =>
    "pocket diameter " ++ lengthText pocket ++ " must be larger than the cutter diameter "
      ++ lengthText cutter
  | .pocketTooSmall width height cutter =>
    "pocket " ++ lengthText width ++ " x " ++ lengthText height
      ++ " is smaller than the cutter diameter " ++ lengthText cutter
  | .arcFromCentre => "arc groove start point lies on its centre"
  | .arcRadii start stop =>
    "arc groove end points are " ++ lengthText start ++ " and " ++ lengthText stop
      ++ " from the centre"
  | .positionOutOfRange => "tool position out of range"
  | .unevenScale => "arc moves need a uniform scale"
  | .nonFiniteNumber => "cannot write a non-finite number"
  | .arcWithoutStart => "arc move without a known start position"

end RuntimeFault

/-! ## All faults -/

/-- A cause of failure. -/
inductive Fault where
  | grammar (fault : SyntaxFault)
  | naming (fault : NameFault)
  | typing (fault : TypeFault)
  | binding (fault : BindingFault)
  | configuration (fault : ConfigFault)
  | execution (fault : RuntimeFault)
deriving DecidableEq

namespace Fault

/-- The name of the kind of fault, as messages give it. -/
def kindName : Fault → String
  | .grammar _ => "SyntaxError"
  | .naming _ => "NameError"
  | .typing _ => "TypeError"
  | .binding _ => "BindingError"
  | .configuration _ => "ConfigError"
  | .execution _ => "RuntimeError"

/-- The wording of a fault. -/
def text : Fault → String
  | .grammar f => f.text
  | .naming f => f.text
  | .typing f => f.text
  | .binding f => f.text
  | .configuration f => f.text
  | .execution f => f.text

end Fault

instance : Coe SyntaxFault Fault := ⟨.grammar⟩

instance : Coe NameFault Fault := ⟨.naming⟩

instance : Coe TypeFault Fault := ⟨.typing⟩

instance : Coe BindingFault Fault := ⟨.binding⟩

instance : Coe ConfigFault Fault := ⟨.configuration⟩

instance : Coe RuntimeFault Fault := ⟨.execution⟩

/-- A fault and the place it is blamed on, which may not be known yet. -/
structure Error where
  fault : Fault
  location : Location := .unknown
deriving DecidableEq

namespace Error

/-- Blames an error on a place, unless it has one already: the innermost
    place that handles an error is the one it keeps. -/
def locate (e : Error) (location : Location) : Error :=
  if e.location.isKnown then e else { e with location }

/-- The place of an error in front of its wording. -/
def message (e : Error) : String :=
  e.fault.kindName
    ++ (if e.location.isKnown then
          " at " ++ e.location.line.repr ++ ":" ++ e.location.column.repr
        else "")
    ++ ": " ++ e.fault.text

/-- The message as it is reported: a NUL character ends it. -/
def report (e : Error) : String :=
  String.ofList (e.message.toList.takeWhile (· != '\x00'))

end Error

end MillScript
