import MillScript.Token

/-! # Scripts read so far

    The state of the parser after some tokens is what has been finished and
    what is still open around the place where the next token goes: the
    bodies whose statements are being collected, the expressions that an
    operand will become part of, and the operators in between that wait for
    an operand on their right. -/

namespace MillScript

/-- The leaf of a token. -/
def Tree.leaf (rule : Rule) (t : Token) : Tree :=
  ⟨rule, t.lexeme.text, t.lexeme.unitName, t.location, []⟩

namespace Parsing

/-! ## Statements -/

/-- Where statements are collected, the latest first, and what surrounds it. -/
inductive Body where
  | program (done : List Tree)
  | block (opened : Location) (done : List Tree) (outer : Body)
  | loop (start : Location) (item source : Tree) (opened : Location) (done : List Tree)
      (outer : Body)

namespace Body

/-- One more statement. -/
def add (t : Tree) : Body → Body
  | .program done => .program (t :: done)
  | .block opened done outer => .block opened (t :: done) outer
  | .loop start item source opened done outer =>
    .loop start item source opened (t :: done) outer

/-- The closing brace of a block makes it a statement of what surrounds it;
    a program has none. -/
def close? : Body → Option Body
  | .program _ => none
  | .block opened done outer => some (outer.add (.node .block opened done.reverse))
  | .loop start item source opened done outer =>
    some (outer.add
      (.node .forLoop start [item, source, .node .block opened done.reverse]))

end Body

/-! ## Operators that wait for an operand -/

/-- A sign, or a base with its exponent due. -/
inductive Waiting where
  | negation (sign : Tree)
  | power (base sign : Tree)

/-- The tree once the operand is there. -/
def Waiting.apply (operand : Tree) : Waiting → Tree
  | .negation sign => .node .negation sign.location [sign, operand]
  | .power base sign => .node .power base.location [base, sign, operand]

/-- The operators between the start of an expression and an operand: the
    sum and the product it goes on, as operands and operators with the
    latest first, and the signs and powers right before it, the nearest
    first. -/
structure Pending where
  sum : List Tree := []
  product : List Tree := []
  waiting : List Waiting := []

/-- A chain of operands and operators; one operand alone is no chain. -/
def chain (rule : Rule) (done : List Tree) (last : Tree) : Tree :=
  match done.reverse with
  | [] => last
  | first :: rest => .node rule first.location (first :: rest ++ [last])

namespace Pending

/-- Whether an operand would be the first of its expression. -/
def isEmpty (p : Pending) : Bool :=
  p.sum.isEmpty && p.product.isEmpty && p.waiting.isEmpty

/-- The operand with its signs and powers. -/
def unary (p : Pending) (operand : Tree) : Tree :=
  p.waiting.foldl Waiting.apply operand

/-- The product that ends with the operand. -/
def term (p : Pending) (operand : Tree) : Tree :=
  chain .product p.product (p.unary operand)

/-- The whole expression that ends with the operand. -/
def expression (p : Pending) (operand : Tree) : Tree :=
  chain .sum p.sum (p.term operand)

end Pending

/-! ## Expressions -/

/-- A call whose parameters are being read, the latest first. -/
structure OpenCall where
  name : Tree
  opened : Location
  done : List Tree

namespace OpenCall

/-- The tree of a call, once it is closed. -/
def finish (c : OpenCall) : Tree :=
  .node .call c.name.location [c.name, .node .params c.opened c.done.reverse]

end OpenCall

/-- A parameter whose expression is being read; it starts with its name if
    it has one. -/
structure OpenParam where
  start : Location
  name : Option Tree

namespace OpenParam

/-- The tree of a parameter, once its value is known. -/
def finish (p : OpenParam) (value : Tree) : Tree :=
  match p.name with
  | none => .node .positionalParam p.start [value]
  | some name => .node .namedParam p.start [name, value]

end OpenParam

/-- Where an expression goes once it is finished. -/
inductive Place where
  | statement (start : Location) (body : Body)
  | loopSource (start : Location) (item : Tree) (body : Body)
  | assigned (name : Tree) (outer : Place)
  | group (pending : Pending) (outer : Place)
  | param (call : OpenCall) (param : OpenParam) (pending : Pending) (outer : Place)

/-- What goes on an expression that has ended. -/
def Place.expectation : Place → Expectation
  | .statement _ _ => .semicolon
  | .loopSource _ _ _ => .openBlock
  | .assigned _ outer => outer.expectation
  | .group _ _ => .closeParenthesis
  | .param _ _ _ _ => .nextParameter

/-- What has been read, by what may come next. -/
inductive State where
  /-- A statement, or the end of the body. -/
  | statement (body : Body)
  /-- The variable of a loop, after its keyword. -/
  | loopVariable (start : Location) (body : Body)
  /-- The keyword after the variable of a loop. -/
  | loopIn (start : Location) (item : Tree) (body : Body)
  /-- An operand. -/
  | operand (pending : Pending) (place : Place)
  /-- What follows a name in the place of an operand. -/
  | name (name : Tree) (pending : Pending) (place : Place)
  /-- What follows a finished operand. -/
  | finished (operand : Tree) (pending : Pending) (place : Place)
  /-- The first parameter of a call, or its end. -/
  | firstParam (call : OpenCall) (pending : Pending) (place : Place)
  /-- One more parameter of a call. -/
  | nextParam (call : OpenCall) (pending : Pending) (place : Place)

namespace State

/-- The state before the first token. -/
def initial : State := .statement (.program [])

/-- What is asked for when a token does not fit. -/
def expectation : State → Expectation
  | .statement _ => .expression
  | .loopVariable _ _ => .loopVariable
  | .loopIn _ _ _ => .loopIn
  | .operand _ _ => .expression
  | .name _ _ place => place.expectation
  | .finished _ _ place => place.expectation
  | .firstParam _ _ _ => .expression
  | .nextParam _ _ _ => .expression

/-- What is asked for when the script ends too early. -/
def expectationAtEnd : State → Expectation
  | .statement _ => .closeBlock
  | state => state.expectation

end State

end Parsing

end MillScript
