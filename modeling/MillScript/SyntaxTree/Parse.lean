import MillScript.SyntaxTree.State
import MillScript.Token.Scan

/-! # Parsing

    The parser reads one token after the other.  `State.step` is what a
    token does to a state; a token without a next state is the one that a
    syntax error is blamed on.

    The grammar, from the weakest to the tightest operator:

    * a statement is a loop, a block, or an expression with a semicolon;
    * an expression is `name = expression` or a sum;
    * a sum is a chain of products, a product a chain of unary terms;
    * a unary term is a sign with a unary term, or an operand with any
      number of factorial signs and, after `^`, a unary term as exponent;
    * an operand is a string, a number, a name, a call, or an expression in
      parentheses. -/

namespace MillScript

namespace Parsing

/-- The place once `name =` has been read where an expression starts: a
    name at the start of a parameter names the parameter, any other is
    assigned to. -/
def Place.assign (name : Tree) : Place → Place
  | .param call ⟨start, none⟩ pending outer => .param call ⟨start, some name⟩ pending outer
  | place => .assigned name place

/-- A token after a finished expression. -/
def Place.close (value : Tree) (t : Token) : Place → Option State
  | .statement start body =>
    if t.lexeme = .symbol .semicolon then
      some (.statement (body.add (.node .statement start [value])))
    else none
  | .loopSource start item body =>
    if t.lexeme = .symbol .openBrace then
      some (.statement (.loop start item value t.location [] body))
    else none
  | .assigned name outer => outer.close (.node .assign name.location [name, value]) t
  | .group pending outer =>
    if t.lexeme = .symbol .closeParen then some (.finished value pending outer) else none
  | .param call parameter pending outer =>
    let call := { call with done := parameter.finish value :: call.done }
    if t.lexeme = .symbol .comma then some (.nextParam call pending outer)
    else if t.lexeme = .symbol .closeParen then some (.finished call.finish pending outer)
    else none

namespace State

/-- A token where an operand is due. -/
def operandStep (pending : Pending) (place : Place) (t : Token) : Option State :=
  match t.lexeme with
  | .symbol .minus =>
    some (.operand { pending with waiting := .negation (.leaf .operator t) :: pending.waiting }
      place)
  | .symbol .openParen => some (.operand {} (.group pending place))
  | .string _ => some (.finished (.leaf .string t) pending place)
  | .integer _ unit | .decimal _ unit =>
    some (.finished (.leaf (if unit.isSome then .unitNumber else .unitlessNumber) t) pending
      place)
  | .identifier _ => some (.name (.leaf .identifier t) pending place)
  | _ => none

/-- A token after a finished operand. -/
def finishedStep (operand : Tree) (pending : Pending) (place : Place) (t : Token) :
    Option State :=
  match t.lexeme with
  | .symbol .bang =>
    some (.finished (.node .factorial operand.location [operand, .leaf .operator t]) pending
      place)
  | .symbol .caret =>
    some (.operand
      { pending with waiting := .power operand (.leaf .operator t) :: pending.waiting } place)
  | .symbol .star | .symbol .slash =>
    some (.operand
      { pending with
        product := .leaf .operator t :: pending.unary operand :: pending.product
        waiting := [] }
      place)
  | .symbol .plus | .symbol .minus =>
    some (.operand { sum := .leaf .operator t :: pending.term operand :: pending.sum } place)
  | _ => place.close (pending.expression operand) t

/-- A token after a name in the place of an operand. -/
def nameStep (name : Tree) (pending : Pending) (place : Place) (t : Token) : Option State :=
  if t.lexeme = .symbol .openParen then
    some (.firstParam ⟨name, t.location, []⟩ pending place)
  else if t.lexeme = .symbol .assign ∧ pending.isEmpty then
    some (.operand {} (place.assign name))
  else finishedStep name pending place t

/-- A token where a parameter starts. -/
def paramStep (call : OpenCall) (pending : Pending) (place : Place) (t : Token) :
    Option State :=
  operandStep {} (.param call ⟨t.location, none⟩ pending place) t

/-- A token where a statement is due. -/
def statementStep (body : Body) (t : Token) : Option State :=
  match t.lexeme with
  | .forKeyword => some (.loopVariable t.location body)
  | .symbol .openBrace => some (.statement (.block t.location [] body))
  | .symbol .closeBrace => body.close?.map .statement
  | _ => operandStep {} (.statement t.location body) t

/-- The state after one more token, if the token fits. -/
def step (t : Token) : State → Option State
  | .statement body => statementStep body t
  | .loopVariable start body =>
    match t.lexeme with
    | .identifier _ => some (.loopIn start (.leaf .identifier t) body)
    | _ => none
  | .loopIn start item body =>
    if t.lexeme = .inKeyword then some (.operand {} (.loopSource start item body)) else none
  | .operand pending place => operandStep pending place t
  | .name leaf pending place => nameStep leaf pending place t
  | .finished tree pending place => finishedStep tree pending place t
  | .firstParam call pending place =>
    if t.lexeme = .symbol .closeParen then some (.finished call.finish pending place)
    else paramStep call pending place t
  | .nextParam call pending place => paramStep call pending place t

/-- The state after some tokens. -/
def run : State → List Token → Except Error State
  | state, [] => .ok state
  | state, t :: ts =>
    match state.step t with
    | some next => next.run ts
    | none =>
      .error ⟨SyntaxFault.expected state.expectation (some (t.lexeme.text ++ t.lexeme.unitName)),
        t.location⟩

/-- The tree of a script that ends here. -/
def finish (start stop : Location) : State → Except Error Tree
  | .statement (.program done) => .ok (.node .program start done.reverse)
  | state => .error ⟨SyntaxFault.expected state.expectationAtEnd none, stop⟩

end State

end Parsing

namespace Tree

/-- The tree of a script given as tokens. -/
def ofTokens (s : TokenStream) : Except Error Tree :=
  match Parsing.State.initial.run s.tokens with
  | .ok state => state.finish s.start s.stop
  | .error e => .error e

/-- The tree of a script. -/
def ofSource (source : String) : Except Error Tree :=
  match scan source with
  | .ok stream => ofTokens stream
  | .error e => .error e

end Tree

end MillScript
