import MillScript.Decimal.Read
import MillScript.Fault
import MillScript.Program

/-! # From trees to programs

    Numbers are read, calls are resolved, and arguments are bound to the
    parameters of the function they are given to: positional ones in
    declared order, named ones by name, each parameter at most once.  Trees
    that no script has are refused as malformed. -/

namespace MillScript

namespace Tree

/-- The fault of a tree that is not shaped by the grammar. -/
def malformed (t : Tree) : Error := ⟨SyntaxFault.malformedTree t.rule, t.location⟩

/-- The value of a number leaf. -/
def lowerNumber (t : Tree) : Except Error Expr :=
  let value := Decimal.ofPrefix t.text
  if !value.isFinite then .error ⟨SyntaxFault.literalOutOfRange, t.location⟩
  else if t.rule = .unitNumber then
    match LengthUnit.ofName? t.unit with
    | some unit => .ok (.number t.location ⟨value, some unit⟩)
    | none => .error t.malformed
  else .ok (.number t.location ⟨value, none⟩)

/-- The operator that a node of a chain denotes. -/
def lowerOperator (t : Tree) : Except Error BinaryOp :=
  match t.rule, BinaryOp.ofSymbol? t.text with
  | .operator, some op => .ok op
  | _, _ => .error t.malformed

/-- Whether what follows the first operand of a chain is operators and
    operands in turn, at least one of each. -/
def isChain (rest : List Tree) : Bool :=
  !rest.isEmpty && rest.length % 2 == 0

/-- The slots of a call after its positional arguments. -/
def positionalSlots (f : Builtin) (given : List Slot) : List Slot :=
  given ++ List.replicate (f.params.length - given.length) .absent

/-- The first parameter that has to be given and is not. -/
def missing? (f : Builtin) (slots : List Slot) : Option String :=
  ((f.params.zip slots).find? fun (p, s) => p.required && !s.isGiven).map fun (p, _) => p.name

mutual

/-- The expression of a tree. -/
def lowerExpr : Tree → Except Error Expr
  | ⟨rule, text, unit, loc, children⟩ =>
    match rule, children with
    | .string, _ => .ok (.string loc text)
    | .identifier, _ => .ok (.identifier loc text)
    | .unitlessNumber, _ => lowerNumber ⟨rule, text, unit, loc, children⟩
    | .unitNumber, _ => lowerNumber ⟨rule, text, unit, loc, children⟩
    | .assign, [name, value] => do return .assign loc name.text (← lowerExpr value)
    | .sum, first :: rest =>
      if isChain rest then do lowerChain (← lowerExpr first) rest
      else .error (malformed ⟨rule, text, unit, loc, children⟩)
    | .product, first :: rest =>
      if isChain rest then do lowerChain (← lowerExpr first) rest
      else .error (malformed ⟨rule, text, unit, loc, children⟩)
    | .power, [base, op, exponent] => do
      let lhs ← lowerExpr base
      return .binary op.location .power lhs (← lowerExpr exponent)
    | .negation, [_, operand] => do return .unary loc .negate (← lowerExpr operand)
    | .factorial, [operand, op] => do
      return .unary op.location .factorial (← lowerExpr operand)
    | .call, [name, ⟨_, _, _, _, params⟩] =>
      match Builtin.ofName? name.text with
      | none => .error ⟨NameFault.unknownFunction name.text, name.location⟩
      | some f => do
        let given ← lowerPositional f [] params
        let slots ← lowerNamed f given.length (positionalSlots f given) params
        match missing? f slots with
        | some param => .error ⟨BindingFault.missing f param, loc⟩
        | none => return .call loc f slots
    | _, _ => .error (malformed ⟨rule, text, unit, loc, children⟩)

/-- The rest of a chain, applied from the left. -/
def lowerChain (lhs : Expr) : List Tree → Except Error Expr
  | op :: operand :: rest => do
    let rhs ← lowerExpr operand
    let operator ← lowerOperator op
    lowerChain (.binary op.location operator lhs rhs) rest
  | _ => .ok lhs

/-- The positional arguments among the parameters of a call, in order. -/
def lowerPositional (f : Builtin) (given : List Slot) : List Tree → Except Error (List Slot)
  | [] => .ok given
  | ⟨rule, text, unit, loc, children⟩ :: params =>
    match rule, children with
    | .positionalParam, [value] =>
      if f.params.length ≤ given.length then .error ⟨BindingFault.tooManyPositional f, loc⟩
      else do
        let e ← lowerExpr value
        lowerPositional f (given ++ [.given loc e]) params
    | .positionalParam, _ => .error (malformed ⟨rule, text, unit, loc, children⟩)
    | _, _ => lowerPositional f given params

/-- The named arguments among the parameters of a call, put into the slots
    after `positional` arguments. -/
def lowerNamed (f : Builtin) (positional : Nat) (slots : List Slot) :
    List Tree → Except Error (List Slot)
  | [] => .ok slots
  | ⟨rule, text, unit, loc, children⟩ :: params =>
    match rule, children with
    | .positionalParam, _ => lowerNamed f positional slots params
    | .namedParam, [name, value] =>
      match f.slot? name.text with
      | none => .error ⟨BindingFault.noSuchParameter f name.text, loc⟩
      | some k =>
        if (slots.getD k .absent).isGiven then
          .error ⟨if k < positional then BindingFault.givenPositionally f name.text
            else BindingFault.givenTwice f name.text, loc⟩
        else do
          let e ← lowerExpr value
          lowerNamed f positional (slots.set k (.given loc e)) params
    | _, _ => .error (malformed ⟨rule, text, unit, loc, children⟩)

end

mutual

/-- The statement of a tree. -/
def lowerStmt : Tree → Except Error Stmt
  | ⟨rule, text, unit, loc, children⟩ =>
    match rule, children with
    | .statement, [value] => do return .expr (← lowerExpr value)
    | .block, body => do return .block loc (← lowerStmts body)
    | .forLoop, [item, source, ⟨bodyRule, bodyText, bodyUnit, opened, body⟩] => do
      let e ← lowerExpr source
      if bodyRule = .block then
        return .forLoop loc item.text e opened (← lowerStmts body)
      else .error (malformed ⟨bodyRule, bodyText, bodyUnit, opened, body⟩)
    | _, _ => .error (malformed ⟨rule, text, unit, loc, children⟩)

/-- The statements of a body. -/
def lowerStmts : List Tree → Except Error (List Stmt)
  | [] => .ok []
  | t :: ts => do
    let s ← lowerStmt t
    return s :: (← lowerStmts ts)

end

/-- The program of a tree. -/
def toProgram (t : Tree) : Except Error Program :=
  if t.rule = .program then do return ⟨t.location, ← lowerStmts t.children⟩
  else .error t.malformed

end Tree

end MillScript
