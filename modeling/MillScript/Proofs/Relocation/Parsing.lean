import MillScript.SyntaxTree.Parse

/-! # Places have no part in parsing

    To *relocate* tokens, trees and states of the parser is to change their
    places and nothing else, all by one map.  The parser looks at lexemes and
    copies places, so each of its steps can be taken before or after the
    relocation (`State.step_relocate`), and so can a whole run: from
    relocated tokens it makes the relocated tree, or fails for the same
    fault at the relocated place. -/

namespace MillScript

variable (f : Location → Location)

/-! ## Relocation -/

/-- A token at another place. -/
def Token.relocate (t : Token) : Token := ⟨t.lexeme, f t.location⟩

/-- All tokens at other places, and the end as well. -/
def TokenStream.relocate (s : TokenStream) : TokenStream :=
  ⟨s.tokens.map (Token.relocate f), f s.stop⟩

/-- An error at another place. -/
def Error.relocate (e : Error) : Error := ⟨e.fault, f e.location⟩

/-- An outcome with its value moved in its own way and its error relocated. -/
def relocated {α β : Type} (move : α → β) : Except Error α → Except Error β
  | .ok a => .ok (move a)
  | .error e => .error (e.relocate f)

namespace Tree

mutual

/-- A tree at other places, down to its leaves. -/
def relocate : Tree → Tree
  | ⟨rule, text, unit, location, children⟩ =>
    ⟨rule, text, unit, f location, relocateAll children⟩

/-- All of some trees at other places. -/
def relocateAll : List Tree → List Tree
  | [] => []
  | t :: ts => relocate t :: relocateAll ts

end

theorem relocateAll_eq (ts : List Tree) : relocateAll f ts = ts.map (relocate f) := by
  induction ts with
  | nil => rw [relocateAll, List.map_nil]
  | cons t ts ih => rw [relocateAll, List.map_cons, ih]

theorem relocate_mk (rule : Rule) (text unit : String) (l : Location) (children : List Tree) :
    relocate f ⟨rule, text, unit, l, children⟩
      = ⟨rule, text, unit, f l, children.map (relocate f)⟩ := by
  rw [relocate, relocateAll_eq]

@[simp] theorem location_relocate (t : Tree) : (t.relocate f).location = f t.location := by
  cases t
  rw [relocate_mk]

@[simp] theorem text_relocate (t : Tree) : (t.relocate f).text = t.text := by
  cases t
  rw [relocate_mk]

@[simp] theorem relocate_node (rule : Rule) (l : Location) (children : List Tree) :
    (node rule l children).relocate f = node rule (f l) (children.map (relocate f)) :=
  relocate_mk f rule "" "" l children

@[simp] theorem relocate_leaf (rule : Rule) (t : Token) :
    (leaf rule t).relocate f = leaf rule (t.relocate f) := relocate_mk f rule _ _ _ []

end Tree

namespace Parsing

/-- The statements of a body that is still open, and where it was opened. -/
def Body.relocate : Body → Body
  | .program done => .program (done.map (Tree.relocate f))
  | .block opened done outer =>
    .block (f opened) (done.map (Tree.relocate f)) outer.relocate
  | .loop start item source opened done outer =>
    .loop (f start) (item.relocate f) (source.relocate f) (f opened)
      (done.map (Tree.relocate f)) outer.relocate

/-- A sign or a base that waits for its operand. -/
def Waiting.relocate : Waiting → Waiting
  | .negation sign => .negation (sign.relocate f)
  | .power base sign => .power (base.relocate f) (sign.relocate f)

/-- All that waits for an operand. -/
def Pending.relocate (p : Pending) : Pending :=
  ⟨p.sum.map (Tree.relocate f), p.product.map (Tree.relocate f),
    p.waiting.map (Waiting.relocate f)⟩

/-- A call up to its closing parenthesis. -/
def OpenCall.relocate (c : OpenCall) : OpenCall :=
  ⟨c.name.relocate f, f c.opened, c.done.map (Tree.relocate f)⟩

/-- A parameter whose value is due. -/
def OpenParam.relocate (p : OpenParam) : OpenParam :=
  ⟨f p.start, p.name.map (Tree.relocate f)⟩

/-- Where an expression stands, with all that is open around it. -/
def Place.relocate : Place → Place
  | .statement start body => .statement (f start) (body.relocate f)
  | .loopSource start item body => .loopSource (f start) (item.relocate f) (body.relocate f)
  | .assigned name outer => .assigned (name.relocate f) outer.relocate
  | .group pending outer => .group (pending.relocate f) outer.relocate
  | .param call parameter pending outer =>
    .param (call.relocate f) (parameter.relocate f) (pending.relocate f) outer.relocate

/-- A state of the parser, with all that it has read. -/
def State.relocate : State → State
  | .statement body => .statement (body.relocate f)
  | .loopVariable start body => .loopVariable (f start) (body.relocate f)
  | .loopIn start item body => .loopIn (f start) (item.relocate f) (body.relocate f)
  | .operand pending place => .operand (pending.relocate f) (place.relocate f)
  | .name leaf pending place =>
    .name (leaf.relocate f) (pending.relocate f) (place.relocate f)
  | .finished tree pending place =>
    .finished (tree.relocate f) (pending.relocate f) (place.relocate f)
  | .firstParam call pending place =>
    .firstParam (call.relocate f) (pending.relocate f) (place.relocate f)
  | .nextParam call pending place =>
    .nextParam (call.relocate f) (pending.relocate f) (place.relocate f)

/-! ## Finished pieces -/

/-- A statement can be added before or after the relocation. -/
theorem Body.add_relocate (t : Tree) (b : Body) :
    (b.add t).relocate f = (b.relocate f).add (t.relocate f) := by
  cases b <;> rfl

/-- Whether a body can be closed does not hang on places. -/
theorem Body.close?_relocate (b : Body) :
    (b.relocate f).close? = b.close?.map (Body.relocate f) := by
  cases b with
  | program done => rfl
  | block opened done outer =>
      simp [relocate, close?, add_relocate]
  | loop start item source opened done outer =>
      simp [relocate, close?, add_relocate]

theorem Waiting.apply_relocate (w : Waiting) (operand : Tree) :
    (w.relocate f).apply (operand.relocate f) = (w.apply operand).relocate f := by
  cases w with
  | negation sign => simp [relocate, apply]
  | power base sign => simp [relocate, apply]

/-- A chain takes the place of its first operand, wherever that is. -/
theorem chain_relocate (rule : Rule) (done : List Tree) (last : Tree) :
    chain rule (done.map (Tree.relocate f)) (last.relocate f)
      = (chain rule done last).relocate f := by
  rw [chain, chain, ← List.map_reverse]
  cases done.reverse with
  | nil => rfl
  | cons first rest => simp

namespace Pending

/-- Whether something waits does not hang on places. -/
theorem isEmpty_relocate (p : Pending) : (p.relocate f).isEmpty = p.isEmpty := by
  simp [relocate, isEmpty]

/-- Signs and bases are applied from the last one to the first. -/
theorem unary_relocate (p : Pending) (operand : Tree) :
    (p.relocate f).unary (operand.relocate f) = (p.unary operand).relocate f := by
  obtain ⟨sum, product, waiting⟩ := p
  show (waiting.map (Waiting.relocate f)).foldl Waiting.apply _
    = (waiting.foldl Waiting.apply operand).relocate f
  induction waiting generalizing operand with
  | nil => rfl
  | cons w rest ih =>
      rw [List.map_cons, List.foldl_cons, List.foldl_cons, Waiting.apply_relocate]
      exact ih (w.apply operand)

theorem term_relocate (p : Pending) (operand : Tree) :
    (p.relocate f).term (operand.relocate f) = (p.term operand).relocate f := by
  rw [term, term, unary_relocate]
  exact chain_relocate f .product p.product _

/-- The expression that an operand completes is relocated as a whole. -/
theorem expression_relocate (p : Pending) (operand : Tree) :
    (p.relocate f).expression (operand.relocate f) = (p.expression operand).relocate f := by
  rw [expression, expression, term_relocate]
  exact chain_relocate f .sum p.sum _

end Pending

/-- A call takes the place of its name. -/
theorem OpenCall.finish_relocate (c : OpenCall) :
    (c.relocate f).finish = c.finish.relocate f := by
  simp [finish, relocate]

/-- A parameter takes the place where it starts. -/
theorem OpenParam.finish_relocate (p : OpenParam) (value : Tree) :
    (p.relocate f).finish (value.relocate f) = (p.finish value).relocate f := by
  obtain ⟨start, name⟩ := p
  cases name with
  | none => simp [finish, relocate]
  | some name => simp [finish, relocate]

/-! ## Steps -/

/-- What the parser asks for does not hang on places. -/
theorem Place.expectation_relocate (p : Place) : (p.relocate f).expectation = p.expectation := by
  induction p with
  | assigned name outer ih => exact ih
  | statement start body => rfl
  | loopSource start item body => rfl
  | group pending outer => rfl
  | param call parameter pending outer => rfl

/-- What a name before `=` is for does not hang on places. -/
theorem Place.assign_relocate (name : Tree) (p : Place) :
    (p.relocate f).assign (name.relocate f) = (p.assign name).relocate f := by
  cases p with
  | param call parameter pending outer =>
      obtain ⟨start, given⟩ := parameter
      cases given <;> rfl
  | statement start body => rfl
  | loopSource start item body => rfl
  | assigned name' outer => rfl
  | group pending outer => rfl

/-- What the parser finds in a token to decide on is its lexeme. -/
@[simp] theorem lexeme_relocate (t : Token) : (t.relocate f).lexeme = t.lexeme := rfl

/-- What ends an expression does not hang on places. -/
theorem Place.close_relocate (value : Tree) (t : Token) (p : Place) :
    (p.relocate f).close (value.relocate f) (t.relocate f)
      = (p.close value t).map (State.relocate f) := by
  induction p generalizing value with
  | statement start body =>
      by_cases ht : t.lexeme = .symbol .semicolon
      · simp [Place.relocate, close, ht, State.relocate, Body.add_relocate]
      · simp [Place.relocate, close, ht]
  | loopSource start item body =>
      by_cases ht : t.lexeme = .symbol .openBrace
      · simp [Place.relocate, close, ht, State.relocate, Body.relocate, Token.relocate]
      · simp [Place.relocate, close, ht]
  | assigned name outer ih =>
      rw [Place.relocate, close, close, ← ih]
      simp
  | group pending outer =>
      by_cases ht : t.lexeme = .symbol .closeParen
      · simp [Place.relocate, close, ht, State.relocate]
      · simp [Place.relocate, close, ht]
  | param call parameter pending outer =>
      have hdone : { call.relocate f with
          done := (parameter.relocate f).finish (value.relocate f) :: (call.relocate f).done }
            = OpenCall.relocate f { call with done := parameter.finish value :: call.done } := by
        rw [OpenParam.finish_relocate]
        rfl
      rw [Place.relocate, close, close, hdone, lexeme_relocate]
      by_cases hcomma : t.lexeme = .symbol .comma
      · simp [hcomma, State.relocate]
      · by_cases hclose : t.lexeme = .symbol .closeParen
        · simp [hclose, State.relocate, OpenCall.finish_relocate]
        · simp [hcomma, hclose]

namespace State

/-- The message at a token that does not fit names no places. -/
theorem expectation_relocate (s : State) : (s.relocate f).expectation = s.expectation := by
  cases s with
  | name leaf pending place => exact place.expectation_relocate f
  | finished tree pending place => exact place.expectation_relocate f
  | statement body => rfl
  | loopVariable start body => rfl
  | loopIn start item body => rfl
  | operand pending place => rfl
  | firstParam call pending place => rfl
  | nextParam call pending place => rfl

/-- A step where an operand is due can be taken before or after the
    relocation. -/
theorem operandStep_relocate (pending : Pending) (place : Place) (t : Token) :
    operandStep (pending.relocate f) (place.relocate f) (t.relocate f)
      = (operandStep pending place t).map (State.relocate f) := by
  rw [operandStep, operandStep, lexeme_relocate]
  split <;> simp [State.relocate, Place.relocate, Pending.relocate, Waiting.relocate]

/-- The product goes on after an operator. -/
theorem product_relocate (operand : Tree) (pending : Pending) (t : Token) :
    { pending.relocate f with
      product := .leaf .operator (t.relocate f) :: (pending.relocate f).unary (operand.relocate f)
        :: (pending.relocate f).product
      waiting := [] }
      = Pending.relocate f
        { pending with
          product := .leaf .operator t :: pending.unary operand :: pending.product
          waiting := [] } := by
  rw [Pending.unary_relocate]
  simp [Pending.relocate]

/-- The sum goes on after an operator. -/
theorem sum_relocate (operand : Tree) (pending : Pending) (t : Token) :
    Pending.mk (.leaf .operator (t.relocate f) :: (pending.relocate f).term (operand.relocate f)
        :: (pending.relocate f).sum) [] []
      = Pending.relocate f ⟨.leaf .operator t :: pending.term operand :: pending.sum, [], []⟩ := by
  rw [Pending.term_relocate]
  simp [Pending.relocate]

/-- So can a step after an operand. -/
theorem finishedStep_relocate (operand : Tree) (pending : Pending) (place : Place) (t : Token) :
    finishedStep (operand.relocate f) (pending.relocate f) (place.relocate f) (t.relocate f)
      = (finishedStep operand pending place t).map (State.relocate f) := by
  rw [finishedStep, finishedStep, lexeme_relocate]
  split
  · simp [State.relocate]
  · simp [State.relocate, Pending.relocate, Waiting.relocate]
  · rw [product_relocate]
    rfl
  · rw [product_relocate]
    rfl
  · rw [sum_relocate]
    rfl
  · rw [sum_relocate]
    rfl
  · rw [Pending.expression_relocate, Place.close_relocate]

/-- So can a step after a name. -/
theorem nameStep_relocate (name : Tree) (pending : Pending) (place : Place) (t : Token) :
    nameStep (name.relocate f) (pending.relocate f) (place.relocate f) (t.relocate f)
      = (nameStep name pending place t).map (State.relocate f) := by
  rw [nameStep, nameStep, lexeme_relocate, Pending.isEmpty_relocate, finishedStep_relocate]
  by_cases hopen : t.lexeme = .symbol .openParen
  · rw [if_pos hopen, if_pos hopen]
    rfl
  · rw [if_neg hopen, if_neg hopen]
    by_cases hassign : t.lexeme = .symbol .assign ∧ pending.isEmpty = true
    · rw [if_pos hassign, if_pos hassign, Place.assign_relocate]
      rfl
    · rw [if_neg hassign, if_neg hassign]

/-- So can a step where a parameter is due. -/
theorem paramStep_relocate (call : OpenCall) (pending : Pending) (place : Place) (t : Token) :
    paramStep (call.relocate f) (pending.relocate f) (place.relocate f) (t.relocate f)
      = (paramStep call pending place t).map (State.relocate f) :=
  operandStep_relocate f {} (.param call ⟨t.location, none⟩ pending place) t

/-- So can a step where a statement is due. -/
theorem statementStep_relocate (body : Body) (t : Token) :
    statementStep (body.relocate f) (t.relocate f)
      = (statementStep body t).map (State.relocate f) := by
  rw [statementStep, statementStep, lexeme_relocate]
  split
  · rfl
  · rfl
  · rw [Body.close?_relocate, Option.map_map, Option.map_map]
    rfl
  · exact operandStep_relocate f {} (.statement t.location body) t

/-- **A step may be taken before or after the relocation.** -/
theorem step_relocate (t : Token) (s : State) :
    (s.relocate f).step (t.relocate f) = (s.step t).map (State.relocate f) := by
  cases s with
  | statement body => exact statementStep_relocate f body t
  | loopVariable start body =>
      rw [State.relocate, step, step, lexeme_relocate]
      split <;> simp [State.relocate]
  | loopIn start item body =>
      rw [State.relocate, step, step, lexeme_relocate]
      by_cases hin : t.lexeme = .inKeyword
      · rw [if_pos hin, if_pos hin]
        rfl
      · rw [if_neg hin, if_neg hin]
        rfl
  | operand pending place => exact operandStep_relocate f pending place t
  | name leaf pending place => exact nameStep_relocate f leaf pending place t
  | finished tree pending place => exact finishedStep_relocate f tree pending place t
  | firstParam call pending place =>
      rw [State.relocate, step, step, lexeme_relocate]
      by_cases hclose : t.lexeme = .symbol .closeParen
      · rw [if_pos hclose, if_pos hclose, OpenCall.finish_relocate]
        rfl
      · rw [if_neg hclose, if_neg hclose, paramStep_relocate]
  | nextParam call pending place => exact paramStep_relocate f call pending place t

/-- A whole run can be made before or after the relocation. -/
theorem run_relocate (s : State) (ts : List Token) :
    (s.relocate f).run (ts.map (Token.relocate f)) = relocated f (State.relocate f) (s.run ts) := by
  induction ts generalizing s with
  | nil => rfl
  | cons t rest ih =>
      rw [List.map_cons, run, run, step_relocate]
      cases s.step t with
      | none =>
          rw [expectation_relocate]
          rfl
      | some next => exact ih next

/-- At the end there is the relocated tree, or the error at the relocated
    end. -/
theorem finish_relocate (start stop : Location) (s : State) :
    (s.relocate f).finish (f start) (f stop)
      = relocated f (Tree.relocate f) (s.finish start stop) := by
  cases s with
  | statement body =>
      cases body with
      | program done => simp [State.relocate, Body.relocate, finish, relocated]
      | block opened done outer => rfl
      | loop first item source opened done outer => rfl
  | name leaf pending place =>
      show Except.error (Error.mk (SyntaxFault.expected (place.relocate f).expectation none) _) = _
      rw [Place.expectation_relocate]
      rfl
  | finished tree pending place =>
      show Except.error (Error.mk (SyntaxFault.expected (place.relocate f).expectation none) _) = _
      rw [Place.expectation_relocate]
      rfl
  | loopVariable first body => rfl
  | loopIn first item body => rfl
  | operand pending place => rfl
  | firstParam call pending place => rfl
  | nextParam call pending place => rfl

end State

end Parsing

namespace Tree

open Parsing

theorem start_relocate (s : TokenStream) : (s.relocate f).start = f s.start := by
  obtain ⟨tokens, stop⟩ := s
  cases tokens <;> rfl

/-- **Parsing may be done before or after the relocation.** -/
theorem ofTokens_relocate (s : TokenStream) :
    ofTokens (s.relocate f) = relocated f (relocate f) (ofTokens s) := by
  have hrun : State.initial.run (s.relocate f).tokens
      = relocated f (State.relocate f) (State.initial.run s.tokens) :=
    State.run_relocate f .initial s.tokens
  rw [ofTokens, ofTokens, start_relocate, hrun]
  cases State.initial.run s.tokens with
  | error e => rfl
  | ok state => exact State.finish_relocate f s.start s.stop state

end Tree

end MillScript
