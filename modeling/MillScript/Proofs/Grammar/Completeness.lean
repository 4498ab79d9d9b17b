import Mathlib.Logic.ExistsUnique
import MillScript.Proofs.Grammar.Soundness

/-! # What the parser accepts

    The tokens of a phrase take the parser from the place where the phrase
    is due to a state that holds its tree.  `Accepts phrase tokens trees`
    says which states these are; by induction on derivations it holds of
    all that the grammar derives, so the parser returns every tree that the
    grammar gives. -/

namespace MillScript.Parsing

/-! ## Runs -/

/-- A token that fits is read, and the run goes on from the next state. -/
theorem run_cons {state next : State} {t : Token} (ts : List Token)
    (h : state.step t = some next) : state.run (t :: ts) = next.run ts := by
  rw [State.run, h]

theorem run_singleton {state next : State} {t : Token} (h : state.step t = some next) :
    state.run [t] = .ok next := run_cons [] h

/-- Runs can be cut in two: the second half starts where the first one
    ended. -/
theorem run_append {state middle : State} {ts : List Token} (us : List Token)
    (h : state.run ts = .ok middle) : state.run (ts ++ us) = middle.run us := by
  induction ts generalizing state with
  | nil =>
      cases h
      rfl
  | cons t ts ih =>
      rw [State.run] at h
      split at h
      case h_1 next hstep => exact (run_cons (ts ++ us) hstep).trans (ih h)
      case h_2 => cases h

/-- What follows a token that does not fit is never looked at. -/
theorem run_append_of_error {state : State} {ts : List Token} {e : Error} (us : List Token)
    (h : state.run ts = .error e) : state.run (ts ++ us) = .error e := by
  induction ts generalizing state with
  | nil => cases h
  | cons t ts ih =>
      rw [State.run] at h
      split at h
      case h_1 next hstep => exact (run_cons (ts ++ us) hstep).trans (ih h)
      case h_2 hstep => rw [List.cons_append, State.run, hstep, h]

/-- The first step of a run that goes through. -/
theorem exists_step_of_run {state last : State} {t : Token} {ts : List Token}
    (h : state.run (t :: ts) = .ok last) :
    ∃ next, state.step t = some next ∧ next.run ts = .ok last := by
  rw [State.run] at h
  split at h
  case h_1 next hstep => exact ⟨next, hstep, h⟩
  case h_2 => cases h

/-! ## After an operand -/

theorem IsSymbol.lexeme {t : Token} {s : Symbol} (h : IsSymbol t s) : t.lexeme = .symbol s := h

theorem IsSymbol.ne {t : Token} {s : Symbol} (h : IsSymbol t s) {s' : Symbol} (hne : s ≠ s') :
    t.lexeme ≠ .symbol s' := by
  rw [h]
  exact fun heq => hne (Lexeme.symbol.inj heq)

/-- A token that means the same after a name as after any other operand: it
    does not call the name or assign to it. -/
def Follows (t : Token) : Prop := t.lexeme ≠ .symbol .openParen ∧ t.lexeme ≠ .symbol .assign

/-- Every sign but an opening parenthesis and `=` means the same after all
    operands. -/
theorem IsSymbol.follows {t : Token} {s : Symbol} (h : IsSymbol t s)
    (hs : s ≠ .openParen ∧ s ≠ .assign) : Follows t :=
  ⟨h.ne hs.1, h.ne hs.2⟩

/-- A state after an operand: what it does with a token that may follow
    one. -/
def State.AfterOperand (operand : Tree) (pending : Pending) (place : Place) (state : State) :
    Prop :=
  ∀ t, Follows t → state.step t = State.finishedStep operand pending place t

/-- An operand that cannot grow any more is followed as operands are. -/
theorem afterOperand_finished (operand : Tree) (pending : Pending) (place : Place) :
    (State.finished operand pending place).AfterOperand operand pending place :=
  fun _ _ => rfl

/-- A name that is not called or assigned to is followed as other operands
    are. -/
theorem afterOperand_name (name : Tree) (pending : Pending) (place : Place) :
    (State.name name pending place).AfterOperand name pending place := by
  intro t hfollows
  change State.nameStep name pending place t = _
  rw [State.nameStep, if_neg hfollows.1, if_neg fun h => hfollows.2 h.1]

/-- The tokens take a state to one after an operand of the place, where the
    operand and what is pending before it satisfy a condition. -/
def Reaches (start : State) (ts : List Token) (place : Place) (Q : Tree → Pending → Prop) :
    Prop :=
  ∃ state operand pending, start.run ts = .ok state
    ∧ state.AfterOperand operand pending place ∧ Q operand pending

namespace Reaches

variable {start middle : State} {ts us : List Token} {place : Place}
  {Q Q' : Tree → Pending → Prop}

/-- Whoever gets to a place with more known of the operand gets there with
    less. -/
theorem mono (h : Reaches start ts place Q)
    (himp : ∀ operand pending, Q operand pending → Q' operand pending) :
    Reaches start ts place Q' := by
  obtain ⟨state, operand, pending, hrun, hafter, hQ⟩ := h
  exact ⟨state, operand, pending, hrun, hafter, himp operand pending hQ⟩

theorem cons {t : Token} (hstep : start.step t = some middle) (h : Reaches middle ts place Q) :
    Reaches start (t :: ts) place Q := by
  obtain ⟨state, operand, pending, hrun, hafter⟩ := h
  exact ⟨state, operand, pending, (run_cons ts hstep).trans hrun, hafter⟩

/-- An operator after an operand, and what comes next. -/
theorem operator {sign : Token} (h : Reaches start ts place Q)
    (hsign : Follows sign)
    (hnext : ∀ operand pending, Q operand pending →
      ∃ next, State.finishedStep operand pending place sign = some next
        ∧ Reaches next us place Q') :
    Reaches start (ts ++ sign :: us) place Q' := by
  obtain ⟨state, operand, pending, hrun, hafter, hQ⟩ := h
  obtain ⟨next, hstep, hreach⟩ := hnext operand pending hQ
  rw [← hafter sign hsign] at hstep
  obtain ⟨last, operand', pending', hlast, hafter'⟩ := hreach.cons hstep
  exact ⟨last, operand', pending', (run_append _ hrun).trans hlast, hafter'⟩

end Reaches

/-! ## Operands and operators -/

/-- The tokens of one operand. -/
def AcceptsPrimary (ts : List Token) (v : Tree) : Prop :=
  ∀ pending place, Reaches (.operand pending place) ts place fun operand p =>
    operand = v ∧ p = pending

/-- The tokens of a unary term: its signs and bases wait for its last
    operand, which becomes the term. -/
def AcceptsUnary (ts : List Token) (v : Tree) : Prop :=
  ∀ pending place, Reaches (.operand pending place) ts place fun operand p =>
    p.sum = pending.sum ∧ p.product = pending.product ∧ p.unary operand = pending.unary v

/-- The tokens of a product, from its start. -/
def AcceptsFactors (ts : List Token) (done : List Tree) : Prop :=
  ∀ sum place, Reaches (.operand { sum } place) ts place fun operand p =>
    p.sum = sum ∧ p.product.reverse ++ [p.unary operand] = done

/-- The tokens of a term, from its start: its tree is what the product comes
    to. -/
def AcceptsTerm (ts : List Token) (v : Tree) : Prop :=
  ∀ sum place, Reaches (.operand { sum } place) ts place fun operand p =>
    p.sum = sum ∧ p.term operand = v

/-- The tokens of a sum, from its start. -/
def AcceptsSummands (ts : List Token) (done : List Tree) : Prop :=
  ∀ place, Reaches (.operand {} place) ts place fun operand p =>
    p.sum.reverse ++ [p.term operand] = done

/-- The tokens of a sum, from its start: its tree is what the whole comes
    to. -/
def AcceptsMath (ts : List Token) (v : Tree) : Prop :=
  ∀ place, Reaches (.operand {} place) ts place fun operand p => p.expression operand = v

/-- A factorial replaces the operand before it. -/
theorem acceptsPrimary_factorial {ts : List Token} {sign : Token} {v : Tree}
    (h : AcceptsPrimary ts v) (hsign : IsSymbol sign .bang) :
    AcceptsPrimary (ts ++ [sign]) (.node .factorial v.location [v, .leaf .operator sign]) := by
  intro pending place
  refine (h pending place).operator (hsign.follows (by decide)) ?_
  rintro v pending ⟨rfl, rfl⟩
  refine ⟨.finished (.node .factorial v.location [v, .leaf .operator sign]) pending place, ?_, ?_⟩
  · rw [State.finishedStep, hsign]
  · exact ⟨_, _, _, rfl, afterOperand_finished _ pending place, rfl, rfl⟩

/-- An operand by itself is a unary term. -/
theorem acceptsUnary_of_primary {ts : List Token} {v : Tree} (h : AcceptsPrimary ts v) :
    AcceptsUnary ts v := by
  intro pending place
  refine (h pending place).mono ?_
  rintro operand p ⟨rfl, rfl⟩
  exact ⟨rfl, rfl, rfl⟩

/-- A sign waits for its term. -/
theorem acceptsUnary_negation {ts : List Token} {sign : Token} {v : Tree}
    (hsign : IsSymbol sign .minus) (h : AcceptsUnary ts v) :
    AcceptsUnary (sign :: ts) (.node .negation sign.location [.leaf .operator sign, v]) := by
  intro pending place
  have hstep : (State.operand pending place).step sign = some (.operand
      { pending with waiting := .negation (.leaf .operator sign) :: pending.waiting } place) := by
    change State.operandStep pending place sign = _
    rw [State.operandStep, hsign]
  exact (h _ place).cons hstep

/-- A base waits for its exponent, which may have signs and bases of its own:
    powers group to the right. -/
theorem acceptsUnary_power {ts us : List Token} {sign : Token} {base exponent : Tree}
    (hbase : AcceptsPrimary ts base) (hsign : IsSymbol sign .caret)
    (hexponent : AcceptsUnary us exponent) :
    AcceptsUnary (ts ++ sign :: us)
      (.node .power base.location [base, .leaf .operator sign, exponent]) := by
  intro pending place
  refine (hbase pending place).operator (hsign.follows (by decide)) ?_
  rintro base pending ⟨rfl, rfl⟩
  refine ⟨.operand { pending with waiting := .power base (.leaf .operator sign) :: pending.waiting }
    place, ?_, hexponent _ place⟩
  rw [State.finishedStep, hsign]

/-- A product starts with one unary term. -/
theorem acceptsFactors_first {ts : List Token} {v : Tree} (h : AcceptsUnary ts v) :
    AcceptsFactors ts [v] := by
  intro sum place
  refine (h { sum } place).mono ?_
  rintro operand p ⟨hsum, hproduct, hunary⟩
  rw [hproduct, hunary]
  exact ⟨hsum, rfl⟩

/-- A factor more, after `*` or `/`, goes to the end of the product: products
    group to the left. -/
theorem acceptsFactors_more {ts us : List Token} {sign : Token} {done : List Tree} {v : Tree}
    (hdone : AcceptsFactors ts done) (hsign : IsSymbol sign .star ∨ IsSymbol sign .slash)
    (h : AcceptsUnary us v) :
    AcceptsFactors (ts ++ sign :: us) (done ++ [.leaf .operator sign, v]) := by
  intro sum place
  have hfollows : Follows sign :=
    hsign.elim (·.follows (by decide)) (·.follows (by decide))
  refine (hdone sum place).operator hfollows ?_
  rintro operand p ⟨rfl, rfl⟩
  refine ⟨.operand { p with
    product := .leaf .operator sign :: p.unary operand :: p.product, waiting := [] } place, ?_, ?_⟩
  · rw [State.finishedStep]
    obtain hsign | hsign := hsign <;> rw [hsign]
  · refine (h _ place).mono ?_
    rintro operand' p' ⟨hsum, hproduct, hunary⟩
    rw [hproduct, hunary]
    exact ⟨hsum, by simp [Pending.unary]⟩

/-- A chain of one operand is that operand. -/
theorem chain_of_append_eq_singleton {rule : Rule} {done : List Tree} {last v : Tree}
    (h : done.reverse ++ [last] = [v]) : chain rule done last = v := by
  rcases chain_cases rule done last with hlone | ⟨first, rest, hrest, hdone, -⟩
  · exact List.singleton_inj.mp (hlone.symm.trans h)
  · exact absurd (List.cons.inj (hdone.symm.trans h)).2 hrest

/-- A chain of several operands is a node of its own, at the place of the
    first. -/
theorem chain_of_append_eq_cons {rule : Rule} {done rest : List Tree} {last first : Tree}
    (h : done.reverse ++ [last] = first :: rest) (hrest : rest ≠ []) :
    chain rule done last = .node rule first.location (first :: rest) := by
  rcases chain_cases rule done last with hlone | ⟨first', rest', -, hdone, hchain⟩
  · exact absurd (List.cons.inj (hlone.symm.trans h)).2.symm hrest
  · obtain ⟨rfl, rfl⟩ := List.cons.inj (hdone.symm.trans h)
    exact hchain

/-- A product of one factor is that factor. -/
theorem acceptsTerm_lone {ts : List Token} {v : Tree} (h : AcceptsFactors ts [v]) :
    AcceptsTerm ts v := by
  intro sum place
  refine (h sum place).mono ?_
  rintro operand p ⟨hsum, hdone⟩
  exact ⟨hsum, chain_of_append_eq_singleton hdone⟩

/-- A product of several factors is a node. -/
theorem acceptsTerm_product {ts : List Token} {first : Tree} {rest : List Tree}
    (h : AcceptsFactors ts (first :: rest)) (hrest : rest ≠ []) :
    AcceptsTerm ts (.node .product first.location (first :: rest)) := by
  intro sum place
  refine (h sum place).mono ?_
  rintro operand p ⟨hsum, hdone⟩
  exact ⟨hsum, chain_of_append_eq_cons hdone hrest⟩

/-- A sum starts with one term. -/
theorem acceptsSummands_first {ts : List Token} {v : Tree} (h : AcceptsTerm ts v) :
    AcceptsSummands ts [v] := by
  intro place
  refine (h [] place).mono ?_
  rintro operand p ⟨hsum, hterm⟩
  rw [hsum, hterm]
  rfl

/-- A term more, after `+` or `-`, goes to the end of the sum: sums group to
    the left. -/
theorem acceptsSummands_more {ts us : List Token} {sign : Token} {done : List Tree} {v : Tree}
    (hdone : AcceptsSummands ts done) (hsign : IsSymbol sign .plus ∨ IsSymbol sign .minus)
    (h : AcceptsTerm us v) :
    AcceptsSummands (ts ++ sign :: us) (done ++ [.leaf .operator sign, v]) := by
  intro place
  have hfollows : Follows sign :=
    hsign.elim (·.follows (by decide)) (·.follows (by decide))
  refine (hdone place).operator hfollows ?_
  rintro operand p rfl
  refine ⟨.operand { sum := .leaf .operator sign :: p.term operand :: p.sum } place, ?_, ?_⟩
  · rw [State.finishedStep]
    obtain hsign | hsign := hsign <;> rw [hsign]
  · refine (h _ place).mono ?_
    rintro operand' p' ⟨hsum, hterm⟩
    rw [hsum, hterm]
    simp

theorem acceptsMath_lone {ts : List Token} {v : Tree} (h : AcceptsSummands ts [v]) :
    AcceptsMath ts v :=
  fun place => (h place).mono fun _ _ hdone => chain_of_append_eq_singleton hdone

/-- A sum of several terms is a node; one of a single term is that term. -/
theorem acceptsMath_sum {ts : List Token} {first : Tree} {rest : List Tree}
    (h : AcceptsSummands ts (first :: rest)) (hrest : rest ≠ []) :
    AcceptsMath ts (.node .sum first.location (first :: rest)) :=
  fun place => (h place).mono fun _ _ hdone => chain_of_append_eq_cons hdone hrest

/-! ## Expressions -/

/-- A token that ends an expression. -/
def Closes (t : Token) : Prop :=
  IsSymbol t .semicolon ∨ IsSymbol t .openBrace ∨ IsSymbol t .comma ∨ IsSymbol t .closeParen

/-- A state after a whole expression: what it does with a token that ends
    one. -/
def State.AfterExpr (v : Tree) (place : Place) (state : State) : Prop :=
  ∀ t, Closes t → state.step t = place.close v t

/-- The tokens of an expression, but not where its name would name a
    parameter. -/
def AcceptsExpr (ts : List Token) (v : Tree) : Prop :=
  ∀ place : Place, ¬ place.IsFresh →
    ∃ state, (State.operand {} place).run ts = .ok state ∧ state.AfterExpr v place

/-- After the last operand of an expression comes what ends the expression. -/
theorem State.AfterOperand.afterExpr {state : State} {operand : Tree} {pending : Pending}
    {place : Place} (h : state.AfterOperand operand pending place) :
    state.AfterExpr (pending.expression operand) place := by
  rintro t (hend | hend | hend | hend) <;>
    rw [h t (hend.follows (by decide)), State.finishedStep, hend]

/-- Where operands and what is pending make up an expression, the state is one
    after it. -/
theorem Reaches.afterExpr {start : State} {ts : List Token} {place : Place} {v : Tree}
    (h : Reaches start ts place fun operand p => p.expression operand = v) :
    ∃ state, start.run ts = .ok state ∧ state.AfterExpr v place := by
  obtain ⟨state, operand, pending, hrun, hafter, rfl⟩ := h
  exact ⟨state, hrun, hafter.afterExpr⟩

/-- A sum is an expression. -/
theorem acceptsExpr_of_math {ts : List Token} {v : Tree} (h : AcceptsMath ts v) :
    AcceptsExpr ts v :=
  fun place _ => (h place).afterExpr

/-- Except at the start of a parameter, `=` after a name makes an
    assignment. -/
theorem assign_of_not_isFresh {place : Place} (h : ¬ place.IsFresh) (name : Tree) :
    place.assign name = .assigned name place := by
  cases place with
  | statement => rfl
  | loopSource => rfl
  | assigned => rfl
  | group => rfl
  | param call param pending outer =>
      obtain ⟨start, _ | item⟩ := param
      · exact absurd trivial h
      · rfl

/-- Where an operand is due, a name is kept until the next token tells what it
    is. -/
theorem step_operand_of_isName {t : Token} (h : IsName t) (pending : Pending) (place : Place) :
    (State.operand pending place).step t = some (.name (.leaf .identifier t) pending place) := by
  obtain ⟨name, hname⟩ := h
  change State.operandStep pending place t = _
  rw [State.operandStep, hname]

/-- After a name with nothing pending before it, `=` opens what the name is
    for. -/
theorem step_name_of_assign {sign : Token} (h : IsSymbol sign .assign) (name : Tree)
    (place : Place) :
    (State.name name {} place).step sign = some (.operand {} (place.assign name)) := by
  change State.nameStep name {} place sign = _
  have hopen : sign.lexeme ≠ .symbol .openParen := h.ne (by decide)
  rw [State.nameStep, if_neg hopen, if_pos ⟨h.lexeme, rfl⟩]

/-- An assignment is an expression, and so is what it assigns: assignments
    group to the right. -/
theorem acceptsExpr_assign {name sign : Token} {ts : List Token} {v : Tree} (hname : IsName name)
    (hsign : IsSymbol sign .assign) (h : AcceptsExpr ts v) :
    AcceptsExpr (name :: sign :: ts) (.node .assign name.location [.leaf .identifier name, v]) := by
  intro place hfresh
  obtain ⟨state, hrun, hafter⟩ := h (.assigned (.leaf .identifier name) place) id
  refine ⟨state, ?_, hafter⟩
  rw [run_cons _ (step_operand_of_isName hname {} place),
    run_cons _ (step_name_of_assign hsign _ place), assign_of_not_isFresh hfresh]
  exact hrun

/-! ## Parameters -/

/-- A state after a parameter, which the call holds already. -/
def State.AfterParam (call : OpenCall) (pending : Pending) (place : Place) (state : State) :
    Prop :=
  (∀ t, IsSymbol t .comma → state.step t = some (.nextParam call pending place))
    ∧ ∀ t, IsSymbol t .closeParen → state.step t = some (.finished call.finish pending place)

/-- The tokens of a parameter, the first one of a call or a later one. -/
def AcceptsParam (ts : List Token) (v : Tree) : Prop :=
  ∀ call pending place, ∃ state, (State.firstParam call pending place).run ts = .ok state
    ∧ (State.nextParam call pending place).run ts = .ok state
    ∧ state.AfterParam { call with done := v :: call.done } pending place

/-- The tokens of a list of parameters: the call holds all of them at the
    end. -/
def AcceptsParams (ts : List Token) (params : List Tree) : Prop :=
  ∀ name opened pending place, ∃ state,
    (State.firstParam ⟨name, opened, []⟩ pending place).run ts = .ok state
      ∧ state.AfterParam ⟨name, opened, params.reverse⟩ pending place

/-- The tokens between the parentheses of a call. -/
def AcceptsArguments (ts : List Token) (params : List Tree) : Prop :=
  ∀ name opened pending place closing, IsSymbol closing .closeParen →
    (State.firstParam ⟨name, opened, []⟩ pending place).run (ts ++ [closing])
      = .ok (.finished (OpenCall.finish ⟨name, opened, params.reverse⟩) pending place)

/-- The expression of a parameter ends where the parameter does. -/
theorem State.AfterExpr.afterParam {state : State} {call : OpenCall} {param : OpenParam}
    {pending : Pending} {outer : Place} {v : Tree}
    (h : state.AfterExpr v (.param call param pending outer)) :
    state.AfterParam { call with done := param.finish v :: call.done } pending outer := by
  constructor
  · intro t hcomma
    rw [h t (.inr (.inr (.inl hcomma))), Place.close, if_pos hcomma.lexeme]
  · intro t hclosing
    have hcomma : t.lexeme ≠ .symbol .comma := hclosing.ne (by decide)
    rw [h t (.inr (.inr (.inr hclosing))), Place.close, if_neg hcomma, if_pos hclosing.lexeme]

/-- Where a parameter starts, the parser does what it does where an operand
    is due. -/
theorem run_param {call : OpenCall} {pending : Pending} {place : Place} {t : Token}
    {ts : List Token} {state : State}
    (h : (State.operand {} (.param call ⟨t.location, none⟩ pending place)).run (t :: ts)
      = .ok state) :
    (State.firstParam call pending place).run (t :: ts) = .ok state
      ∧ (State.nextParam call pending place).run (t :: ts) = .ok state := by
  obtain ⟨next, hstep, hrun⟩ := exists_step_of_run h
  -- the end of a call starts no operand
  have hclosing : t.lexeme ≠ .symbol .closeParen := by
    intro hclosing
    change State.operandStep _ _ t = _ at hstep
    rw [State.operandStep, hclosing] at hstep
    cases hstep
  constructor
  · have hfirst : (State.firstParam call pending place).step t = some next := by
      rw [State.step, if_neg hclosing]
      exact hstep
    exact (run_cons ts hfirst).trans hrun
  · exact (run_cons ts hstep).trans hrun

/-- A sum is a parameter by its position. -/
theorem acceptsParam_positional {t : Token} {ts : List Token} {v : Tree}
    (h : AcceptsMath (t :: ts) v) :
    AcceptsParam (t :: ts) (.node .positionalParam t.location [v]) := by
  intro call pending place
  obtain ⟨state, hrun, hafter⟩ :=
    (h (.param call ⟨t.location, none⟩ pending place)).afterExpr
  obtain ⟨hfirst, hnext⟩ := run_param hrun
  exact ⟨state, hfirst, hnext, hafter.afterParam⟩

/-- A name, `=` and an expression are a parameter by its name. -/
theorem acceptsParam_named {name sign : Token} {ts : List Token} {v : Tree} (hname : IsName name)
    (hsign : IsSymbol sign .assign) (h : AcceptsExpr ts v) :
    AcceptsParam (name :: sign :: ts)
      (.node .namedParam name.location [.leaf .identifier name, v]) := by
  intro call pending place
  obtain ⟨state, hrun, hafter⟩ :=
    h (.param call ⟨name.location, some (.leaf .identifier name)⟩ pending place) id
  have hrun : (State.operand {} (.param call ⟨name.location, none⟩ pending place)).run
      (name :: sign :: ts) = .ok state := by
    rw [run_cons _ (step_operand_of_isName hname {} _), run_cons _ (step_name_of_assign hsign _ _)]
    exact hrun
  obtain ⟨hfirst, hnext⟩ := run_param hrun
  exact ⟨state, hfirst, hnext, hafter.afterParam⟩

/-- A list of parameters starts with one of them. -/
theorem acceptsParams_first {ts : List Token} {v : Tree} (h : AcceptsParam ts v) :
    AcceptsParams ts [v] := by
  intro name opened pending place
  obtain ⟨state, hfirst, -, hafter⟩ := h ⟨name, opened, []⟩ pending place
  exact ⟨state, hfirst, hafter⟩

/-- A parameter more, after a comma, goes to the end of the list. -/
theorem acceptsParams_more {ts us : List Token} {comma : Token} {done : List Tree} {v : Tree}
    (hdone : AcceptsParams ts done) (hcomma : IsSymbol comma .comma) (h : AcceptsParam us v) :
    AcceptsParams (ts ++ comma :: us) (done ++ [v]) := by
  intro name opened pending place
  obtain ⟨middle, hrun, hmore, -⟩ := hdone name opened pending place
  obtain ⟨state, -, hnext, hafter⟩ := h ⟨name, opened, done.reverse⟩ pending place
  refine ⟨state, ?_, ?_⟩
  · rw [run_append _ hrun, run_cons us (hmore comma hcomma)]
    exact hnext
  · rw [List.reverse_append]
    exact hafter

/-- A call may have no parameters. -/
theorem acceptsArguments_none : AcceptsArguments [] [] := by
  intro name opened pending place closing hclosing
  refine run_singleton ?_
  rw [State.step, if_pos hclosing.lexeme]
  rfl

/-- Parameters fill a call up to its closing parenthesis. -/
theorem acceptsArguments_some {ts : List Token} {params : List Tree} (h : AcceptsParams ts params) :
    AcceptsArguments ts params := by
  intro name opened pending place closing hclosing
  obtain ⟨state, hrun, -, hend⟩ := h name opened pending place
  rw [run_append _ hrun]
  exact run_singleton (hend closing hclosing)

/-! ## Atoms -/

/-- A state with a finished operand is one after this operand. -/
theorem reaches_finished {start : State} {ts : List Token} {v : Tree} {pending : Pending}
    {place : Place} (h : start.run ts = .ok (.finished v pending place)) :
    Reaches start ts place fun operand p => operand = v ∧ p = pending :=
  ⟨_, v, pending, h, afterOperand_finished v pending place, rfl, rfl⟩

theorem acceptsPrimary_string {t : Token} {text : String} (h : t.lexeme = .string text) :
    AcceptsPrimary [t] (.leaf .string t) := by
  intro pending place
  refine reaches_finished (run_singleton ?_)
  change State.operandStep pending place t = _
  rw [State.operandStep, h]

/-- A number is an operand, of a rule of its own if it has a unit. -/
theorem acceptsPrimary_number {t : Token} {unit : Option LengthUnit} (h : IsNumber t unit) :
    AcceptsPrimary [t] (.leaf (if unit.isSome then .unitNumber else .unitlessNumber) t) := by
  intro pending place
  refine reaches_finished (run_singleton ?_)
  change State.operandStep pending place t = _
  rw [State.operandStep]
  obtain ⟨digits, h | h⟩ := h <;> rw [h]

/-- A name by itself is an operand. -/
theorem acceptsPrimary_name {name : Token} (hname : IsName name) :
    AcceptsPrimary [name] (.leaf .identifier name) := by
  intro pending place
  exact ⟨_, _, pending, run_singleton (step_operand_of_isName hname pending place),
    afterOperand_name _ pending place, rfl, rfl⟩

/-- Parentheses leave no trace in the tree. -/
theorem acceptsPrimary_group {opening closing : Token} {ts : List Token} {v : Tree}
    (hopen : IsSymbol opening .openParen) (h : AcceptsExpr ts v)
    (hclosing : IsSymbol closing .closeParen) :
    AcceptsPrimary (opening :: ts ++ [closing]) v := by
  intro pending place
  have hopened : (State.operand pending place).step opening
      = some (.operand {} (.group pending place)) := by
    change State.operandStep pending place opening = _
    rw [State.operandStep, hopen]
  obtain ⟨state, hrun, hafter⟩ := h (.group pending place) id
  have hclosed : state.step closing = some (.finished v pending place) := by
    rw [hafter closing (.inr (.inr (.inr hclosing))), Place.close, if_pos hclosing.lexeme]
  refine reaches_finished ?_
  rw [List.cons_append, run_cons _ hopened, run_append _ hrun]
  exact run_singleton hclosed

/-- A call is an operand: a name and its parameters between parentheses. -/
theorem acceptsPrimary_call {name opening closing : Token} {ts : List Token} {params : List Tree}
    (hname : IsName name) (hopen : IsSymbol opening .openParen) (h : AcceptsArguments ts params)
    (hclosing : IsSymbol closing .closeParen) :
    AcceptsPrimary (name :: opening :: ts ++ [closing])
      (.node .call name.location
        [.leaf .identifier name, .node .params opening.location params]) := by
  intro pending place
  have hopened : (State.name (.leaf .identifier name) pending place).step opening
      = some (.firstParam ⟨.leaf .identifier name, opening.location, []⟩ pending place) := by
    change State.nameStep _ pending place opening = _
    rw [State.nameStep, if_pos hopen.lexeme]
  have hrun := h (.leaf .identifier name) opening.location pending place closing hclosing
  rw [OpenCall.finish, List.reverse_reverse] at hrun
  refine reaches_finished ?_
  rw [List.cons_append, run_cons _ (step_operand_of_isName hname pending place),
    List.cons_append, run_cons _ hopened]
  exact hrun

/-! ## Statements -/

/-- A body with more statements. -/
def Body.addAll (trees : List Tree) : Body → Body
  | .program done => .program (trees.reverse ++ done)
  | .block opened done outer => .block opened (trees.reverse ++ done) outer
  | .loop start item source opened done outer =>
    .loop start item source opened (trees.reverse ++ done) outer

theorem Body.addAll_nil (body : Body) : body.addAll [] = body := by
  cases body <;> rfl

/-- Statements are added one after the other. -/
theorem Body.addAll_concat (body : Body) (trees : List Tree) (t : Tree) :
    body.addAll (trees ++ [t]) = (body.addAll trees).add t := by
  cases body <;> simp [Body.addAll, Body.add]

/-- The tokens of statements add them to any body. -/
def AcceptsStatements (ts : List Token) (done : List Tree) : Prop :=
  ∀ body, (State.statement body).run ts = .ok (.statement (body.addAll done))

/-- The tokens of one statement add it to any body. -/
def AcceptsStatement (ts : List Token) (s : Tree) : Prop :=
  ∀ body, (State.statement body).run ts = .ok (.statement (body.add s))

/-- The tokens of a block are statements between braces. -/
def AcceptsBlock (ts : List Token) (block : Tree) : Prop :=
  ∃ opening closing inner done, ts = opening :: inner ++ [closing]
    ∧ block = .node .block opening.location done ∧ IsSymbol opening .openBrace
    ∧ IsSymbol closing .closeBrace ∧ AcceptsStatements inner done

theorem acceptsStatements_none : AcceptsStatements [] [] := by
  intro body
  rw [Body.addAll_nil]
  rfl

/-- A statement more goes to the end of those before it. -/
theorem acceptsStatements_more {ts us : List Token} {done : List Tree} {s : Tree}
    (hdone : AcceptsStatements ts done) (hs : AcceptsStatement us s) :
    AcceptsStatements (ts ++ us) (done ++ [s]) := by
  intro body
  rw [run_append us (hdone body), Body.addAll_concat]
  exact hs _

/-- Where a statement starts with an operand, the parser does what it does
    where one is due. -/
theorem run_statement {body : Body} {t : Token} {ts : List Token} {state : State}
    (h : (State.operand {} (.statement t.location body)).run (t :: ts) = .ok state) :
    (State.statement body).run (t :: ts) = .ok state := by
  obtain ⟨next, hstep, hrun⟩ := exists_step_of_run h
  refine (run_cons ts ?_).trans hrun
  change State.operandStep _ _ t = _ at hstep
  change State.statementStep body t = _
  rw [State.statementStep]
  -- what starts a loop or a block, or ends one, starts no operand
  split
  case h_1 hfor =>
      rw [State.operandStep, hfor] at hstep
      cases hstep
  case h_2 hopen =>
      rw [State.operandStep, hopen] at hstep
      cases hstep
  case h_3 hclosing =>
      rw [State.operandStep, hclosing] at hstep
      cases hstep
  case h_4 => exact hstep

/-- An expression and a semicolon are a statement. -/
theorem acceptsStatement_expr {t semicolon : Token} {ts : List Token} {v : Tree}
    (h : AcceptsExpr (t :: ts) v) (hend : IsSymbol semicolon .semicolon) :
    AcceptsStatement (t :: ts ++ [semicolon]) (.node .statement t.location [v]) := by
  intro body
  obtain ⟨state, hrun, hafter⟩ := h (.statement t.location body) id
  have hstep : state.step semicolon
      = some (.statement (body.add (.node .statement t.location [v]))) := by
    rw [hafter semicolon (.inl hend), Place.close, if_pos hend.lexeme]
  rw [run_append _ (run_statement hrun)]
  exact run_singleton hstep

/-- The closing brace after the statements of a body. -/
theorem run_close {body body' : Body} {closing : Token} (hclosing : IsSymbol closing .closeBrace)
    (h : body.close? = some body') :
    (State.statement body).run [closing] = .ok (.statement body') := by
  refine run_singleton ?_
  change State.statementStep body closing = _
  rw [State.statementStep, hclosing]
  simp only [h, Option.map_some]

/-- A block is a statement, and leaves the body around it as it was. -/
theorem acceptsStatement_block {ts : List Token} {block : Tree} (h : AcceptsBlock ts block) :
    AcceptsStatement ts block := by
  obtain ⟨opening, closing, inner, done, rfl, rfl, hopen, hclosing, hinner⟩ := h
  intro body
  have hopened : (State.statement body).step opening
      = some (.statement (.block opening.location [] body)) := by
    change State.statementStep body opening = _
    rw [State.statementStep, hopen]
  rw [List.cons_append, run_cons _ hopened, run_append _ (hinner _)]
  refine run_close hclosing ?_
  rw [Body.addAll, Body.close?, List.append_nil, List.reverse_reverse]

/-- The head of a loop, then its block. -/
theorem acceptsStatement_loop {keyword name inKeyword : Token} {ts us : List Token}
    {source block : Tree} (hfor : keyword.lexeme = .forKeyword) (hname : IsName name)
    (hin : inKeyword.lexeme = .inKeyword) (hsource : AcceptsExpr ts source)
    (hblock : AcceptsBlock us block) :
    AcceptsStatement (keyword :: name :: inKeyword :: ts ++ us)
      (.node .forLoop keyword.location [.leaf .identifier name, source, block]) := by
  obtain ⟨opening, closing, inner, done, rfl, rfl, hopen, hclosing, hinner⟩ := hblock
  intro body
  have hkeyword : (State.statement body).step keyword
      = some (.loopVariable keyword.location body) := by
    change State.statementStep body keyword = _
    rw [State.statementStep, hfor]
  have hitem : (State.loopVariable keyword.location body).step name
      = some (.loopIn keyword.location (.leaf .identifier name) body) := by
    obtain ⟨text, htext⟩ := hname
    rw [State.step, htext]
  have hsourced : (State.loopIn keyword.location (.leaf .identifier name) body).step inKeyword
      = some (.operand {} (.loopSource keyword.location (.leaf .identifier name) body)) := by
    rw [State.step, if_pos hin]
  obtain ⟨state, hrun, hafter⟩ :=
    hsource (.loopSource keyword.location (.leaf .identifier name) body) id
  have hopened : state.step opening = some (.statement
      (.loop keyword.location (.leaf .identifier name) source opening.location [] body)) := by
    rw [hafter opening (.inr (.inl hopen)), Place.close, if_pos hopen.lexeme]
  rw [List.cons_append, run_cons _ hkeyword, List.cons_append, run_cons _ hitem,
    List.cons_append, run_cons _ hsourced, run_append _ hrun, List.cons_append,
    run_cons _ hopened, run_append _ (hinner _)]
  refine run_close hclosing ?_
  rw [Body.addAll, Body.close?, List.append_nil, List.reverse_reverse]

/-! ## Derivations -/

/-- What the tokens of a phrase do; every phrase but a repetition has one
    tree. -/
def Accepts : Phrase → List Token → List Tree → Prop
  | .statements, ts, done => AcceptsStatements ts done
  | .statement, ts, [s] => AcceptsStatement ts s
  | .loop, ts, [s] => AcceptsStatement ts s
  | .block, ts, [block] => AcceptsBlock ts block
  | .expr, ts, [v] => AcceptsExpr ts v
  | .math, ts, [v] => AcceptsMath ts v
  | .summands, ts, done => AcceptsSummands ts done
  | .term, ts, [v] => AcceptsTerm ts v
  | .factors, ts, done => AcceptsFactors ts done
  | .unary, ts, [v] => AcceptsUnary ts v
  | .power, ts, [v] => AcceptsUnary ts v
  | .primary, ts, [v] => AcceptsPrimary ts v
  | .atom, ts, [v] => AcceptsPrimary ts v
  | .arguments, ts, params => AcceptsArguments ts params
  | .params, ts, params => AcceptsParams ts params
  | .param, ts, [v] => AcceptsParam ts v
  | _, _, _ => False

/-- The parser accepts every phrase. -/
theorem Derives.accepts {phrase : Phrase} {ts : List Token} {trees : List Tree}
    (h : Derives phrase ts trees) : Accepts phrase ts trees := by
  induction h with
  | noStatement => exact acceptsStatements_none
  | moreStatements _ _ ihdone ihs => exact acceptsStatements_more ihdone ihs
  | loopStatement _ ih => exact ih
  | blockStatement _ ih => exact acceptsStatement_block ih
  | exprStatement _ hend ih => exact acceptsStatement_expr ih hend
  | loop hfor hname hin _ _ ihsource ihbody =>
      exact acceptsStatement_loop hfor hname hin ihsource ihbody
  | block hopen _ hclose ih => exact ⟨_, _, _, _, rfl, rfl, hopen, hclose, ih⟩
  | assign hname hsign _ ih => exact acceptsExpr_assign hname hsign ih
  | mathExpr _ ih => exact acceptsExpr_of_math ih
  | loneTerm _ ih => exact acceptsMath_lone ih
  | sum _ hrest ih => exact acceptsMath_sum ih hrest
  | firstTerm _ ih => exact acceptsSummands_first ih
  | moreTerms _ hsign _ ihdone ih => exact acceptsSummands_more ihdone hsign ih
  | loneFactor _ ih => exact acceptsTerm_lone ih
  | product _ hrest ih => exact acceptsTerm_product ih hrest
  | firstFactor _ ih => exact acceptsFactors_first ih
  | moreFactors _ hsign _ ihdone ih => exact acceptsFactors_more ihdone hsign ih
  | negation hsign _ ih => exact acceptsUnary_negation hsign ih
  | powerUnary _ ih => exact ih
  | power _ hsign _ ihbase ihexponent => exact acceptsUnary_power ihbase hsign ihexponent
  | primaryPower _ ih => exact acceptsUnary_of_primary ih
  | factorial _ hsign ih => exact acceptsPrimary_factorial ih hsign
  | loneAtom _ ih => exact ih
  | string h => exact acceptsPrimary_string h
  | number h => exact acceptsPrimary_number h
  | group hopen _ hclose ih => exact acceptsPrimary_group hopen ih hclose
  | call hname hopen _ hclose ih => exact acceptsPrimary_call hname hopen ih hclose
  | name hname => exact acceptsPrimary_name hname
  | noArguments => exact acceptsArguments_none
  | someArguments _ ih => exact acceptsArguments_some ih
  | firstParam _ ih => exact acceptsParams_first ih
  | moreParams _ hcomma _ ihdone ih => exact acceptsParams_more ihdone hcomma ih
  | namedParam hname hsign _ ih => exact acceptsParam_named hname hsign ih
  | positionalParam _ ih => exact acceptsParam_positional ih

/-- **The parser returns every tree that the grammar gives.** -/
theorem ofTokens_of_derivesProgram {s : TokenStream} {t : Tree} (h : DerivesProgram s t) :
    Tree.ofTokens s = .ok t := by
  obtain ⟨statements, hstatements, rfl⟩ := h
  have hrun : State.initial.run s.tokens = .ok (.statement (.program (statements.reverse ++ []))) :=
    hstatements.accepts (.program [])
  rw [Tree.ofTokens, hrun, List.append_nil]
  dsimp only
  rw [State.finish, List.reverse_reverse]

/-! ## The parser and the grammar -/

/-- The parser stops with a syntax error, at a token of the script or at its
    end. -/
def Refused (s : TokenStream) : Prop :=
  ∃ what, Tree.ofTokens s = .error ⟨SyntaxFault.expected what none, s.stop⟩
    ∨ ∃ t ∈ s.tokens, Tree.ofTokens s
      = .error ⟨SyntaxFault.expected what (some (t.lexeme.text ++ t.lexeme.unitName)), t.location⟩

/-- A run that does not go through ends at the first token that does not fit
    the state before it. -/
theorem exists_of_run_eq_error {state : State} {ts : List Token} {e : Error}
    (h : state.run ts = .error e) :
    ∃ front t back middle, ts = front ++ t :: back ∧ state.run front = .ok middle
      ∧ middle.step t = none
      ∧ e = ⟨SyntaxFault.expected middle.expectation
          (some (t.lexeme.text ++ t.lexeme.unitName)), t.location⟩ := by
  induction ts generalizing state with
  | nil => cases h
  | cons t ts ih =>
      rw [State.run] at h
      split at h
      case h_1 next hstep =>
          obtain ⟨front, t', back, middle, rfl, hrun, he⟩ := ih h
          exact ⟨t :: front, t', back, middle, rfl, (run_cons front hstep).trans hrun, he⟩
      case h_2 hstep => exact ⟨[], t, ts, state, rfl, rfl, hstep, (Except.error.inj h).symm⟩

/-- Whatever the parser fails for is a syntax error at a token or at the
    end. -/
theorem refused_of_ofTokens_eq_error {s : TokenStream} {e : Error}
    (h : Tree.ofTokens s = .error e) : Refused s := by
  have hcopy := h
  rw [Tree.ofTokens] at h
  split at h
  case h_1 state hrun =>
      rw [State.finish.eq_def] at h
      split at h
      case h_1 => cases h
      case h_2 =>
          rw [← Except.error.inj h] at hcopy
          exact ⟨_, .inl hcopy⟩
  case h_2 hrun =>
      obtain rfl := Except.error.inj h
      obtain ⟨front, t, back, middle, htokens, -, -, rfl⟩ := exists_of_run_eq_error hrun
      have hmem : t ∈ s.tokens := by
        rw [htokens]
        exact List.mem_append_right front List.mem_cons_self
      exact ⟨_, .inr ⟨t, hmem, hcopy⟩⟩

/-- **The parser decides the grammar.**  It returns a tree just if the
    grammar gives it; a script has one tree, or none, and then a syntax
    error. -/
theorem ofTokens_exact (s : TokenStream) :
    (∀ t, Tree.ofTokens s = .ok t ↔ DerivesProgram s t)
      ∧ ((∃! t, DerivesProgram s t) ∨ (¬ ∃ t, DerivesProgram s t) ∧ Refused s) := by
  refine ⟨fun t => ⟨derivesProgram_of_ofTokens, ofTokens_of_derivesProgram⟩, ?_⟩
  cases h : Tree.ofTokens s with
  | ok t =>
      refine .inl ⟨t, derivesProgram_of_ofTokens h, ?_⟩
      intro t' ht'
      have heq := (ofTokens_of_derivesProgram ht').symm.trans h
      exact Except.ok.inj heq
  | error e =>
      refine .inr ⟨?_, refused_of_ofTokens_eq_error h⟩
      rintro ⟨t, ht⟩
      cases (ofTokens_of_derivesProgram ht).symm.trans h

end MillScript.Parsing
