import MillScript.Proofs.Grammar.Completeness

/-! # Syntax errors stand at the first token that cannot be right

    Whatever the parser has read can be finished: bodies that are open by
    braces, an expression by the sign that its place waits for, an operand
    that is due by any number.  So the tokens in front of one that does not
    fit are the start of some script.  No script starts with those tokens and
    the one that does not fit, as a run is decided by the first tokens that
    decide it. -/

namespace MillScript.Parsing

/-! ## Finishing what is open -/

/-- Some more tokens make a whole script of what has been read. -/
def State.Completable (state : State) : Prop :=
  ∃ more done, state.run more = .ok (.statement (.program done))

/-- What can be completed after a token can be completed before it. -/
theorem State.Completable.of_step {state next : State} {t : Token}
    (hstep : state.step t = some next) (h : next.Completable) : state.Completable := by
  obtain ⟨more, done, hrun⟩ := h
  exact ⟨t :: more, done, (run_cons more hstep).trans hrun⟩

/-- A sign to go on with; its place does not matter. -/
def sign (s : Symbol) : Token := ⟨.symbol s, .start⟩

/-- A number to go on with. -/
def zero : Token := ⟨.integer "0" none, .start⟩

/-- How many bodies are open in a body. -/
def Body.depth : Body → Nat
  | .program _ => 0
  | .block _ _ outer => outer.depth + 1
  | .loop _ _ _ _ _ outer => outer.depth + 1

/-- A statement opens no block. -/
theorem Body.depth_add (t : Tree) (body : Body) : (body.add t).depth = body.depth := by
  cases body <;> rfl

/-- A closing brace leaves one block less. -/
theorem Body.depth_of_close? {body body' : Body} (h : body.close? = some body') :
    body'.depth < body.depth := by
  cases body with
  | program done => cases h
  | block opened done outer =>
      rw [← Option.some.inj h, depth_add]
      exact Nat.lt_succ_self _
  | loop start item source opened done outer =>
      rw [← Option.some.inj h, depth_add]
      exact Nat.lt_succ_self _

/-- Braces finish all bodies that are open.  The body that one of them leads
    back to has a statement more, so the induction is on how many are open. -/
theorem completable_statement (body : Body) : (State.statement body).Completable := by
  cases hclose : body.close? with
  | none =>
      cases body with
      | program done => exact ⟨[], done, rfl⟩
      | block opened done outer => cases hclose
      | loop start item source opened done outer => cases hclose
  | some body' =>
      have hstep : (State.statement body).step (sign .closeBrace) = some (.statement body') := by
        show body.close?.map State.statement = _
        rw [hclose]
        rfl
      exact .of_step hstep (completable_statement body')
termination_by body.depth
decreasing_by exact Body.depth_of_close? hclose

/-- A place can be closed by some token, and what is left can be finished. -/
def Place.Closable (place : Place) (v : Tree) : Prop :=
  ∃ t next, Closes t ∧ place.close v t = some next ∧ next.Completable

/-- After an expression its place can be closed. -/
theorem State.AfterExpr.completable {state : State} {v : Tree} {place : Place}
    (h : state.AfterExpr v place) (hplace : place.Closable v) : state.Completable := by
  obtain ⟨t, next, hcloses, hclose, hnext⟩ := hplace
  exact .of_step ((h t hcloses).trans hclose) hnext

/-- Whatever expression stands in a place, the place can be closed after it. -/
theorem Place.closable (place : Place) (v : Tree) : place.Closable v := by
  induction place generalizing v with
  | statement start body =>
      exact ⟨sign .semicolon, _, .inl rfl, rfl, completable_statement _⟩
  | loopSource start item body =>
      exact ⟨sign .openBrace, _, .inr (.inl rfl), rfl, completable_statement _⟩
  | assigned name outer ih => exact ih _
  | group pending outer ih =>
      refine ⟨sign .closeParen, .finished v pending outer, .inr (.inr (.inr rfl)), rfl, ?_⟩
      exact (afterOperand_finished v pending outer).afterExpr.completable (ih _)
  | param call parameter pending outer ih =>
      refine ⟨sign .closeParen, .finished _ pending outer, .inr (.inr (.inr rfl)), rfl, ?_⟩
      exact (afterOperand_finished _ pending outer).afterExpr.completable (ih _)

/-- After any operand a script can be completed, as no operator has to
    follow. -/
theorem completable_finished (operand : Tree) (pending : Pending) (place : Place) :
    (State.finished operand pending place).Completable :=
  (afterOperand_finished operand pending place).afterExpr.completable (place.closable _)

/-- An operand that is due may be a number. -/
theorem completable_operand (pending : Pending) (place : Place) :
    (State.operand pending place).Completable := by
  have hstep : (State.operand pending place).step zero
      = some (.finished (.leaf .unitlessNumber zero) pending place) := rfl
  exact .of_step hstep (completable_finished _ pending place)

theorem completable_loopIn (start : Location) (item : Tree) (body : Body) :
    (State.loopIn start item body).Completable := by
  have hstep : (State.loopIn start item body).step ⟨.inKeyword, .start⟩
      = some (.operand {} (.loopSource start item body)) := rfl
  exact .of_step hstep (completable_operand _ _)

/-- **Whatever has been read is the start of a script.** -/
theorem State.completable (state : State) : state.Completable := by
  cases state with
  | statement body => exact completable_statement body
  | loopVariable start body =>
      have hstep : (State.loopVariable start body).step ⟨.identifier "i", .start⟩
          = some (.loopIn start (.leaf .identifier ⟨.identifier "i", .start⟩) body) := rfl
      exact .of_step hstep (completable_loopIn _ _ _)
  | loopIn start item body => exact completable_loopIn start item body
  | operand pending place => exact completable_operand pending place
  | name name pending place =>
      exact (afterOperand_name name pending place).afterExpr.completable (place.closable _)
  | finished operand pending place => exact completable_finished operand pending place
  | firstParam call pending place =>
      have hstep : (State.firstParam call pending place).step (sign .closeParen)
          = some (.finished call.finish pending place) := rfl
      exact .of_step hstep (completable_finished _ pending place)
  | nextParam call pending place =>
      have hstep : (State.nextParam call pending place).step zero
          = some (.finished (.leaf .unitlessNumber zero) {}
              (.param call ⟨.start, none⟩ pending place)) := rfl
      exact .of_step hstep (completable_finished _ _ _)

/-! ## Scripts and their starts -/

/-- The tokens of a script, wherever it ends. -/
def Parses (ts : List Token) : Prop := ∃ stop tree, Tree.ofTokens ⟨ts, stop⟩ = .ok tree

/-- Tokens that a script may start with. -/
def Viable (ts : List Token) : Prop := ∃ more, Parses (ts ++ more)

/-- Tokens parse if they lead to the end of a statement outside all blocks. -/
theorem parses_iff {ts : List Token} :
    Parses ts ↔ ∃ done, State.initial.run ts = .ok (.statement (.program done)) := by
  constructor
  · rintro ⟨stop, tree, h⟩
    rw [Tree.ofTokens] at h
    split at h
    case h_1 state hrun =>
        rw [State.finish.eq_def] at h
        split at h
        case h_1 done => exact ⟨done, hrun⟩
        case h_2 => cases h
    case h_2 => cases h
  · rintro ⟨done, hrun⟩
    exact ⟨.start, _, by rw [Tree.ofTokens, hrun]; rfl⟩

/-- Tokens that the parser can read are the start of a script, and no others
    are. -/
theorem viable_iff {ts : List Token} : Viable ts ↔ ∃ state, State.initial.run ts = .ok state := by
  constructor
  · rintro ⟨more, hmore⟩
    obtain ⟨done, hrun⟩ := parses_iff.mp hmore
    cases hts : State.initial.run ts with
    | ok state => exact ⟨state, rfl⟩
    | error e =>
        rw [run_append_of_error more hts] at hrun
        cases hrun
  · rintro ⟨state, hrun⟩
    obtain ⟨more, done, hmore⟩ := state.completable
    exact ⟨more, parses_iff.mpr ⟨done, (run_append more hrun).trans hmore⟩⟩

/-- **Syntax errors stand at the first token that cannot be right.**  A script
    that is refused is refused at one of its tokens, so that the tokens before
    it are the start of a script but not together with it, or it is refused at
    its end, so that all its tokens are the start of a script but no script. -/
theorem refused_at_first_misfit {s : TokenStream} {e : Error} (h : Tree.ofTokens s = .error e) :
    (∃ front t back what, s.tokens = front ++ t :: back
        ∧ e = ⟨SyntaxFault.expected what (some (t.lexeme.text ++ t.lexeme.unitName)), t.location⟩
        ∧ Viable front ∧ ¬ Viable (front ++ [t]))
      ∨ (∃ what, e = ⟨SyntaxFault.expected what none, s.stop⟩)
        ∧ Viable s.tokens ∧ ¬ Parses s.tokens := by
  rw [Tree.ofTokens] at h
  split at h
  case h_1 state hrun =>
      refine .inr ⟨?_, viable_iff.mpr ⟨state, hrun⟩, ?_⟩
      · rw [State.finish.eq_def] at h
        split at h
        case h_1 => cases h
        case h_2 => exact ⟨_, (Except.error.inj h).symm⟩
      · intro hparses
        obtain ⟨done, hdone⟩ := parses_iff.mp hparses
        rw [hrun] at hdone
        cases hdone
        cases h
  case h_2 hrun =>
      obtain rfl := Except.error.inj h
      obtain ⟨front, t, back, middle, htokens, hfront, hstep, rfl⟩ := exists_of_run_eq_error hrun
      refine .inl ⟨front, t, back, _, htokens, rfl, viable_iff.mpr ⟨middle, hfront⟩, ?_⟩
      rw [viable_iff, run_append [t] hfront]
      rintro ⟨state, hstate⟩
      obtain ⟨next, hnext, -⟩ := exists_step_of_run hstate
      rw [hstep] at hnext
      cases hnext

/-- `f(x = 1 = 2);`, where the first sign names a parameter and the second
    does not fit. -/
def assignedTwice : TokenStream where
  tokens :=
    [⟨.identifier "f", ⟨1, 1⟩⟩, ⟨.symbol .openParen, ⟨1, 2⟩⟩, ⟨.identifier "x", ⟨1, 3⟩⟩,
      ⟨.symbol .assign, ⟨1, 5⟩⟩, ⟨.integer "1" none, ⟨1, 7⟩⟩, ⟨.symbol .assign, ⟨1, 9⟩⟩,
      ⟨.integer "2" none, ⟨1, 11⟩⟩, ⟨.symbol .closeParen, ⟨1, 12⟩⟩,
      ⟨.symbol .semicolon, ⟨1, 13⟩⟩]
  stop := ⟨1, 14⟩

theorem refused_at_first_misfit_assignedTwice :
    ∃ e, Tree.ofTokens assignedTwice = .error e ∧ e.location = ⟨1, 9⟩
      ∧ ∃ front t back, assignedTwice.tokens = front ++ t :: back ∧ t.location = ⟨1, 9⟩
        ∧ Viable front ∧ ¬ Viable (front ++ [t]) := by
  refine ⟨_, rfl, rfl, ?_⟩
  rcases refused_at_first_misfit (s := assignedTwice) rfl with
    ⟨front, t, back, what, htokens, he, hviable, hmisfit⟩ | ⟨⟨what, he⟩, -⟩
  · exact ⟨front, t, back, htokens, (congrArg Error.location he).symm, hviable, hmisfit⟩
  · have hstop : (⟨1, 9⟩ : Location) = ⟨1, 14⟩ := congrArg Error.location he
    exact absurd hstop (by decide)

end MillScript.Parsing
