import MillScript.Proofs.Grammar.Derives

/-! # What the parser has read

    `HasRead state tokens` says that the tokens read so far are, by the
    grammar, what the state holds: finished phrases, and phrases that are
    open, each up to the place where the next token goes.  Every step of the
    parser keeps this, so a tree that it returns is one that the grammar
    gives. -/

namespace MillScript.Parsing

/-! ## What stands before an operand -/

/-- The tokens of a product up to an operand that is due, and its operands
    and operators, the latest first. -/
inductive ReadsProduct : List Tree → List Token → Prop
  | nil : ReadsProduct [] []
  | factors {us : List Token} {sign : Token} {done : List Tree} (h : Derives .factors us done)
      (hsign : IsSymbol sign .star ∨ IsSymbol sign .slash) :
      ReadsProduct (.leaf .operator sign :: done.reverse) (us ++ [sign])

/-- The same for a sum. -/
inductive ReadsSum : List Tree → List Token → Prop
  | nil : ReadsSum [] []
  | summands {us : List Token} {sign : Token} {done : List Tree}
      (h : Derives .summands us done) (hsign : IsSymbol sign .plus ∨ IsSymbol sign .minus) :
      ReadsSum (.leaf .operator sign :: done.reverse) (us ++ [sign])

/-- The tokens of signs and bases right before an operand, the nearest
    first. -/
inductive ReadsWaiting : List Waiting → List Token → Prop
  | nil : ReadsWaiting [] []
  | negation {w : List Waiting} {ts : List Token} {sign : Token} (h : ReadsWaiting w ts)
      (hsign : IsSymbol sign .minus) :
      ReadsWaiting (.negation (.leaf .operator sign) :: w) (ts ++ [sign])
  | power {w : List Waiting} {ts us : List Token} {base : Tree} {sign : Token}
      (h : ReadsWaiting w ts) (hbase : Derives .primary us [base])
      (hsign : IsSymbol sign .caret) :
      ReadsWaiting (.power base (.leaf .operator sign) :: w) (ts ++ us ++ [sign])

/-- The tokens between the start of an expression and an operand. -/
inductive ReadsPending : Pending → List Token → Prop
  | mk {sum product : List Tree} {waiting : List Waiting} {ss ps ws : List Token}
      (hsum : ReadsSum sum ss) (hproduct : ReadsProduct product ps)
      (hwaiting : ReadsWaiting waiting ws) :
      ReadsPending ⟨sum, product, waiting⟩ (ss ++ ps ++ ws)

/-- Nothing waits, and nothing was read for it. -/
theorem readsPending_empty : ReadsPending {} [] := .mk .nil .nil .nil

/-- The tree of a chain: its one operand, or a node for more. -/
theorem chain_cases (rule : Rule) (done : List Tree) (last : Tree) :
    done.reverse ++ [last] = [chain rule done last]
      ∨ ∃ first rest, rest ≠ [] ∧ done.reverse ++ [last] = first :: rest
        ∧ chain rule done last = .node rule first.location (first :: rest) := by
  rw [chain]
  cases hdone : done.reverse with
  | nil => exact .inl rfl
  | cons first rest =>
      have hne : rest ++ [last] ≠ [] :=
        List.append_ne_nil_of_right_ne_nil rest (List.cons_ne_nil last [])
      exact .inr ⟨first, rest ++ [last], hne, rfl, rfl⟩

/-- A chain of factors is a term. -/
theorem derives_term_chain {done : List Tree} {v : Tree} {ts : List Token}
    (h : Derives .factors ts (done.reverse ++ [v])) :
    Derives .term ts [chain .product done v] := by
  rcases chain_cases .product done v with hlone | ⟨first, rest, hrest, hdone, hchain⟩
  · rw [hlone] at h
    exact .loneFactor h
  · rw [hdone] at h
    rw [hchain]
    exact .product h hrest

/-- A chain of summands is a sum. -/
theorem derives_math_chain {done : List Tree} {v : Tree} {ts : List Token}
    (h : Derives .summands ts (done.reverse ++ [v])) :
    Derives .math ts [chain .sum done v] := by
  rcases chain_cases .sum done v with hlone | ⟨first, rest, hrest, hdone, hchain⟩
  · rw [hlone] at h
    exact .loneTerm h
  · rw [hdone] at h
    rw [hchain]
    exact .sum h hrest

/-- The signs and bases that wait take the operand from the last one to the
    first. -/
theorem ReadsWaiting.unary {w : List Waiting} {ws us : List Token} {v : Tree}
    (h : ReadsWaiting w ws) (hv : Derives .unary us [v]) :
    Derives .unary (ws ++ us) [w.foldl Waiting.apply v] := by
  -- the sign nearest to the operand is the first one to take it
  induction h generalizing us v with
  | nil => exact hv
  | negation _ hsign ih =>
      rw [List.append_assoc]
      exact ih (.negation hsign hv)
  | power _ hbase hsign ih =>
      rw [List.append_assoc, List.append_assoc]
      exact ih (.powerUnary (.power hbase hsign hv))

/-- The operand that was due is the last factor. -/
theorem ReadsProduct.factors_concat {done : List Tree} {ps us : List Token} {v : Tree}
    (h : ReadsProduct done ps) (hv : Derives .unary us [v]) :
    Derives .factors (ps ++ us) (done.reverse ++ [v]) := by
  cases h with
  | nil => exact .firstFactor hv
  | factors h hsign =>
      rw [List.reverse_cons, List.reverse_reverse, List.append_assoc, List.append_assoc]
      exact .moreFactors h hsign hv

/-- The term that was due is the last summand. -/
theorem ReadsSum.summands_concat {done : List Tree} {ss us : List Token} {v : Tree}
    (h : ReadsSum done ss) (hv : Derives .term us [v]) :
    Derives .summands (ss ++ us) (done.reverse ++ [v]) := by
  cases h with
  | nil => exact .firstTerm hv
  | summands h hsign =>
      rw [List.reverse_cons, List.reverse_reverse, List.append_assoc, List.append_assoc]
      exact .moreTerms h hsign hv

namespace ReadsPending

variable {p : Pending} {us vs : List Token} {v : Tree}

/-- An operand makes the expression that is pending a whole one. -/
theorem math (h : ReadsPending p us) (hv : Derives .primary vs [v]) :
    Derives .math (us ++ vs) [p.expression v] := by
  cases h with
  | mk hsum hproduct hwaiting =>
      have hunary := hwaiting.unary (.powerUnary (.primaryPower hv))
      have hterm := derives_term_chain (hproduct.factors_concat hunary)
      rw [List.append_assoc, List.append_assoc]
      exact derives_math_chain (hsum.summands_concat hterm)

/-- A sign waits for its operand. -/
theorem negation (h : ReadsPending p us) {sign : Token} (hsign : IsSymbol sign .minus) :
    ReadsPending { p with waiting := .negation (.leaf .operator sign) :: p.waiting }
      (us ++ [sign]) := by
  cases h with
  | mk hsum hproduct hwaiting =>
      rw [List.append_assoc]
      exact .mk hsum hproduct (hwaiting.negation hsign)

/-- A base waits for its exponent. -/
theorem power (h : ReadsPending p us) (hv : Derives .primary vs [v]) {sign : Token}
    (hsign : IsSymbol sign .caret) :
    ReadsPending { p with waiting := .power v (.leaf .operator sign) :: p.waiting }
      (us ++ vs ++ [sign]) := by
  cases h with
  | mk hsum hproduct hwaiting =>
      rw [List.append_assoc, List.append_assoc, ← List.append_assoc _ vs]
      exact .mk hsum hproduct (hwaiting.power hv hsign)

/-- An operand before `*` or `/` completes its factor. -/
theorem factor (h : ReadsPending p us) (hv : Derives .primary vs [v]) {sign : Token}
    (hsign : IsSymbol sign .star ∨ IsSymbol sign .slash) :
    ReadsPending { p with product := .leaf .operator sign :: p.unary v :: p.product, waiting := [] }
      (us ++ vs ++ [sign]) := by
  cases h with
  | @mk _ product _ ss ps ws hsum hproduct hwaiting =>
      have hunary := hwaiting.unary (.powerUnary (.primaryPower hv))
      have hfactors := ReadsProduct.factors (hproduct.factors_concat hunary) hsign
      rw [List.reverse_append, List.reverse_reverse] at hfactors
      have htokens : ss ++ ps ++ ws ++ vs ++ [sign] = ss ++ (ps ++ (ws ++ vs) ++ [sign]) ++ [] := by
        simp
      rw [htokens]
      exact .mk hsum hfactors .nil

/-- An operand before `+` or `-` completes its product. -/
theorem summand (h : ReadsPending p us) (hv : Derives .primary vs [v]) {sign : Token}
    (hsign : IsSymbol sign .plus ∨ IsSymbol sign .minus) :
    ReadsPending { sum := .leaf .operator sign :: p.term v :: p.sum } (us ++ vs ++ [sign]) := by
  cases h with
  | @mk sum _ _ ss ps ws hsum hproduct hwaiting =>
      have hunary := hwaiting.unary (.powerUnary (.primaryPower hv))
      have hterm := derives_term_chain (hproduct.factors_concat hunary)
      have hsummands := ReadsSum.summands (hsum.summands_concat hterm) hsign
      rw [List.reverse_append, List.reverse_reverse] at hsummands
      have htokens : ss ++ ps ++ ws ++ vs ++ [sign]
          = (ss ++ (ps ++ (ws ++ vs)) ++ [sign]) ++ [] ++ [] := by
        simp
      rw [htokens]
      exact .mk hsummands .nil .nil

end ReadsPending

/-! ## Statements -/

/-- The tokens of bodies that are open, up to where the next statement
    goes. -/
inductive ReadsBody : Body → List Token → Prop
  | program {ts : List Token} {done : List Tree} (h : Derives .statements ts done) :
      ReadsBody (.program done.reverse) ts
  | block {outer : Body} {ts us : List Token} {opening : Token} {done : List Tree}
      (houter : ReadsBody outer ts) (hopen : IsSymbol opening .openBrace)
      (h : Derives .statements us done) :
      ReadsBody (.block opening.location done.reverse outer) (ts ++ opening :: us)
  | loop {outer : Body} {ts us vs : List Token} {keyword name inKeyword opening : Token}
      {source : Tree} {done : List Tree} (houter : ReadsBody outer ts)
      (hfor : keyword.lexeme = .forKeyword) (hname : IsName name)
      (hin : inKeyword.lexeme = .inKeyword) (hsource : Derives .expr us [source])
      (hopen : IsSymbol opening .openBrace) (h : Derives .statements vs done) :
      ReadsBody
        (.loop keyword.location (.leaf .identifier name) source opening.location done.reverse outer)
        (ts ++ keyword :: name :: inKeyword :: us ++ opening :: vs)

namespace ReadsBody

variable {body : Body} {ts us : List Token}

theorem cast {ts ts' : List Token} (h : ReadsBody body ts) (heq : ts = ts') :
    ReadsBody body ts' := heq ▸ h

/-- A statement more belongs to the innermost body. -/
theorem add (h : ReadsBody body ts) {s : Tree} (hs : Derives .statement us [s]) :
    ReadsBody (body.add s) (ts ++ us) := by
  cases h with
  | @program _ done h =>
      have hmore := ReadsBody.program (h.moreStatements hs)
      rw [List.reverse_append] at hmore
      exact hmore
  | @block outer ts us' opening done houter hopen h =>
      have hmore := houter.block hopen (h.moreStatements hs)
      rw [List.reverse_append] at hmore
      exact hmore.cast (by simp)
  | @loop outer ts us' vs keyword name inKeyword opening source done houter hfor hname hin hsource
      hopen h =>
      have hmore := houter.loop hfor hname hin hsource hopen (h.moreStatements hs)
      rw [List.reverse_append] at hmore
      exact hmore.cast (by simp)

/-- A closing brace makes a statement of the innermost block. -/
theorem close {body' : Body} (h : ReadsBody body ts) (hclose : body.close? = some body')
    {closing : Token} (hclosing : IsSymbol closing .closeBrace) :
    ReadsBody body' (ts ++ [closing]) := by
  cases h with
  | program h => cases hclose
  | @block outer ts us opening done houter hopen h =>
      rw [← Option.some.inj hclose, List.reverse_reverse]
      exact (houter.add (.blockStatement (.block hopen h hclosing))).cast (by simp)
  | @loop outer ts us vs keyword name inKeyword opening source done houter hfor hname hin hsource
      hopen h =>
      rw [← Option.some.inj hclose, List.reverse_reverse]
      exact (houter.add (.loopStatement
        (.loop hfor hname hin hsource (.block hopen h hclosing)))).cast (by simp)

end ReadsBody

/-! ## Places -/

/-- Whether a name at the start of the expression would name a parameter. -/
def Place.IsFresh : Place → Prop
  | .param _ ⟨_, none⟩ _ _ => True
  | _ => False

/-- The tokens of parameters that are done, each with its comma. -/
inductive ReadsParams : List Tree → List Token → Prop
  | nil : ReadsParams [] []
  | params {us : List Token} {comma : Token} {done : List Tree} (h : Derives .params us done)
      (hcomma : IsSymbol comma .comma) : ReadsParams done.reverse (us ++ [comma])

/-- The tokens of a call up to a parameter, after those of its name. -/
inductive ReadsCall : OpenCall → Token → List Token → Prop
  | mk {name opening : Token} {done : List Tree} {cs : List Token} (hname : IsName name)
      (hopen : IsSymbol opening .openParen) (hdone : ReadsParams done cs) :
      ReadsCall ⟨.leaf .identifier name, opening.location, done⟩ name (opening :: cs)

/-- The tokens up to an expression, and the first token of the
    expression. -/
inductive ReadsPlace : Place → List Token → Token → Prop
  | statement {body : Body} {ts : List Token} {next : Token} (h : ReadsBody body ts) :
      ReadsPlace (.statement next.location body) ts next
  | loopSource {body : Body} {ts : List Token} {keyword name inKeyword next : Token}
      (h : ReadsBody body ts) (hfor : keyword.lexeme = .forKeyword) (hname : IsName name)
      (hin : inKeyword.lexeme = .inKeyword) :
      ReadsPlace (.loopSource keyword.location (.leaf .identifier name) body)
        (ts ++ [keyword, name, inKeyword]) next
  | assigned {outer : Place} {ts : List Token} {name sign next : Token}
      (h : ReadsPlace outer ts name) (hfresh : ¬ outer.IsFresh) (hname : IsName name)
      (hsign : IsSymbol sign .assign) :
      ReadsPlace (.assigned (.leaf .identifier name) outer) (ts ++ [name, sign]) next
  | group {outer : Place} {pending : Pending} {ts us : List Token} {opening next : Token}
      (h : ReadsPlace outer ts (us.headD opening)) (hpending : ReadsPending pending us)
      (hopen : IsSymbol opening .openParen) :
      ReadsPlace (.group pending outer) (ts ++ us ++ [opening]) next
  | positional {outer : Place} {pending : Pending} {call : OpenCall} {ts us cs : List Token}
      {name next : Token} (h : ReadsPlace outer ts (us.headD name))
      (hpending : ReadsPending pending us) (hcall : ReadsCall call name cs) :
      ReadsPlace (.param call ⟨next.location, none⟩ pending outer) (ts ++ us ++ name :: cs) next
  | named {outer : Place} {pending : Pending} {call : OpenCall} {ts us cs : List Token}
      {name param sign next : Token} (h : ReadsPlace outer ts (us.headD name))
      (hpending : ReadsPending pending us) (hcall : ReadsCall call name cs)
      (hname : IsName param) (hsign : IsSymbol sign .assign) :
      ReadsPlace (.param call ⟨param.location, some (.leaf .identifier param)⟩ pending outer)
        (ts ++ us ++ name :: cs ++ [param, sign]) next

/-- A name and `=` open the value that is assigned. -/
theorem ReadsPlace.assign {place : Place} {ts : List Token} {name sign : Token}
    (h : ReadsPlace place ts name) (hname : IsName name) (hsign : IsSymbol sign .assign)
    (next : Token) :
    ReadsPlace (place.assign (.leaf .identifier name)) (ts ++ [name, sign]) next := by
  cases h with
  | statement h => exact .assigned (.statement h) id hname hsign
  | loopSource h hfor hitem hin => exact .assigned (.loopSource h hfor hitem hin) id hname hsign
  | assigned h hfresh hfirst heq => exact .assigned (.assigned h hfresh hfirst heq) id hname hsign
  | group h hpending hopen => exact .assigned (.group h hpending hopen) id hname hsign
  | positional h hpending hcall => exact .named h hpending hcall hname hsign
  | named h hpending hcall hparam heq =>
      exact .assigned (.named h hpending hcall hparam heq) id hname hsign

/-- The parameter that was due is the last one. -/
theorem ReadsParams.params_concat {done : List Tree} {cs us : List Token} {param : Tree}
    (h : ReadsParams done cs) (hparam : Derives .param us [param]) :
    Derives .params (cs ++ us) (done.reverse ++ [param]) := by
  cases h with
  | nil => exact .firstParam hparam
  | params h hcomma =>
      rw [List.reverse_reverse, List.append_assoc]
      exact .moreParams h hcomma hparam

namespace ReadsCall

variable {call : OpenCall} {name : Token} {cs us : List Token} {param : Tree}

/-- A comma after a parameter. -/
theorem comma (h : ReadsCall call name cs) (hparam : Derives .param us [param]) {comma : Token}
    (hcomma : IsSymbol comma .comma) :
    ReadsCall { call with done := param :: call.done } name (cs ++ us ++ [comma]) := by
  cases h with
  | mk hname hopen hdone =>
      have hparams := ReadsParams.params (hdone.params_concat hparam) hcomma
      rw [List.reverse_append, List.reverse_reverse] at hparams
      exact .mk hname hopen hparams

/-- The closing parenthesis after a parameter. -/
theorem close (h : ReadsCall call name cs) (hparam : Derives .param us [param]) {closing : Token}
    (hclosing : IsSymbol closing .closeParen) :
    Derives .atom (name :: (cs ++ us ++ [closing]))
      [{ call with done := param :: call.done : OpenCall }.finish] := by
  cases h with
  | mk hname hopen hdone =>
      have hparams := Derives.someArguments (hdone.params_concat hparam)
      rw [OpenCall.finish, List.reverse_cons]
      exact .call hname hopen hparams hclosing

end ReadsCall

/-! ## States -/

/-- The tokens that a state has read. -/
inductive HasRead : State → List Token → Prop
  | statement {body : Body} {ts : List Token} (h : ReadsBody body ts) :
      HasRead (.statement body) ts
  | loopVariable {body : Body} {ts : List Token} {keyword : Token} (h : ReadsBody body ts)
      (hfor : keyword.lexeme = .forKeyword) :
      HasRead (.loopVariable keyword.location body) (ts ++ [keyword])
  | loopIn {body : Body} {ts : List Token} {keyword name : Token} (h : ReadsBody body ts)
      (hfor : keyword.lexeme = .forKeyword) (hname : IsName name) :
      HasRead (.loopIn keyword.location (.leaf .identifier name) body) (ts ++ [keyword, name])
  | operand {place : Place} {pending : Pending} {ts us : List Token}
      (h : ∀ next, ReadsPlace place ts (us.headD next)) (hpending : ReadsPending pending us) :
      HasRead (.operand pending place) (ts ++ us)
  | name {place : Place} {pending : Pending} {ts us : List Token} {name : Token}
      (h : ReadsPlace place ts (us.headD name)) (hpending : ReadsPending pending us)
      (hname : IsName name) :
      HasRead (.name (.leaf .identifier name) pending place) (ts ++ us ++ [name])
  | finished {place : Place} {pending : Pending} {ts us vs : List Token} {first : Token}
      {v : Tree} (h : ReadsPlace place ts (us.headD first)) (hpending : ReadsPending pending us)
      (hv : Derives .primary (first :: vs) [v]) :
      HasRead (.finished v pending place) (ts ++ us ++ first :: vs)
  | firstParam {place : Place} {pending : Pending} {ts us : List Token} {name opening : Token}
      (h : ReadsPlace place ts (us.headD name)) (hpending : ReadsPending pending us)
      (hname : IsName name) (hopen : IsSymbol opening .openParen) :
      HasRead (.firstParam ⟨.leaf .identifier name, opening.location, []⟩ pending place)
        (ts ++ us ++ [name, opening])
  | nextParam {place : Place} {pending : Pending} {call : OpenCall} {ts us cs : List Token}
      {name : Token} (h : ReadsPlace place ts (us.headD name))
      (hpending : ReadsPending pending us) (hcall : ReadsCall call name cs) :
      HasRead (.nextParam call pending place) (ts ++ us ++ name :: cs)

theorem HasRead.cast {state : State} {ts ts' : List Token} (h : HasRead state ts) (heq : ts = ts') :
    HasRead state ts' := heq ▸ h

theorem headD_append_cons {α : Type} (us vs : List α) (a b : α) :
    (us ++ a :: vs).headD b = us.headD a := by
  cases us <;> rfl

/-- Tokens up to an operand and the operand start with a token. -/
theorem exists_append_cons_eq {α : Type} (us vs : List α) (a : α) :
    ∃ ws, us ++ a :: vs = us.headD a :: ws := by
  cases us with
  | nil => exact ⟨vs, rfl⟩
  | cons u us => exact ⟨us ++ a :: vs, rfl⟩

/-- An operand where one is due. -/
theorem hasRead_operandStep {place : Place} {pending : Pending} {ts us : List Token} {t : Token}
    {next : State} (h : ReadsPlace place ts (us.headD t)) (hpending : ReadsPending pending us)
    (hstep : State.operandStep pending place t = some next) : HasRead next (ts ++ us ++ [t]) := by
  rw [State.operandStep] at hstep
  split at hstep
  case h_1 hminus =>
      cases hstep
      rw [List.append_assoc]
      exact .operand (fun next => headD_append_cons us [] t next ▸ h) (hpending.negation hminus)
  case h_2 hopen =>
      cases hstep
      rw [← List.append_nil (_ ++ [t])]
      exact .operand (fun _ => .group h hpending hopen) readsPending_empty
  case h_3 hstring =>
      cases hstep
      exact .finished h hpending (.loneAtom (.string hstring))
  case h_4 hinteger =>
      cases hstep
      exact .finished h hpending (.loneAtom (.number ⟨_, .inl hinteger⟩))
  case h_5 hdecimal =>
      cases hstep
      exact .finished h hpending (.loneAtom (.number ⟨_, .inr hdecimal⟩))
  case h_6 hname =>
      cases hstep
      exact .name h hpending ⟨_, hname⟩
  case h_7 => cases hstep

/-- The token after a parameter. -/
theorem hasRead_parameter {outer : Place} {pending : Pending} {call : OpenCall}
    {ts us cs vs : List Token} {name t : Token} {param : OpenParam} {v : Tree} {next : State}
    (h : ReadsPlace outer ts (us.headD name)) (hpending : ReadsPending pending us)
    (hcall : ReadsCall call name cs)
    (hclose : Place.close v t (.param call param pending outer) = some next)
    (hparam : Derives .param vs [param.finish v]) :
    HasRead next (ts ++ us ++ name :: cs ++ vs ++ [t]) := by
  rw [Place.close] at hclose
  split at hclose
  case isTrue hcomma =>
      cases hclose
      exact (HasRead.nextParam h hpending (hcall.comma hparam hcomma)).cast (by simp)
  case isFalse =>
      obtain ⟨hclosing, ⟨⟩⟩ := Option.ite_none_right_eq_some.1 hclose
      exact (HasRead.finished h hpending (.loneAtom (hcall.close hparam hclosing))).cast (by simp)

/-- The token after a whole expression.  At the start of a parameter an
    assignment is no expression: its name would have named the parameter. -/
theorem hasRead_close {place : Place} {ts es : List Token} {first t : Token} {v : Tree}
    {next : State} (h : ReadsPlace place ts first) (hv : Derives .expr (first :: es) [v])
    (hfresh : place.IsFresh → Derives .math (first :: es) [v])
    (hclose : place.close v t = some next) : HasRead next (ts ++ first :: es ++ [t]) := by
  induction h generalizing es v with
  | @statement body ts first h =>
      obtain ⟨hend, ⟨⟩⟩ := Option.ite_none_right_eq_some.1 hclose
      rw [List.append_assoc]
      exact .statement (h.add (.exprStatement hv hend))
  | @loopSource body ts keyword name inKeyword first h hfor hname hin =>
      obtain ⟨hopen, ⟨⟩⟩ := Option.ite_none_right_eq_some.1 hclose
      exact (HasRead.statement (h.loop hfor hname hin hv hopen .noStatement)).cast (by simp)
  | @assigned outer ts name sign first h hnamed hname hsign ih =>
      exact (ih (.assign hname hsign hv) (fun hfresh => absurd hfresh hnamed) hclose).cast
        (by simp)
  | @group outer pending ts us opening first h hpending hopen ih =>
      obtain ⟨hclosing, ⟨⟩⟩ := Option.ite_none_right_eq_some.1 hclose
      exact (HasRead.finished h hpending (.loneAtom (.group hopen hv hclosing))).cast (by simp)
  | @positional outer pending call ts us cs name first h hpending hcall ih =>
      have hparam := Derives.positionalParam (hfresh trivial)
      exact hasRead_parameter h hpending hcall hclose hparam
  | @named outer pending call ts us cs name param sign first h hpending hcall hname hsign ih =>
      have hparam := Derives.namedParam hname hsign hv
      exact (hasRead_parameter h hpending hcall hclose hparam).cast (by simp)

/-- The token after a finished operand. -/
theorem hasRead_finishedStep {place : Place} {pending : Pending} {ts us vs : List Token}
    {first t : Token} {v : Tree} {next : State} (h : ReadsPlace place ts (us.headD first))
    (hpending : ReadsPending pending us) (hv : Derives .primary (first :: vs) [v])
    (hstep : State.finishedStep v pending place t = some next) :
    HasRead next (ts ++ us ++ first :: vs ++ [t]) := by
  -- an operator leaves the place as it is and puts the operand among what is pending
  have hoperand {p : Pending} (hp : ReadsPending p (us ++ first :: vs ++ [t])) :
      HasRead (.operand p place) (ts ++ us ++ first :: vs ++ [t]) := by
    rw [List.append_assoc ts, List.append_assoc ts]
    refine .operand (fun next => ?_) hp
    rw [List.append_assoc, List.cons_append, headD_append_cons]
    exact h
  rw [State.finishedStep] at hstep
  split at hstep
  case h_1 hbang =>
      cases hstep
      rw [List.append_assoc]
      exact .finished h hpending (hv.factorial hbang)
  case h_2 hcaret =>
      cases hstep
      exact hoperand (hpending.power hv hcaret)
  case h_3 hstar =>
      cases hstep
      exact hoperand (hpending.factor hv (.inl hstar))
  case h_4 hslash =>
      cases hstep
      exact hoperand (hpending.factor hv (.inr hslash))
  case h_5 hplus =>
      cases hstep
      exact hoperand (hpending.summand hv (.inl hplus))
  case h_6 hminus =>
      cases hstep
      exact hoperand (hpending.summand hv (.inr hminus))
  case h_7 =>
      -- no operator: the expression is whole
      obtain ⟨es, hes⟩ := exists_append_cons_eq us vs first
      have hmath := hpending.math hv
      rw [hes] at hmath
      rw [List.append_assoc ts, hes]
      exact hasRead_close h (.mathExpr hmath) (fun _ => hmath) hstep

/-- Where nothing waits, nothing was read for it. -/
theorem ReadsPending.eq_nil {pending : Pending} {us : List Token} (h : ReadsPending pending us)
    (hempty : pending.isEmpty) : us = [] := by
  cases h with
  | mk hsum hproduct hwaiting =>
      simp only [Pending.isEmpty, Bool.and_eq_true, List.isEmpty_iff] at hempty
      obtain ⟨⟨rfl, rfl⟩, rfl⟩ := hempty
      cases hsum
      cases hproduct
      cases hwaiting
      rfl

/-- The token after a name where an operand was due. -/
theorem hasRead_nameStep {place : Place} {pending : Pending} {ts us : List Token} {name t : Token}
    {next : State} (h : ReadsPlace place ts (us.headD name)) (hpending : ReadsPending pending us)
    (hname : IsName name)
    (hstep : State.nameStep (.leaf .identifier name) pending place t = some next) :
    HasRead next (ts ++ us ++ [name] ++ [t]) := by
  rw [State.nameStep] at hstep
  split at hstep
  case isTrue hopen =>
      cases hstep
      exact (HasRead.firstParam h hpending hname hopen).cast (by simp)
  case isFalse =>
      split at hstep
      case isTrue hassign =>
          -- the name is the first token of its expression
          cases hstep
          obtain rfl := hpending.eq_nil hassign.2
          rw [List.append_nil] at *
          have hread := HasRead.operand (h.assign hname hassign.1) readsPending_empty
          exact hread.cast (by simp)
      case isFalse => exact hasRead_finishedStep h hpending (.loneAtom (.name hname)) hstep

/-- The token at the start of a parameter. -/
theorem hasRead_paramStep {place : Place} {pending : Pending} {call : OpenCall}
    {ts us cs : List Token} {name t : Token} {next : State}
    (h : ReadsPlace place ts (us.headD name)) (hpending : ReadsPending pending us)
    (hcall : ReadsCall call name cs) (hstep : State.paramStep call pending place t = some next) :
    HasRead next (ts ++ us ++ name :: cs ++ [t]) := by
  have hread := hasRead_operandStep (.positional h hpending hcall) readsPending_empty hstep
  exact hread.cast (by simp)

/-- The token at the start of a statement, or the end of its body. -/
theorem hasRead_statementStep {body : Body} {ts : List Token} {t : Token} {next : State}
    (h : ReadsBody body ts) (hstep : State.statementStep body t = some next) :
    HasRead next (ts ++ [t]) := by
  rw [State.statementStep] at hstep
  split at hstep
  case h_1 hfor =>
      cases hstep
      exact .loopVariable h hfor
  case h_2 hopen =>
      cases hstep
      exact .statement (h.block hopen .noStatement)
  case h_3 hclosing =>
      obtain ⟨outer, hclose, rfl⟩ := Option.map_eq_some_iff.1 hstep
      exact .statement (h.close hclose hclosing)
  case h_4 =>
      have hread := hasRead_operandStep (.statement h) readsPending_empty hstep
      exact hread.cast (by simp)

/-! ## Runs -/

/-- A token that fits is read. -/
theorem hasRead_step {state next : State} {ts : List Token} {t : Token} (h : HasRead state ts)
    (hstep : state.step t = some next) : HasRead next (ts ++ [t]) := by
  cases h with
  | statement h => exact hasRead_statementStep h hstep
  | @loopVariable body ts keyword h hfor =>
      rw [State.step] at hstep
      split at hstep
      case h_1 hname =>
          cases hstep
          exact (HasRead.loopIn h hfor ⟨_, hname⟩).cast (by simp)
      case h_2 => cases hstep
  | @loopIn body ts keyword name h hfor hname =>
      obtain ⟨hin, ⟨⟩⟩ := Option.ite_none_right_eq_some.1 hstep
      have hread := HasRead.operand (fun _ => .loopSource h hfor hname hin) readsPending_empty
      exact hread.cast (by simp)
  | operand h hpending => exact hasRead_operandStep (h t) hpending hstep
  | name h hpending hname => exact hasRead_nameStep h hpending hname hstep
  | finished h hpending hv => exact hasRead_finishedStep h hpending hv hstep
  | @firstParam place pending ts us name opening h hpending hname hopen =>
      rw [State.step] at hstep
      split at hstep
      case isTrue hclosing =>
          cases hstep
          have hcall := Derives.call hname hopen .noArguments hclosing
          exact (HasRead.finished h hpending (.loneAtom hcall)).cast (by simp)
      case isFalse => exact hasRead_paramStep h hpending (.mk hname hopen .nil) hstep
  | nextParam h hpending hcall => exact hasRead_paramStep h hpending hcall hstep

/-- A whole run adds its tokens to those that were read. -/
theorem hasRead_run {state next : State} {ts us : List Token} (h : HasRead state ts)
    (hrun : state.run us = .ok next) : HasRead next (ts ++ us) := by
  induction us generalizing state ts with
  | nil =>
      cases hrun
      exact h.cast (by simp)
  | cons t us ih =>
      rw [State.run] at hrun
      split at hrun
      case h_1 middle hstep => exact (ih (hasRead_step h hstep) hrun).cast (by simp)
      case h_2 => cases hrun

/-- **A tree that the parser returns is one that the grammar gives.** -/
theorem derivesProgram_of_ofTokens {s : TokenStream} {t : Tree} (h : Tree.ofTokens s = .ok t) :
    DerivesProgram s t := by
  rw [Tree.ofTokens] at h
  split at h
  case h_1 state hrun =>
      have hread := hasRead_run (.statement (.program .noStatement)) hrun
      rw [State.finish.eq_def] at h
      split at h
      case h_1 done =>
          cases h
          cases hread with
          | statement hbody =>
              cases hbody with
              | program h => exact ⟨_, h, by rw [List.reverse_reverse]⟩
      case h_2 => cases h
  case h_2 => cases h

end MillScript.Parsing
