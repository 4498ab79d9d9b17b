import MillScript.Program.Lower
import MillScript.Proofs.Grammar.Soundness

/-! # No script has a malformed tree

    Lowering looks at the shape of a tree before it goes on: how many children
    a node has, that operands and operators of a chain take turns, that an
    operator or a unit is one.  `Lowers` says which shape the trees of a
    phrase have to have for none of these tests to fail, and by induction over
    derivations the trees of every phrase have it.  What is left to fail for
    is in the script itself: a function that there is not, arguments that do
    not fit, a number that is too large. -/

namespace MillScript

/-- What a script may still be refused for once it has been parsed. -/
inductive Fault.InScript : Fault → Prop
  | unknownFunction (name : String) : InScript (.naming (.unknownFunction name))
  | binding (fault : BindingFault) : InScript (.binding fault)
  | literalOutOfRange : InScript (.grammar .literalOutOfRange)

/-- An outcome that is a success or a failure for what is in the script. -/
def Proper {α : Type} (r : Except Error α) : Prop := ∀ e, r = .error e → e.fault.InScript

section Proper

variable {α β : Type}

theorem proper_ok (a : α) : Proper (.ok a) := by
  intro e he
  cases he

theorem proper_error {e : Error} (h : e.fault.InScript) : Proper (.error e : Except Error α) := by
  intro e' he
  rw [← Except.error.inj he]
  exact h

theorem Proper.bind {r : Except Error α} {k : α → Except Error β} (hr : Proper r)
    (hk : ∀ a, Proper (k a)) : Proper (r >>= k) := by
  cases r with
  | error e => exact proper_error (hr e rfl)
  | ok a => exact hk a

end Proper

namespace Tree

/-! ## Shapes -/

/-- A node that denotes an operator. -/
def IsOperator (t : Tree) : Prop := t.rule = .operator ∧ ∃ op, BinaryOp.ofSymbol? t.text = some op

/-- What follows the first operand of a chain: operators and operands that
    can be lowered, in turn. -/
inductive ChainLowers : List Tree → Prop
  | nil : ChainLowers []
  | cons {op operand : Tree} {rest : List Tree} (hop : op.IsOperator)
      (hoperand : Proper operand.lowerExpr) (hrest : ChainLowers rest) :
      ChainLowers (op :: operand :: rest)

/-- A parameter whose expression can be lowered. -/
inductive ParamLowers : Tree → Prop
  | positional {l : Location} {value : Tree} (h : Proper value.lowerExpr) :
      ParamLowers (.node .positionalParam l [value])
  | named {l : Location} {name value : Tree} (h : Proper value.lowerExpr) :
      ParamLowers (.node .namedParam l [name, value])

namespace ChainLowers

variable {rest : List Tree}

/-- An operator and an operand more make a longer chain. -/
theorem concat (h : ChainLowers rest) {op operand : Tree} (hop : op.IsOperator)
    (hoperand : Proper operand.lowerExpr) : ChainLowers (rest ++ [op, operand]) := by
  induction h with
  | nil => exact .cons hop hoperand .nil
  | cons hop' hoperand' _ ih => exact .cons hop' hoperand' ih

/-- A chain has an operand for every operator. -/
theorem length_even (h : ChainLowers rest) : rest.length % 2 = 0 := by
  induction h with
  | nil => rfl
  | cons _ _ _ ih =>
      simp only [List.length_cons]
      omega

theorem isChain (h : ChainLowers rest) (hrest : rest ≠ []) : isChain rest = true := by
  simp [Tree.isChain, hrest, h.length_even]

/-- A chain of operands that can be lowered can be lowered. -/
theorem proper_lowerChain (h : ChainLowers rest) (lhs : Expr) : Proper (lowerChain lhs rest) := by
  induction h generalizing lhs with
  | nil => exact proper_ok lhs
  | @cons op operand rest hop hoperand _ ih =>
      obtain ⟨hrule, operator, hsymbol⟩ := hop
      have hoperator : op.lowerOperator = .ok operator := by rw [lowerOperator, hrule, hsymbol]
      rw [lowerChain, hoperator]
      exact hoperand.bind fun rhs => ih _

end ChainLowers

/-! ## Nodes -/

/-- A number is refused for its unit only if that is none. -/
theorem proper_lowerNumber {t : Tree}
    (h : t.rule = .unitNumber → ∃ unit, LengthUnit.ofName? t.unit = some unit) :
    Proper t.lowerNumber := by
  rw [lowerNumber]
  split
  · exact proper_error .literalOutOfRange
  · split
    · rename_i hrule
      obtain ⟨unit, hunit⟩ := h hrule
      rw [hunit]
      exact proper_ok _
    · exact proper_ok _

/-- Parameters by position can be too many, but are never malformed. -/
theorem proper_lowerPositional (f : Builtin) {params : List Tree}
    (h : ∀ p ∈ params, ParamLowers p) (given : List Slot) :
    Proper (lowerPositional f given params) := by
  induction params generalizing given with
  | nil => exact proper_ok given
  | cons p params ih =>
      obtain ⟨hp, hparams⟩ := List.forall_mem_cons.mp h
      cases hp with
      | @positional l value hvalue =>
          show Proper (if f.params.length ≤ given.length then _ else _)
          split
          · exact proper_error (.binding _)
          · exact hvalue.bind fun e => ih hparams _
      | named hvalue => exact ih hparams given

/-- Parameters by name can be unknown or doubled, but are never malformed. -/
theorem proper_lowerNamed (f : Builtin) (positional : Nat) {params : List Tree}
    (h : ∀ p ∈ params, ParamLowers p) (slots : List Slot) :
    Proper (lowerNamed f positional slots params) := by
  induction params generalizing slots with
  | nil => exact proper_ok slots
  | cons p params ih =>
      obtain ⟨hp, hparams⟩ := List.forall_mem_cons.mp h
      cases hp with
      | positional hvalue => exact ih hparams slots
      | @named l name value hvalue =>
          rw [node, lowerNamed]
          split
          · exact proper_error (.binding _)
          · split
            · exact proper_error (by dsimp only; split <;> exact .binding _)
            · exact hvalue.bind fun e => ih hparams _

/-- A call can be of an unknown function or lack parameters, but is never
    malformed. -/
theorem proper_lowerCall (l m : Location) (name : Tree) {params : List Tree}
    (h : ∀ p ∈ params, ParamLowers p) :
    Proper (lowerExpr (.node .call l [name, .node .params m params])) := by
  rw [node, node, lowerExpr]
  split
  · exact proper_error (.unknownFunction _)
  · rename_i f hf
    refine (proper_lowerPositional f h []).bind fun given => ?_
    refine (proper_lowerNamed f given.length h _).bind fun slots => ?_
    split
    · exact proper_error (.binding _)
    · exact proper_ok _

/-- A body can be lowered if its statements can. -/
theorem proper_lowerStmts {body : List Tree} (h : ∀ t ∈ body, Proper t.lowerStmt) :
    Proper (lowerStmts body) := by
  induction body with
  | nil => exact proper_ok []
  | cons t rest ih =>
      obtain ⟨ht, hrest⟩ := List.forall_mem_cons.mp h
      exact ht.bind fun s => (ih hrest).bind fun body => proper_ok _

end Tree

/-! ## Phrases -/

namespace Parsing

open MillScript.Tree

/-- What can be lowered of the trees of a phrase. -/
def Lowers : Phrase → List Tree → Prop
  | .statements, statements => ∀ t ∈ statements, Proper t.lowerStmt
  | .statement, [t] | .loop, [t] => Proper t.lowerStmt
  | .block, [t] => ∃ l body, t = .node .block l body ∧ Proper (lowerStmts body)
  | .summands, first :: rest | .factors, first :: rest =>
      Proper first.lowerExpr ∧ ChainLowers rest
  | .arguments, params | .params, params => ∀ p ∈ params, ParamLowers p
  | .param, [p] => ParamLowers p
  | _, [t] => Proper t.lowerExpr
  | _, _ => False

/-- The sign between two operands of a chain denotes the operator of its
    spelling. -/
theorem isOperator_leaf {sign : Token} (op : BinaryOp)
    (h : sign.lexeme.text = op.symbol) : (Tree.leaf .operator sign).IsOperator := by
  refine ⟨rfl, op, ?_⟩
  show BinaryOp.ofSymbol? sign.lexeme.text = some op
  rw [h, BinaryOp.ofSymbol?_symbol]

theorem isOperator_additive {sign : Token} (h : IsSymbol sign .plus ∨ IsSymbol sign .minus) :
    (Tree.leaf .operator sign).IsOperator := by
  rcases h with h | h
  · exact isOperator_leaf .add (congrArg Lexeme.text h)
  · exact isOperator_leaf .subtract (congrArg Lexeme.text h)

theorem isOperator_multiplicative {sign : Token}
    (h : IsSymbol sign .star ∨ IsSymbol sign .slash) :
    (Tree.leaf .operator sign).IsOperator := by
  rcases h with h | h
  · exact isOperator_leaf .multiply (congrArg Lexeme.text h)
  · exact isOperator_leaf .divide (congrArg Lexeme.text h)

/-- A number can be out of range as one. -/
theorem proper_number {t : Token} {unit : Option LengthUnit} (h : IsNumber t unit) :
    Proper (lowerExpr (.leaf (if unit.isSome then .unitNumber else .unitlessNumber) t)) := by
  have hunit : LengthUnit.ofName? t.lexeme.unitName = unit := by
    obtain ⟨digits, hlexeme | hlexeme⟩ := h
    · rw [hlexeme]
      exact Quantity.ofName?_unitName unit
    · rw [hlexeme]
      exact Quantity.ofName?_unitName unit
  cases unit with
  | none =>
      have hnumber : Proper (lowerNumber (.leaf .unitlessNumber t)) :=
        proper_lowerNumber fun hrule => by cases hrule
      exact hnumber
  | some u =>
      have hnumber : Proper (lowerNumber (.leaf .unitNumber t)) :=
        proper_lowerNumber fun _ => ⟨u, hunit⟩
      exact hnumber

/-- A sum or a product of more than one operand. -/
theorem proper_chain {rule : Rule} (hrule : rule = .sum ∨ rule = .product) (l : Location)
    {first : Tree} {rest : List Tree} (h : Proper first.lowerExpr ∧ ChainLowers rest)
    (hrest : rest ≠ []) : Proper (lowerExpr (.node rule l (first :: rest))) := by
  have hlowered : Proper (first.lowerExpr >>= fun lhs => lowerChain lhs rest) :=
    h.1.bind fun lhs => h.2.proper_lowerChain lhs
  rcases hrule with rfl | rfl
  · rw [node, lowerExpr, if_pos (h.2.isChain hrest)]
    exact hlowered
  · rw [node, lowerExpr, if_pos (h.2.isChain hrest)]
    exact hlowered

/-- **Trees of the grammar can be lowered**, by the productions they come
    from. -/
theorem Derives.lowers {phrase : Phrase} {ts : List Token} {trees : List Tree}
    (h : Derives phrase ts trees) : Lowers phrase trees := by
  induction h with
  | noStatement => exact fun t ht => absurd ht List.not_mem_nil
  | moreStatements _ _ ihdone ihs =>
      exact List.forall_mem_append.mpr ⟨ihdone, List.forall_mem_singleton.mpr ihs⟩
  | loopStatement _ ih => exact ih
  | blockStatement _ ih =>
      obtain ⟨l, body, rfl, hbody⟩ := ih
      exact hbody.bind fun statements => proper_ok _
  | exprStatement _ _ ih => exact ih.bind fun e => proper_ok _
  | loop _ _ _ _ _ ihsource ihbody =>
      obtain ⟨l, body, rfl, hbody⟩ := ihbody
      exact ihsource.bind fun e => hbody.bind fun statements => proper_ok _
  | block _ _ _ ih => exact ⟨_, _, rfl, proper_lowerStmts ih⟩
  | assign _ _ _ ih => exact ih.bind fun v => proper_ok _
  | mathExpr _ ih => exact ih
  | loneTerm _ ih => exact ih.1
  | sum _ hrest ih => exact proper_chain (.inl rfl) _ ih hrest
  | firstTerm _ ih => exact ⟨ih, .nil⟩
  | @moreTerms _ _ _ done _ _ hsign _ ihdone ih =>
      cases done with
      | nil => exact ihdone.elim
      | cons first rest => exact ⟨ihdone.1, ihdone.2.concat (isOperator_additive hsign) ih⟩
  | loneFactor _ ih => exact ih.1
  | product _ hrest ih => exact proper_chain (.inr rfl) _ ih hrest
  | firstFactor _ ih => exact ⟨ih, .nil⟩
  | @moreFactors _ _ _ done _ _ hsign _ ihdone ih =>
      cases done with
      | nil => exact ihdone.elim
      | cons first rest => exact ⟨ihdone.1, ihdone.2.concat (isOperator_multiplicative hsign) ih⟩
  | negation _ _ ih => exact ih.bind fun v => proper_ok _
  | powerUnary _ ih => exact ih
  | power _ _ _ ihbase ihexponent =>
      exact ihbase.bind fun lhs => ihexponent.bind fun rhs => proper_ok _
  | primaryPower _ ih => exact ih
  | factorial _ _ ih => exact ih.bind fun v => proper_ok _
  | loneAtom _ ih => exact ih
  | string _ => exact proper_ok _
  | number h => exact proper_number h
  | group _ _ _ ih => exact ih
  | call _ _ _ _ ih => exact proper_lowerCall _ _ _ ih
  | name _ => exact proper_ok _
  | noArguments => exact fun t ht => absurd ht List.not_mem_nil
  | someArguments _ ih => exact ih
  | firstParam _ ih => exact List.forall_mem_singleton.mpr ih
  | moreParams _ _ _ ihdone ih =>
      exact List.forall_mem_append.mpr ⟨ihdone, List.forall_mem_singleton.mpr ih⟩
  | namedParam _ _ _ ih => exact .named ih
  | positionalParam _ ih => exact .positional ih

end Parsing

/-! ## Scripts -/

namespace Tree

open Parsing

/-- What the grammar gives is lowered, or refused for what the script says. -/
theorem proper_toProgram {s : TokenStream} {t : Tree} (h : DerivesProgram s t) :
    Proper t.toProgram := by
  obtain ⟨statements, hstatements, rfl⟩ := h
  show Proper (lowerStmts statements >>= fun body => .ok (Program.mk s.start body))
  exact (proper_lowerStmts hstatements.lowers).bind fun body => proper_ok _

/-- **No script has a malformed tree.**  A script that is parsed is made into
    a program, or refused for a function that there is not, for arguments that
    do not fit or for a number that is out of range. -/
theorem toProgram_never_malformed {source : String} {t : Tree} (h : ofSource source = .ok t) :
    ((∃ p, t.toProgram = .ok p) ∨ ∃ e, t.toProgram = .error e ∧ e.fault.InScript)
      ∧ ∀ rule l, t.toProgram ≠ .error ⟨SyntaxFault.malformedTree rule, l⟩ := by
  have hproper : Proper t.toProgram := by
    rw [ofSource] at h
    split at h
    · exact proper_toProgram (derivesProgram_of_ofTokens h)
    · cases h
  constructor
  · cases hp : t.toProgram with
    | ok p => exact .inl ⟨p, rfl⟩
    | error e => exact .inr ⟨e, rfl, hproper e hp⟩
  · intro rule l hmalformed
    cases hproper _ hmalformed

/-- A script with every kind of node; the drill is told its first parameter
    twice. -/
def toldTwice : String :=
  "for i in linspace(0, 2, 3) \x7b d = -2 ^ -i! * (1 + 2.5in / 4); "
    ++ "\x7b comment('it''s'); \x7d drill(d, d, 1mm, x = d); \x7d"

theorem toProgram_never_malformed_toldTwice :
    ∃ t, ofSource toldTwice = .ok t
      ∧ (∃ e, t.toProgram = .error e ∧ e.fault.InScript)
      ∧ ∀ rule l, t.toProgram ≠ .error ⟨SyntaxFault.malformedTree rule, l⟩ := by
  have hparsed : (ofSource toldTwice).isOk = true
      ∧ (ofSource toldTwice >>= toProgram).isOk = false := by decide +kernel
  cases ht : ofSource toldTwice with
  | error e =>
      rw [ht] at hparsed
      cases hparsed.1
  | ok t =>
      rw [ht] at hparsed
      obtain ⟨⟨p, hp⟩ | hrefused, hnever⟩ := toProgram_never_malformed ht
      · have hok : t.toProgram.isOk = false := hparsed.2
        rw [hp] at hok
        cases hok
      · exact ⟨t, rfl, hrefused, hnever⟩

end Tree

end MillScript
