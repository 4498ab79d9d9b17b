import Mathlib.Data.List.Forall2
import MillScript.Proofs.Grammar.Completeness
import MillScript.Proofs.Outcome
import MillScript.Proofs.Program.Arguments
import MillScript.Proofs.Program.Printing
import MillScript.Proofs.Relocation.Lowering

/-! # Print and parse

    The text of a program is parsed to a tree, and the tree is lowered to the
    program, except for the places.  Places do not matter to either, so the
    lexemes are put at one place first.  For each line of the table there is a
    phrase of the grammar: `ReadsAt` says that lexemes are derived from it, and
    that their tree is lowered to an expression.  What binds tightly is a
    phrase of every line further up, and anything in parentheses is a phrase of
    the last one; that is all that parentheses are needed for
    (`ReadsAt.enclosed`).  Sums and products are derived as flat chains and
    lowered from the left, so a chain that stands on the left of an operator is
    made longer by it (`ReadsChain.more`). -/

namespace MillScript

open Parsing

/-! ## Everything at one place -/

/-- The place where all is put. -/
def home : Location → Location := fun _ => .start

/-- Lexemes as tokens at that place. -/
def placed (xs : List Lexeme) : List Token := xs.map (Token.mk · .start)

/-- Programs that differ in places only. -/
def Program.SameButPlaces (p q : Program) : Prop := p.relocate home = q.relocate home

@[simp] theorem placed_cons (x : Lexeme) (xs : List Lexeme) :
    placed (x :: xs) = ⟨x, .start⟩ :: placed xs := rfl

@[simp] theorem placed_append (xs ys : List Lexeme) : placed (xs ++ ys) = placed xs ++ placed ys :=
  List.map_append

theorem placed_singleton (x : Lexeme) : placed [x] = [⟨x, .start⟩] := rfl

theorem isSymbol_placed (s : Symbol) : IsSymbol ⟨.symbol s, .start⟩ s := rfl

/-! ## Phrases -/

/-- Lexemes of a phrase that stand for an expression. -/
def Reads (phrase : Phrase) (xs : List Lexeme) (e : Expr) : Prop :=
  ∃ t, Derives phrase (placed xs) [t] ∧ t.lowerExpr = .ok (e.relocate home)

/-- Lexemes of a chain that stand for an expression: its first operand, with
    the operators and operands after it applied from the left. -/
def ReadsChain (phrase : Phrase) (xs : List Lexeme) (e : Expr) : Prop :=
  ∃ first rest, Derives phrase (placed xs) (first :: rest) ∧ rest.length % 2 = 0
    ∧ (first.lowerExpr >>= fun lhs => Tree.lowerChain lhs rest) = .ok (e.relocate home)

/-- Lexemes of the phrase for a line of the table. -/
def ReadsAt : Nat → List Lexeme → Expr → Prop
  | 0 => Reads .expr
  | 1 => ReadsChain .summands
  | 2 => ReadsChain .factors
  | 3 => Reads .unary
  | 4 => Reads .power
  | 5 => Reads .primary
  | _ => Reads .atom

namespace Tree

/-- A chain of operands is lowered from the left, one operator after the
    other. -/
theorem lowerExpr_chain {rule : Rule} (hrule : rule = .sum ∨ rule = .product) (l : Location)
    (first : Tree) {rest : List Tree} (hrest : rest ≠ []) (heven : rest.length % 2 = 0) :
    (node rule l (first :: rest)).lowerExpr
      = first.lowerExpr >>= fun lhs => lowerChain lhs rest := by
  have hchain : isChain rest = true := by simp [isChain, hrest, heven]
  rcases hrule with rfl | rfl
  · rw [node, lowerExpr, if_pos hchain]
  · rw [node, lowerExpr, if_pos hchain]

/-- One more operator and operand at the end of a chain. -/
theorem lowerChain_concat {lhs e r : Expr} {rest : List Tree} {sign operand : Tree} {op : BinaryOp}
    (heven : rest.length % 2 = 0) (h : lowerChain lhs rest = .ok e)
    (hoperand : operand.lowerExpr = .ok r) (hsign : sign.lowerOperator = .ok op) :
    lowerChain lhs (rest ++ [sign, operand]) = .ok (.binary sign.location op e r) := by
  match rest with
  | [] =>
      rw [lowerChain] at h
      · cases h
        rw [List.nil_append, lowerChain, hoperand, hsign]
        rfl
      · simp
  | [_] => cases heven
  | a :: b :: rest =>
      rw [lowerChain, bind_eq_ok] at h
      obtain ⟨r', hb, h⟩ := h
      obtain ⟨op', ha, h⟩ := bind_eq_ok.mp h
      have heven' : rest.length % 2 = 0 := by
        rw [List.length_cons, List.length_cons] at heven
        omega
      rw [List.cons_append, List.cons_append, lowerChain, hb, ha]
      exact lowerChain_concat heven' h hoperand hsign

/-- The sign of an operator stands for that operator. -/
theorem lowerOperator_leaf (op : BinaryOp) :
    (leaf .operator ⟨.symbol op.sign, .start⟩).lowerOperator = .ok op := by
  cases op <;> rfl

end Tree

variable {xs ys : List Lexeme} {e e' : Expr}

/-! ### From line to line -/

/-- A phrase that may stand alone in a chain is a chain of one. -/
theorem Reads.chain {phrase chain : Phrase} (h : Reads phrase xs e)
    (hfirst : ∀ {ts v}, Derives phrase ts [v] → Derives chain ts [v]) : ReadsChain chain xs e := by
  obtain ⟨t, ht, hlower⟩ := h
  refine ⟨t, [], hfirst ht, rfl, ?_⟩
  rw [hlower]
  rfl

/-- A chain of one operand is the operand, and any other has a node. -/
theorem ReadsChain.reads {phrase chain : Phrase} {rule : Rule} (h : ReadsChain chain xs e)
    (hrule : rule = .sum ∨ rule = .product)
    (hlone : ∀ {ts v}, Derives chain ts [v] → Derives phrase ts [v])
    (hnode : ∀ {ts first rest}, Derives chain ts (first :: rest) → rest ≠ [] →
      Derives phrase ts [.node rule first.location (first :: rest)]) : Reads phrase xs e := by
  obtain ⟨first, rest, hderives, heven, hlower⟩ := h
  by_cases hrest : rest = []
  · subst hrest
    refine ⟨first, hlone hderives, ?_⟩
    obtain ⟨lhs, hlhs, hlower⟩ := bind_eq_ok.mp hlower
    exact hlhs.trans hlower
  · refine ⟨_, hnode hderives hrest, ?_⟩
    rw [Tree.lowerExpr_chain hrule _ _ hrest heven, hlower]

/-- A chain of factors is a term. -/
theorem ReadsChain.term (h : ReadsChain .factors xs e) : Reads .term xs e :=
  h.reads (.inr rfl) .loneFactor .product

/-- A chain of summands is a sum. -/
theorem ReadsChain.math (h : ReadsChain .summands xs e) : Reads .math xs e :=
  h.reads (.inl rfl) .loneTerm .sum

/-- What is read as one phrase is read as every phrase that includes it. -/
theorem Reads.mono {phrase phrase' : Phrase} (h : Reads phrase xs e)
    (hphrase : ∀ {ts v}, Derives phrase ts [v] → Derives phrase' ts [v]) : Reads phrase' xs e := by
  obtain ⟨t, ht, hlower⟩ := h
  exact ⟨t, hphrase ht, hlower⟩

namespace ReadsAt

/-- What binds tightly is a phrase one line further up. -/
theorem up {n : Nat} (h : ReadsAt (n + 1) xs e) : ReadsAt n xs e := by
  match n with
  | 0 => exact h.math.mono .mathExpr
  | 1 => exact h.term.chain .firstTerm
  | 2 => exact h.chain .firstFactor
  | 3 => exact h.mono .powerUnary
  | 4 => exact h.mono .primaryPower
  | 5 => exact h.mono .loneAtom
  | n + 6 => exact h

/-- What binds tightly enough for one place may stand at all that ask for
    less. -/
theorem of_le {m n : Nat} (hle : m ≤ n) (h : ReadsAt n xs e) : ReadsAt m xs e := by
  induction hle with
  | refl => exact h
  | step _ ih => exact ih h.up

/-- **Parentheses where they are needed**: an expression is a phrase of any
    line, with parentheses if it binds less tightly. -/
theorem enclosed {own need : Nat} (hneed : need ≤ 6) (h : ReadsAt own xs e) :
    ReadsAt need (enclosed need own xs) e := by
  rw [MillScript.enclosed]
  split
  · obtain ⟨t, ht, hlower⟩ : Reads .expr xs e := h.of_le (Nat.zero_le own)
    have hatom : ReadsAt 6 (.symbol .openParen :: xs ++ [.symbol .closeParen]) e := by
      refine ⟨t, ?_, hlower⟩
      rw [placed_append, placed_cons]
      exact .group rfl ht rfl
    exact hatom.of_le hneed
  · rename_i hown
    exact h.of_le (Nat.le_of_not_lt hown)

end ReadsAt

/-! ### Operators -/

/-- An operand more goes to the end of a chain, and the expression is that of a
    binary operator. -/
theorem ReadsChain.more {chain operand : Phrase} (op : BinaryOp) (h : ReadsChain chain xs e)
    (h' : Reads operand ys e')
    (hmore : ∀ {ts us done v}, Derives chain ts done → Derives operand us [v] →
      Derives chain (ts ++ ⟨.symbol op.sign, .start⟩ :: us)
        (done ++ [.leaf .operator ⟨.symbol op.sign, .start⟩, v])) (l : Location) :
    ReadsChain chain (xs ++ .symbol op.sign :: ys) (.binary l op e e') := by
  obtain ⟨first, rest, hderives, heven, hlower⟩ := h
  obtain ⟨t, ht, hoperand⟩ := h'
  obtain ⟨lhs, hlhs, hlower⟩ := bind_eq_ok.mp hlower
  refine ⟨first, rest ++ [.leaf .operator ⟨.symbol op.sign, .start⟩, t], ?_, ?_, ?_⟩
  · rw [placed_append, placed_cons]
    exact hmore hderives ht
  · rw [List.length_append]
    simp [heven]
  · rw [hlhs]
    exact Tree.lowerChain_concat heven hlower hoperand (Tree.lowerOperator_leaf op)

/-- Operands that bind as tightly as an operator asks for need no
    parentheses. -/
theorem ReadsAt.binary {op : BinaryOp} (h : ReadsAt op.left xs e) (h' : ReadsAt op.right ys e')
    (l : Location) : ReadsAt op.binding (xs ++ .symbol op.sign :: ys) (.binary l op e e') := by
  cases op with
  | add => exact h.more .add h'.term (fun hts hus => .moreTerms hts (.inl rfl) hus) l
  | subtract => exact h.more .subtract h'.term (fun hts hus => .moreTerms hts (.inr rfl) hus) l
  | multiply => exact h.more .multiply h' (fun hts hus => .moreFactors hts (.inl rfl) hus) l
  | divide => exact h.more .divide h' (fun hts hus => .moreFactors hts (.inr rfl) hus) l
  | power =>
      obtain ⟨base, hbase, hlhs⟩ := h
      obtain ⟨exponent, hexponent, hrhs⟩ := h'
      have hderives := Derives.power hbase (isSymbol_placed .caret) hexponent
      rw [← placed_cons, ← placed_append] at hderives
      refine ⟨_, hderives, ?_⟩
      rw [Tree.node, Tree.lowerExpr, hlhs, hrhs]
      rfl

/-- The operand of a sign may be one with a sign, or a power. -/
theorem ReadsAt.negation (h : ReadsAt 3 xs e) (l : Location) :
    ReadsAt 3 (.symbol .minus :: xs) (.unary l .negate e) := by
  obtain ⟨t, ht, hlower⟩ := h
  refine ⟨_, .negation rfl ht, ?_⟩
  rw [Tree.node, Tree.lowerExpr, hlower]
  rfl

/-- The operand of a factorial may be a factorial itself. -/
theorem ReadsAt.factorial (h : ReadsAt 5 xs e) (l : Location) :
    ReadsAt 5 (xs ++ [.symbol .bang]) (.unary l .factorial e) := by
  obtain ⟨t, ht, hlower⟩ := h
  have hderives := Derives.factorial ht (isSymbol_placed .bang)
  rw [← placed_singleton, ← placed_append] at hderives
  refine ⟨_, hderives, ?_⟩
  rw [Tree.node, Tree.lowerExpr, hlower]
  rfl

/-- An assignment takes any expression for its value. -/
theorem Reads.assign (h : Reads .expr xs e) (l : Location) (name : String) :
    Reads .expr (.identifier name :: .symbol .assign :: xs) (.assign l name e) := by
  obtain ⟨t, ht, hlower⟩ := h
  refine ⟨_, .assign ⟨name, rfl⟩ rfl ht, ?_⟩
  rw [Tree.node, Tree.lowerExpr, hlower]
  rfl

/-! ### Operands -/

/-- A literal is a number with its unit. -/
theorem isNumber_lexeme (x : Literal) (unit : Option LengthUnit) :
    IsNumber ⟨x.lexeme unit, .start⟩ unit := by
  refine ⟨x.text, ?_⟩
  cases x with
  | integer digits h => exact .inl rfl
  | decimal whole fraction hwhole hfraction => exact .inr rfl

/-- The leaf of a literal is lowered to the value that is written. -/
theorem Tree.lowerExpr_literal (x : Literal) (hfinite : x.value.isFinite = true)
    (unit : Option LengthUnit) :
    (leaf (if unit.isSome then .unitNumber else .unitlessNumber)
      ⟨x.lexeme unit, .start⟩).lowerExpr = .ok (.number .start ⟨x.value, unit⟩) := by
  have htext : (x.lexeme unit).text = x.text := by cases x <;> rfl
  have hunit : (x.lexeme unit).unitName = Quantity.unitName unit := by cases x <;> rfl
  rw [Literal.value] at hfinite ⊢
  cases unit with
  | none =>
      show lowerNumber (leaf .unitlessNumber _) = _
      rw [lowerNumber, leaf]
      simp [htext, hfinite]
  | some u =>
      show lowerNumber (leaf .unitNumber _) = _
      rw [lowerNumber, leaf]
      simp [htext, hunit, hfinite]

/-- A number that has a spelling is read back from it. -/
theorem reads_number {spell : Location → Quantity → Literal} {l : Location} {q : Quantity}
    (h : (Expr.number l q).Printable spell) :
    Reads .atom [(spell l q).lexeme q.unit] (.number l q) := by
  obtain ⟨hfinite, hvalue⟩ := h
  rw [← hvalue] at hfinite
  refine ⟨_, .number (isNumber_lexeme (spell l q) q.unit), ?_⟩
  rw [Tree.lowerExpr_literal _ hfinite, hvalue]
  rfl

theorem reads_string (l : Location) (text : String) :
    Reads .atom [.string text] (.string l text) :=
  ⟨_, .string rfl, rfl⟩

theorem reads_identifier (l : Location) (name : String) :
    Reads .atom [.identifier name] (.identifier l name) :=
  ⟨_, .name ⟨name, rfl⟩, rfl⟩

/-! ### Calls -/

section Calls

/-- Parameters after those before them. -/
theorem derives_params {ts : List Token} {done : List Tree} (hdone : Derives .params ts done)
    {args : List (List Lexeme)} {trees : List Tree}
    (h : List.Forall₂ (fun xs t => Derives .param (placed xs) [t]) args trees) :
    Derives .params (ts ++ placed (args.flatMap (.symbol .comma :: ·))) (done ++ trees) := by
  induction h generalizing ts done with
  | nil => simpa [placed] using hdone
  | @cons xs t args trees hfirst _ ih =>
      have hmore := ih (.moreParams hdone (isSymbol_placed .comma) hfirst)
      simpa using hmore

/-- Commas between, as commas before all but the first. -/
theorem intercalate_cons {α : Type} (c : α) (first : List α) (rest : List (List α)) :
    [c].intercalate (first :: rest) = first ++ rest.flatMap (c :: ·) := by
  induction rest generalizing first with
  | nil => simp
  | cons second rest ih => rw [List.intercalate_cons_cons, ih]; simp

/-- Parameters with commas between them are the arguments of a call. -/
theorem derives_arguments {args : List (List Lexeme)} {trees : List Tree}
    (h : List.Forall₂ (fun xs t => Derives .param (placed xs) [t]) args trees) :
    Derives .arguments (placed ([.symbol .comma].intercalate args)) trees := by
  cases h with
  | nil => exact .noArguments
  | cons hfirst hrest =>
      rw [intercalate_cons, placed_append]
      exact .someArguments (derives_params (.firstParam hfirst) hrest)

/-- A call that names all its parameters has none by position. -/
theorem Tree.lowerPositional_named {f : Builtin} {given : List Slot} {params : List Tree}
    (h : ∀ t ∈ params, t.rule = .namedParam) : lowerPositional f given params = .ok given := by
  induction params with
  | nil => rw [lowerPositional]
  | cons t params ih =>
      obtain ⟨ht, hparams⟩ := List.forall_mem_cons.mp h
      obtain ⟨rule, text, unit, loc, children⟩ := t
      cases ht
      rw [lowerPositional, ih hparams]
      · intro hrule
        cases hrule
      · intro value hrule
        cases hrule

/-- Names of parameters stand once, so that each is found at its place. -/
theorem Builtin.slot?_of_params {f : Builtin} {front params : List Param} {p : Param}
    (h : f.params = front ++ p :: params) : f.slot? p.name = some front.length := by
  refine slot?_eq_some_iff.mpr ⟨p, ?_, rfl⟩
  rw [h, List.getElem?_append_right (Nat.le_refl _), Nat.sub_self, List.getElem?_cons_zero]

/-- What is named goes to the slot of its name: before it are the slots that
    are done, after it those that are still empty. -/
theorem Tree.lowerNamed_cons {f : Builtin} {front params : List Param} {p : Param}
    {done : List Slot} {value : Tree} {trees : List Tree} {e : Expr}
    (hparams : f.params = front ++ p :: params) (hdone : done.length = front.length)
    (hvalue : value.lowerExpr = .ok e) :
    lowerNamed f 0 (done ++ List.replicate (p :: params).length .absent)
        (node .namedParam .start [leaf .identifier ⟨.identifier p.name, .start⟩, value] :: trees)
      = lowerNamed f 0 (done ++ [.given .start e] ++ List.replicate params.length .absent)
          trees := by
  have hslot : f.slot? (Lexeme.identifier p.name).text = some done.length := by
    rw [hdone]
    exact Builtin.slot?_of_params hparams
  have hempty : (done ++ Slot.absent :: List.replicate params.length .absent).getD done.length
      .absent = .absent := by
    simp
  have hset : (done ++ Slot.absent :: List.replicate params.length .absent).set done.length
      (.given .start e) = done ++ [.given .start e] ++ List.replicate params.length .absent := by
    simp
  rw [List.length_cons, List.replicate_succ, node, leaf, lowerNamed]
  dsimp only
  rw [hslot]
  dsimp only
  rw [hempty, if_neg (by decide), hvalue]
  show lowerNamed f 0 (List.set _ _ _) trees = _
  rw [hset]

/-- What a call fills in is not missing, wherever it stands. -/
theorem Tree.missing?_relocateAll {f : Builtin} {slots : List Slot} (h : Slot.Fill f slots) :
    missing? f (Slot.relocateAll home slots) = none := by
  rw [missing?, Slot.relocateAll_eq, Option.map_eq_none_iff, List.find?_eq_none]
  rw [Slot.Fill] at h
  generalize f.params = params at h
  induction h with
  | nil =>
      intro x hx
      cases hx
  | @cons p s params slots hp _ ih =>
      rw [List.map_cons, List.zip_cons_cons, List.forall_mem_cons]
      refine ⟨?_, ih⟩
      cases hrequired : p.required with
      | false => simp [hrequired]
      | true => simp [hp hrequired]

/-- Arguments that a call can be read with: one tree for each that is given,
    which fill the slots from the first on. -/
structure ReadsSlots (f : Builtin) (params : List Param) (args : List (List Lexeme))
    (slots : List Slot) (trees : List Tree) : Prop where
  derives : List.Forall₂ (fun xs t => Derives .param (placed xs) [t]) args trees
  named : ∀ t ∈ trees, t.rule = .namedParam
  lowers : ∀ (front : List Param) (done : List Slot), f.params = front ++ params →
    done.length = front.length →
    Tree.lowerNamed f 0 (done ++ List.replicate params.length .absent) trees
      = .ok (done ++ Slot.relocateAll home slots)

/-- A call is read back from its parameters, all of them named. -/
theorem reads_call {f : Builtin} {args : List (List Lexeme)} {slots : List Slot}
    {trees : List Tree} (h : ReadsSlots f f.params args slots trees) (hfill : Slot.Fill f slots)
    (l : Location) :
    Reads .atom (.identifier f.name :: .symbol .openParen
      :: [.symbol .comma].intercalate args ++ [.symbol .closeParen]) (.call l f slots) := by
  have hname : IsName ⟨.identifier f.name, .start⟩ := ⟨f.name, rfl⟩
  have hderives := Derives.call hname (isSymbol_placed .openParen) (derives_arguments h.derives)
    (isSymbol_placed .closeParen)
  rw [← placed_singleton, ← placed_cons, ← placed_cons, ← placed_append] at hderives
  refine ⟨_, hderives, ?_⟩
  have hlower := h.lowers [] [] rfl rfl
  rw [List.nil_append, List.nil_append] at hlower
  have hfunction : Builtin.ofName? (Lexeme.identifier f.name).text = some f := f.ofName?_name
  rw [Tree.node, Tree.node, Tree.leaf, Tree.lowerExpr]
  dsimp only
  rw [hfunction]
  dsimp only
  rw [Tree.lowerPositional_named h.named]
  refine bind_eq_ok.mpr ⟨[], rfl, bind_eq_ok.mpr ⟨_, hlower, ?_⟩⟩
  rw [Tree.missing?_relocateAll hfill]
  rfl

end Calls

/-! ## Programs -/

section Programs

variable (spell : Location → Quantity → Literal)

mutual

/-- **Expressions are read back from their lexemes**, as tightly as they
    bind. -/
theorem Expr.readsAt (e : Expr) (h : e.Printable spell) :
    ReadsAt e.binding (e.lexemes spell) e := by
  match e with
  | .number l q => exact reads_number h
  | .string l text => exact reads_string l text
  | .identifier l name => exact reads_identifier l name
  | .binary l op lhs rhs =>
      have hleft : op.left ≤ 6 := by cases op <;> decide
      have hright : op.right ≤ 6 := by cases op <;> decide
      exact ((lhs.readsAt h.1).enclosed hleft).binary ((rhs.readsAt h.2).enclosed hright) l
  | .unary l .negate operand => exact ((operand.readsAt h).enclosed (by decide)).negation l
  | .unary l .factorial operand => exact ((operand.readsAt h).enclosed (by decide)).factorial l
  | .assign l name value =>
      have hvalue : Reads .expr (value.lexemes spell) value :=
        (value.readsAt h.2).of_le (Nat.zero_le _)
      exact hvalue.assign l name
  | .call l f slots =>
      obtain ⟨trees, hslots⟩ := Slot.exists_readsSlots f f.params slots h.1.length_eq h.2
      exact reads_call hslots h.1 l

/-- The slots of a call are read back from its named parameters. -/
theorem Slot.exists_readsSlots (f : Builtin) (params : List Param) (slots : List Slot)
    (hlength : params.length = slots.length) (h : Slot.AllPrintable spell slots) :
    ∃ trees, ReadsSlots f params (Slot.lexemes spell params slots) slots trees := by
  match params, slots with
  | p :: params, .absent :: slots =>
      obtain ⟨trees, hderives, hnamed, hlowers⟩ :=
        Slot.exists_readsSlots f params slots (Nat.succ.inj hlength) h.2
      refine ⟨trees, hderives, hnamed, ?_⟩
      intro front done hparams hdone
      have hrest := hlowers (front ++ [p]) (done ++ [.absent]) (by simp [hparams]) (by simp [hdone])
      simpa [List.replicate_succ, Slot.relocateAll, Slot.relocate] using hrest
  | p :: params, .given l value :: slots =>
      obtain ⟨t, ht, hvalue⟩ : Reads .expr (value.lexemes spell) value :=
        (value.readsAt h.1).of_le (Nat.zero_le _)
      obtain ⟨trees, hderives, hnamed, hlowers⟩ :=
        Slot.exists_readsSlots f params slots (Nat.succ.inj hlength) h.2
      have hname : IsName ⟨.identifier p.name, .start⟩ := ⟨p.name, rfl⟩
      have hparam := Derives.namedParam hname (isSymbol_placed .assign) ht
      refine ⟨_ :: trees, .cons hparam hderives, List.forall_mem_cons.mpr ⟨rfl, hnamed⟩, ?_⟩
      intro front done hparams hdone
      have hrest := hlowers (front ++ [p]) (done ++ [.given .start (value.relocate home)])
        (by simp [hparams]) (by simp [hdone])
      rw [Tree.lowerNamed_cons hparams hdone hvalue, hrest]
      simp [Slot.relocateAll, Slot.relocate, home]
  | [], [] =>
      refine ⟨[], .nil, fun t ht => absurd ht List.not_mem_nil, ?_⟩
      intro front done hparams hdone
      rw [Tree.lowerNamed]
      simp [Slot.relocateAll]

end

/-- No expression is written as nothing. -/
theorem Expr.lexemes_ne_nil (e : Expr) : e.lexemes spell ≠ [] := by
  cases e with
  | unary l op operand => cases op <;> simp [lexemes]
  | _ => simp [lexemes]

/-- Trees for statements, which may stand after any others. -/
def ReadsStatements (body : List Stmt) (trees : List Tree) : Prop :=
  (∀ {ts done}, Derives .statements ts done →
      Derives .statements (ts ++ placed (Stmt.lexemesAll spell body)) (done ++ trees))
    ∧ Tree.lowerStmts trees = .ok (Stmt.relocateAll home body)

/-- Statements in braces. -/
theorem ReadsStatements.block {body : List Stmt} {trees : List Tree}
    (h : ReadsStatements spell body trees) :
    Derives .block
      (placed (.symbol .openBrace :: Stmt.lexemesAll spell body ++ [.symbol .closeBrace]))
      [.node .block .start trees] := by
  rw [placed_append, placed_cons]
  exact .block rfl (h.1 .noStatement) rfl

mutual

/-- Statements are read back from their lexemes. -/
theorem Stmt.reads (s : Stmt) (h : s.Printable spell) :
    ∃ t, Derives .statement (placed (s.lexemes spell)) [t]
      ∧ t.lowerStmt = .ok (s.relocate home) := by
  match s with
  | .expr e =>
      obtain ⟨t, ht, hlower⟩ : Reads .expr (e.lexemes spell) e :=
        (e.readsAt spell h).of_le (Nat.zero_le _)
      have hne := e.lexemes_ne_nil spell
      rw [Stmt.lexemes]
      cases hxs : e.lexemes spell with
      | nil => exact absurd hxs hne
      | cons x xs =>
          rw [hxs, placed_cons] at ht
          have hderives := Derives.exprStatement ht (isSymbol_placed .semicolon)
          rw [← placed_singleton, ← placed_cons, ← placed_append] at hderives
          refine ⟨_, hderives, ?_⟩
          rw [Tree.node, Tree.lowerStmt, hlower]
          rfl
  | .block l body =>
      obtain ⟨trees, hbody⟩ := Stmt.readsAll body h
      rw [Stmt.lexemes]
      refine ⟨_, .blockStatement hbody.block, ?_⟩
      rw [Tree.node, Tree.lowerStmt, hbody.2]
      rfl
  | .forLoop l item source opened body =>
      obtain ⟨t, ht, hlower⟩ : Reads .expr (source.lexemes spell) source :=
        (source.readsAt spell h.2.1).of_le (Nat.zero_le _)
      obtain ⟨trees, hbody⟩ := Stmt.readsAll body h.2.2
      have hkeyword : (Token.mk .forKeyword .start).lexeme = .forKeyword := rfl
      have hname : IsName ⟨.identifier item, .start⟩ := ⟨item, rfl⟩
      have hin : (Token.mk .inKeyword .start).lexeme = .inKeyword := rfl
      have hderives := Derives.loop hkeyword hname hin ht hbody.block
      rw [← placed_cons, ← placed_cons, ← placed_cons, ← placed_append] at hderives
      rw [Stmt.lexemes]
      refine ⟨_, .loopStatement hderives, ?_⟩
      rw [Tree.node, Tree.node, Tree.lowerStmt, hlower]
      refine bind_eq_ok.mpr ⟨_, rfl, ?_⟩
      rw [if_pos rfl, hbody.2]
      rfl

theorem Stmt.readsAll (body : List Stmt) (h : Stmt.AllPrintable spell body) :
    ∃ trees, ReadsStatements spell body trees := by
  match body with
  | [] =>
      refine ⟨[], ?_, rfl⟩
      intro ts done hdone
      simpa [Stmt.lexemesAll, placed] using hdone
  | s :: rest =>
      obtain ⟨t, ht, hlower⟩ := s.reads h.1
      obtain ⟨trees, hderives, hrest⟩ := Stmt.readsAll rest h.2
      refine ⟨t :: trees, ?_, ?_⟩
      · intro ts done hdone
        have hmore := hderives (.moreStatements hdone ht)
        simpa [Stmt.lexemesAll] using hmore
      · rw [Tree.lowerStmts, hlower, hrest]
        rfl

end

theorem start_placed (xs : List Lexeme) : (TokenStream.mk (placed xs) .start).start = .start := by
  cases xs <;> rfl

/-- The lexemes of a program, all at one place, are parsed and lowered to the
    program at that place. -/
theorem Program.ofTokens_placed {p : Program} (h : p.Printable spell) :
    ∃ t, Tree.ofTokens ⟨placed (Stmt.lexemesAll spell p.statements), .start⟩ = .ok t
      ∧ t.toProgram = .ok (p.relocate home) := by
  obtain ⟨trees, hderives, hlower⟩ := Stmt.readsAll spell p.statements h
  have hprogram : DerivesProgram ⟨placed (Stmt.lexemesAll spell p.statements), .start⟩ _ :=
    ⟨trees, hderives .noStatement, rfl⟩
  refine ⟨_, ofTokens_of_derivesProgram hprogram, ?_⟩
  rw [start_placed]
  show (Tree.lowerStmts trees >>= fun body => .ok (Program.mk .start body)) = _
  rw [hlower]
  rfl

/-- Whatever the layout, tokens with the lexemes of a program are parsed and
    lowered to that program. -/
theorem Program.exists_of_lexemes {p : Program} (h : p.Printable spell) {s : TokenStream}
    (hs : s.tokens.map Token.lexeme = Stmt.lexemesAll spell p.statements) :
    ∃ t q, Tree.ofTokens s = .ok t ∧ t.toProgram = .ok q ∧ q.SameButPlaces p := by
  obtain ⟨t, ht, hlower⟩ := Program.ofTokens_placed spell h
  have hplaced : s.relocate home = ⟨placed (Stmt.lexemesAll spell p.statements), .start⟩ := by
    rw [← hs, placed, List.map_map]
    rfl
  -- parsing and lowering commute with the relocation
  rw [← hplaced, Tree.ofTokens_relocate] at ht
  cases hparsed : Tree.ofTokens s with
  | error e =>
      rw [hparsed] at ht
      cases ht
  | ok u =>
      rw [hparsed] at ht
      injection ht with ht
      rw [← ht, Tree.toProgram_relocate] at hlower
      cases hq : u.toProgram with
      | error e =>
          rw [hq] at hlower
          cases hlower
      | ok q =>
          rw [hq] at hlower
          injection hlower with hsame
          exact ⟨u, q, rfl, hq, hsame⟩

/-- **Parsing undoes printing.**  The text of a program, with only the
    parentheses that the operators require, is parsed, and its tree is lowered
    to the program, up to places. -/
theorem Program.parse_print {spell : Location → Quantity → Literal} {p : Program}
    (h : p.Printable spell) :
    ∃ t q, Tree.ofSource (p.text spell) = .ok t ∧ t.toProgram = .ok q ∧ q.SameButPlaces p := by
  obtain ⟨s, hscan, hlexemes⟩ := Program.scan_text spell h
  obtain ⟨t, q, hparsed, hlowered, hsame⟩ := Program.exists_of_lexemes spell h hlexemes
  refine ⟨t, q, ?_, hlowered, hsame⟩
  rw [Tree.ofSource, hscan]
  exact hparsed

end Programs

/-- Twos in the first line, and halves in the others. -/
def twosAndHalves (l : Location) (_ : Quantity) : Literal :=
  if l.line = 1 then .integer ['2'] (by decide)
  else .decimal ['0'] ['5', '0'] (by decide) (by decide)

/-- Signs and factorials under powers and over them, a difference on the right
    of a difference, an assignment in it, and a loop with calls. -/
def nestedSigns : Program where
  location := .unknown
  statements :=
    [.expr (.binary .unknown .power (.unary .unknown .negate two)
        (.unary .unknown .negate (.unary .unknown .factorial (.unary .unknown .factorial x)))),
      .expr (.unary .unknown .factorial
        (.unary .unknown .negate (.binary .unknown .power x two))),
      .expr (.binary .unknown .subtract (.binary .unknown .subtract two x)
        (.binary .unknown .subtract (.assign .unknown "x" half) two)),
      .forLoop .unknown "i" (.call .unknown .linspace [given two, given two, given two]) .unknown
        [.block .unknown
          [.expr (.call .unknown .drill [given half, given half, given half, .absent])],
          .expr (.call .unknown .comment [given (.string .unknown "it's")])]]
where
  two : Expr := .number ⟨1, 1⟩ ⟨2, none⟩
  half : Expr := .number ⟨2, 1⟩ ⟨0.5, some .inch⟩
  x : Expr := .identifier .unknown "x"
  given (value : Expr) : Slot := .given .unknown value

theorem Program.parse_print_nestedSigns :
    nestedSigns.Printable twosAndHalves
      ∧ nestedSigns.text twosAndHalves
        = "( - 2 ) ^ - x ! ! ; ( - x ^ 2 ) ! ; 2 - x - ( ( x = 0.50in ) - 2 ) ; "
          ++ "for i in linspace ( start = 2 , stop = 2 , count = 2 ) \x7b "
          ++ "\x7b drill ( x = 0.50in , y = 0.50in , depth = 0.50in ) ; \x7d "
          ++ "comment ( text = 'it''s' ) ; \x7d"
      ∧ ∃ t q, Tree.ofSource (nestedSigns.text twosAndHalves) = .ok t ∧ t.toProgram = .ok q
        ∧ q.SameButPlaces nestedSigns := by
  have htwo : Expr.Printable twosAndHalves nestedSigns.two :=
    ⟨by decide +kernel, by decide +kernel⟩
  have hhalf : Expr.Printable twosAndHalves nestedSigns.half :=
    ⟨by decide +kernel, by decide +kernel⟩
  have hname : IsIdentifier "x" := by decide
  have hx : Expr.Printable twosAndHalves nestedSigns.x := hname
  have hitem : IsIdentifier "i" := by decide
  have hprintable : nestedSigns.Printable twosAndHalves := by
    simp [Program.Printable, nestedSigns, nestedSigns.given, Stmt.AllPrintable, Stmt.Printable,
      Expr.Printable, Slot.AllPrintable, Slot.Printable, Slot.Fill, Builtin.params, Param.need,
      Param.may, Slot.isGiven, htwo, hhalf, hname, hx, hitem]
  exact ⟨hprintable, by decide +kernel, parse_print hprintable⟩

end MillScript
