import MillScript.Program.Lower
import MillScript.Proofs.Outcome

/-! # The numbers in a program

    A number that is written in a script is refused unless it is real, so
    all literals of a program that is made from a tree are real. -/

namespace MillScript

mutual

/-- All numbers written in an expression are real. -/
def Expr.LiteralsReal : Expr → Prop
  | .number _ q => q.value.isFinite = true
  | .string _ _ => True
  | .identifier _ _ => True
  | .binary _ _ lhs rhs => lhs.LiteralsReal ∧ rhs.LiteralsReal
  | .unary _ _ operand => operand.LiteralsReal
  | .assign _ _ value => value.LiteralsReal
  | .call _ _ slots => Slot.AllLiteralsReal slots

/-- All numbers in a slot are real. -/
def Slot.LiteralsReal : Slot → Prop
  | .absent => True
  | .given _ value => value.LiteralsReal

/-- All numbers in the slots of a call are real. -/
def Slot.AllLiteralsReal : List Slot → Prop
  | [] => True
  | s :: slots => s.LiteralsReal ∧ Slot.AllLiteralsReal slots

end

mutual

/-- All numbers written in a statement are real. -/
def Stmt.LiteralsReal : Stmt → Prop
  | .expr e => e.LiteralsReal
  | .block _ body => Stmt.AllLiteralsReal body
  | .forLoop _ _ source _ body => source.LiteralsReal ∧ Stmt.AllLiteralsReal body

/-- All numbers in a body are real. -/
def Stmt.AllLiteralsReal : List Stmt → Prop
  | [] => True
  | s :: rest => s.LiteralsReal ∧ Stmt.AllLiteralsReal rest

end

theorem Slot.allLiteralsReal_nil : AllLiteralsReal [] := by
  rw [AllLiteralsReal]
  trivial

/-- Slots one by one. -/
theorem Slot.allLiteralsReal_iff {slots : List Slot} :
    AllLiteralsReal slots ↔ ∀ s ∈ slots, s.LiteralsReal := by
  induction slots with
  | nil => exact iff_of_true allLiteralsReal_nil fun _ hs => absurd hs List.not_mem_nil
  | cons s rest ih => rw [AllLiteralsReal, ih, List.forall_mem_cons]

namespace Tree

/-- A number out of range is refused when it is lowered. -/
theorem literalsReal_lowerNumber {t : Tree} {e : Expr} (h : t.lowerNumber = .ok e) :
    e.LiteralsReal := by
  rw [lowerNumber] at h
  split at h
  · cases h
  · rename_i hfinite
    have hreal : (Decimal.ofPrefix t.text).isFinite = true := by simpa using hfinite
    split at h
    · split at h
      · rw [← Except.ok.inj h, Expr.LiteralsReal]
        exact hreal
      · cases h
    · rw [← Except.ok.inj h, Expr.LiteralsReal]
      exact hreal

theorem allLiteralsReal_positionalSlots {f : Builtin} {given : List Slot}
    (h : Slot.AllLiteralsReal given) : Slot.AllLiteralsReal (positionalSlots f given) := by
  rw [Slot.allLiteralsReal_iff] at h ⊢
  intro s hs
  rcases List.mem_append.mp hs with hgiven | habsent
  · exact h s hgiven
  · rw [List.eq_of_mem_replicate habsent, Slot.LiteralsReal]
    trivial

mutual

/-- **Expressions that are lowered have real numbers.** -/
theorem literalsReal_lowerExpr (t : Tree) {e : Expr} (h : t.lowerExpr = .ok e) :
    e.LiteralsReal := by
  match t with
  | ⟨rule, text, unit, loc, children⟩ =>
    rw [lowerExpr.eq_def] at h
    dsimp only at h
    split at h
    · -- a string
      rw [← Except.ok.inj h, Expr.LiteralsReal]
      trivial
    · -- a name
      rw [← Except.ok.inj h, Expr.LiteralsReal]
      trivial
    · exact literalsReal_lowerNumber h
    · exact literalsReal_lowerNumber h
    · -- an assignment
      rename_i name value
      obtain ⟨v, hv, h⟩ := bind_eq_ok.mp h
      rw [← Except.ok.inj h, Expr.LiteralsReal]
      exact literalsReal_lowerExpr value hv
    · -- a sum
      rename_i first rest
      split at h
      · obtain ⟨lhs, hlhs, h⟩ := bind_eq_ok.mp h
        exact literalsReal_lowerChain rest (literalsReal_lowerExpr first hlhs) h
      · cases h
    · -- a product
      rename_i first rest
      split at h
      · obtain ⟨lhs, hlhs, h⟩ := bind_eq_ok.mp h
        exact literalsReal_lowerChain rest (literalsReal_lowerExpr first hlhs) h
      · cases h
    · -- a power
      rename_i base op exponent
      obtain ⟨lhs, hlhs, h⟩ := bind_eq_ok.mp h
      obtain ⟨rhs, hrhs, h⟩ := bind_eq_ok.mp h
      rw [← Except.ok.inj h, Expr.LiteralsReal]
      exact ⟨literalsReal_lowerExpr base hlhs, literalsReal_lowerExpr exponent hrhs⟩
    · -- a negation
      rename_i sign operand
      obtain ⟨v, hv, h⟩ := bind_eq_ok.mp h
      rw [← Except.ok.inj h, Expr.LiteralsReal]
      exact literalsReal_lowerExpr operand hv
    · -- a factorial
      rename_i operand op
      obtain ⟨v, hv, h⟩ := bind_eq_ok.mp h
      rw [← Except.ok.inj h, Expr.LiteralsReal]
      exact literalsReal_lowerExpr operand hv
    · -- a call
      rename_i name rule' text' unit' loc' params
      split at h
      · cases h
      · rename_i f hf
        obtain ⟨given, hgiven, h⟩ := bind_eq_ok.mp h
        obtain ⟨slots, hslots, h⟩ := bind_eq_ok.mp h
        -- named arguments are put into the slots that positional ones leave
        have hpositional := literalsReal_lowerPositional params Slot.allLiteralsReal_nil hgiven
        have hall := literalsReal_lowerNamed params
          (allLiteralsReal_positionalSlots hpositional) hslots
        split at h
        · cases h
        · rw [← Except.ok.inj h, Expr.LiteralsReal]
          exact hall
    · cases h
termination_by sizeOf t
decreasing_by
  all_goals
    subst_vars
    simp only [Tree.mk.sizeOf_spec, List.cons.sizeOf_spec]
    omega

theorem literalsReal_lowerChain (ts : List Tree) {lhs e : Expr} (hlhs : lhs.LiteralsReal)
    (h : lowerChain lhs ts = .ok e) : e.LiteralsReal := by
  match ts with
  | op :: operand :: rest =>
    rw [lowerChain] at h
    obtain ⟨rhs, hrhs, h⟩ := bind_eq_ok.mp h
    obtain ⟨operator, -, h⟩ := bind_eq_ok.mp h
    refine literalsReal_lowerChain rest ?_ h
    rw [Expr.LiteralsReal]
    exact ⟨hlhs, literalsReal_lowerExpr operand hrhs⟩
  | [] =>
    rw [lowerChain] at h
    · rw [← Except.ok.inj h]
      exact hlhs
    · simp
  | [op] =>
    rw [lowerChain] at h
    · rw [← Except.ok.inj h]
      exact hlhs
    · simp
termination_by sizeOf ts

/-- Parameters by position bring only real numbers. -/
theorem literalsReal_lowerPositional (ts : List Tree) {f : Builtin} {given slots : List Slot}
    (hgiven : Slot.AllLiteralsReal given) (h : lowerPositional f given ts = .ok slots) :
    Slot.AllLiteralsReal slots := by
  match ts with
  | [] =>
    rw [lowerPositional] at h
    rw [← Except.ok.inj h]
    exact hgiven
  | ⟨rule, text, unit, loc, children⟩ :: params =>
    rw [lowerPositional.eq_def] at h
    dsimp only at h
    split at h
    · rename_i value
      split at h
      · cases h
      · obtain ⟨e, he, h⟩ := bind_eq_ok.mp h
        refine literalsReal_lowerPositional params ?_ h
        rw [Slot.allLiteralsReal_iff] at hgiven ⊢
        intro s hs
        rcases List.mem_append.mp hs with hold | hnew
        · exact hgiven s hold
        · rw [List.mem_singleton.mp hnew, Slot.LiteralsReal]
          exact literalsReal_lowerExpr value he
    · cases h
    · exact literalsReal_lowerPositional params hgiven h
termination_by sizeOf ts
decreasing_by
  all_goals
    subst_vars
    simp only [Tree.mk.sizeOf_spec, List.cons.sizeOf_spec]
    omega

/-- Parameters by name bring only real numbers, too. -/
theorem literalsReal_lowerNamed (ts : List Tree) {f : Builtin} {positional : Nat}
    {given slots : List Slot} (hgiven : Slot.AllLiteralsReal given)
    (h : lowerNamed f positional given ts = .ok slots) : Slot.AllLiteralsReal slots := by
  match ts with
  | [] =>
    rw [lowerNamed] at h
    rw [← Except.ok.inj h]
    exact hgiven
  | ⟨rule, text, unit, loc, children⟩ :: params =>
    rw [lowerNamed.eq_def] at h
    dsimp only at h
    split at h
    · exact literalsReal_lowerNamed params hgiven h
    · rename_i name value
      split at h
      · cases h
      · split at h
        · cases h
        · obtain ⟨e, he, h⟩ := bind_eq_ok.mp h
          refine literalsReal_lowerNamed params ?_ h
          rw [Slot.allLiteralsReal_iff] at hgiven ⊢
          intro s hs
          -- one slot is replaced
          rcases List.mem_or_eq_of_mem_set hs with hold | rfl
          · exact hgiven s hold
          · rw [Slot.LiteralsReal]
            exact literalsReal_lowerExpr value he
    · cases h
termination_by sizeOf ts
decreasing_by
  all_goals
    subst_vars
    simp only [Tree.mk.sizeOf_spec, List.cons.sizeOf_spec]
    omega

end

mutual

/-- **Statements that are lowered have real numbers.** -/
theorem literalsReal_lowerStmt (t : Tree) {s : Stmt} (h : t.lowerStmt = .ok s) :
    s.LiteralsReal := by
  match t with
  | ⟨rule, text, unit, loc, children⟩ =>
    rw [lowerStmt.eq_def] at h
    dsimp only at h
    split at h
    · obtain ⟨e, he, h⟩ := bind_eq_ok.mp h
      rw [← Except.ok.inj h, Stmt.LiteralsReal]
      exact literalsReal_lowerExpr _ he
    · obtain ⟨body, hbody, h⟩ := bind_eq_ok.mp h
      rw [← Except.ok.inj h, Stmt.LiteralsReal]
      exact literalsReal_lowerStmts _ hbody
    · obtain ⟨e, he, h⟩ := bind_eq_ok.mp h
      split at h
      · obtain ⟨body, hbody, h⟩ := bind_eq_ok.mp h
        rw [← Except.ok.inj h, Stmt.LiteralsReal]
        exact ⟨literalsReal_lowerExpr _ he, literalsReal_lowerStmts _ hbody⟩
      · cases h
    · cases h
termination_by sizeOf t

theorem literalsReal_lowerStmts (ts : List Tree) {body : List Stmt}
    (h : lowerStmts ts = .ok body) : Stmt.AllLiteralsReal body := by
  match ts with
  | [] =>
    rw [lowerStmts] at h
    rw [← Except.ok.inj h, Stmt.AllLiteralsReal]
    trivial
  | t :: rest =>
    rw [lowerStmts] at h
    obtain ⟨s, hs, h⟩ := bind_eq_ok.mp h
    obtain ⟨body', hbody, h⟩ := bind_eq_ok.mp h
    rw [← Except.ok.inj h, Stmt.AllLiteralsReal]
    exact ⟨literalsReal_lowerStmt t hs, literalsReal_lowerStmts rest hbody⟩
termination_by sizeOf ts

end

/-- **The literals of a program are real.** -/
theorem literalsReal_toProgram {t : Tree} {p : Program} (h : t.toProgram = .ok p) :
    Stmt.AllLiteralsReal p.statements := by
  rw [toProgram] at h
  split at h
  · obtain ⟨statements, hstatements, h⟩ := bind_eq_ok.mp h
    rw [← Except.ok.inj h]
    exact literalsReal_lowerStmts t.children hstatements
  · cases h

end Tree

end MillScript
