import MillScript.Program.Lower
import MillScript.Proofs.Relocation.Parsing

/-! # Places have no part in lowering

    Programs are relocated like trees.  To make a program of a tree is to
    copy its places and to look at everything else, so it may be done before
    or after a relocation. -/

namespace MillScript

variable (f : Location → Location)

/-! ## Relocation -/

mutual

/-- An expression at other places, with all that is in it. -/
def Expr.relocate : Expr → Expr
  | .number l q => .number (f l) q
  | .string l text => .string (f l) text
  | .identifier l name => .identifier (f l) name
  | .binary l op lhs rhs => .binary (f l) op lhs.relocate rhs.relocate
  | .unary l op operand => .unary (f l) op operand.relocate
  | .assign l name value => .assign (f l) name value.relocate
  | .call l function slots => .call (f l) function (Slot.relocateAll slots)

/-- A slot of a call, with the value that was given for it. -/
def Slot.relocate : Slot → Slot
  | .absent => .absent
  | .given l value => .given (f l) value.relocate

/-- All slots of a call. -/
def Slot.relocateAll : List Slot → List Slot
  | [] => []
  | s :: rest => s.relocate :: Slot.relocateAll rest

end

mutual

/-- A statement at other places, with the body of a loop or block. -/
def Stmt.relocate : Stmt → Stmt
  | .expr e => .expr (e.relocate f)
  | .block l body => .block (f l) (Stmt.relocateAll body)
  | .forLoop l item source opened body =>
    .forLoop (f l) item (source.relocate f) (f opened) (Stmt.relocateAll body)

/-- All statements of a body. -/
def Stmt.relocateAll : List Stmt → List Stmt
  | [] => []
  | s :: rest => s.relocate :: Stmt.relocateAll rest

end

/-- A program at other places. -/
def Program.relocate (p : Program) : Program := ⟨f p.location, Stmt.relocateAll f p.statements⟩

theorem Slot.relocateAll_eq (slots : List Slot) :
    Slot.relocateAll f slots = slots.map (Slot.relocate f) := by
  induction slots with
  | nil => rw [relocateAll, List.map_nil]
  | cons s rest ih => rw [relocateAll, List.map_cons, ih]

@[simp] theorem Slot.isGiven_relocate (s : Slot) : (s.relocate f).isGiven = s.isGiven := by
  cases s <;> simp [relocate, isGiven]

/-! ## Outcomes -/

section Relocated

variable {α β α' β' : Type} {move : α → α'} {move' : β → β'}

/-- What goes on after a relocated outcome. -/
theorem relocated_bind {x : Except Error α} {k : α → Except Error β} {k' : α' → Except Error β'}
    (h : ∀ a, k' (move a) = relocated f move' (k a)) :
    (relocated f move x >>= k') = relocated f move' (x >>= k) := by
  cases x with
  | error e => rfl
  | ok a => exact h a

end Relocated

namespace Tree

/-! ## Expressions -/

/-- A number is read off the text of its leaf. -/
theorem lowerNumber_relocate (t : Tree) :
    (t.relocate f).lowerNumber = relocated f (Expr.relocate f) t.lowerNumber := by
  obtain ⟨rule, text, unit, loc, children⟩ := t
  rw [relocate_mk, lowerNumber, lowerNumber]
  dsimp only
  split
  · rfl
  · split
    · split
      · rfl
      · rfl
    · rfl

theorem lowerOperator_relocate (t : Tree) :
    (t.relocate f).lowerOperator = relocated f id t.lowerOperator := by
  obtain ⟨rule, text, unit, loc, children⟩ := t
  rw [relocate_mk, lowerOperator, lowerOperator]
  dsimp only
  split
  · rfl
  · rfl

/-- Slots by position are filled up with empty ones, which have no place. -/
theorem positionalSlots_relocate (g : Builtin) (given : List Slot) :
    positionalSlots g (given.map (Slot.relocate f))
      = (positionalSlots g given).map (Slot.relocate f) := by
  rw [positionalSlots, positionalSlots, List.map_append, List.map_replicate, List.length_map,
    Slot.relocate]

/-- What a call lacks does not hang on where the rest stands. -/
theorem missing?_relocate (g : Builtin) (slots : List Slot) :
    missing? g (slots.map (Slot.relocate f)) = missing? g slots := by
  rw [missing?, missing?]
  generalize g.params = params
  induction params generalizing slots with
  | nil => rfl
  | cons p params ih =>
      cases slots with
      | nil => rfl
      | cons s slots =>
          simp only [List.map_cons, List.zip_cons_cons, List.find?_cons, Slot.isGiven_relocate]
          cases p.required && !s.isGiven with
          | true => rfl
          | false => exact ih slots

theorem isGiven_getD_relocate (slots : List Slot) (k : Nat) :
    ((slots.map (Slot.relocate f)).getD k .absent).isGiven = (slots.getD k .absent).isGiven := by
  rw [List.getD_eq_getElem?_getD, List.getD_eq_getElem?_getD, List.getElem?_map]
  cases slots[k]? with
  | none => rfl
  | some s => exact Slot.isGiven_relocate f s

theorem isChain_relocate (rest : List Tree) : isChain (rest.map (relocate f)) = isChain rest := by
  simp [isChain]

mutual

/-- **Expressions can be lowered before or after the relocation.** -/
theorem lowerExpr_relocate (t : Tree) :
    (t.relocate f).lowerExpr = relocated f (Expr.relocate f) t.lowerExpr := by
  match t with
  | ⟨rule, text, unit, loc, children⟩ =>
    rw [relocate_mk]
    cases rule with
    | string => rfl
    | identifier => rfl
    | unitlessNumber =>
        have hnumber := lowerNumber_relocate f ⟨.unitlessNumber, text, unit, loc, children⟩
        rw [relocate_mk] at hnumber
        exact hnumber
    | unitNumber =>
        have hnumber := lowerNumber_relocate f ⟨.unitNumber, text, unit, loc, children⟩
        rw [relocate_mk] at hnumber
        exact hnumber
    | assign =>
        rcases children with _ | ⟨name, _ | ⟨value, _ | ⟨more, rest⟩⟩⟩
        · rfl
        · rfl
        · simp only [List.map_cons, List.map_nil, lowerExpr, lowerExpr_relocate value,
            text_relocate]
          exact relocated_bind f fun _ => rfl
        · rfl
    | sum =>
        rcases children with _ | ⟨first, rest⟩
        · rfl
        · simp only [List.map_cons, lowerExpr, isChain_relocate, lowerExpr_relocate first]
          split
          · exact relocated_bind f fun lhs => lowerChain_relocate lhs rest
          · rfl
    | product =>
        rcases children with _ | ⟨first, rest⟩
        · rfl
        · simp only [List.map_cons, lowerExpr, isChain_relocate, lowerExpr_relocate first]
          split
          · exact relocated_bind f fun lhs => lowerChain_relocate lhs rest
          · rfl
    | power =>
        rcases children with _ | ⟨base, _ | ⟨op, _ | ⟨exponent, _ | ⟨more, rest⟩⟩⟩⟩
        · rfl
        · rfl
        · rfl
        · simp only [List.map_cons, List.map_nil, lowerExpr, lowerExpr_relocate base,
            lowerExpr_relocate exponent, location_relocate]
          exact relocated_bind f fun _ => relocated_bind f fun _ => rfl
        · rfl
    | negation =>
        rcases children with _ | ⟨sign, _ | ⟨operand, _ | ⟨more, rest⟩⟩⟩
        · rfl
        · rfl
        · simp only [List.map_cons, List.map_nil, lowerExpr, lowerExpr_relocate operand]
          exact relocated_bind f fun _ => rfl
        · rfl
    | factorial =>
        rcases children with _ | ⟨operand, _ | ⟨op, _ | ⟨more, rest⟩⟩⟩
        · rfl
        · rfl
        · simp only [List.map_cons, List.map_nil, lowerExpr, lowerExpr_relocate operand,
            location_relocate]
          exact relocated_bind f fun _ => rfl
        · rfl
    | call =>
        rcases children with _ | ⟨name,
          _ | ⟨⟨rule', text', unit', opened, params⟩, _ | ⟨more, rest⟩⟩⟩
        · rfl
        · rfl
        · simp only [List.map_cons, List.map_nil, relocate_mk, lowerExpr, text_relocate,
            location_relocate]
          cases Builtin.ofName? name.text with
          | none => rfl
          | some g =>
              have hgiven := lowerPositional_relocate g [] params
              rw [List.map_nil] at hgiven
              dsimp only
              rw [hgiven]
              refine relocated_bind f fun given => ?_
              rw [List.length_map, positionalSlots_relocate, lowerNamed_relocate]
              refine relocated_bind f fun slots => ?_
              rw [missing?_relocate]
              cases missing? g slots with
              | some param => rfl
              | none =>
                  rw [← Slot.relocateAll_eq]
                  rfl
        · rfl
    | program => rfl
    | forLoop => rfl
    | block => rfl
    | statement => rfl
    | params => rfl
    | positionalParam => rfl
    | namedParam => rfl
    | operator => rfl
termination_by sizeOf t

/-- A chain is lowered from the left, each operator at its own place. -/
theorem lowerChain_relocate (lhs : Expr) (ts : List Tree) :
    lowerChain (lhs.relocate f) (ts.map (relocate f))
      = relocated f (Expr.relocate f) (lowerChain lhs ts) := by
  match ts with
  | [] => rfl
  | [op] => rfl
  | op :: operand :: rest =>
    simp only [List.map_cons, lowerChain, lowerExpr_relocate operand, lowerOperator_relocate,
      location_relocate]
    refine relocated_bind f fun rhs => relocated_bind f fun operator => ?_
    exact lowerChain_relocate (.binary op.location operator lhs rhs) rest
termination_by sizeOf ts

/-- Parameters by position, up to the first one with a name. -/
theorem lowerPositional_relocate (g : Builtin) (given : List Slot) (ts : List Tree) :
    lowerPositional g (given.map (Slot.relocate f)) (ts.map (relocate f))
      = relocated f (List.map (Slot.relocate f)) (lowerPositional g given ts) := by
  match ts with
  | [] => rfl
  | ⟨rule, text, unit, loc, children⟩ :: params =>
    have hrest := lowerPositional_relocate g given params
    rw [List.map_cons, relocate_mk]
    cases rule with
    | positionalParam =>
        rcases children with _ | ⟨value, _ | ⟨more, rest⟩⟩
        · rfl
        · simp only [List.map_cons, List.map_nil, lowerPositional, List.length_map,
            lowerExpr_relocate value]
          split
          · rfl
          · refine relocated_bind f fun e => ?_
            have hnext := lowerPositional_relocate g (given ++ [.given loc e]) params
            rw [List.map_append] at hnext
            exact hnext
        · rfl
    | _ => exact hrest
termination_by sizeOf ts

/-- Parameters by name: unknown, repeated and misplaced ones are found by their
    names. -/
theorem lowerNamed_relocate (g : Builtin) (positional : Nat) (slots : List Slot)
    (ts : List Tree) :
    lowerNamed g positional (slots.map (Slot.relocate f)) (ts.map (relocate f))
      = relocated f (List.map (Slot.relocate f)) (lowerNamed g positional slots ts) := by
  match ts with
  | [] => rfl
  | ⟨rule, text, unit, loc, children⟩ :: params =>
    have hrest := lowerNamed_relocate g positional slots params
    rw [List.map_cons, relocate_mk]
    cases rule with
    | positionalParam => exact hrest
    | namedParam =>
        rcases children with _ | ⟨name, _ | ⟨value, _ | ⟨more, rest⟩⟩⟩
        · rfl
        · rfl
        · simp only [List.map_cons, List.map_nil, lowerNamed, text_relocate,
            lowerExpr_relocate value]
          cases g.slot? name.text with
          | none => rfl
          | some k =>
              dsimp only
              rw [isGiven_getD_relocate]
              split
              · rfl
              · refine relocated_bind f fun e => ?_
                have hnext := lowerNamed_relocate g positional (slots.set k (.given loc e)) params
                rw [List.map_set] at hnext
                exact hnext
        · rfl
    | _ => rfl
termination_by sizeOf ts

end

/-! ## Statements -/

mutual

/-- **Statements can be lowered before or after the relocation.** -/
theorem lowerStmt_relocate (t : Tree) :
    (t.relocate f).lowerStmt = relocated f (Stmt.relocate f) t.lowerStmt := by
  match t with
  | ⟨rule, text, unit, loc, children⟩ =>
    rw [relocate_mk]
    cases rule with
    | statement =>
        rcases children with _ | ⟨value, _ | ⟨more, rest⟩⟩
        · rfl
        · simp only [List.map_cons, List.map_nil, lowerStmt, lowerExpr_relocate]
          exact relocated_bind f fun _ => rfl
        · rfl
    | block =>
        simp only [lowerStmt, lowerStmts_relocate children]
        exact relocated_bind f fun _ => rfl
    | forLoop =>
        rcases children with _ | ⟨item, _ | ⟨source,
          _ | ⟨⟨bodyRule, bodyText, bodyUnit, opened, body⟩, _ | ⟨more, rest⟩⟩⟩⟩
        · rfl
        · rfl
        · rfl
        · simp only [List.map_cons, List.map_nil, relocate_mk, lowerStmt, lowerExpr_relocate,
            text_relocate, lowerStmts_relocate body]
          refine relocated_bind f fun e => ?_
          split
          · exact relocated_bind f fun _ => rfl
          · rfl
        · rfl
    | _ => rfl
termination_by sizeOf t

theorem lowerStmts_relocate (ts : List Tree) :
    lowerStmts (ts.map (relocate f)) = relocated f (Stmt.relocateAll f) (lowerStmts ts) := by
  match ts with
  | [] => rfl
  | t :: rest =>
    simp only [List.map_cons, lowerStmts, lowerStmt_relocate t, lowerStmts_relocate rest]
    exact relocated_bind f fun _ => relocated_bind f fun _ => rfl
termination_by sizeOf ts

end

/-- **Lowering may be done before or after the relocation.** -/
theorem toProgram_relocate (t : Tree) :
    (t.relocate f).toProgram = relocated f (Program.relocate f) t.toProgram := by
  obtain ⟨rule, text, unit, loc, children⟩ := t
  rw [toProgram, toProgram, relocate_mk]
  dsimp only
  split
  · rw [lowerStmts_relocate]
    exact relocated_bind f fun _ => rfl
  · rfl

end Tree

end MillScript
