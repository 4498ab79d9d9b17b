import Mathlib.Data.List.Forall2
import MillScript.Decimal.Read
import MillScript.Program
import MillScript.Proofs.Token.Spelling

/-! # Programs in print

    A program is printed with as few parentheses as the operators allow:

        assignment          to the right
        + -                 to the left
        * /                 to the left
        prefix -
        ^                   to the right, with a sign before the exponent
        postfix !
        numbers, strings, names and calls

    An operand stands in parentheses only if its operator is further up in
    this table than its place admits.  All arguments of a call are named.

    What number a literal stands for does not say how it was written, so a
    printer is told how to spell numbers.  `Program.Printable` says what a
    program needs to have a text at all. -/

namespace MillScript

/-! ## Literals -/

/-- A number as it is written, without a unit. -/
inductive Literal where
  | integer (digits : List Char) (h : IsDigits digits)
  | decimal (whole fraction : List Char) (hwhole : IsDigits whole) (hfraction : IsDigits fraction)

namespace Literal

/-- How a literal is spelled. -/
def text : Literal → String
  | .integer digits _ => String.ofList digits
  | .decimal whole fraction _ _ => String.ofList (whole ++ '.' :: fraction)

/-- The number that a literal stands for. -/
def value (x : Literal) : Float := Decimal.ofPrefix x.text

/-- A literal with its unit. -/
def lexeme (x : Literal) (unit : Option LengthUnit) : Lexeme :=
  match x with
  | .integer _ _ => .integer x.text unit
  | .decimal _ _ _ _ => .decimal x.text unit

/-- A literal is a well-formed lexeme, with or without a unit. -/
theorem wellFormed_lexeme (x : Literal) (unit : Option LengthUnit) :
    (x.lexeme unit).WellFormed := by
  cases x with
  | integer digits h =>
      show IsDigits (String.ofList digits).toList
      rwa [String.toList_ofList]
  | decimal whole fraction hwhole hfraction =>
      exact ⟨whole, fraction, hwhole, hfraction, String.toList_ofList⟩

end Literal

/-! ## How tightly operators bind -/

namespace BinaryOp

/-- The sign of an operator. -/
def sign : BinaryOp → Symbol
  | .add => .plus
  | .subtract => .minus
  | .multiply => .star
  | .divide => .slash
  | .power => .caret

/-- The place of an operator in the table, from assignments at 0 to operands
    at 6. -/
def binding : BinaryOp → Nat
  | .add => 1
  | .subtract => 1
  | .multiply => 2
  | .divide => 2
  | .power => 4

/-- What the left operand has to bind like. -/
def left : BinaryOp → Nat
  | .add => 1
  | .subtract => 1
  | .multiply => 2
  | .divide => 2
  | .power => 5

/-- What the right operand has to bind like. -/
def right : BinaryOp → Nat
  | .add => 2
  | .subtract => 2
  | .multiply => 3
  | .divide => 3
  | .power => 3

end BinaryOp

namespace UnaryOp

/-- The place of an operator in the table, which is also what its operand has
    to bind like: signs and factorials may be repeated. -/
def binding : UnaryOp → Nat
  | .negate => 3
  | .factorial => 5

end UnaryOp

/-- The place of the outermost operator of an expression in the table. -/
def Expr.binding : Expr → Nat
  | .number _ _ => 6
  | .string _ _ => 6
  | .identifier _ _ => 6
  | .binary _ op _ _ => op.binding
  | .unary _ op _ => op.binding
  | .assign _ _ _ => 0
  | .call _ _ _ => 6

/-! ## Lexemes -/

/-- An expression that binds in one way, where one is needed that binds in
    another. -/
def enclosed (need own : Nat) (xs : List Lexeme) : List Lexeme :=
  if own < need then .symbol .openParen :: xs ++ [.symbol .closeParen] else xs

section Lexemes

variable (spell : Location → Quantity → Literal)

mutual

/-- How an expression is written, with parentheses only where they are
    needed. -/
def Expr.lexemes : Expr → List Lexeme
  | .number l q => [(spell l q).lexeme q.unit]
  | .string _ text => [.string text]
  | .identifier _ name => [.identifier name]
  | .binary _ op lhs rhs =>
    enclosed op.left lhs.binding lhs.lexemes
      ++ .symbol op.sign :: enclosed op.right rhs.binding rhs.lexemes
  | .unary _ .negate operand =>
    .symbol .minus :: enclosed UnaryOp.negate.binding operand.binding operand.lexemes
  | .unary _ .factorial operand =>
    enclosed UnaryOp.factorial.binding operand.binding operand.lexemes ++ [.symbol .bang]
  | .assign _ name value => .identifier name :: .symbol .assign :: value.lexemes
  | .call _ f slots =>
    .identifier f.name :: .symbol .openParen
      :: [.symbol .comma].intercalate (Slot.lexemes f.params slots) ++ [.symbol .closeParen]

/-- The arguments that are given, each with its name. -/
def Slot.lexemes : List Param → List Slot → List (List Lexeme)
  | _ :: params, .absent :: slots => Slot.lexemes params slots
  | p :: params, .given _ value :: slots =>
    (.identifier p.name :: .symbol .assign :: value.lexemes) :: Slot.lexemes params slots
  | _, _ => []

end

mutual

/-- How a statement is written. -/
def Stmt.lexemes : Stmt → List Lexeme
  | .expr e => e.lexemes spell ++ [.symbol .semicolon]
  | .block _ body => .symbol .openBrace :: Stmt.lexemesAll body ++ [.symbol .closeBrace]
  | .forLoop _ item source _ body =>
    .forKeyword :: .identifier item :: .inKeyword :: source.lexemes spell
      ++ (.symbol .openBrace :: Stmt.lexemesAll body ++ [.symbol .closeBrace])

/-- How a body is written. -/
def Stmt.lexemesAll : List Stmt → List Lexeme
  | [] => []
  | s :: rest => s.lexemes ++ Stmt.lexemesAll rest

end

/-- The text of a program. -/
def Program.text (p : Program) : String :=
  String.ofList (spaced (Stmt.lexemesAll spell p.statements))

/-! ## Programs that can be printed -/

/-- The arguments of a call, one for each parameter, and none is left out that
    has to be given. -/
def Slot.Fill (f : Builtin) (slots : List Slot) : Prop :=
  List.Forall₂ (fun p s => p.required = true → s.isGiven = true) f.params slots

mutual

/-- Names have the shape of names, numbers are those of their literals and
    real, and calls have the arguments they need. -/
def Expr.Printable : Expr → Prop
  | .number l q => q.value.isFinite = true ∧ (spell l q).value = q.value
  | .string _ _ => True
  | .identifier _ name => IsIdentifier name
  | .binary _ _ lhs rhs => lhs.Printable ∧ rhs.Printable
  | .unary _ _ operand => operand.Printable
  | .assign _ name value => IsIdentifier name ∧ value.Printable
  | .call _ f slots => Slot.Fill f slots ∧ Slot.AllPrintable slots

/-- The value of a slot can be written. -/
def Slot.Printable : Slot → Prop
  | .absent => True
  | .given _ value => value.Printable

/-- All values of a call can be written. -/
def Slot.AllPrintable : List Slot → Prop
  | [] => True
  | s :: slots => s.Printable ∧ Slot.AllPrintable slots

end

mutual

/-- A statement can be written. -/
def Stmt.Printable : Stmt → Prop
  | .expr e => e.Printable spell
  | .block _ body => Stmt.AllPrintable body
  | .forLoop _ item source _ body =>
    IsIdentifier item ∧ source.Printable spell ∧ Stmt.AllPrintable body

/-- A body can be written. -/
def Stmt.AllPrintable : List Stmt → Prop
  | [] => True
  | s :: rest => s.Printable ∧ Stmt.AllPrintable rest

end

/-- A program can be written. -/
def Program.Printable (p : Program) : Prop := Stmt.AllPrintable spell p.statements

/-! ## The text is scanned as it was meant -/

/-- The names of functions are names. -/
theorem Builtin.isIdentifier_name (f : Builtin) : IsIdentifier f.name := by
  cases f <;> decide

theorem Builtin.isIdentifier_param (f : Builtin) : ∀ p ∈ f.params, IsIdentifier p.name := by
  cases f <;> decide

/-- Parentheses are well-formed. -/
theorem wellFormed_enclosed {xs : List Lexeme} (h : ∀ x ∈ xs, x.WellFormed) (need own : Nat) :
    ∀ x ∈ enclosed need own xs, x.WellFormed := by
  rw [enclosed]
  split
  · rw [List.forall_mem_append, List.forall_mem_cons]
    exact ⟨⟨trivial, h⟩, List.forall_mem_singleton.mpr trivial⟩
  · exact h

theorem wellFormed_commas {args : List (List Lexeme)} (h : ∀ xs ∈ args, ∀ x ∈ xs, x.WellFormed) :
    ∀ x ∈ [Lexeme.symbol .comma].intercalate args, x.WellFormed := by
  induction args with
  | nil =>
      intro x hx
      cases hx
  | cons first rest ih =>
      rw [List.forall_mem_cons] at h
      cases rest with
      | nil =>
          rw [List.intercalate_singleton]
          exact h.1
      | cons second rest =>
          rw [List.intercalate_cons_cons, List.forall_mem_append, List.forall_mem_append]
          exact ⟨⟨h.1, List.forall_mem_singleton.mpr trivial⟩, ih h.2⟩

mutual

/-- Expressions are written with well-formed lexemes. -/
theorem Expr.wellFormed_lexemes (e : Expr) (h : e.Printable spell) :
    ∀ x ∈ e.lexemes spell, x.WellFormed := by
  match e with
  | .number l q => exact List.forall_mem_singleton.mpr ((spell l q).wellFormed_lexeme q.unit)
  | .string l text => exact List.forall_mem_singleton.mpr trivial
  | .identifier l name => exact List.forall_mem_singleton.mpr h
  | .binary l op lhs rhs =>
      rw [Expr.lexemes, List.forall_mem_append, List.forall_mem_cons]
      exact ⟨wellFormed_enclosed (lhs.wellFormed_lexemes h.1) _ _, trivial,
        wellFormed_enclosed (rhs.wellFormed_lexemes h.2) _ _⟩
  | .unary l .negate operand =>
      rw [Expr.lexemes, List.forall_mem_cons]
      exact ⟨trivial, wellFormed_enclosed (operand.wellFormed_lexemes h) _ _⟩
  | .unary l .factorial operand =>
      rw [Expr.lexemes, List.forall_mem_append]
      exact ⟨wellFormed_enclosed (operand.wellFormed_lexemes h) _ _,
        List.forall_mem_singleton.mpr trivial⟩
  | .assign l name value =>
      rw [Expr.lexemes, List.forall_mem_cons, List.forall_mem_cons]
      exact ⟨h.1, trivial, value.wellFormed_lexemes h.2⟩
  | .call l f slots =>
      have hargs := Slot.wellFormed_lexemes f.params slots f.isIdentifier_param h.2
      rw [Expr.lexemes, List.forall_mem_append, List.forall_mem_cons, List.forall_mem_cons]
      exact ⟨⟨f.isIdentifier_name, trivial, wellFormed_commas hargs⟩,
        List.forall_mem_singleton.mpr trivial⟩

theorem Slot.wellFormed_lexemes (params : List Param) (slots : List Slot)
    (hparams : ∀ p ∈ params, IsIdentifier p.name) (h : Slot.AllPrintable spell slots) :
    ∀ xs ∈ Slot.lexemes spell params slots, ∀ x ∈ xs, x.WellFormed := by
  match params, slots with
  | _ :: params, .absent :: slots =>
      rw [Slot.lexemes]
      exact Slot.wellFormed_lexemes params slots (List.forall_mem_cons.mp hparams).2 h.2
  | p :: params, .given l value :: slots =>
      rw [List.forall_mem_cons] at hparams
      rw [Slot.lexemes, List.forall_mem_cons, List.forall_mem_cons, List.forall_mem_cons]
      exact ⟨⟨hparams.1, trivial, value.wellFormed_lexemes h.1⟩,
        Slot.wellFormed_lexemes params slots hparams.2 h.2⟩
  | [], [] => exact fun xs hxs => absurd hxs List.not_mem_nil
  | [], _ :: _ => exact fun xs hxs => absurd hxs List.not_mem_nil
  | _ :: _, [] => exact fun xs hxs => absurd hxs List.not_mem_nil

end

mutual

/-- Statements are written with well-formed lexemes. -/
theorem Stmt.wellFormed_lexemes (s : Stmt) (h : s.Printable spell) :
    ∀ x ∈ s.lexemes spell, x.WellFormed := by
  match s with
  | .expr e =>
      rw [Stmt.lexemes, List.forall_mem_append]
      exact ⟨e.wellFormed_lexemes spell h, List.forall_mem_singleton.mpr trivial⟩
  | .block l body =>
      rw [Stmt.lexemes, List.forall_mem_append, List.forall_mem_cons]
      exact ⟨⟨trivial, Stmt.wellFormed_lexemesAll body h⟩, List.forall_mem_singleton.mpr trivial⟩
  | .forLoop l item source opened body =>
      rw [Stmt.lexemes, List.forall_mem_append, List.forall_mem_append, List.forall_mem_cons,
        List.forall_mem_cons, List.forall_mem_cons, List.forall_mem_cons]
      exact ⟨⟨trivial, h.1, trivial, source.wellFormed_lexemes spell h.2.1⟩,
        ⟨trivial, Stmt.wellFormed_lexemesAll body h.2.2⟩, List.forall_mem_singleton.mpr trivial⟩

theorem Stmt.wellFormed_lexemesAll (body : List Stmt) (h : Stmt.AllPrintable spell body) :
    ∀ x ∈ Stmt.lexemesAll spell body, x.WellFormed := by
  match body with
  | [] => exact fun x hx => absurd hx List.not_mem_nil
  | s :: rest =>
      rw [Stmt.lexemesAll, List.forall_mem_append]
      exact ⟨s.wellFormed_lexemes h.1, Stmt.wellFormed_lexemesAll rest h.2⟩

end

/-- The tokens of the text of a program are its lexemes. -/
theorem Program.scan_text {p : Program} (h : p.Printable spell) :
    ∃ s, scan (p.text spell) = .ok s
      ∧ s.tokens.map Token.lexeme = Stmt.lexemesAll spell p.statements := by
  rw [scan, Program.text, String.toList_ofList]
  exact scanFrom_spaced (Stmt.wellFormed_lexemesAll spell p.statements h) .start

end Lexemes

end MillScript
