import MillScript.Proofs.Evaluation.Lexical
import MillScript.Proofs.Relocation.Lowering

/-! # What errors are blamed on

    An error that comes from arithmetic, from a name or from a call has no
    place; the innermost node that is being evaluated gives it one, and the
    nodes around it leave it alone.  So evaluation of a node whose places are
    all known never ends with an error that has no place: every error is
    blamed on a place of the node (`Run.blames_node`). -/

namespace MillScript

/-! ## The places of a program -/

section AllPlaces

variable (P : Location → Prop)

mutual

/-- All places in an expression are of a class. -/
def Expr.AllPlaces : Expr → Prop
  | .number l _ => P l
  | .string l _ => P l
  | .identifier l _ => P l
  | .binary l _ lhs rhs => P l ∧ lhs.AllPlaces ∧ rhs.AllPlaces
  | .unary l _ operand => P l ∧ operand.AllPlaces
  | .assign l _ value => P l ∧ value.AllPlaces
  | .call l _ slots => P l ∧ Slot.AllPlacesIn slots

/-- All places in a slot are of a class; an empty one has none. -/
def Slot.AllPlaces : Slot → Prop
  | .absent => True
  | .given l value => P l ∧ value.AllPlaces

/-- All places in the slots of a call are of a class. -/
def Slot.AllPlacesIn : List Slot → Prop
  | [] => True
  | s :: rest => s.AllPlaces ∧ Slot.AllPlacesIn rest

end

mutual

/-- All places in a statement are of a class. -/
def Stmt.AllPlaces : Stmt → Prop
  | .expr e => e.AllPlaces P
  | .block l body => P l ∧ Stmt.AllPlacesIn body
  | .forLoop l _ source opened body =>
    P l ∧ source.AllPlaces P ∧ P opened ∧ Stmt.AllPlacesIn body

/-- All places in the statements of a body are of a class. -/
def Stmt.AllPlacesIn : List Stmt → Prop
  | [] => True
  | s :: rest => s.AllPlaces ∧ Stmt.AllPlacesIn rest

end

/-- All places in a program are of a class. -/
def Program.AllPlaces (p : Program) : Prop := P p.location ∧ Stmt.AllPlacesIn P p.statements

/-- All places in a node are of a class. -/
def Node.AllPlaces : Node → Prop
  | .statement s => s.AllPlaces P
  | .program p => p.AllPlaces P

end AllPlaces

/-- An expression starts at one of its places. -/
theorem Expr.AllPlaces.location {P : Location → Prop} {e : Expr} (h : e.AllPlaces P) :
    P e.location := by
  cases e with
  | number l q => exact h
  | string l text => exact h
  | identifier l name => exact h
  | binary l op lhs rhs => exact h.1
  | unary l op operand => exact h.1
  | assign l name value => exact h.1
  | call l f slots => exact h.1

section Relocate

variable {P : Location → Prop} {f : Location → Location}

mutual

/-- After a relocation all places are in its range. -/
theorem Expr.allPlaces_relocate (hf : ∀ l, P (f l)) (e : Expr) : (e.relocate f).AllPlaces P := by
  match e with
  | .number l q => exact hf l
  | .string l text => exact hf l
  | .identifier l name => exact hf l
  | .binary l op lhs rhs =>
      exact ⟨hf l, lhs.allPlaces_relocate hf, rhs.allPlaces_relocate hf⟩
  | .unary l op operand => exact ⟨hf l, operand.allPlaces_relocate hf⟩
  | .assign l name value => exact ⟨hf l, value.allPlaces_relocate hf⟩
  | .call l function slots => exact ⟨hf l, Slot.allPlacesIn_relocate hf slots⟩

theorem Slot.allPlacesIn_relocate (hf : ∀ l, P (f l)) (slots : List Slot) :
    Slot.AllPlacesIn P (Slot.relocateAll f slots) := by
  match slots with
  | [] => trivial
  | .absent :: rest => exact ⟨trivial, Slot.allPlacesIn_relocate hf rest⟩
  | .given l value :: rest =>
      exact ⟨⟨hf l, value.allPlaces_relocate hf⟩, Slot.allPlacesIn_relocate hf rest⟩

end

mutual

theorem Stmt.allPlaces_relocate (hf : ∀ l, P (f l)) (s : Stmt) : (s.relocate f).AllPlaces P := by
  match s with
  | .expr e => exact e.allPlaces_relocate hf
  | .block l body => exact ⟨hf l, Stmt.allPlacesIn_relocate hf body⟩
  | .forLoop l item source opened body =>
      exact ⟨hf l, source.allPlaces_relocate hf, hf opened, Stmt.allPlacesIn_relocate hf body⟩

theorem Stmt.allPlacesIn_relocate (hf : ∀ l, P (f l)) (body : List Stmt) :
    Stmt.AllPlacesIn P (Stmt.relocateAll f body) := by
  match body with
  | [] => trivial
  | s :: rest => exact ⟨s.allPlaces_relocate hf, Stmt.allPlacesIn_relocate hf rest⟩

end

/-- A relocated program has places of the range of the relocation only. -/
theorem Program.allPlaces_relocate (hf : ∀ l, P (f l)) (p : Program) :
    (p.relocate f).AllPlaces P :=
  ⟨hf p.location, Stmt.allPlacesIn_relocate hf p.statements⟩

end Relocate

/-! ## Errors with and without a place -/

namespace Run

variable {P : Location → Prop} {α β : Type}

/-- Work whose errors are blamed on places of a class. -/
def Blames (P : Location → Prop) (x : Run α) : Prop := FailsWith (fun e => P e.location) x

/-- Work whose errors are blamed on places of a class, or on nothing yet. -/
def MayBlame (P : Location → Prop) (x : Run α) : Prop :=
  FailsWith (fun e => e.location = .unknown ∨ P e.location) x

/-- What always names a place names one if it names any. -/
theorem Blames.mayBlame {x : Run α} (h : Blames P x) : MayBlame P x :=
  fun w e w' he => .inr (h w e w' he)

section Quiet

variable {D : Error → Prop}

theorem failsWith_bindName (name : String) (value : Value) :
    FailsWith D (bindName name value) := by
  intro w e w' h
  cases h

theorem failsWith_say (text : World → String) : FailsWith D (say text) := by
  intro w e w' h
  cases h

theorem failsWith_setLine (line : Int) : FailsWith D (setLine line) := by
  intro w e w' h
  cases h

end Quiet

/-- A fault by itself has no place. -/
theorem mayBlame_ofExcept (r : Except Fault α) : MayBlame P (ofExcept r) := by
  intro w e w' h
  cases r with
  | ok a => cases h
  | error f =>
      injection h with he _
      rw [← he]
      exact .inl rfl

theorem mayBlame_machining (work : Machining α) : MayBlame P (machining work) := by
  intro w e w' h
  rw [machining] at h
  cases hwork : work w.job with
  | ok a job =>
      rw [hwork] at h
      cases h
  | error f job =>
      rw [hwork] at h
      injection h with he _
      rw [← he]
      exact .inl rfl

/-- A name that stands for nothing gets its place from the expression around
    it. -/
theorem mayBlame_lookup (name : String) : MayBlame P (lookup name) := by
  intro w e w' h
  rw [lookup] at h
  cases hname : w.scopes.lookup name with
  | some v =>
      rw [hname] at h
      cases h
  | none =>
      rw [hname] at h
      injection h with he _
      rw [← he]
      exact .inl rfl

/-- An argument of the wrong kind is blamed on its own place. -/
theorem blames_checkArgument (f : Builtin) (p : Param) {l : Location} (hl : P l) (v : Value) :
    Blames P (checkArgument f p l v) := by
  intro w e w' h
  rw [checkArgument] at h
  split at h
  · cases h
  · injection h with he _
    rw [← he]
    exact hl

/-- A node gives its place to errors that have none; where all places of the
    class are known, it leaves the others alone. -/
theorem MayBlame.locating (hknown : ∀ l, P l → l.isKnown = true) {l : Location} (hl : P l)
    {x : Run α} (h : MayBlame P x) : Blames P (locating l x) := by
  intro w e w' he
  rw [Run.locating] at he
  cases hx : x w with
  | ok a v =>
      rw [hx] at he
      cases he
  | error e' v =>
      rw [hx] at he
      injection he with he _
      rw [← he, Error.locate]
      rcases h w e' v hx with hopen | hplaced
      · rw [hopen]
        exact hl
      · rw [if_pos (hknown _ hplaced)]
        exact hplaced

/-- A frame around work changes no error. -/
theorem Blames.inFrame {x : Run α} (h : Blames P x) : Blames P (inFrame x) := by
  intro w e w' he
  rw [Run.inFrame] at he
  cases hx : x { w with scopes := w.scopes.push } with
  | ok a v =>
      rw [hx] at he
      cases he
  | error e' v =>
      rw [hx] at he
      injection he with he _
      rw [← he]
      exact h _ e' v hx

/-! ## Evaluation blames places of the program -/

mutual

/-- **Errors of expressions are at places of the expression.** -/
theorem blames_expr (hknown : ∀ l, P l → l.isKnown = true) (e : Expr) (h : e.AllPlaces P) :
    Blames P e.eval := by
  match e with
  | .number l q => exact failsWith_pure _
  | .string l text => exact failsWith_pure _
  | .identifier l name => exact (mayBlame_lookup name).locating hknown h
  | .binary l op lhs rhs =>
      refine MayBlame.locating hknown h.1 ?_
      refine (blames_expr hknown lhs h.2.1).mayBlame.bind fun a => ?_
      exact (blames_expr hknown rhs h.2.2).mayBlame.bind fun b => mayBlame_ofExcept _
  | .unary l op operand =>
      refine MayBlame.locating hknown h.1 ?_
      exact (blames_expr hknown operand h.2).mayBlame.bind fun a => mayBlame_ofExcept _
  | .assign l name value =>
      refine MayBlame.locating hknown h.1 ?_
      refine (blames_expr hknown value h.2).mayBlame.bind fun v => ?_
      exact (failsWith_bindName name v).bind fun _ => failsWith_pure v
  | .call l f slots =>
      refine MayBlame.locating hknown h.1 ?_
      refine (blames_slots hknown f f.params slots h.2).mayBlame.bind fun args => ?_
      exact (failsWith_setLine l.line).bind fun _ => mayBlame_machining _

/-- Errors of arguments are at places of the slots. -/
theorem blames_slots (hknown : ∀ l, P l → l.isKnown = true) (f : Builtin) (params : List Param)
    (slots : List Slot) (h : Slot.AllPlacesIn P slots) :
    Blames P (Slot.evalAll f params slots) := by
  match params, slots with
  | _ :: params, .absent :: slots =>
      rw [Slot.evalAll]
      exact blames_slots hknown f params slots h.2
  | p :: params, .given l value :: slots =>
      rw [Slot.evalAll]
      refine (blames_expr hknown value h.1.2).bind fun v => ?_
      refine (blames_checkArgument f p h.1.1 v).bind fun _ => ?_
      exact (blames_slots hknown f params slots h.2).bind fun args => failsWith_pure _
  | [], [] => exact failsWith_pure []
  | [], _ :: _ => exact failsWith_pure []
  | _ :: _, [] => exact failsWith_pure []

end

mutual

/-- **Errors of statements are at places of the statement.** -/
theorem blames_stmt (hknown : ∀ l, P l → l.isKnown = true) (s : Stmt) (h : s.AllPlaces P) :
    Blames P s.eval := by
  match s with
  | .expr e =>
      rw [Stmt.eval]
      exact blames_expr hknown e h
  | .block l body =>
      rw [Stmt.eval]
      refine MayBlame.locating hknown h.1 ?_
      exact (blames_stmts hknown body h.2).inFrame.mayBlame.bind fun _ => failsWith_pure _
  | .forLoop l item source opened body =>
      rw [Stmt.eval]
      obtain ⟨hl, hsource, -, hbody⟩ := h
      refine MayBlame.locating hknown hl ((blames_expr hknown source hsource).mayBlame.bind ?_)
      intro v
      -- a value that is no sequence is blamed on the expression it comes from
      have hthrow : ∀ fault, MayBlame P (throw ⟨fault, source.location⟩ : Run Value) := by
        intro fault w e w' he
        injection he with he _
        rw [← he]
        exact .inr hsource.location
      cases v with
      | sequence items =>
          have hround : ∀ v, Blames P (Run.inFrame do bindName item v; Stmt.evalAll body) := by
            intro v
            exact Blames.inFrame ((failsWith_bindName item v).bind fun _ =>
              blames_stmts hknown body hbody)
          refine (failsWith_say _).bind fun _ => ?_
          exact (FailsWith.forM (fun v => (hround v).mayBlame) items).bind fun _ =>
            failsWith_pure _
      | none => exact hthrow _
      | number q => exact hthrow _
      | string text => exact hthrow _

theorem blames_stmts (hknown : ∀ l, P l → l.isKnown = true) (body : List Stmt)
    (h : Stmt.AllPlacesIn P body) : Blames P (Stmt.evalAll body) := by
  match body with
  | [] =>
      rw [Stmt.evalAll]
      exact failsWith_pure ()
  | s :: rest =>
      rw [Stmt.evalAll]
      exact (blames_stmt hknown s h.1).bind fun _ => blames_stmts hknown rest h.2

end

/-- Errors of a script that runs are at places of the script. -/
theorem blames_runAll (hknown : ∀ l, P l → l.isKnown = true) (statements : List Stmt)
    (h : Stmt.AllPlacesIn P statements) : Blames P (Program.runAll statements) := by
  induction statements with
  | nil => exact failsWith_pure ()
  | cons s rest ih =>
      refine (failsWith_say _).bind fun _ => ?_
      exact (blames_stmt hknown s h.1).bind fun _ => ih h.2

/-- **Errors are blamed on places of the node.** -/
theorem blames_node (hknown : ∀ l, P l → l.isKnown = true) (n : Node) (h : n.AllPlaces P) :
    Blames P n.eval := by
  cases n with
  | statement s => exact blames_stmt hknown s h
  | program p =>
      refine MayBlame.locating hknown h.1 ?_
      exact (blames_runAll hknown p.statements h.2).mayBlame.bind fun _ => failsWith_pure _

end Run

end MillScript
