import MillScript.Proofs.Evaluation.Scripted
import MillScript.Proofs.Machining.Blind
import MillScript.Proofs.Relocation.Lowering

/-! # Places have no part in evaluation

    Places in a program go into two things: the place that an error is blamed
    on, and the lines of the steps that calls record.  So a relocated program
    does what the program does: it gives the same values, changes machine
    and variables in the same way, fails for the same faults, and records the
    same steps, with their lines changed by the relocation. -/

namespace MillScript

/-! ## Worlds that differ in lines -/

/-- The step at another line. -/
def Segment.reline (g : Int → Int) (s : Segment) : Segment := ⟨s.action, g s.line⟩

/-- Steps with other lines have just those lines. -/
theorem Segment.lines_reline (g : Int → Int) (steps : List Segment) :
    (steps.map (reline g)).map Segment.line = (steps.map Segment.line).map g := by
  rw [List.map_map, List.map_map]
  rfl

/-- Steps, the latest first, that go on from the same ones in the same way
    but for their lines. -/
def Relined (g : Int → Int) (base steps steps' : List Segment) : Prop :=
  ∃ new, steps = new ++ base ∧ steps' = new.map (Segment.reline g) ++ base

/-- No step is new, so none has another line. -/
theorem Relined.refl (g : Int → Int) (base : List Segment) : Relined g base base base :=
  ⟨[], rfl, rfl⟩

/-- Worlds with the same machine and variables and the same steps but for
    their lines. -/
structure World.Relined (g : Int → Int) (base : List Segment) (w w' : World) : Prop where
  machine : w.job.machine = w'.job.machine
  steps : MillScript.Relined g base w.job.path.recorded w'.job.path.recorded
  scopes : w.scopes = w'.scopes

/-- A change of the variables alone. -/
theorem World.Relined.rescope {g : Int → Int} {base : List Segment} {w w' : World}
    (h : World.Relined g base w w') (change : Scopes → Scopes) :
    World.Relined g base { w with scopes := change w.scopes }
      { w' with scopes := change w'.scopes } :=
  ⟨h.machine, h.steps, congrArg change h.scopes⟩

/-- Errors that differ in their places at most. -/
def Error.SameFault (e e' : Error) : Prop := e.fault = e'.fault

namespace Run

open World

variable {g : Int → Int} {base : List Segment} {α β : Type}

/-- Two pieces of work that do the same but for lines, from worlds that are
    the same but for lines. -/
def Twin (g : Int → Int) (base : List Segment) (x y : Run α) : Prop :=
  ∀ w w', World.Relined g base w w' →
    Matched Error.SameFault (World.Relined g base) (x w) (y w')

/-! ## What evaluation is made of -/

theorem twin_pure (a : α) : Twin g base (pure a) (pure a) := fun _ _ h => .ok a h

/-- Errors of one fault are alike at any places. -/
theorem twin_throw {e e' : Error} (h : e.fault = e'.fault) :
    Twin g base (throw e : Run α) (throw e') := fun _ _ hw => .error h hw

/-- Work that goes on from one value stays alike. -/
theorem Twin.bind {x y : Run α} {k k' : α → Run β} (hx : Twin g base x y)
    (hk : ∀ a, Twin g base (k a) (k' a)) : Twin g base (x >>= k) (y >>= k') := by
  intro w w' hw
  exact (hx w w' hw).bind fun a u v huv => hk a u v huv

theorem twin_ofExcept (r : Except Fault α) : Twin g base (ofExcept r) (ofExcept r) := by
  cases r with
  | error f => exact twin_throw (e := { fault := f }) rfl
  | ok a => exact twin_pure a

/-- An error may be given a place in both, and not the same one. -/
theorem Twin.locating {x y : Run α} (h : Twin g base x y) (l l' : Location) :
    Twin g base (locating l x) (locating l' y) := by
  intro w w' hw
  have hxy := h w w' hw
  rw [Run.locating, Run.locating]
  generalize x w = r, y w' = r' at hxy
  cases hxy with
  | ok a hv => exact .ok a hv
  | @error e e' _ _ he hv =>
      refine .error ?_ hv
      rw [Error.SameFault, fault_locate, fault_locate]
      exact he

/-- Variables come and go in both. -/
theorem Twin.inFrame {x y : Run α} (h : Twin g base x y) :
    Twin g base (inFrame x) (inFrame y) := by
  intro w w' hw
  have hxy := h _ _ (hw.rescope Scopes.push)
  rw [Run.inFrame, Run.inFrame]
  generalize x { w with scopes := w.scopes.push } = r,
    y { w' with scopes := w'.scopes.push } = r' at hxy
  cases hxy with
  | ok a hv => exact .ok a (hv.rescope fun s => s.pop?.getD s)
  | error he hv => exact .error he (hv.rescope fun s => s.pop?.getD s)

theorem twin_bindName (name : String) (value : Value) :
    Twin g base (bindName name value) (bindName name value) :=
  fun _ _ hw => .ok () (hw.rescope fun s => s.bind name value)

/-- A variable has one value in both. -/
theorem twin_lookup (name : String) : Twin g base (lookup name) (lookup name) := by
  intro w w' hw
  rw [lookup, lookup, hw.scopes]
  cases w'.scopes.lookup name with
  | none => exact .error rfl hw
  | some v => exact .ok v hw

/-- What is printed may differ: the console is not read. -/
theorem twin_say (text text' : World → String) : Twin g base (say text) (say text') :=
  fun _ _ hw => .ok () ⟨hw.machine, hw.steps, hw.scopes⟩

/-- An argument is refused by its kind, at whatever place. -/
theorem twin_checkArgument (f : Builtin) (p : Param) (l l' : Location) (v : Value) :
    Twin g base (checkArgument f p l v) (checkArgument f p l' v) := by
  intro w w' hw
  rw [checkArgument, checkArgument]
  split
  · exact .ok () hw
  · exact .error rfl hw

/-- Loops over the same items, with rounds that are alike. -/
theorem Twin.forM {k k' : α → Run PUnit} (h : ∀ a, Twin g base (k a) (k' a)) (items : List α) :
    Twin g base (items.forM k) (items.forM k') := by
  induction items with
  | nil => exact twin_pure _
  | cons a rest ih => exact (h a).bind fun _ => ih

/-- A step that is recorded on both toolpaths is the same but for its
    line. -/
theorem steady_relined (g : Int → Int) (base : List Segment) :
    Toolpath.Steady fun p p' => p'.line = g p.line ∧ Relined g base p.recorded p'.recorded := by
  rintro p p' a ⟨hline, new, hnew, hnew'⟩
  refine ⟨hline, ⟨a, p.line⟩ :: new, ?_, ?_⟩
  · rw [Toolpath.push, hnew, List.cons_append]
  · rw [Toolpath.push, hnew', hline]
    rfl

/-- A call writes on the toolpath with the line that it is told and never reads
    one. -/
theorem twin_call (line : Int) (args : Arguments) (f : Builtin) :
    Twin g base (call line args f) (call (g line) args f) := by
  intro w w' hw
  have halike := Call.blind_apply args f _ (steady_relined g base)
    (w.job.atLine line) (w'.job.atLine (g line)) ⟨hw.machine, rfl, hw.steps⟩
  rw [call_apply, call_apply]
  generalize Call.apply args f (w.job.atLine line) = r,
    Call.apply args f (w'.job.atLine (g line)) = r' at halike
  cases halike with
  | ok v h => exact .ok v ⟨h.machine, h.path.2, hw.scopes⟩
  | error fault h => exact .error rfl ⟨h.machine, h.path.2, hw.scopes⟩

/-! ## Evaluation -/

section Evaluation

variable {f : Location → Location}

mutual

/-- **Expressions do the same at other places**, but for lines and the places
    of errors. -/
theorem twin_expr (hf : ∀ l, (f l).line = g l.line) (e : Expr) :
    Twin g base e.eval (e.relocate f).eval := by
  match e with
  | .number l q => exact twin_pure _
  | .string l s => exact twin_pure _
  | .identifier l name => exact (twin_lookup name).locating l (f l)
  | .binary l op lhs rhs =>
      refine Twin.locating ?_ l (f l)
      exact (twin_expr hf lhs).bind fun a => (twin_expr hf rhs).bind fun b => twin_ofExcept _
  | .unary l op operand =>
      exact ((twin_expr hf operand).bind fun a => twin_ofExcept _).locating l (f l)
  | .assign l name value =>
      refine Twin.locating ((twin_expr hf value).bind fun v => ?_) l (f l)
      exact (twin_bindName name v).bind fun _ => twin_pure v
  | .call l function slots =>
      refine Twin.locating ?_ l (f l)
      refine (twin_slots hf function function.params slots).bind fun args => ?_
      have hcall : Twin g base (Run.call l.line args function)
          (Run.call (g l.line) args function) := twin_call l.line args function
      rw [← hf] at hcall
      exact hcall

theorem twin_slots (hf : ∀ l, (f l).line = g l.line) (function : Builtin) (params : List Param)
    (slots : List Slot) :
    Twin g base (Slot.evalAll function params slots)
      (Slot.evalAll function params (Slot.relocateAll f slots)) := by
  match params, slots with
  | _ :: params, .absent :: slots =>
      rw [Slot.relocateAll, Slot.relocate, Slot.evalAll, Slot.evalAll]
      exact twin_slots hf function params slots
  | p :: params, .given l value :: slots =>
      rw [Slot.relocateAll, Slot.relocate, Slot.evalAll, Slot.evalAll]
      refine (twin_expr hf value).bind fun v => ?_
      refine (twin_checkArgument function p l (f l) v).bind fun _ => ?_
      exact (twin_slots hf function params slots).bind fun args => twin_pure _
  | [], [] => exact twin_pure []
  | [], _ :: _ => exact twin_pure []
  | _ :: _, [] => exact twin_pure []

end

mutual

/-- **Statements do the same at other places**, but for lines and the places of
    errors. -/
theorem twin_stmt (hf : ∀ l, (f l).line = g l.line) (s : Stmt) :
    Twin g base s.eval (s.relocate f).eval := by
  match s with
  | .expr e =>
      rw [Stmt.relocate, Stmt.eval, Stmt.eval]
      exact twin_expr hf e
  | .block l body =>
      rw [Stmt.relocate, Stmt.eval, Stmt.eval]
      exact ((twin_stmts hf body).inFrame.bind fun _ => twin_pure _).locating l (f l)
  | .forLoop l item source opened body =>
      rw [Stmt.relocate, Stmt.eval, Stmt.eval]
      refine Twin.locating ((twin_expr hf source).bind fun v => ?_) l (f l)
      cases v with
      | sequence items =>
          refine (twin_say _ _).bind fun _ => Twin.bind ?_ fun _ => twin_pure _
          refine .forM (fun v => Twin.inFrame ?_) items
          exact (twin_bindName item v).bind fun _ => twin_stmts hf body
      | none => exact twin_throw rfl
      | number q => exact twin_throw rfl
      | string s => exact twin_throw rfl

theorem twin_stmts (hf : ∀ l, (f l).line = g l.line) (body : List Stmt) :
    Twin g base (Stmt.evalAll body) (Stmt.evalAll (Stmt.relocateAll f body)) := by
  match body with
  | [] =>
      rw [Stmt.relocateAll, Stmt.evalAll]
      exact twin_pure ()
  | s :: rest =>
      rw [Stmt.relocateAll, Stmt.evalAll, Stmt.evalAll]
      exact (twin_stmt hf s).bind fun _ => twin_stmts hf rest

end

/-- **A relocated program does what the program does.** -/
theorem twin_runAll (hf : ∀ l, (f l).line = g l.line) (statements : List Stmt) :
    Twin g base (Program.runAll statements) (Program.runAll (Stmt.relocateAll f statements)) := by
  induction statements with
  | nil =>
      rw [Stmt.relocateAll]
      exact twin_pure ()
  | cons s rest ih =>
      rw [Stmt.relocateAll]
      exact (twin_say _ _).bind fun _ => (twin_stmt hf s).bind fun _ => ih

end Evaluation

end Run

end MillScript
