import MillScript.Proofs.Evaluation.Frames

/-! # Lexical scoping

    What names mean needs no frames to say: the variables are a map, an
    assignment changes the map, a block puts back the map it started from, and
    so does every round of a loop.  `denote` evaluates by these rules.

    The evaluator on frames does the same.  A world shows its job, its console
    and the value of each name (`World.seen`), and evaluating in the world
    and then looking is evaluating by the rules on what was seen, with the same
    value or error; `Realizes` is this equation for any piece of work.  The
    only rule that needs more than its parts is the one for frames, where the
    map that comes back is the one from before because the frames are
    (`Scripted.scopes_inFrame`). -/

namespace MillScript

/-! ## The rules -/

/-- Variables as a map from names to values. -/
abbrev Variables := String → Option Value

namespace Variables

/-- The variables with one of them changed. -/
def assign (vars : Variables) (name : String) (value : Value) : Variables := fun n =>
  if n = name then some value else vars n

end Variables

/-- What can be seen of a world: frames are not. -/
structure Scene where
  job : Job
  vars : Variables
  console : Console

/-- Work by the rules. -/
abbrev Lexical := EStateM Error Scene

namespace Lexical

/-- Goes on with a result; a failure has no place yet. -/
def ofExcept {α : Type} (r : Except Fault α) : Lexical α := fun s =>
  match r with
  | .ok a => .ok a s
  | .error fault => .error { fault } s

/-- Blames failures that have no place on this one. -/
def locating {α : Type} (l : Location) (work : Lexical α) : Lexical α := fun s =>
  match work s with
  | .ok a s' => .ok a s'
  | .error e s' => .error (e.locate l) s'

/-- Puts the variables back after some work, however it ends. -/
def restoring {α : Type} (work : Lexical α) : Lexical α := fun s =>
  match work s with
  | .ok a s' => .ok a { s' with vars := s.vars }
  | .error e s' => .error e { s' with vars := s.vars }

/-- Gives a variable a value. -/
def assign (name : String) (value : Value) : Lexical Unit := fun s =>
  .ok () { s with vars := s.vars.assign name value }

/-- The value of a name. -/
def valueOf (name : String) : Lexical Value := fun s =>
  match s.vars name with
  | some v => .ok v s
  | none => .error { fault := NameFault.undefinedName name } s

/-- Prints a text if the console is verbose. -/
def say (text : Scene → String) : Lexical Unit := fun s =>
  .ok () { s with console := s.console.say fun _ => text s }

/-- Refuses a value that does not fit its parameter. -/
def checkArgument (f : Builtin) (p : Param) (l : Location) (v : Value) : Lexical Unit :=
  if v.fits p.kind then pure () else throw ⟨TypeFault.argument f p v.kind, l⟩

/-- A call at a line of a script. -/
def call (line : Int) (args : Arguments) (f : Builtin) : Lexical Value := fun s =>
  match Call.apply args f (s.job.atLine line) with
  | .ok v job => .ok v { s with job }
  | .error fault job => .error { fault } { s with job }

end Lexical

mutual

/-- The value of an expression, by the rules. -/
def Expr.denote : Expr → Lexical Value
  | .number _ q => pure (.number q)
  | .string _ s => pure (.string s)
  | .identifier l name => Lexical.locating l (Lexical.valueOf name)
  | .binary l op lhs rhs => Lexical.locating l do
    let a ← lhs.denote
    let b ← rhs.denote
    Lexical.ofExcept (Value.binary op a b)
  | .unary l op operand => Lexical.locating l do
    let a ← operand.denote
    Lexical.ofExcept (Value.unary op a)
  | .assign l name value => Lexical.locating l do
    let v ← value.denote
    Lexical.assign name v
    return v
  | .call l f slots => Lexical.locating l do
    let args ← Slot.denoteAll f f.params slots
    Lexical.call l.line args f

/-- The arguments of a call, by the rules. -/
def Slot.denoteAll (f : Builtin) : List Param → List Slot → Lexical Arguments
  | _ :: params, .absent :: slots => Slot.denoteAll f params slots
  | p :: params, .given l value :: slots => do
    let v ← value.denote
    Lexical.checkArgument f p l v
    let args ← Slot.denoteAll f params slots
    return (p.name, v) :: args
  | _, _ => pure []

end

mutual

/-- Carries out a statement by the rules.  The source of a loop is evaluated
    once, and the body runs for each item on the variables from before with
    the item added. -/
def Stmt.denote : Stmt → Lexical Value
  | .expr e => e.denote
  | .block l body => Lexical.locating l do
    Lexical.restoring (Stmt.denoteAll body)
    return .none
  | .forLoop l item source _ body => Lexical.locating l do
    match ← source.denote with
    | .sequence items =>
      Lexical.say fun _ => "for " ++ item ++ " in " ++ (Value.sequence items).text ++ "\n"
      items.forM fun v => Lexical.restoring do
        Lexical.assign item v
        Stmt.denoteAll body
      return .none
    | v => throw ⟨TypeFault.notIterable v.kind, source.location⟩

/-- Carries out statements in order, by the rules. -/
def Stmt.denoteAll : List Stmt → Lexical Unit
  | [] => pure ()
  | s :: rest => do
    let _ ← s.denote
    Stmt.denoteAll rest

end

namespace Program

/-- Carries out the statements of a program by the rules, with a trace line
    before each. -/
def denoteAll : List Stmt → Lexical Unit
  | [] => pure ()
  | s :: rest => do
    Lexical.say fun scene =>
      "line " ++ s.location.line.repr ++ ": " ++ scene.job.path.size.repr ++ " segments so far\n"
    let _ ← s.denote
    denoteAll rest

/-- Carries out a program as one statement, by the rules. -/
def denote (p : Program) : Lexical Value := Lexical.locating p.location do
  denoteAll p.statements
  return .none

end Program

/-! ## Work that shows the rules -/

/-- What can be seen of a world. -/
def World.seen (w : World) : Scene := ⟨w.job, w.scopes.lookup, w.console⟩

namespace Run

/-- What can be seen of an outcome. -/
def seen {α : Type} : EStateM.Result Error World α → EStateM.Result Error Scene α
  | .ok a w => .ok a w.seen
  | .error e w => .error e w.seen

/-- To do the work and look is to look and work by the rules. -/
def Realizes {α : Type} (x : Run α) (y : Lexical α) : Prop := ∀ w, seen (x w) = y w.seen

section Realizes

variable {α β : Type} {x : Run α} {y : Lexical α}

theorem realizes_pure (a : α) : Realizes (pure a) (pure a) := fun _ => rfl

theorem realizes_throw (e : Error) : Realizes (throw e : Run α) (throw e) := fun _ => rfl

theorem Realizes.bind {f : α → Run β} {g : α → Lexical β} (hx : Realizes x y)
    (hf : ∀ a, Realizes (f a) (g a)) : Realizes (x >>= f) (y >>= g) := by
  intro w
  rw [bind_apply, bind_apply, ← hx w]
  cases x w with
  | ok a v => exact hf a v
  | error e v => rfl

theorem Realizes.forM {γ : Type} {f : γ → Run PUnit} {g : γ → Lexical PUnit}
    (hf : ∀ a, Realizes (f a) (g a)) (items : List γ) : Realizes (items.forM f) (items.forM g) := by
  induction items with
  | nil => exact realizes_pure _
  | cons a rest ih => exact (hf a).bind fun _ => ih

theorem realizes_ofExcept (r : Except Fault α) : Realizes (ofExcept r) (Lexical.ofExcept r) := by
  cases r with
  | ok a => exact realizes_pure a
  | error f => exact realizes_throw { fault := f }

theorem Realizes.locating (l : Location) (hx : Realizes x y) :
    Realizes (locating l x) (Lexical.locating l y) := by
  intro w
  rw [Run.locating, Lexical.locating, ← hx w]
  cases x w with
  | ok a v => rfl
  | error e v => rfl

/-- A frame of its own puts the variables back, as the frames are put back. -/
theorem Realizes.inFrame (hx : Realizes x y) (hscripted : Scripted x) :
    Realizes (inFrame x) (Lexical.restoring y) := by
  intro w
  have hscopes := hscripted.scopes_inFrame w
  -- an empty frame on top cannot be seen
  have hpushed : World.seen { w with scopes := w.scopes.push } = w.seen := by
    rw [World.seen, World.seen]
    congr 1
    funext name
    exact w.scopes.lookup_push name
  rw [Lexical.restoring, ← hpushed, ← hx]
  rw [Run.inFrame] at hscopes ⊢
  cases hrun : x { w with scopes := w.scopes.push } with
  | ok a v =>
      rw [hrun] at hscopes
      have hleft : v.scopes.pop?.getD v.scopes = w.scopes := hscopes
      show EStateM.Result.ok a (Scene.mk v.job (v.scopes.pop?.getD v.scopes).lookup v.console) = _
      rw [hleft, hpushed]
      rfl
  | error e v =>
      rw [hrun] at hscopes
      have hleft : v.scopes.pop?.getD v.scopes = w.scopes := hscopes
      show EStateM.Result.error e
        (Scene.mk v.job (v.scopes.pop?.getD v.scopes).lookup v.console) = _
      rw [hleft, hpushed]
      rfl

/-- To bind a name in the frames is to change one variable. -/
theorem realizes_bindName (name : String) (value : Value) :
    Realizes (bindName name value) (Lexical.assign name value) := by
  intro w
  have hassign :
      (w.scopes.bind name value).lookup = Variables.assign w.scopes.lookup name value := by
    funext other
    rw [Variables.assign]
    by_cases h : other = name
    · rw [if_pos h, h, Scopes.lookup_bind_self]
    · rw [if_neg h, Scopes.lookup_bind_of_ne _ h]
  show EStateM.Result.ok () (Scene.mk w.job (w.scopes.bind name value).lookup w.console) = _
  rw [hassign]
  rfl

/-- The innermost frame that has a name is the one that counts. -/
theorem realizes_lookup (name : String) : Realizes (lookup name) (Lexical.valueOf name) := by
  intro w
  rw [lookup, Lexical.valueOf]
  show _ = match w.scopes.lookup name with
    | some v => _
    | none => _
  cases w.scopes.lookup name with
  | some v => rfl
  | none => rfl

/-- What is traced may depend on what can be seen. -/
theorem realizes_say {text : World → String} {text' : Scene → String}
    (h : ∀ w, text w = text' w.seen) : Realizes (say text) (Lexical.say text') := by
  intro w
  rw [say, Lexical.say, ← h w]
  rfl

/-- Arguments are checked in both by their kinds. -/
theorem realizes_checkArgument (f : Builtin) (p : Param) (l : Location) (v : Value) :
    Realizes (checkArgument f p l v) (Lexical.checkArgument f p l v) := by
  intro w
  rw [checkArgument, Lexical.checkArgument]
  by_cases hfits : v.fits p.kind = true
  · rw [if_pos hfits, if_pos hfits]
    rfl
  · rw [if_neg hfits, if_neg hfits]
    rfl

/-- Calls do not concern the variables. -/
theorem realizes_call (line : Int) (args : Arguments) (f : Builtin) :
    Realizes (call line args f) (Lexical.call line args f) := by
  intro w
  rw [call_apply, Lexical.call]
  show _ = match Call.apply args f (w.job.atLine line) with
    | .ok v job => _
    | .error fault job => _
  cases Call.apply args f (w.job.atLine line) with
  | ok v job => rfl
  | error fault job => rfl

end Realizes

/-! ## Evaluation realizes the rules -/

mutual

/-- **Expressions mean the same without frames.** -/
theorem realizes_expr (e : Expr) : Realizes e.eval e.denote := by
  match e with
  | .number l q => exact realizes_pure _
  | .string l s => exact realizes_pure _
  | .identifier l name => exact .locating l (realizes_lookup name)
  | .binary l op lhs rhs =>
      refine .locating l ((realizes_expr lhs).bind fun a => ?_)
      exact (realizes_expr rhs).bind fun b => realizes_ofExcept _
  | .unary l op operand =>
      exact .locating l ((realizes_expr operand).bind fun a => realizes_ofExcept _)
  | .assign l name value =>
      refine .locating l ((realizes_expr value).bind fun v => ?_)
      exact (realizes_bindName name v).bind fun _ => realizes_pure v
  | .call l f slots =>
      refine .locating l ((realizes_slots f f.params slots).bind fun args => ?_)
      exact realizes_call l.line args f

theorem realizes_slots (f : Builtin) (params : List Param) (slots : List Slot) :
    Realizes (Slot.evalAll f params slots) (Slot.denoteAll f params slots) := by
  match params, slots with
  | _ :: params, .absent :: slots =>
      rw [Slot.evalAll, Slot.denoteAll]
      exact realizes_slots f params slots
  | p :: params, .given l value :: slots =>
      rw [Slot.evalAll, Slot.denoteAll]
      refine (realizes_expr value).bind fun v => ?_
      refine (realizes_checkArgument f p l v).bind fun _ => ?_
      exact (realizes_slots f params slots).bind fun args => realizes_pure _
  | [], [] => exact realizes_pure []
  | [], _ :: _ => exact realizes_pure []
  | _ :: _, [] => exact realizes_pure []

end

mutual

/-- **Statements mean the same without frames**: after a block or a loop the
    variables are what they were before it. -/
theorem realizes_stmt (s : Stmt) : Realizes s.eval s.denote := by
  match s with
  | .expr e =>
      rw [Stmt.eval, Stmt.denote]
      exact realizes_expr e
  | .block l body =>
      rw [Stmt.eval, Stmt.denote]
      refine .locating l (Realizes.bind ?_ fun _ => realizes_pure _)
      exact (realizes_stmts body).inFrame (scripted_stmts body)
  | .forLoop l item source opened body =>
      rw [Stmt.eval, Stmt.denote]
      refine .locating l ((realizes_expr source).bind fun v => ?_)
      cases v with
      | sequence items =>
          refine Realizes.bind (realizes_say fun _ => rfl) fun _ => ?_
          refine Realizes.bind (.forM (fun v => Realizes.inFrame ?_ ?_) items) fun _ =>
            realizes_pure _
          · exact (realizes_bindName item v).bind fun _ => realizes_stmts body
          · exact (Scripted.bindName item v).bind fun _ => scripted_stmts body
      | none => exact realizes_throw _
      | number q => exact realizes_throw _
      | string s => exact realizes_throw _

theorem realizes_stmts (body : List Stmt) :
    Realizes (Stmt.evalAll body) (Stmt.denoteAll body) := by
  match body with
  | [] =>
      rw [Stmt.evalAll, Stmt.denoteAll]
      exact realizes_pure ()
  | s :: rest =>
      rw [Stmt.evalAll, Stmt.denoteAll]
      exact (realizes_stmt s).bind fun _ => realizes_stmts rest

end

theorem realizes_runAll (statements : List Stmt) :
    Realizes (Program.runAll statements) (Program.denoteAll statements) := by
  induction statements with
  | nil => exact realizes_pure ()
  | cons s rest ih =>
      refine Realizes.bind (realizes_say fun _ => rfl) fun _ => ?_
      exact (realizes_stmt s).bind fun _ => ih

end Run

/-! ## Every node -/

/-- What the evaluator is given: a statement, which may be an expression, or
    a program. -/
inductive Node where
  | statement (s : Stmt)
  | program (p : Program)

namespace Node

/-- Evaluates a node. -/
def eval : Node → Run Value
  | .statement s => s.eval
  | .program p => p.eval

/-- The value of a node by the rules. -/
def denote : Node → Lexical Value
  | .statement s => s.denote
  | .program p => p.denote

open Run

theorem scripted (n : Node) : Scripted n.eval := by
  cases n with
  | statement s => exact scripted_stmt s
  | program p => exact .locating _ ((scripted_runAll p.statements).bind fun _ => .pure _)

theorem realizes (n : Node) : Realizes n.eval n.denote := by
  cases n with
  | statement s => exact realizes_stmt s
  | program p => exact .locating _ ((realizes_runAll p.statements).bind fun _ => realizes_pure _)

/-- **Frames implement lexical scoping.**  From any world, evaluation gives
    the value or error that the rules give, and leaves the job, the variables
    and the console that they leave.  However it ends, there are as many
    frames as before, and those around the innermost one are as they were;
    after a block all are.  A frame that was entered for a block or for a
    round of a loop is on top again when it is to be left, so that it is
    never the outermost one that is left. -/
theorem eval_implements_denote (n : Node) (w : World) :
    seen (n.eval w) = n.denote w.seen
      ∧ (endState (n.eval w)).scopes.depth = w.scopes.depth
      ∧ (endState (n.eval w)).scopes.outer = w.scopes.outer
      ∧ (∀ l body, n = .statement (.block l body) →
          (endState (n.eval w)).scopes = w.scopes)
      ∧ ∀ body : List Stmt,
          (endState (Stmt.evalAll body { w with scopes := w.scopes.push })).scopes.pop?
            = some w.scopes
          ∧ ∀ item v,
            (endState ((do Run.bindName item v; Stmt.evalAll body : Run Unit)
              { w with scopes := w.scopes.push })).scopes.pop? = some w.scopes := by
  have houter := n.scripted.outer w
  refine ⟨n.realizes w, ?_, houter, ?_, ?_⟩
  · rw [Scopes.depth_eq, Scopes.depth_eq, houter]
  · rintro l body rfl
    exact scopes_block l body w
  · intro body
    refine ⟨(scripted_stmts body).pop?_of_push w, ?_⟩
    intro item v
    exact ((Scripted.bindName item v).bind fun _ => scripted_stmts body).pop?_of_push w

end Node

end MillScript
