import MillScript.Proofs.Session.History

/-! # The calls that scripts make

    The history of a session can be computed.  `calls` follows the evaluator
    from world to world and lists the calls on its way; if evaluation gets
    through, these are the calls that lead from the job before it to the job
    after it. -/

namespace MillScript

namespace Run

/-- The calls that follow on work, if it gets through. -/
def callsAfter {α : Type} (r : EStateM.Result Error World α)
    (next : α → World → List Performed) : List Performed :=
  match r with
  | .ok a w => next a w
  | .error _ _ => []

/-- The calls of work that is done for each item in turn. -/
def callsEach {α : Type} (work : α → Run PUnit) (calls : α → World → List Performed) :
    List α → World → List Performed
  | [], _ => []
  | a :: rest, w => calls a w ++ callsAfter (work a w) fun _ u => callsEach work calls rest u

/-- The world after a text was printed. -/
def told (text : World → String) (w : World) : World :=
  { w with console := w.console.say fun _ => text w }

end Run

open Run

/-- A call as a list: it has no place in a history unless it gets through. -/
def Performed.ofCall (f : Builtin) (args : Arguments) (job : Job) : List Performed :=
  match h : Call.apply args f job with
  | .ok v after => [⟨f, args, job, v, after, h⟩]
  | .error _ _ => []

mutual

/-- The calls made for the value of an expression. -/
def Expr.calls : Expr → World → List Performed
  | .number _ _, _ => []
  | .string _ _, _ => []
  | .identifier _ _, _ => []
  | .binary _ _ lhs rhs, w => lhs.calls w ++ callsAfter (lhs.eval w) fun _ u => rhs.calls u
  | .unary _ _ operand, w => operand.calls w
  | .assign _ _ value, w => value.calls w
  | .call l f slots, w =>
    Slot.calls f f.params slots w
      ++ callsAfter (Slot.evalAll f f.params slots w) fun args u =>
        Performed.ofCall f args (u.job.atLine l.line)

/-- The calls made for the arguments in the slots of a call. -/
def Slot.calls (f : Builtin) : List Param → List Slot → World → List Performed
  | _ :: params, .absent :: slots, w => Slot.calls f params slots w
  | _ :: params, .given _ value :: slots, w =>
    value.calls w ++ callsAfter (value.eval w) fun _ u => Slot.calls f params slots u
  | _, _, _ => []

end

mutual

/-- The calls made by a statement. -/
def Stmt.calls : Stmt → World → List Performed
  | .expr e, w => e.calls w
  | .block _ body, w => Stmt.callsAll body { w with scopes := w.scopes.push }
  | .forLoop _ item source _ body, w =>
    source.calls w ++ callsAfter (source.eval w) fun v u =>
      match v with
      | .sequence items =>
        -- the frame of a round is left before the next one starts
        callsEach (fun v => inFrame do bindName item v; Stmt.evalAll body)
          (fun v u => Stmt.callsAll body { u with scopes := u.scopes.push.bind item v })
          items (told (fun _ => "for " ++ item ++ " in " ++ (Value.sequence items).text ++ "\n") u)
      | _ => []

/-- The calls made by statements in order. -/
def Stmt.callsAll : List Stmt → World → List Performed
  | [], _ => []
  | s :: rest, w => s.calls w ++ callsAfter (s.eval w) fun _ u => Stmt.callsAll rest u

end

/-- The calls made by the statements of a program. -/
def Program.callsAll : List Stmt → World → List Performed
  | [], _ => []
  | s :: rest, w =>
    let u := told (fun w =>
      "line " ++ s.location.line.repr ++ ": " ++ w.job.path.size.repr ++ " segments so far\n") w
    s.calls u ++ callsAfter (s.eval u) fun _ v => Program.callsAll rest v

/-! ## Calls lead from job to job -/

namespace Run

variable {α β : Type}

/-- Work that gets through was led on by the calls. -/
def Makes (calls : World → List Performed) (x : Run α) : Prop :=
  ∀ w a w', x w = .ok a w' → Leads w.job (calls w) w'.job

/-- Nothing is called, and nothing is done to the job. -/
theorem leads_nil (job : Job) : Leads job [] job := .nothing ⟨rfl, rfl⟩

/-- To give back a value is no call. -/
theorem makes_pure (a : α) : Makes (fun _ => []) (pure a : Run α) := by
  intro w b w' h
  injection h with _ hw
  rw [hw]
  exact leads_nil _

theorem makes_throw (e : Error) : Makes (fun _ => []) (throw e : Run α) := by
  intro w a w' h
  cases h

theorem makes_ofExcept (r : Except Fault α) : Makes (fun _ => []) (ofExcept r) := by
  cases r with
  | error f => exact makes_throw { fault := f }
  | ok a => exact makes_pure a

theorem makes_lookup (name : String) : Makes (fun _ => []) (lookup name) := by
  intro w v w' h
  obtain ⟨-, rfl⟩ := lookup_eq_ok h
  exact leads_nil _

theorem makes_bindName (name : String) (value : Value) :
    Makes (fun _ => []) (bindName name value) := by
  intro w v w' h
  injection h with _ hw
  rw [← hw]
  exact leads_nil _

variable {x : Run α} {calls : World → List Performed}

/-- The calls of the first part, and then those of the second if it comes to
    that. -/
theorem Makes.bind (hx : Makes calls x) {f : α → Run β} {next : α → World → List Performed}
    (hf : ∀ a, Makes (next a) (f a)) :
    Makes (fun w => calls w ++ callsAfter (x w) next) (x >>= f) := by
  intro w b w' h
  obtain ⟨a, u, ha, hb⟩ := bind_apply_eq_ok.mp h
  show Leads w.job (calls w ++ callsAfter (x w) next) w'.job
  rw [ha]
  exact (hx w a u ha).trans (hf a u b w' hb)

/-- Work after which nothing more is called. -/
theorem Makes.bindQuiet (hx : Makes calls x) {f : α → Run β}
    (hf : ∀ a, Makes (fun _ => []) (f a)) : Makes calls (x >>= f) := by
  intro w b w' h
  obtain ⟨a, u, ha, hb⟩ := bind_apply_eq_ok.mp h
  have hleads := (hx w a u ha).trans (hf a u b w' hb)
  rw [List.append_nil] at hleads
  exact hleads

theorem Makes.locating (hx : Makes calls x) (l : Location) : Makes calls (locating l x) :=
  fun w a w' h => hx w a w' (locating_eq_ok h)

theorem Makes.inFrame (hx : Makes calls x) :
    Makes (fun w => calls { w with scopes := w.scopes.push }) (inFrame x) := by
  intro w a w' h
  obtain ⟨v, hv, rfl⟩ := inFrame_eq_ok h
  exact hx _ a v hv

/-- A name that is bound first. -/
theorem Makes.afterBindName (hx : Makes calls x) (name : String) (value : Value) :
    Makes (fun w => calls { w with scopes := w.scopes.bind name value })
      (do bindName name value; x) := fun _ a w' h => hx _ a w' h

/-- A text that is printed first. -/
theorem Makes.afterSay (hx : Makes calls x) (text : World → String) :
    Makes (fun w => calls (told text w)) (do say text; x) := fun _ a w' h => hx _ a w' h

/-- An argument that passes its check changes nothing. -/
theorem checkArgument_eq_ok {f : Builtin} {p : Param} {l : Location} {v : Value} {w w' : World}
    {u : Unit} (h : checkArgument f p l v w = .ok u w') : w' = w := by
  rw [checkArgument] at h
  split at h
  · injection h with _ hw
    exact hw.symm
  · cases h

/-- An argument that is checked first. -/
theorem Makes.afterCheck (hx : Makes calls x) (f : Builtin) (p : Param) (l : Location)
    (v : Value) : Makes calls (do checkArgument f p l v; x) := by
  intro w a w' h
  obtain ⟨_, u, hcheck, hrest⟩ := bind_apply_eq_ok.mp h
  obtain rfl := checkArgument_eq_ok hcheck
  exact hx u a w' hrest

/-- The calls of all rounds of a loop that are made. -/
theorem Makes.forM {work : α → Run PUnit} {each : α → World → List Performed}
    (h : ∀ a, Makes (each a) (work a)) (items : List α) :
    Makes (callsEach work each items) (items.forM work) := by
  induction items with
  | nil => exact makes_pure _
  | cons a rest ih => exact (h a).bind fun _ => ih

/-- A call that gets through is performed with all that goes with it. -/
theorem ofCall_eq {f : Builtin} {args : Arguments} {job after : Job} {v : Value}
    (h : Call.apply args f job = .ok v after) :
    Performed.ofCall f args job = [⟨f, args, job, v, after, h⟩] := by
  rw [Performed.ofCall]
  split
  · rename_i v' after' h'
    rw [h] at h'
    injection h' with hv hafter
    subst hv hafter
    rfl
  · rename_i e j h'
    rw [h] at h'
    cases h'

/-- A call in a script is one on the job, at the line of the script. -/
theorem call_eq_ok {line : Int} {args : Arguments} {f : Builtin} {w w' : World} {v : Value}
    (h : call line args f w = .ok v w') :
    Call.apply args f (w.job.atLine line) = .ok v w'.job ∧ w'.scopes = w.scopes := by
  rw [call_apply] at h
  cases happly : Call.apply args f (w.job.atLine line) with
  | error fault job =>
      rw [happly] at h
      cases h
  | ok u job =>
      rw [happly] at h
      injection h with hu hw
      rw [← hw, hu]
      exact ⟨rfl, rfl⟩

/-- A call in a script makes this one call. -/
theorem makes_call (line : Int) (args : Arguments) (f : Builtin) :
    Makes (fun w => Performed.ofCall f args (w.job.atLine line)) (call line args f) := by
  intro w v w' h
  obtain ⟨happly, -⟩ := call_eq_ok h
  show Leads w.job (Performed.ofCall f args (w.job.atLine line)) w'.job
  rw [ofCall_eq happly]
  exact .perform _ ⟨rfl, rfl⟩ (leads_nil _)

mutual

/-- **Expressions make the calls that are listed for them**, in this order. -/
theorem makes_expr (e : Expr) : Makes e.calls e.eval := by
  match e with
  | .number l q => exact makes_pure _
  | .string l s => exact makes_pure _
  | .identifier l name => exact (makes_lookup name).locating l
  | .binary l op lhs rhs =>
      refine Makes.locating ?_ l
      exact (makes_expr lhs).bind fun a => (makes_expr rhs).bindQuiet fun b => makes_ofExcept _
  | .unary l op operand =>
      exact ((makes_expr operand).bindQuiet fun a => makes_ofExcept _).locating l
  | .assign l name value =>
      refine Makes.locating ((makes_expr value).bindQuiet fun v => ?_) l
      exact (makes_bindName name v).bindQuiet fun _ => makes_pure v
  | .call l f slots =>
      refine Makes.locating ?_ l
      exact (makes_slots f f.params slots).bind fun args => makes_call _ args f

/-- Arguments make theirs before the call they are for. -/
theorem makes_slots (f : Builtin) (params : List Param) (slots : List Slot) :
    Makes (Slot.calls f params slots) (Slot.evalAll f params slots) := by
  match params, slots with
  | _ :: params, .absent :: slots =>
      rw [Slot.evalAll]
      exact makes_slots f params slots
  | p :: params, .given l value :: slots =>
      rw [Slot.evalAll]
      refine (makes_expr value).bind fun v => Makes.afterCheck ?_ f p l v
      exact (makes_slots f params slots).bindQuiet fun args => makes_pure _
  | [], [] => exact makes_pure []
  | [], _ :: _ => exact makes_pure []
  | _ :: _, [] => exact makes_pure []

end

mutual

/-- **Statements make the calls that are listed for them.** -/
theorem makes_stmt (s : Stmt) : Makes s.calls s.eval := by
  match s with
  | .expr e =>
      rw [Stmt.eval]
      exact makes_expr e
  | .block l body =>
      rw [Stmt.eval]
      exact ((makes_stmts body).inFrame.bindQuiet fun _ => makes_pure _).locating l
  | .forLoop l item source opened body =>
      rw [Stmt.eval]
      refine Makes.locating ((makes_expr source).bind fun v => ?_) l
      cases v with
      | sequence items =>
          refine Makes.afterSay (Makes.bindQuiet ?_ fun _ => makes_pure _) _
          exact .forM (fun v => ((makes_stmts body).afterBindName item v).inFrame) items
      | none => exact makes_throw _
      | number q => exact makes_throw _
      | string s => exact makes_throw _

theorem makes_stmts (body : List Stmt) : Makes (Stmt.callsAll body) (Stmt.evalAll body) := by
  match body with
  | [] =>
      rw [Stmt.evalAll]
      exact makes_pure ()
  | s :: rest =>
      rw [Stmt.evalAll]
      exact (makes_stmt s).bind fun _ => makes_stmts rest

end

theorem makes_runAll (statements : List Stmt) :
    Makes (Program.callsAll statements) (Program.runAll statements) := by
  induction statements with
  | nil => exact makes_pure ()
  | cons s rest ih => exact ((makes_stmt s).bind fun _ => ih).afterSay _

end Run

/-! ## Sessions -/

namespace Session

/-- The calls that a script makes for good: none if it fails. -/
def scriptCalls (s : Session) (script : Script) : List Performed :=
  match Tree.ofSource script.source with
  | .error _ => []
  | .ok tree =>
    match tree.toProgram with
    | .error _ => []
    | .ok p =>
      let w := (s.traced script.name tree).world
      callsAfter (p.run w) fun _ _ => Program.callsAll p.statements w

/-- The calls that scripts make for good, one script after the other. -/
def calls : Session → List Script → List Performed
  | _, [] => []
  | s, script :: rest => s.scriptCalls script ++ calls (s.attempt script).2 rest

/-- A script is taken back and has made no calls, or its program ran through
    and made the calls listed. -/
theorem attempt_cases (s : Session) (script : Script) :
    (s.scriptCalls script = [] ∧ s.Agree (s.attempt script).2)
      ∨ ∃ (tree : Tree) (p : Program) (w : World), tree.toProgram = .ok p
        ∧ p.run (s.traced script.name tree).world = .ok () w
        ∧ s.scriptCalls script
          = Program.callsAll p.statements (s.traced script.name tree).world
        ∧ (s.attempt script).2 = done script.name w := by
  rw [attempt, scriptCalls, run_apply]
  cases Tree.ofSource script.source with
  | error e => exact .inl ⟨rfl, .refl s⟩
  | ok tree =>
      -- from here on the console has the tree on it, which agreement does not look at
      dsimp only
      cases hp : tree.toProgram with
      | error e => exact .inl ⟨rfl, agree_say s _⟩
      | ok p =>
          dsimp only
          cases hdone : carryOut script.name p (s.traced script.name tree) with
          | error e s' =>
              have hagree := (agree_say s _).trans (agree_of_carryOut_eq_error hdone)
              rw [carryOut] at hdone
              cases hw : p.run (s.traced script.name tree).world with
              | error e' w => exact .inl ⟨rfl, hagree⟩
              | ok u w =>
                  rw [hw] at hdone
                  cases hdone
          | ok u s' =>
              rw [carryOut] at hdone
              cases hw : p.run (s.traced script.name tree).world with
              | error e' w =>
                  rw [hw] at hdone
                  cases hdone
              | ok u' w =>
                  rw [hw] at hdone
                  injection hdone with _ hs
                  exact .inr ⟨tree, p, w, hp, hw, rfl, hs.symm⟩

/-- The calls of a script lead from the job before it to the job after it;
    those of a script that fails are taken back. -/
theorem leads_scriptCalls (s : Session) (script : Script) :
    Leads s.world.job (s.scriptCalls script) (s.attempt script).2.world.job := by
  rcases s.attempt_cases script with ⟨hnone, hagree⟩ | ⟨tree, p, w, -, hrun, hcalls, hdone⟩
  · rw [hnone]
    exact .nothing hagree.world.job
  · rw [hcalls, hdone]
    exact makes_runAll p.statements _ _ w hrun

/-- **The calls of a session are its history.** -/
theorem leads_calls (s : Session) (scripts : List Script) :
    Leads s.world.job (s.calls scripts) (s.afterAll scripts).world.job := by
  induction scripts generalizing s with
  | nil => exact leads_nil _
  | cons script rest ih => exact (s.leads_scriptCalls script).trans (ih (s.attempt script).2)

end Session

end MillScript
