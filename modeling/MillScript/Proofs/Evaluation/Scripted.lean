import MillScript.Evaluation
import MillScript.Proofs.Outcome

/-! # What evaluation is made of

    Evaluating a script strings together a few kinds of steps: values,
    failures, variables, frames, the console, and calls.  A call is the only
    one that touches the job, and it sets the line first.  `Scripted` is the
    class of work made of such steps; all evaluation belongs to it, so that
    what holds of the steps is carried over to scripts by one induction. -/

namespace MillScript

/-- The job with its next steps at a line. -/
def Job.atLine (job : Job) (line : Int) : Job := ⟨job.machine, ⟨job.path.recorded, line⟩⟩

namespace Run

/-- A call at a line of a script. -/
def call (line : Int) (args : Arguments) (f : Builtin) : Run Value := do
  setLine line
  machining (Call.apply args f)

/-- Work made of the steps that evaluation takes. -/
inductive Scripted : {α : Type} → Run α → Prop
  | pure {α : Type} (a : α) : Scripted (pure a)
  | bind {α β : Type} {x : Run α} {f : α → Run β} (hx : Scripted x)
      (hf : ∀ a, Scripted (f a)) : Scripted (x >>= f)
  | fail {α : Type} (e : Error) : Scripted (throw e : Run α)
  | locating {α : Type} (l : Location) {x : Run α} (hx : Scripted x) : Scripted (locating l x)
  | inFrame {α : Type} {x : Run α} (hx : Scripted x) : Scripted (inFrame x)
  | bindName (name : String) (value : Value) : Scripted (bindName name value)
  | lookup (name : String) : Scripted (lookup name)
  | say (text : World → String) : Scripted (say text)
  | call (line : Int) (args : Arguments) (f : Builtin) : Scripted (call line args f)

/-! ## All evaluation is scripted -/

/-- A result is passed on and nothing changes. -/
theorem scripted_ofExcept {α : Type} (r : Except Fault α) : Scripted (ofExcept r) := by
  cases r with
  | error f => exact .fail { fault := f }
  | ok a => exact .pure a

/-- An argument is checked and nothing changes. -/
theorem scripted_checkArgument (f : Builtin) (p : Param) (l : Location) (v : Value) :
    Scripted (checkArgument f p l v) := by
  by_cases hfits : v.fits p.kind = true
  · have hcheck : checkArgument f p l v = pure () := by
      funext w
      exact if_pos hfits
    rw [hcheck]
    exact .pure ()
  · have hcheck : checkArgument f p l v = throw ⟨TypeFault.argument f p v.kind, l⟩ := by
      funext w
      exact if_neg hfits
    rw [hcheck]
    exact .fail _

theorem Scripted.forM {α : Type} {f : α → Run PUnit} (hf : ∀ a, Scripted (f a))
    (items : List α) : Scripted (items.forM f) := by
  induction items with
  | nil => exact .pure _
  | cons a rest ih => exact (hf a).bind fun _ => ih

mutual

/-- **Expressions** change the world by bindings, calls and traces only. -/
theorem scripted_expr (e : Expr) : Scripted e.eval := by
  match e with
  | .number l q => exact .pure _
  | .string l s => exact .pure _
  | .identifier l name => exact .locating l (.lookup name)
  | .binary l op lhs rhs =>
      refine .locating l ((scripted_expr lhs).bind fun a => ?_)
      exact (scripted_expr rhs).bind fun b => scripted_ofExcept _
  | .unary l op operand =>
      exact .locating l ((scripted_expr operand).bind fun a => scripted_ofExcept _)
  | .assign l name value =>
      refine .locating l ((scripted_expr value).bind fun v => ?_)
      exact (Scripted.bindName name v).bind fun _ => .pure v
  | .call l f slots =>
      exact .locating l ((scripted_slots f f.params slots).bind fun args => .call _ args f)

theorem scripted_slots (f : Builtin) (params : List Param) (slots : List Slot) :
    Scripted (Slot.evalAll f params slots) := by
  match params, slots with
  | _ :: params, .absent :: slots =>
      rw [Slot.evalAll]
      exact scripted_slots f params slots
  | p :: params, .given l value :: slots =>
      rw [Slot.evalAll]
      refine (scripted_expr value).bind fun v => ?_
      refine (scripted_checkArgument f p l v).bind fun _ => ?_
      exact (scripted_slots f params slots).bind fun args => .pure _
  | [], [] => exact .pure []
  | [], _ :: _ => exact .pure []
  | _ :: _, [] => exact .pure []

end

mutual

/-- **Statements** change the world in the same ways. -/
theorem scripted_stmt (s : Stmt) : Scripted s.eval := by
  match s with
  | .expr e =>
      rw [Stmt.eval]
      exact scripted_expr e
  | .block l body =>
      rw [Stmt.eval]
      exact .locating l ((Scripted.inFrame (scripted_stmts body)).bind fun _ => .pure _)
  | .forLoop l item source opened body =>
      rw [Stmt.eval]
      refine .locating l ((scripted_expr source).bind fun v => ?_)
      cases v with
      | sequence items =>
          refine (Scripted.say _).bind fun _ => Scripted.bind ?_ fun _ => .pure _
          refine .forM (fun v => .inFrame ?_) items
          exact (Scripted.bindName item v).bind fun _ => scripted_stmts body
      | none => exact .fail _
      | number q => exact .fail _
      | string s => exact .fail _

theorem scripted_stmts (body : List Stmt) : Scripted (Stmt.evalAll body) := by
  match body with
  | [] =>
      rw [Stmt.evalAll]
      exact .pure ()
  | s :: rest =>
      rw [Stmt.evalAll]
      exact (scripted_stmt s).bind fun _ => scripted_stmts rest

end

theorem scripted_runAll (statements : List Stmt) : Scripted (Program.runAll statements) := by
  induction statements with
  | nil => exact .pure ()
  | cons s rest ih =>
      exact (Scripted.say _).bind fun _ => (scripted_stmt s).bind fun _ => ih

/-! ## How steps that wrap others end -/

section Wrapped

variable {α : Type} {x : Run α} {w w' : World} {a : α}

/-- A place is added to an error, the fault stays. -/
theorem fault_locate (e : Error) (l : Location) : (e.locate l).fault = e.fault := by
  rw [Error.locate]
  split <;> rfl

/-- A place for errors changes no world. -/
theorem endState_locating (l : Location) : endState (locating l x w) = endState (x w) := by
  rw [locating]
  cases x w with
  | ok a w' => rfl
  | error e w' => rfl

theorem locating_eq_ok {l : Location} (h : locating l x w = .ok a w') : x w = .ok a w' := by
  rw [locating] at h
  cases hx : x w with
  | ok b v =>
      rw [hx] at h
      exact h
  | error e v =>
      rw [hx] at h
      cases h

/-- A frame of variables does not concern the job. -/
theorem job_endState_inFrame :
    (endState (inFrame x w)).job = (endState (x { w with scopes := w.scopes.push })).job := by
  rw [inFrame]
  cases x { w with scopes := w.scopes.push } with
  | ok a w' => rfl
  | error e w' => rfl

/-- What gets through in a frame leaves its world without the frame. -/
theorem inFrame_eq_ok (h : inFrame x w = .ok a w') :
    ∃ v : World, x { w with scopes := w.scopes.push } = .ok a v
      ∧ w' = { v with scopes := v.scopes.pop?.getD v.scopes } := by
  rw [inFrame] at h
  cases hx : x { w with scopes := w.scopes.push } with
  | ok b v =>
      rw [hx] at h
      injection h with hb hw
      rw [hb]
      exact ⟨v, rfl, hw.symm⟩
  | error e v =>
      rw [hx] at h
      cases h

/-- A name that is found changes nothing. -/
theorem lookup_eq_ok {name : String} {v : Value} (h : lookup name w = .ok v w') :
    w.scopes.lookup name = some v ∧ w' = w := by
  rw [lookup] at h
  cases hv : w.scopes.lookup name with
  | none =>
      rw [hv] at h
      cases h
  | some u =>
      rw [hv] at h
      injection h with hu hw
      rw [hu]
      exact ⟨rfl, hw.symm⟩

theorem endState_lookup (name : String) : endState (lookup name w) = w := by
  rw [lookup]
  cases w.scopes.lookup name with
  | none => rfl
  | some v => rfl

/-- A call in a world is one on its job, at the line of the script. -/
theorem call_apply (line : Int) (args : Arguments) (f : Builtin) :
    call line args f w = match Call.apply args f (w.job.atLine line) with
      | .ok v job => .ok v { w with job }
      | .error fault job => .error { fault } { w with job } := by
  show machining (Call.apply args f) { w with job := w.job.atLine line } = _
  rw [machining]
  cases Call.apply args f (w.job.atLine line) with
  | ok v job => rfl
  | error fault job => rfl

end Wrapped

/-! ## From calls to scripts -/

section Carry

variable {α : Type} {R : Job → Job → Prop} [IsPreorder Job R]

instance : IsPreorder World fun w w' => R w.job w'.job where
  refl w := refl_of R w.job
  trans _ _ _ h h' := trans_of R h h'

/-- What every call does to the job, however it ends, every script does. -/
theorem Scripted.within
    (hcall : ∀ line args f job, R job (endState (Call.apply args f (job.atLine line))))
    {x : Run α} (h : Scripted x) : Within (fun w w' => R w.job w'.job) x := by
  induction h with
  | pure a => exact within_pure a
  | bind _ _ ihx ihf => exact ihx.bind ihf
  | fail e => exact fun w => refl_of R w.job
  | locating l _ ih =>
      intro w
      rw [endState_locating]
      exact ih w
  | inFrame _ ih =>
      intro w
      rw [job_endState_inFrame]
      exact ih { w with scopes := w.scopes.push }
  | bindName name value => exact fun w => refl_of R w.job
  | lookup name =>
      intro w
      rw [endState_lookup]
      exact refl_of R w.job
  | say text => exact fun w => refl_of R w.job
  | call line args f =>
      intro w
      have hjob := hcall line args f w.job
      rw [call_apply]
      cases hr : Call.apply args f (w.job.atLine line) with
      | ok v job =>
          rw [hr] at hjob
          exact hjob
      | error fault job =>
          rw [hr] at hjob
          exact hjob

/-- What every call that succeeds does to the job, every script that
    succeeds does: nothing that fails is caught. -/
theorem Scripted.job_of_ok
    (hcall : ∀ line args f job v job',
      Call.apply args f (job.atLine line) = .ok v job' → R job job')
    {x : Run α} (h : Scripted x) {w w' : World} {a : α} (hx : x w = .ok a w') :
    R w.job w'.job := by
  induction h generalizing w w' with
  | pure a =>
      injection hx with _ hw
      rw [hw]
      exact refl_of R w'.job
  | bind _ _ ihx ihf =>
      obtain ⟨b, v, hb, hf⟩ := bind_apply_eq_ok.mp hx
      exact trans_of R (ihx hb) (ihf b hf)
  | fail e => cases hx
  | locating l _ ih => exact ih (locating_eq_ok hx)
  | inFrame _ ih =>
      obtain ⟨v, hv, rfl⟩ := inFrame_eq_ok hx
      have hjob := ih hv
      exact hjob
  | bindName name value =>
      injection hx with _ hw
      rw [← hw]
      exact refl_of R w.job
  | lookup name =>
      obtain ⟨-, rfl⟩ := lookup_eq_ok hx
      exact refl_of R w'.job
  | say text =>
      injection hx with _ hw
      rw [← hw]
      exact refl_of R w.job
  | call line args f =>
      rw [call_apply] at hx
      cases hr : Call.apply args f (w.job.atLine line) with
      | ok v job =>
          rw [hr] at hx
          injection hx with _ hw
          rw [← hw]
          exact hcall line args f w.job v job hr
      | error fault job =>
          rw [hr] at hx
          cases hx

end Carry

end Run

end MillScript
