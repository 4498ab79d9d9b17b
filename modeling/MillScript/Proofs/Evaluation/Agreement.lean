import MillScript.Proofs.Evaluation.Scripted

/-! # Worlds that a script cannot tell apart

    The line of the toolpath is set at every call before anything is
    recorded, and the console is written but never read.  Two worlds that
    differ in no more than these two give the same outcome for every script,
    and are left in worlds that differ in no more than these two. -/

namespace MillScript

/-- Jobs with the same machine and steps. -/
structure Job.Agree (j j' : Job) : Prop where
  machine : j.machine = j'.machine
  recorded : j.path.recorded = j'.path.recorded

theorem Job.Agree.symm {j j' : Job} (h : j.Agree j') : j'.Agree j :=
  ⟨h.machine.symm, h.recorded.symm⟩

theorem Job.Agree.trans {j k l : Job} (h : j.Agree k) (h' : k.Agree l) : j.Agree l :=
  ⟨h.machine.trans h'.machine, h.recorded.trans h'.recorded⟩

/-- Jobs that agree have the same steps. -/
theorem Job.Agree.segments {j j' : Job} (h : j.Agree j') : j.path.segments = j'.path.segments := by
  rw [Toolpath.segments, Toolpath.segments, h.recorded]

/-- Worlds with the same machine, steps and variables. -/
structure World.Agree (w w' : World) : Prop where
  job : w.job.Agree w'.job
  scopes : w.scopes = w'.scopes

namespace World

theorem Agree.refl (w : World) : Agree w w := ⟨⟨rfl, rfl⟩, rfl⟩

theorem Agree.symm {w w' : World} (h : Agree w w') : Agree w' w := ⟨h.job.symm, h.scopes.symm⟩

theorem Agree.trans {u v w : World} (h : Agree u v) (h' : Agree v w) : Agree u w :=
  ⟨h.job.trans h'.job, h.scopes.trans h'.scopes⟩

/-- With the line set, nothing of the job is left to differ. -/
theorem Agree.atLine {w w' : World} (h : Agree w w') (line : Int) :
    w.job.atLine line = w'.job.atLine line := by
  rw [Job.atLine, Job.atLine, h.job.machine, h.job.recorded]

/-- A change of the variables alone. -/
theorem Agree.rescope {w w' : World} (h : Agree w w') (change : Scopes → Scopes) :
    Agree { w with scopes := change w.scopes } { w' with scopes := change w'.scopes } :=
  ⟨h.job, congrArg change h.scopes⟩

end World

namespace Run

open World

/-- **Scripts do not see the difference.** -/
theorem Scripted.alike {α : Type} {x : Run α} (h : Scripted x) {w w' : World}
    (hw : Agree w w') : Alike Agree (x w) (x w') := by
  induction h generalizing w w' with
  | pure a => exact .ok a hw
  | bind _ _ ihx ihf => exact (ihx hw).bind fun a _ _ hv => ihf a hv
  | fail e => exact .error e hw
  | @locating _ l x _ ih =>
      have hx := ih hw
      rw [Run.locating, Run.locating]
      generalize x w = r, x w' = r' at hx
      cases hx with
      | ok a hv => exact .ok a hv
      | error e hv => exact .error (e.locate l) hv
  | @inFrame _ x _ ih =>
      have hx := ih (hw.rescope Scopes.push)
      rw [Run.inFrame, Run.inFrame]
      generalize x { w with scopes := w.scopes.push } = r,
        x { w' with scopes := w'.scopes.push } = r' at hx
      cases hx with
      | ok a hv => exact .ok a (hv.rescope fun s => s.pop?.getD s)
      | error e hv => exact .error e (hv.rescope fun s => s.pop?.getD s)
  | bindName name value => exact .ok () (hw.rescope fun s => s.bind name value)
  | lookup name =>
      rw [Run.lookup, Run.lookup, hw.scopes]
      cases w'.scopes.lookup name with
      | none => exact .error _ hw
      | some v => exact .ok v hw
  | say text => exact .ok () ⟨hw.job, hw.scopes⟩
  | call line args f =>
      rw [call_apply, call_apply, hw.atLine line]
      cases Call.apply args f (w'.job.atLine line) with
      | ok v job => exact .ok v ⟨⟨rfl, rfl⟩, hw.scopes⟩
      | error fault job => exact .error _ ⟨⟨rfl, rfl⟩, hw.scopes⟩

end Run

end MillScript
