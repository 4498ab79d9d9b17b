import MillScript.Proofs.Machining.Courses
import MillScript.Proofs.Machining.Faults
import MillScript.Proofs.Machining.Frame

/-! # Checks come before moves

    An operation makes all its checks and counts before the tool moves: what
    it is refused for leaves the job untouched, and once it is under way it
    can only fail for where the tool is sent (`Plan.Of.failsInMotion`).  In
    the latter case the moves made so far stay, but as in a success the
    toolpath has only grown, and the settings of the machine are as before. -/

namespace MillScript

namespace Machining

namespace Operation

theorem planOf {o : Operation} {m : Machine} {p : Plan} (h : o.plan m = .ok p) : Plan.Of m p := by
  cases o with
  | drill x y depth peck => exact .drill x y depth peck h
  | circlePocket cx cy radius depth => exact .circlePocket cx cy radius depth h
  | groove start stop depth => exact .groove start stop depth h
  | arcGroove start stop center depth => exact .arcGroove start stop center depth h
  | groovePocket x y width height depth => exact .groovePocket x y width height depth h

/-- An operation is refused on the spot, or a plan is carried out. -/
theorem run_cases (o : Operation) (job : Job) :
    (∃ f, o.run job = .error f job)
      ∨ ∃ p, Plan.Of job.machine p ∧ o.run job = p.carryOut job := by
  rw [o.run_eq, planned]
  cases hplan : o.plan job.machine with
  | error f => exact .inl ⟨f, rfl⟩
  | ok p => exact .inr ⟨p, planOf hplan, rfl⟩

theorem within_run (o : Operation) : Within Job.Moved o.run := by
  intro job
  rcases o.run_cases job with ⟨f, hrun⟩ | ⟨p, hp, hrun⟩
  · rw [hrun]
    exact refl_of Job.Moved job
  · rw [hrun]
    exact hp.within_carryOut job

end Operation

/-- **Operations check before they move, and touch motion state only.**  A
    fault that is not one of the tool on its way leaves the job as it was.
    However an operation ends, the steps of before are still the first ones,
    and the machine differs at most in where the tool is and in what has been
    announced. -/
theorem operation_checks_first (o : Operation) (job : Job) :
    (∀ f job', o.run job = .error f job' → f ≠ RuntimeFault.positionOutOfRange →
        f ≠ RuntimeFault.unevenScale → job' = job)
      ∧ job.path.segments <+: (endState (o.run job)).path.segments
      ∧ (endState (o.run job)).path.line = job.path.line
      ∧ ∃ position positionKnown announcedRpm announcedTool,
          (endState (o.run job)).machine
            = { job.machine with position, positionKnown, announcedRpm, announcedTool } := by
  have hmoved := o.within_run job
  refine ⟨?_, List.reverse_prefix.mpr hmoved.recorded, hmoved.line,
    _, _, _, _, Machine.eq_of_setup hmoved.setup⟩
  intro f job' hrun hposition hscale
  rcases o.run_cases job with ⟨f', hrefused⟩ | ⟨p, hp, hcarried⟩
  · rw [hrefused] at hrun
    injection hrun with _ hjob
    exact hjob.symm
  · rw [hcarried] at hrun
    rcases hp.failsInMotion job f job' hrun with hmotion | hmotion
    · exact absurd hmotion hposition
    · exact absurd hmotion hscale

end Machining

end MillScript
