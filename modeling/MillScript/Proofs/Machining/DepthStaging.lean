import Mathlib.Data.List.Forall2
import MillScript.Proofs.Decimal.Arithmetic
import MillScript.Proofs.Machining.Courses

/-! # Down in stages

    Whatever an operation cuts in a pass, it reaches the depth of the whole
    job in equal stages: each cut lies at the depth of some pass, no cut lies
    at the depth of an earlier pass than a cut before it, and the tool leaves
    the work from the full depth. -/

namespace MillScript

open Job

/-- Cuts at depths of passes, the passes in order. -/
def CutsInOrder (depth : Float) (n : Nat) (steps : List Segment) : Prop :=
  ∃ ks : List Nat, ks.Pairwise (· ≤ ·) ∧ (∀ k ∈ ks, 1 ≤ k ∧ k ≤ n)
    ∧ List.Forall₂ (fun (k : Nat) z => (z == -Machining.passDepth depth k n) = true) ks
      (steps.filterMap Segment.cutHeight?)

/-- A job grew by steps that go down to a depth in `n` passes, from above a
    point of the drawing and back up. -/
structure Job.StepsDown (v : Vec2) (depth : Float) (n : Nat) (steps : List Segment)
    (job job' : Job) : Prop where
  grew : Grew steps job job'
  above : job.StartsAbove v steps
  order : CutsInOrder depth n steps
  bottom : ∃ body last, steps = body ++ last
    ∧ ((standing job.machine.position body).z == -depth) = true
    ∧ GoesUp (standing job.machine.position body) job.machine.config.safeHeight last
  top : (job'.machine.position.z == job.machine.config.safeHeight) = true

/-! ## The passes of cuts -/

theorem forall₂_replicate {α β : Type} {R : α → β → Prop} {a : α} {l : List β}
    (h : ∀ b ∈ l, R a b) : List.Forall₂ R (List.replicate l.length a) l := by
  induction l with
  | nil => exact .nil
  | cons b l ih =>
      exact .cons (h b List.mem_cons_self) (ih fun b' hb' => h b' (List.mem_cons_of_mem b hb'))

/-- The cuts of stages belong to passes that follow each other. -/
theorem exists_numbers {P : Nat → Float → Prop} {stages : List (List Segment)} {k : Nat}
    {p : Vec3} (h : PassByPass (fun k _ stage => ∀ s ∈ stage, s.CutsAt (P k)) k p stages) :
    ∃ ks : List Nat, ks.Pairwise (· ≤ ·) ∧ (∀ j ∈ ks, k ≤ j ∧ j < k + stages.length)
      ∧ List.Forall₂ P ks (stages.flatten.filterMap Segment.cutHeight?) := by
  induction stages generalizing k p with
  | nil => exact ⟨[], .nil, fun _ hj => absurd hj List.not_mem_nil, .nil⟩
  | cons stage rest ih =>
      obtain ⟨hstage, hrest⟩ := h
      obtain ⟨ks, hsorted, hbounds, hcuts⟩ := ih hrest
      -- all cuts of the first stage belong to pass `k`
      have hfirst : ∀ z ∈ stage.filterMap Segment.cutHeight?, P k z := by
        intro z hz
        obtain ⟨s, hs, hcut⟩ := List.mem_filterMap.mp hz
        exact hstage s hs z hcut
      refine ⟨List.replicate (stage.filterMap Segment.cutHeight?).length k ++ ks, ?_, ?_, ?_⟩
      · refine List.pairwise_append.mpr
          ⟨List.pairwise_replicate.mpr (.inr le_rfl), hsorted, ?_⟩
        intro i hi j hj
        rw [List.eq_of_mem_replicate hi]
        exact (Nat.le_succ k).trans (hbounds j hj).1
      · intro j hj
        rw [List.length_cons]
        rcases List.mem_append.mp hj with hj | hj
        · rw [List.eq_of_mem_replicate hj]
          omega
        · have := hbounds j hj
          omega
      · rw [List.flatten_cons, List.filterMap_append]
        exact List.rel_append (forall₂_replicate hfirst) hcuts

/-- **Stages go down in order.** -/
theorem Job.Staged.stepsDown {c : Course} {v : Vec2} {depth : Float} {n : Nat}
    {opening closing : List Segment} {stages : List (List Segment)} {job job' : Job}
    (h : Staged c v depth n opening stages closing job job') :
    StepsDown v depth n (opening ++ stages.flatten ++ closing) job job' := by
  refine ⟨h.grew, ?_, ?_, ⟨_, _, rfl, h.bottom, h.retracts⟩, h.top⟩
  · rcases h.above with ⟨rest, hrest⟩ | hthere
    · exact .inl ⟨rest ++ stages.flatten ++ closing, by rw [hrest]; rfl⟩
    · exact .inr hthere
  · obtain ⟨ks, hsorted, hbounds, hcuts⟩ :=
      exists_numbers (h.passes.imp fun _ _ _ hstage => hstage.heights)
    refine ⟨ks, hsorted, ?_, ?_⟩
    · intro k hk
      have := hbounds k hk
      have := h.length
      omega
    · -- neither the way to the work nor the way back cuts
      have hopening : opening.filterMap Segment.cutHeight? = [] :=
        List.filterMap_eq_nil_iff.mpr h.uncut
      have hclosing : closing.filterMap Segment.cutHeight? = [] :=
        List.filterMap_eq_nil_iff.mpr h.retracts.uncut
      rw [List.filterMap_append, List.filterMap_append, hopening, hclosing, List.nil_append,
        List.append_nil]
      exact hcuts

namespace Machining

/-! ## The number of passes -/

/-- Whatever is divided into steps has at least one. -/
theorem one_le_stepCount {what : String} {distance step : Float} {n : Nat}
    (h : stepCount what distance step = .ok n) : 1 ≤ n := by
  obtain ⟨-, -, rfl⟩ := stepCount_eq_ok h
  exact Nat.le_max_left 1 _

/-- There are at most as many steps as are allowed. -/
theorem stepCount_le_maxSteps {what : String} {distance step : Float} {n : Nat}
    (h : stepCount what distance step = .ok n) : n ≤ maxSteps := by
  obtain ⟨-, hle, rfl⟩ := stepCount_eq_ok h
  exact Nat.max_le.mpr ⟨by decide, Decimal.ceil_le_of_le (by decide) hle⟩

/-- **Depth is reached in stages.**  An operation that gets through, whatever
    the state of its machine, appends cuts at the depths of the fewest equal
    passes that its depth needs, in order. -/
theorem operation_steps_down {o : Operation} {job job' : Job} {u : Unit}
    (h : o.run job = .ok u job') :
    ∃ v n steps, o.StartsAt job.machine v
      ∧ depthPasses o.depth (o.stepdown job.machine) = .ok n ∧ 1 ≤ n ∧ n ≤ 100000
      ∧ StepsDown v o.depth n steps job job' := by
  rw [o.run_eq] at h
  obtain ⟨p, hplan, hrun⟩ := planned_eq_ok h
  obtain ⟨hpasses, hstart, c, hfollows⟩ := Operation.exists_follows hplan
  have hone := one_le_stepCount hpasses
  obtain ⟨opening, stages, closing, hstaged⟩ := hfollows.staged hrun hone
  exact ⟨p.start, p.passes, _, hstart, hpasses, hone, stepCount_le_maxSteps hpasses,
    hstaged.stepsDown⟩

/-- A hole of six millimetres in pecks of at most two and a half takes three of
    two. -/
theorem operation_steps_down_threePecks :
    ∃ job' steps, (Operation.drill 10 20 6 2.5).run fresh = .ok () job'
      ∧ steps.filterMap Segment.cutHeight? = [-2, -4, -6]
      ∧ StepsDown ⟨10, 20⟩ 6 3 steps fresh job' := by
  have hthrough : gotThrough ((Operation.drill 10 20 6 2.5).run fresh) = true := by
    decide +kernel
  have hheights : (endState ((Operation.drill 10 20 6 2.5).run fresh)).path.segments.filterMap
      Segment.cutHeight? = [-2, -4, -6] := by decide +kernel
  have hpecks : depthPasses 6 2.5 = .ok 3 := by decide +kernel
  obtain ⟨u, job', hrun⟩ := eq_ok_of_gotThrough hthrough
  obtain ⟨v, n, steps, hstart, hn, -, -, hdown⟩ := operation_steps_down hrun
  have hpoint : v = ⟨10, 20⟩ := hstart
  have hthree : n = 3 := Except.ok.inj (hn.symm.trans hpecks)
  rw [hpoint, hthree] at hdown
  -- the toolpath was empty before
  have hsteps : job'.path.segments = steps := hdown.grew.segments
  rw [hrun, endState, hsteps] at hheights
  exact ⟨job', steps, hrun, hheights, hdown⟩

end Machining

end MillScript
