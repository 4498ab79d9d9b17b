import MillScript.Proofs.Machining.DepthStaging

/-! # No pass loses a cut

    A straight move to where the tool is known to be is left out, so a pass
    could make fewer cuts than the one before it if it started elsewhere.  It
    does not: pockets and grooves along arcs come back to the same point
    between passes, and a straight groove ends each pass where the next one
    starts. -/

namespace MillScript

open Job

/-- A job grew by `n` passes of a kind, each to real places and with its cuts
    at its own depth, and by nothing else that cuts. -/
def Job.InPasses (depth : Float) (n : Nat) (Q : Nat → Vec3 → List Segment → Prop)
    (job job' : Job) : Prop :=
  ∃ opening stages closing, Grew (opening ++ stages.flatten ++ closing) job job'
    ∧ (∀ s ∈ opening ++ closing, s.cutHeight? = none) ∧ stages.length = n
    ∧ PassByPass (fun k p stage => Q k p stage ∧ (∀ s ∈ stage, s.action.Placed)
        ∧ ∀ s ∈ stage, s.CutsAt (· == -Machining.passDepth depth k n)) 1
      (standing job.machine.position opening) stages

theorem Job.InPasses.imp {depth : Float} {n : Nat} {Q Q' : Nat → Vec3 → List Segment → Prop}
    {job job' : Job} (h : InPasses depth n Q job job')
    (himp : ∀ k p stage, Q k p stage → (∀ s ∈ stage, s.action.Placed) → Q' k p stage) :
    InPasses depth n Q' job job' := by
  obtain ⟨opening, stages, closing, hgrew, huncut, hlength, hpasses⟩ := h
  refine ⟨opening, stages, closing, hgrew, huncut, hlength, hpasses.imp ?_⟩
  rintro k p stage ⟨hstage, hplaced, hheights⟩
  exact ⟨himp k p stage hstage hplaced, hplaced, hheights⟩

/-- A pass that starts over a point of the drawing and makes side cuts for
    strokes from there, all of them. -/
def Traces (m : Machine) (start : Vec2) (strokes : List Machining.Stroke) (p : Vec3)
    (stage : List Segment) : Prop :=
  p.Over (m.spot start) ∧ sideCuts p stage = Machining.traced m (m.spot start) strokes

/-- Each pass down to a depth traces the same strokes from the same point. -/
def Job.Repeats (start : Vec2) (strokes : List Machining.Stroke) (depth : Float)
    (job job' : Job) : Prop :=
  ∃ n, Machining.depthPasses depth job.machine.material.stepdown = .ok n
    ∧ InPasses depth n (fun _ => Traces job.machine start strokes) job job'

/-- The passes down to a depth go forth and back on a line, the odd ones to
    its end and the even ones to its start. -/
def Job.Alternates (start stop : Vec2) (depth : Float) (job job' : Job) : Prop :=
  ∃ n, Machining.depthPasses depth job.machine.material.stepdown = .ok n
    ∧ InPasses depth n (fun k p stage =>
        Traces job.machine (if k % 2 = 1 then start else stop)
            [.line (if k % 2 = 1 then stop else start)] p stage
          ∧ (standing p stage).Over (job.machine.spot (if k % 2 = 1 then stop else start)))
        job job'

namespace Machining

variable {job job' : Job} {u : Unit} {depth : Float}

section Follows

variable {p : Plan}

/-- A plan that follows a course makes its passes. -/
theorem Plan.Follows.inPasses {c : Course} {Q : Nat → Vec3 → List Segment → Prop}
    (h : p.Follows job.machine depth c) (hrun : p.carryOut job = .ok u job')
    (hpasses : 1 ≤ p.passes)
    (hQ : ∀ k q stage, c.Stage depth p.passes k q stage → Q k q stage) :
    InPasses depth p.passes Q job job' := by
  obtain ⟨opening, stages, closing, hstaged⟩ := h.staged hrun hpasses
  refine ⟨opening, stages, closing, hstaged.grew, ?_, hstaged.length,
    hstaged.passes.imp fun k q stage hstage =>
      ⟨hQ k q stage hstage, hstage.placed, hstage.heights⟩⟩
  exact List.forall_mem_append.mpr ⟨hstaged.uncut, hstaged.retracts.uncut⟩

/-- A plan that starts over traces its strokes in every pass. -/
theorem Plan.Follows.repeats {start : Vec2} {strokes : List Stroke}
    (h : p.Follows job.machine depth (.again job.machine start strokes p.passes))
    (hrun : p.carryOut job = .ok u job')
    (hpasses : depthPasses depth job.machine.material.stepdown = .ok p.passes) :
    job.Repeats start strokes depth job' :=
  ⟨p.passes, hpasses, h.inPasses hrun (one_le_stepCount hpasses)
    fun _ _ _ hstage => ⟨hstage.starts, hstage.cuts⟩⟩

end Follows

/-! ## Each operation -/

/-- Every pass of a round pocket cuts all rings. -/
theorem circlePocket_repeats {cx cy radius : Float}
    (h : circlePocket cx cy radius depth job = .ok u job') :
    ∃ rings, stepCount "stepover" (radius - job.machine.cutterDiameter / 2) job.machine.stepover
        = .ok rings
      ∧ job.Repeats ⟨cx, cy⟩
        (roundStrokes ⟨cx, cy⟩ (radius - job.machine.cutterDiameter / 2) rings) depth job' := by
  rw [circlePocket_eq] at h
  obtain ⟨p, hplan, hrun⟩ := planned_eq_ok h
  obtain ⟨-, -, k, hrings, n, hn, rfl⟩ := circlePlan_eq_ok hplan
  rw [rings_eq] at hrun
  exact ⟨k, hrings, (follows_clearing _).repeats hrun hn⟩

/-- Every pass of a rectangular pocket cuts all loops. -/
theorem groovePocket_repeats {x y width height : Float}
    (h : groovePocket x y width height depth job = .ok u job') :
    ∃ loops, pocketLoops x y width height job.machine = .ok loops
      ∧ job.Repeats loops.start ((loops.path.drop 1).map Stroke.line) depth job' := by
  rw [groovePocket_eq] at h
  obtain ⟨p, hplan, hrun⟩ := planned_eq_ok h
  obtain ⟨-, loops, hloops, n, hn, rfl⟩ := pocketPlan_eq_ok hplan
  rw [loopCuts_eq] at hrun
  exact ⟨loops, hloops, (follows_clearing _).repeats hrun hn⟩

/-- Every pass along an arc cuts the whole arc. -/
theorem arcGroove_repeats {start stop center : Vec2}
    (h : arcGroove start stop center depth job = .ok u job') :
    job.Repeats start [.arc stop center] depth job' := by
  rw [arcGroove_eq] at h
  obtain ⟨p, hplan, hrun⟩ := planned_eq_ok h
  obtain ⟨-, -, -, n, hn, rfl⟩ := arcPlan_eq_ok hplan
  exact (follows_arc stop center _).repeats hrun hn

/-- The passes of a straight groove go forth and back. -/
theorem groove_alternates {start stop : Vec2} (h : groove start stop depth job = .ok u job') :
    job.Alternates start stop depth job' := by
  rw [groove_eq] at h
  obtain ⟨p, hplan, hrun⟩ := planned_eq_ok h
  obtain ⟨-, n, hn, rfl⟩ := groovePlan_eq_ok hplan
  refine ⟨n, hn, (follows_groove stop).inPasses hrun (one_le_stepCount hn) ?_⟩
  intro k q stage hstage
  -- what is traced for one stroke is the cut for it and nothing after
  exact ⟨⟨hstage.starts, hstage.cuts.trans (List.append_nil _).symm⟩, hstage.stops⟩

/-- **No pass loses a cut.**  From every state of the machine, the passes of a
    pocket or of a groove along an arc start over the same point and make the
    same side cuts, those of all their strokes.  The passes of a straight
    groove go forth and back between the scaled ends, each from where the
    last one ended. -/
theorem passes_lose_no_cut (job job' : Job) (depth : Float) :
    (∀ cx cy radius, circlePocket cx cy radius depth job = .ok () job' →
      ∃ rings, stepCount "stepover" (radius - job.machine.cutterDiameter / 2)
          job.machine.stepover = .ok rings
        ∧ job.Repeats ⟨cx, cy⟩
          (roundStrokes ⟨cx, cy⟩ (radius - job.machine.cutterDiameter / 2) rings) depth job')
    ∧ (∀ x y width height, groovePocket x y width height depth job = .ok () job' →
      ∃ loops, pocketLoops x y width height job.machine = .ok loops
        ∧ job.Repeats loops.start ((loops.path.drop 1).map Stroke.line) depth job')
    ∧ (∀ start stop center, arcGroove start stop center depth job = .ok () job' →
      job.Repeats start [.arc stop center] depth job')
    ∧ (∀ start stop, groove start stop depth job = .ok () job' →
      job.Alternates start stop depth job') :=
  ⟨fun _ _ _ h => circlePocket_repeats h, fun _ _ _ _ h => groovePocket_repeats h,
    fun _ _ _ h => arcGroove_repeats h, fun _ _ h => groove_alternates h⟩

/-- A machine as it comes, but with a cutter of two millimetres. -/
def fineCutter : Job := ⟨{ fresh.machine with cutterDiameter := 2 }, {}⟩

/-- Three passes of each: two rings, two loops, of which the inner one is flat,
    an arc and a line. -/
theorem passes_lose_no_cut_threeDeep :
    (∃ job', circlePocket 0 0 2 3 fineCutter = .ok () job'
      ∧ fineCutter.Repeats ⟨0, 0⟩ [.line ⟨0.5, 0⟩, .arc ⟨-0.5, 0⟩ ⟨0, 0⟩, .arc ⟨0.5, 0⟩ ⟨0, 0⟩,
        .line ⟨1, 0⟩, .arc ⟨-1, 0⟩ ⟨0, 0⟩, .arc ⟨1, 0⟩ ⟨0, 0⟩] 3 job')
    ∧ (∃ job', groovePocket 0 0 5 3.5 3 fineCutter = .ok () job'
      ∧ fineCutter.Repeats ⟨1.75, 1.75⟩ [.line ⟨3.25, 1.75⟩, .line ⟨3.25, 1.75⟩,
        .line ⟨1.75, 1.75⟩, .line ⟨1.75, 1.75⟩, .line ⟨1, 1⟩, .line ⟨4, 1⟩, .line ⟨4, 2.5⟩,
        .line ⟨1, 2.5⟩, .line ⟨1, 1⟩] 3 job')
    ∧ (∃ job', arcGroove ⟨4, 5⟩ ⟨-4, 1⟩ ⟨1, 1⟩ 3 fineCutter = .ok () job'
      ∧ fineCutter.Repeats ⟨4, 5⟩ [.arc ⟨-4, 1⟩ ⟨1, 1⟩] 3 job')
    ∧ ∃ job', groove ⟨0, 0⟩ ⟨30, 10⟩ 3 fineCutter = .ok () job'
      ∧ fineCutter.Alternates ⟨0, 0⟩ ⟨30, 10⟩ 3 job' := by
  have hround : gotThrough (circlePocket 0 0 2 3 fineCutter) = true := by decide +kernel
  have hrings : (stepCount "stepover" (2 - fineCutter.machine.cutterDiameter / 2)
      fineCutter.machine.stepover).map
        (roundStrokes ⟨0, 0⟩ (2 - fineCutter.machine.cutterDiameter / 2))
      = .ok [.line ⟨0.5, 0⟩, .arc ⟨-0.5, 0⟩ ⟨0, 0⟩, .arc ⟨0.5, 0⟩ ⟨0, 0⟩,
        .line ⟨1, 0⟩, .arc ⟨-1, 0⟩ ⟨0, 0⟩, .arc ⟨1, 0⟩ ⟨0, 0⟩] := by decide +kernel
  have hpocket : gotThrough (groovePocket 0 0 5 3.5 3 fineCutter) = true := by decide +kernel
  have hcorners : (pocketLoops 0 0 5 3.5 fineCutter.machine).map
        (fun loops => (loops.start, (loops.path.drop 1).map Stroke.line))
      = .ok (⟨1.75, 1.75⟩, [.line ⟨3.25, 1.75⟩, .line ⟨3.25, 1.75⟩, .line ⟨1.75, 1.75⟩,
        .line ⟨1.75, 1.75⟩, .line ⟨1, 1⟩, .line ⟨4, 1⟩, .line ⟨4, 2.5⟩, .line ⟨1, 2.5⟩,
        .line ⟨1, 1⟩]) := by decide +kernel
  have harc : gotThrough (arcGroove ⟨4, 5⟩ ⟨-4, 1⟩ ⟨1, 1⟩ 3 fineCutter) = true := by
    decide +kernel
  have hline : gotThrough (groove ⟨0, 0⟩ ⟨30, 10⟩ 3 fineCutter) = true := by decide +kernel
  refine ⟨?_, ?_, ?_, ?_⟩
  · obtain ⟨_, job', hrun⟩ := eq_ok_of_gotThrough hround
    obtain ⟨n, hn, hrepeats⟩ := (passes_lose_no_cut fineCutter job' 3).1 0 0 2 hrun
    rw [hn] at hrings
    rw [Except.ok.inj hrings] at hrepeats
    exact ⟨job', hrun, hrepeats⟩
  · obtain ⟨_, job', hrun⟩ := eq_ok_of_gotThrough hpocket
    obtain ⟨loops, hloops, hrepeats⟩ := (passes_lose_no_cut fineCutter job' 3).2.1 0 0 5 3.5 hrun
    rw [hloops] at hcorners
    obtain ⟨hstart, hstrokes⟩ := Prod.mk.inj (Except.ok.inj hcorners)
    rw [hstart, hstrokes] at hrepeats
    exact ⟨job', hrun, hrepeats⟩
  · obtain ⟨_, job', hrun⟩ := eq_ok_of_gotThrough harc
    exact ⟨job', hrun, (passes_lose_no_cut fineCutter job' 3).2.2.1 _ _ _ hrun⟩
  · obtain ⟨_, job', hrun⟩ := eq_ok_of_gotThrough hline
    exact ⟨job', hrun, (passes_lose_no_cut fineCutter job' 3).2.2.2 _ _ hrun⟩

end Machining

end MillScript
