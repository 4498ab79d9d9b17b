import MillScript.Proofs.Machining.Strokes

/-! # Operations pass by pass

    What an operation appends falls into an opening, one stage for each pass
    and a closing.  A `Course` says what the passes are to do on the plane of
    the machine: where each starts, where it ends and what it cuts sideways.
    A plan that follows a course from pass to pass (`Plan.Follows`) appends
    its stages so, each at the depth of its pass (`Job.Staged`). -/

namespace MillScript

open Job

/-- Steps in stages, each with its number and the place where the tool stands
    before it. -/
def PassByPass (Q : Nat → Vec3 → List Segment → Prop) (k : Nat) (p : Vec3) :
    List (List Segment) → Prop
  | [] => True
  | stage :: rest => Q k p stage ∧ PassByPass Q (k + 1) (standing p stage) rest

theorem PassByPass.imp {Q Q' : Nat → Vec3 → List Segment → Prop} {stages : List (List Segment)}
    {k : Nat} {p : Vec3} (h : PassByPass Q k p stages)
    (himp : ∀ k p stage, Q k p stage → Q' k p stage) : PassByPass Q' k p stages := by
  induction stages generalizing k p with
  | nil => trivial
  | cons stage rest ih => exact ⟨himp k p stage h.1, ih h.2⟩

/-! ## What is appended -/

/-- Steps that start above a point of the drawing at safe height: the first
    of them goes there, unless the tool is known to be there. -/
def Job.StartsAbove (job : Job) (v : Vec2) (steps : List Segment) : Prop :=
  let target := job.machine.place v.x v.y job.machine.config.safeHeight
  (∃ rest, steps = ⟨.move .rapid target 0, job.path.line⟩ :: rest)
    ∨ job.machine.positionKnown = true ∧ (target == job.machine.position) = true

/-- Steps that take the tool from a place straight up to a height: one of
    them, unless the tool is at that height. -/
def GoesUp (p : Vec3) (z : Float) (steps : List Segment) : Prop :=
  steps = [] ∧ (p.z == z) = true ∨ ∃ line, steps = [⟨.move .rapid { p with z := z } 0, line⟩]

/-- To go up cuts nothing. -/
theorem GoesUp.uncut {p : Vec3} {z : Float} {steps : List Segment} (h : GoesUp p z steps) :
    ∀ s ∈ steps, s.cutHeight? = none := by
  intro s hs
  rcases h with ⟨rfl, -⟩ | ⟨line, rfl⟩
  · exact absurd hs List.not_mem_nil
  · rw [List.mem_singleton.mp hs]
    rfl

/-- What passes, counted from one, do on the plane of the machine. -/
structure Course where
  start : Nat → Vec2
  stop : Nat → Vec2
  cuts : Nat → List SideCut

/-- Steps that carry out pass `k` of `n` down to a depth. -/
structure Course.Stage (c : Course) (depth : Float) (n k : Nat) (p : Vec3)
    (stage : List Segment) : Prop where
  starts : p.Over (c.start k)
  stops : (standing p stage).Over (c.stop k)
  cuts : sideCuts p stage = c.cuts k
  heights : ∀ s ∈ stage, s.CutsAt (· == -Machining.passDepth depth k n)
  placed : ∀ s ∈ stage, s.action.Placed

/-- A job grew by an operation that starts above a point of the drawing and
    makes `n` passes down to a depth. -/
structure Job.Staged (c : Course) (v : Vec2) (depth : Float) (n : Nat) (opening : List Segment)
    (stages : List (List Segment)) (closing : List Segment) (job job' : Job) : Prop where
  grew : Grew (opening ++ stages.flatten ++ closing) job job'
  above : job.StartsAbove v opening
  uncut : ∀ s ∈ opening, s.cutHeight? = none
  length : stages.length = n
  passes : PassByPass (c.Stage depth n) 1 (standing job.machine.position opening) stages
  bottom : ((standing job.machine.position (opening ++ stages.flatten)).z == -depth) = true
  retracts : GoesUp (standing job.machine.position (opening ++ stages.flatten))
    job.machine.config.safeHeight closing
  top : (job'.machine.position.z == job.machine.config.safeHeight) = true

namespace Machining

/-! ## Before and after the passes -/

/-- A rapid move that gets through leaves the tool above the point that it was
    sent to, wherever it was before. -/
theorem rapid_eq_ok {v : Vec2} {z : Float} {job job' : Job} {u : Unit}
    (h : rapid v.x v.y z job = .ok u job') :
    Over job.machine (job.machine.spot v) z job'
      ∧ ∃ steps, Went (fun _ => False) [] steps job job'
      ∧ (steps = [⟨.move .rapid (job.machine.place v.x v.y z) 0, job.path.line⟩]
        ∨ steps = [] ∧ job.machine.positionKnown = true
          ∧ (job.machine.place v.x v.y z == job.machine.position) = true) := by
  obtain ⟨hfinite, ⟨hknown, hsame, rfl⟩ | ⟨-, rfl⟩⟩ := travel_eq_ok h
  · obtain ⟨hx, hy, hz⟩ := Vec3.beq_iff.mp hsame
    exact ⟨⟨rfl, hknown, ⟨beq_symm hx, beq_symm hy⟩, beq_symm hz⟩, [], .refl _ _,
      .inr ⟨rfl, hknown, hsame⟩⟩
  · obtain ⟨hx, hy, hz⟩ := Vec3.isFinite_iff.mp hfinite
    exact ⟨⟨rfl, rfl, ⟨beq_self_of_isFinite hx, beq_self_of_isFinite hy⟩,
      beq_self_of_isFinite hz⟩, _, went_push rfl rfl (Segment.cutsAt_of_none rfl _)
        (placed_of_straight 0 (.inl rfl) hfinite), .inl rfl⟩

/-- A note is no cut and leaves the tool where it is. -/
theorem went_note {job : Job} {a : Action} {m : Machine}
    (hm : m.position = job.machine.position)
    (htarget : Segment.target? ⟨a, job.path.line⟩ = none)
    (hcut : Segment.cutHeight? ⟨a, job.path.line⟩ = none)
    (hside : Segment.sideCut? job.machine.position.z ⟨a, job.path.line⟩ = none)
    (hplaced : a.Placed) :
    Went (fun _ => False) [] [⟨a, job.path.line⟩] job ⟨m, job.path.push a⟩ := by
  refine ⟨⟨Toolpath.segments_push _ _, ?_⟩, ?_, ?_, List.forall_mem_singleton.mpr hplaced⟩
  · rw [standing_cons, htarget]
    exact hm
  · rw [sideCuts, hside]
    rfl
  · exact List.forall_mem_singleton.mpr (Segment.cutsAt_of_none hcut _)

section Announced

variable {m : Machine} {p : Vec2} {z : Float} {job : Job}

theorem went_toldTool (hover : Over m p z job) :
    Over m p z job.toldTool ∧ ∃ steps, Went (fun _ => False) [] steps job job.toldTool := by
  rw [toldTool]
  split
  · exact ⟨⟨hover.setup, hover.known, hover.point, hover.height⟩, _,
      went_note rfl rfl rfl rfl trivial⟩
  · exact ⟨hover, [], .refl _ _⟩

theorem went_toldSpeed (hover : Over m p z job) :
    Over m p z job.toldSpeed ∧ ∃ steps, Went (fun _ => False) [] steps job job.toldSpeed := by
  rw [toldSpeed]
  split
  · exact ⟨⟨hover.setup, hover.known, hover.point, hover.height⟩, _,
      went_note rfl rfl rfl rfl trivial⟩
  · exact ⟨hover, [], .refl _ _⟩

/-- Announcements move no tool. -/
theorem went_announce {job' : Job} {u : Unit} (hover : Over m p z job)
    (h : announce job = .ok u job') :
    Over m p z job' ∧ ∃ steps, Went (fun _ => False) [] steps job job' := by
  rw [announce_apply] at h
  injection h with _ hjob
  obtain ⟨hover', steps, hwent⟩ := went_toldTool hover
  obtain ⟨hover'', steps', hwent'⟩ := went_toldSpeed hover'
  rw [← hjob]
  exact ⟨hover'', _, hwent.trans hwent'⟩

end Announced

/-- The way to the work starts at safe height above the point and cuts
    nothing. -/
theorem approach_eq_ok {v : Vec2} {job job' : Job} {u : Unit}
    (h : approach v.x v.y job = .ok u job') :
    Over job.machine (job.machine.spot v) job.machine.config.clearance job'
      ∧ ∃ opening, Went (fun _ => False) [] opening job job' ∧ job.StartsAbove v opening := by
  have hrun : (rapid v.x v.y job.machine.config.safeHeight >>= fun _ => announce >>= fun _ =>
      (fun job => rapidZ job.machine.config.clearance job)) job = .ok u job' := h
  obtain ⟨_, above, habove, hrun⟩ := bind_apply_eq_ok.mp hrun
  obtain ⟨_, told, htold, hrun⟩ := bind_apply_eq_ok.mp hrun
  obtain ⟨hover, first, hfirst, hgoes⟩ := rapid_eq_ok habove
  obtain ⟨hover', notes, hnotes⟩ := went_announce hover htold
  have hdown : rapidZ told.machine.config.clearance told = .ok u job' := hrun
  rw [hover'.config] at hdown
  obtain ⟨hover'', down, hdown⟩ := goes_rapidZ _ told u job' hover' hdown
  refine ⟨hover'', first ++ notes ++ down, (hfirst.trans hnotes).trans hdown, ?_⟩
  rcases hgoes with hgoes | ⟨-, hthere⟩
  · exact .inl ⟨notes ++ down, by rw [hgoes, List.append_assoc, List.singleton_append]⟩
  · exact .inr hthere

/-- The way back goes straight up. -/
theorem retract_eq_ok {job job' : Job} {u : Unit} (h : retract job = .ok u job') :
    (job'.machine.position.z == job.machine.config.safeHeight) = true
      ∧ ∃ closing, Grew closing job job'
        ∧ GoesUp job.machine.position job.machine.config.safeHeight closing := by
  have htravel : travel .rapid { job.machine.position with z := job.machine.config.safeHeight } 0
      job = .ok u job' := h
  obtain ⟨hfinite, ⟨-, hsame, rfl⟩ | ⟨-, rfl⟩⟩ := travel_eq_ok htravel
  · have hheight := beq_symm (Vec3.beq_iff.mp hsame).2.2
    exact ⟨hheight, [], .refl _, .inl ⟨rfl, hheight⟩⟩
  · exact ⟨beq_self_of_isFinite (Vec3.isFinite_iff.mp hfinite).2.2, _,
      ⟨Toolpath.segments_push _ _, rfl⟩, .inr ⟨_, rfl⟩⟩

/-! ## The passes -/

/-- Work that is done pass by pass appends its stages pass by pass, if each
    pass finds the job ready for it and leaves it ready for the next. -/
theorem passByPass_of_eachPass {n : Nat} {pass : Nat → Machining Unit}
    {Ready : Nat → Job → Prop} {Q : Nat → Vec3 → List Segment → Prop}
    (hstep : ∀ k job u job', 1 ≤ k → k ≤ n → Ready k job → pass k job = .ok u job' →
      Ready (k + 1) job' ∧ ∃ stage, Grew stage job job' ∧ Q k job.machine.position stage)
    {job job' : Job} {u : Unit} (hready : Ready 1 job) (hrun : eachPass n pass job = .ok u job') :
    Ready (n + 1) job' ∧ ∃ stages, stages.length = n ∧ Grew stages.flatten job job'
      ∧ PassByPass Q 1 job.machine.position stages := by
  -- the passes that are left, from any pass on
  have hfrom : ∀ r k, 1 ≤ k → k + r = n + 1 → ∀ job, Ready k job →
      (List.range' k r).forM pass job = .ok u job' →
      Ready (n + 1) job' ∧ ∃ stages, stages.length = r ∧ Grew stages.flatten job job'
        ∧ PassByPass Q k job.machine.position stages := by
    intro r
    induction r with
    | zero =>
        intro k hk hn job hready hrun
        injection hrun with _ hjob
        have hlast : k = n + 1 := by omega
        rw [← hjob, ← hlast]
        exact ⟨hready, [], rfl, .refl job, trivial⟩
    | succ r ih =>
        intro k hk hn job hready hrun
        obtain ⟨_, next, hpass, hrest⟩ := bind_apply_eq_ok.mp hrun
        obtain ⟨hready', stage, hgrew, hstage⟩ :=
          hstep k job _ next hk (by omega) hready hpass
        obtain ⟨hdone, stages, hlength, hgrew', hstages⟩ :=
          ih (k + 1) (by omega) (by omega) next hready' hrest
        refine ⟨hdone, stage :: stages, by rw [List.length_cons, hlength], ?_, hstage, ?_⟩
        · rw [List.flatten_cons]
          exact hgrew.trans hgrew'
        · rw [← hgrew.position]
          exact hstages
  exact hfrom n 1 (by omega) (by omega) job hready hrun

/-- Each pass of a plan keeps to a course, from wherever the last one left the
    tool, and the last one ends at its depth. -/
structure Plan.Follows (m : Machine) (depth : Float) (c : Course) (p : Plan) : Prop where
  start : c.start 1 = m.spot p.start
  next : ∀ k, k < p.passes → c.stop k = c.start (k + 1)
  pass : ∀ k z, 1 ≤ k → k ≤ p.passes → ∃ z', (k = p.passes → z' = -depth)
    ∧ Goes m (c.start k) z (p.pass k) (c.stop k) z' (· == -passDepth depth k p.passes) (c.cuts k)

/-- The tool is where a pass starts or, after the last pass, at the full
    depth. -/
def Plan.Ready (m : Machine) (depth : Float) (c : Course) (p : Plan) (k : Nat) (job : Job) :
    Prop :=
  ∃ q z, Over m q z job ∧ (k ≤ p.passes → q = c.start k) ∧ (p.passes < k → z = -depth)

section Follows

variable {m : Machine} {depth : Float} {c : Course} {p : Plan}

/-- One pass appends its stage and leaves the job ready for the next. -/
theorem Plan.Follows.step (h : p.Follows m depth c) {k : Nat} {job job' : Job} {u : Unit}
    (hone : 1 ≤ k) (hle : k ≤ p.passes) (hready : p.Ready m depth c k job)
    (hrun : p.pass k job = .ok u job') :
    p.Ready m depth c (k + 1) job' ∧ ∃ stage, Grew stage job job'
      ∧ c.Stage depth p.passes k job.machine.position stage := by
  obtain ⟨q, z, hover, hstart, -⟩ := hready
  rw [hstart hle] at hover
  obtain ⟨z', hlast, hgoes⟩ := h.pass k z hone hle
  obtain ⟨hover', stage, hwent⟩ := hgoes job u job' hover hrun
  refine ⟨⟨c.stop k, z', hover', ?_, ?_⟩, stage, hwent.toGrew, hover.point, ?_,
    hwent.sideCuts, hwent.heights, hwent.placed⟩
  · intro hmore
    exact h.next k hmore
  · intro hdone
    exact hlast (by omega)
  · rw [← hwent.position]
    exact hover'.point

/-- **A plan that follows a course appends it**, stage by stage. -/
theorem Plan.Follows.staged {job job' : Job} {u : Unit} (h : p.Follows job.machine depth c)
    (hrun : p.carryOut job = .ok u job') (hpasses : 1 ≤ p.passes) :
    ∃ opening stages closing, Staged c p.start depth p.passes opening stages closing job job' := by
  obtain ⟨_, above, happroach, hrun⟩ := bind_apply_eq_ok.mp hrun
  obtain ⟨_, done, heach, hretract⟩ := bind_apply_eq_ok.mp hrun
  obtain ⟨hover, opening, hopening, habove⟩ := approach_eq_ok happroach
  -- `Ready` holds before the first pass and gives the full depth after the last
  have hready : p.Ready job.machine depth c 1 above :=
    ⟨_, _, hover, fun _ => h.start.symm, fun hnone => absurd hpasses (by omega)⟩
  obtain ⟨⟨_, z, hover', -, hbottom⟩, stages, hlength, hstages, hpass⟩ :=
    passByPass_of_eachPass (fun _ _ _ _ hone hle hready hrun => h.step hone hle hready hrun)
      hready heach
  obtain ⟨htop, closing, hclosing, hup⟩ := retract_eq_ok hretract
  rw [hover'.config] at htop hup
  have hdone := hopening.toGrew.trans hstages
  refine ⟨opening, stages, closing, hdone.trans hclosing, habove, ?_, hlength, ?_, ?_, ?_, htop⟩
  · intro s hs
    rw [Option.eq_none_iff_forall_ne_some]
    intro z hz
    exact hopening.heights s hs z hz
  · rw [← hopening.position]
    exact hpass
  · rw [← hdone.position, ← hbottom (by omega)]
    exact hover'.height
  · rw [← hdone.position]
    exact hup

end Follows

end Machining

end MillScript
