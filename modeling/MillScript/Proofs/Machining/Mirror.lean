import MillScript.Proofs.Machining.Discipline

/-! # The machine as a mirror of the toolpath

    A machine remembers where the tool was last sent and what tool and
    spindle speed were last recorded, and never looks at the toolpath to find
    out.  `Job.Mirrors` says that what it remembers is what the toolpath
    says.  Moves, announcements and notes keep it so one by one.  An arc does
    not mark the position as known, so it keeps the mirror only where the
    position is known already; operations start with an approach, after which
    it is (`tracked_of_approach`). -/

namespace MillScript

/-! ## What the toolpath says -/

/-- What is recorded now counts before what was recorded earlier. -/
@[simp] theorem latest_push {α : Type} (says? : Segment → Option α) (path : Toolpath)
    (a : Action) :
    latest says? (path.push a).segments
      = (says? ⟨a, path.line⟩).or (latest says? path.segments) := by
  rw [Toolpath.segments_push, latest_concat]

/-- The tool that a step changes to. -/
def Segment.tool? (s : Segment) : Option String :=
  match s.action with
  | .toolChange text => some text
  | _ => none

/-- The speed that a step sets the spindle to. -/
def Segment.speed? (s : Segment) : Option Float :=
  match s.action with
  | .spindle rpm => some rpm
  | _ => none

/-- The tool of the last tool change among steps. -/
def lastTool : List Segment → Option String := latest Segment.tool?

/-- The spindle speed last set among steps. -/
def lastSpeed : List Segment → Option Float := latest Segment.speed?

theorem lastTarget_push (path : Toolpath) (a : Action) :
    lastTarget (path.push a).segments
      = (Segment.target? ⟨a, path.line⟩).or (lastTarget path.segments) :=
  latest_push Segment.target? path a

/-- A tool change is the last one as soon as it is recorded. -/
theorem lastTool_push (path : Toolpath) (a : Action) :
    lastTool (path.push a).segments
      = (Segment.tool? ⟨a, path.line⟩).or (lastTool path.segments) :=
  latest_push Segment.tool? path a

theorem lastSpeed_push (path : Toolpath) (a : Action) :
    lastSpeed (path.push a).segments
      = (Segment.speed? ⟨a, path.line⟩).or (lastSpeed path.segments) :=
  latest_push Segment.speed? path a

/-! ## Announcements -/

namespace Job

/-- The job with its tool on record. -/
def toldTool (j : Job) : Job :=
  if j.machine.toolText != j.machine.announcedTool then
    ⟨{ j.machine with announcedTool := j.machine.toolText },
      j.path.push (.toolChange j.machine.toolText)⟩
  else j

/-- The job with its spindle speed on record. -/
def toldSpeed (j : Job) : Job :=
  if j.machine.rpm != j.machine.announcedRpm then
    ⟨{ j.machine with announcedRpm := j.machine.rpm }, j.path.push (.spindle j.machine.rpm)⟩
  else j

/-- To put the tool on record leaves the settings alone. -/
theorem setup_toldTool (j : Job) : j.toldTool.machine.setup = j.machine.setup := by
  rw [toldTool]
  split <;> rfl

theorem setup_toldSpeed (j : Job) : j.toldSpeed.machine.setup = j.machine.setup := by
  rw [toldSpeed]
  split <;> rfl

end Job

/-- An announcement never fails: it puts the tool on record, then the speed. -/
theorem Machining.announce_apply (job : Job) :
    Machining.announce job = .ok () job.toldTool.toldSpeed := by
  show (ite _ _ _ : Machining Unit) job = _
  rw [Job.toldTool]
  split
  · show (ite _ _ _ : Machining Unit) _ = _
    rw [Job.toldSpeed]
    dsimp only
    split <;> rfl
  · rw [Job.toldSpeed]
    split <;> rfl

/-! ## Moves -/

/-- A straight move fails and does nothing, or is left out because the tool
    is known to be there, or is recorded. -/
theorem Machining.travel_cases (kind : Move) (target : Vec3) (feed : Float) (job : Job) :
    (∃ f, travel kind target feed job = .error f job)
      ∨ (job.machine.positionKnown = true ∧ travel kind target feed job = .ok () job)
      ∨ travel kind target feed job
        = .ok () ⟨{ job.machine with position := target, positionKnown := true },
            job.path.push (.move kind target feed)⟩ := by
  rw [travel]
  split
  · exact .inl ⟨_, rfl⟩
  · split
    · rename_i hsame
      rw [Bool.and_eq_true] at hsame
      exact .inr (.inl ⟨hsame.1, rfl⟩)
    · exact .inr (.inr rfl)

/-- A move along an arc fails and does nothing or is recorded, at the height
    that the tool is at. -/
theorem Machining.arc_cases (x y cx cy : Float) (job : Job) :
    (∃ f, arc x y cx cy job = .error f job)
      ∨ ∃ center target, target.z = job.machine.position.z ∧ arc x y cx cy job
        = .ok () ⟨{ job.machine with position := target },
            job.path.push (.move (.arc center) target job.machine.material.feedRate)⟩ := by
  rw [arc]
  dsimp only
  split
  · exact .inl ⟨_, rfl⟩
  · split
    · exact .inl ⟨_, rfl⟩
    · exact .inr ⟨_, job.machine.place x y job.machine.position.z, rfl, rfl⟩

/-! ## The mirror -/

/-- The machine remembers what the toolpath says: where the last move went,
    and the tool and the spindle speed last recorded. -/
structure Job.Mirrors (j : Job) : Prop where
  target : lastTarget j.path.segments
    = if j.machine.positionKnown then some j.machine.position else none
  tool : j.machine.announcedTool = (lastTool j.path.segments).getD ""
  speed : j.machine.announcedRpm = (lastSpeed j.path.segments).getD (-1)

namespace Job

/-- The mirror of a tool that was sent somewhere. -/
structure Tracked (j : Job) : Prop extends Mirrors j where
  known : j.machine.positionKnown = true

namespace Mirrors

variable {j : Job}

/-- A change of settings moves nothing and announces nothing. -/
theorem adjusted (h : j.Mirrors) {m : Machine} (hm : j.machine.Adjusted m) :
    Mirrors { j with machine := m } := by
  refine ⟨?_, ?_, ?_⟩
  · show lastTarget j.path.segments = _
    rw [h.target, hm.positionKnown, hm.position]
  · exact hm.announcedTool.trans h.tool
  · exact hm.announcedRpm.trans h.speed

/-- A step that the machine does not remember. -/
theorem push_note (h : j.Mirrors) {a : Action}
    (htarget : Segment.target? ⟨a, j.path.line⟩ = none)
    (htool : Segment.tool? ⟨a, j.path.line⟩ = none)
    (hspeed : Segment.speed? ⟨a, j.path.line⟩ = none) :
    Mirrors { j with path := j.path.push a } := by
  refine ⟨?_, ?_, ?_⟩
  · rw [lastTarget_push, htarget]
    exact h.target
  · rw [lastTool_push, htool]
    exact h.tool
  · rw [lastSpeed_push, hspeed]
    exact h.speed

/-- A move, on a machine that remembers it. -/
theorem push_move (h : j.Mirrors) {m : Machine} {target : Vec3} (kind : Move) (feed : Float)
    (hknown : m.positionKnown = true) (hposition : m.position = target)
    (htool : m.announcedTool = j.machine.announcedTool)
    (hspeed : m.announcedRpm = j.machine.announcedRpm) :
    Tracked ⟨m, j.path.push (.move kind target feed)⟩ := by
  refine ⟨⟨?_, ?_, ?_⟩, hknown⟩
  · rw [lastTarget_push, hknown, hposition]
    rfl
  · rw [lastTool_push]
    exact htool.trans h.tool
  · rw [lastSpeed_push]
    exact hspeed.trans h.speed

/-- The tool that the machine takes for announced is the one on record. -/
theorem toldTool (h : j.Mirrors) : j.toldTool.Mirrors := by
  rw [Job.toldTool]
  split
  · refine ⟨?_, ?_, ?_⟩
    · rw [lastTarget_push]
      exact h.target
    · rw [lastTool_push]
      rfl
    · rw [lastSpeed_push]
      exact h.speed
  · exact h

theorem toldSpeed (h : j.Mirrors) : j.toldSpeed.Mirrors := by
  rw [Job.toldSpeed]
  split
  · refine ⟨?_, ?_, ?_⟩
    · rw [lastTarget_push]
      exact h.target
    · rw [lastTool_push]
      exact h.tool
    · rw [lastSpeed_push]
      rfl
  · exact h

end Mirrors

/-- Announcements tell nothing about the position. -/
theorem positionKnown_toldTool (j : Job) :
    j.toldTool.machine.positionKnown = j.machine.positionKnown := by
  rw [toldTool]
  split <;> rfl

theorem positionKnown_toldSpeed (j : Job) :
    j.toldSpeed.machine.positionKnown = j.machine.positionKnown := by
  rw [toldSpeed]
  split <;> rfl

end Job

/-! ## Operations -/

namespace Machining

open Job

/-- A straight move that gets through leaves the tool at a known place. -/
theorem tracked_of_travel {kind : Move} {target : Vec3} {feed : Float} {job job' : Job} {u : Unit}
    (hjob : job.Mirrors) (hrun : travel kind target feed job = .ok u job') : job'.Tracked := by
  rcases travel_cases kind target feed job with ⟨f, hfail⟩ | ⟨hknown, hsame⟩ | hmoved
  · rw [hfail] at hrun
    cases hrun
  · rw [hsame] at hrun
    cases hrun
    exact ⟨hjob, hknown⟩
  · rw [hmoved] at hrun
    cases hrun
    exact hjob.push_move kind feed rfl rfl rfl rfl

/-- A straight move is on record where the machine has the tool. -/
theorem keeps_travel {kind : Move} {target : Vec3} {feed : Float} {job : Job}
    (hjob : job.Tracked) : (endState (travel kind target feed job)).Tracked := by
  rcases travel_cases kind target feed job with ⟨f, hfail⟩ | ⟨-, hsame⟩ | hmoved
  · rw [hfail]
    exact hjob
  · rw [hsame]
    exact hjob
  · rw [hmoved]
    exact hjob.push_move kind feed rfl rfl rfl rfl

/-- An arc is, too, as the position was known before it. -/
theorem keeps_arc (x y cx cy : Float) : Within (Keeps Tracked) (arc x y cx cy) := by
  intro job hjob
  rcases arc_cases x y cx cy job with ⟨f, hfail⟩ | ⟨center, target, -, hmoved⟩
  · rw [hfail]
    exact hjob
  · rw [hmoved]
    exact hjob.push_move (.arc center) _ hjob.known rfl rfl rfl

/-- Announcements keep the tool tracked. -/
theorem keeps_announce : Within (Keeps Tracked) announce := by
  intro job hjob
  rw [announce_apply]
  refine ⟨hjob.toMirrors.toldTool.toldSpeed, ?_⟩
  show job.toldTool.toldSpeed.machine.positionKnown = true
  rw [positionKnown_toldSpeed, positionKnown_toldTool]
  exact hjob.known

/-- All moves and announcements keep the tool tracked. -/
theorem motionWithin_tracked : MotionWithin (Keeps Tracked) where
  rapid _ _ _ _ := keeps_travel
  rapidZ _ _ := keeps_travel
  plunge _ _ := keeps_travel
  cut _ _ _ := keeps_travel
  arc := keeps_arc
  announce := keeps_announce

/-- After the way to the work the position is known, whatever it was before. -/
theorem tracked_of_approach {x y : Float} {job job' : Job} {u : Unit} (hjob : job.Mirrors)
    (hrun : approach x y job = .ok u job') : job'.Tracked := by
  -- the first move makes the position known, the rest keeps it so
  obtain ⟨_, at0, hread, hrun⟩ := bind_apply_eq_ok.mp hrun
  cases hread
  obtain ⟨_, at1, hrapid, hrun⟩ := bind_apply_eq_ok.mp hrun
  have htracked : at1.Tracked := tracked_of_travel hjob hrapid
  have hrest : Within (Keeps Tracked) (do
      announce
      rapidZ (← get).machine.config.clearance : Machining Unit) :=
    keeps_announce.bind fun _ => within_get.bind fun _ => motionWithin_tracked.rapidZ _
  have hend := hrest at1 htracked
  rw [hrun] at hend
  exact hend

/-- **An operation that gets through keeps the mirror.** -/
theorem Plan.Of.tracked_of_carryOut {m : Machine} {p : Plan} (hp : Plan.Of m p) {job job' : Job}
    {u : Unit} (hjob : job.Mirrors) (hrun : p.carryOut job = .ok u job') : job'.Tracked := by
  obtain ⟨_, above, happroach, hrun⟩ := bind_apply_eq_ok.mp hrun
  have hrest : Within (Keeps Tracked) (do eachPass p.passes p.pass; retract : Machining Unit) :=
    (MotionWithin.eachPass _ (motionWithin_tracked.pass hp)).bind fun _ =>
      motionWithin_tracked.retract
  have hend := hrest above (tracked_of_approach hjob happroach)
  rw [hrun] at hend
  exact hend

end Machining

/-- **A call that gets through keeps the mirror.** -/
theorem Call.mirrors_of_apply {args : Arguments} {f : Builtin} {job job' : Job} {v : Value}
    (hjob : job.Mirrors) (h : Call.apply args f job = .ok v job') : job'.Mirrors := by
  have heffect := Call.effect_apply args f job
  generalize Call.apply args f job = r at h heffect
  cases heffect with
  | refused fault => cases h
  | settings m hm v =>
      cases h
      exact hjob.adjusted hm
  | comment text v =>
      cases h
      exact hjob.push_note rfl rfl rfl
  | dwell seconds v =>
      cases h
      exact hjob.push_note rfl rfl rfl
  | operation p hp w =>
      obtain ⟨u, mid, hcarried, hreturned⟩ := bind_apply_eq_ok.mp h
      cases hreturned
      exact (hp.tracked_of_carryOut hjob hcarried).toMirrors

end MillScript
