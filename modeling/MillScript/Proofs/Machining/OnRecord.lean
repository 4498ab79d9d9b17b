import MillScript.Proofs.Decimal.Exact
import MillScript.Proofs.Machining.Mirror
import MillScript.Proofs.Machining.Settings

/-! # Cuts with tool and speed on record

    Tool and spindle speed are recorded only where they differ from those
    recorded last, which may have been long before.  What the machine takes
    for recorded is what the toolpath says, and what it takes for nothing
    recorded, an empty text and a negative speed, is no tool and no speed that
    it can have.  So after an announcement the tool and the speed in use are
    the last on record, and as every operation announces them before it cuts,
    they are so at each of its cuts. -/

namespace MillScript

/-! ## What is on record -/

/-- Whether a step cuts: all moves do except rapids. -/
def Segment.isCut (s : Segment) : Bool :=
  match s.action with
  | .move .rapid _ _ => false
  | .move _ _ _ => true
  | _ => false

/-- The tool and the spindle speed of a machine are the last ones among
    steps. -/
structure OnRecord (m : Machine) (steps : List Segment) : Prop where
  tool : lastTool steps = some m.toolText
  /-- What is not a number is on record as it is, but equals nothing. -/
  speed : ∃ rpm, lastSpeed steps = some rpm ∧ (rpm = m.rpm ∨ (rpm == m.rpm) = true)

/-- Past the first `n` steps, cuts are made with tool and speed on record. -/
def CutsOnRecord (m : Machine) (n : Nat) (steps : List Segment) : Prop :=
  ∀ front s back, steps = front ++ s :: back → n ≤ front.length → s.isCut = true →
    OnRecord m front

section

variable {m : Machine} {n : Nat} {steps : List Segment} {s : Segment}

/-- Steps that announce nothing leave the record as it is. -/
theorem OnRecord.concat (h : OnRecord m steps) (htool : s.tool? = none)
    (hspeed : s.speed? = none) : OnRecord m (steps ++ [s]) := by
  constructor
  · rw [lastTool, latest_concat, htool]
    exact h.tool
  · rw [lastSpeed, latest_concat, hspeed]
    exact h.speed

/-- Where the tool is and what was announced has no part in it. -/
theorem OnRecord.of_setup {m' : Machine} (h : OnRecord m steps) (hsetup : m'.setup = m.setup) :
    OnRecord m' steps := by
  rw [Machine.eq_of_setup hsetup]
  exact ⟨h.tool, h.speed⟩

/-- Where nothing is new there is no cut. -/
theorem cutsOnRecord_self (m : Machine) (steps : List Segment) :
    CutsOnRecord m steps.length steps := by
  intro front s back hsteps hlength
  rw [hsteps, List.length_append, List.length_cons] at hlength
  omega

/-- A step more is no cut, or is made with tool and speed on record. -/
theorem CutsOnRecord.concat (h : CutsOnRecord m n steps)
    (hs : s.isCut = true → OnRecord m steps) : CutsOnRecord m n (steps ++ [s]) := by
  intro front s' back hsteps hlength hcut
  rcases Lawful.eq_or_of_concat_eq hsteps with ⟨rfl, rfl⟩ | ⟨rest, hrest⟩
  · exact hs hcut
  · exact h front s' rest hrest hlength hcut

end

/-! ## Announcements -/

/-- The text of a tool is never the empty one, which stands for none. -/
theorem Machine.toolText_ne_empty (m : Machine) : m.toolText ≠ "" := by
  intro h
  have hlength := congrArg String.length h
  rw [toolText, String.length_append, String.length_append,
    show "mm cutter, ".length = 11 from rfl, show "".length = 0 from rfl] at hlength
  omega

/-- What equals the speed that stands for none is below zero. -/
theorem lt_zero_of_beq_neg_one {rpm : Float} (h : (rpm == -1) = true) : rpm < 0 := by
  have hneg : (-1 : Float) < 0 := by decide
  rw [Decimal.lt_iff_compare] at hneg ⊢
  rw [beq_iff_compare, compare_eq_some_eq] at h
  rcases h with ⟨_, s, -, hzero⟩ | ⟨hsame, -⟩
  · cases hzero
  · rw [hsame]
    exact hneg

namespace Job

variable {j : Job}

theorem rpm_toldTool (j : Job) : j.toldTool.machine.rpm = j.machine.rpm := by
  rw [toldTool]
  split <;> rfl

/-- To put the speed on record does not concern the tool. -/
theorem lastTool_toldSpeed (j : Job) :
    lastTool j.toldSpeed.path.segments = lastTool j.path.segments := by
  rw [toldSpeed]
  split
  · rw [lastTool_push]
    rfl
  · rfl

/-- Once told, the tool in use is the last on record, whether it had to be
    recorded or was there already. -/
theorem lastTool_toldTool (h : j.Mirrors) :
    lastTool j.toldTool.path.segments = some j.machine.toolText := by
  rw [toldTool]
  split
  · rw [lastTool_push]
    rfl
  · rename_i hsame
    have htext : j.machine.toolText = j.machine.announcedTool := by simpa using hsame
    have htool := h.tool
    rw [← htext] at htool
    cases hlast : lastTool j.path.segments with
    | none =>
        rw [hlast] at htool
        exact absurd htool j.machine.toolText_ne_empty
    | some text =>
        rw [hlast] at htool
        exact congrArg some htool.symm

/-- Once told, the speed in use is the last on record; it cannot be taken for
    the one that stands for none. -/
theorem lastSpeed_toldSpeed (h : j.Mirrors) (hrpm : ¬ j.machine.rpm < 0) :
    ∃ rpm, lastSpeed j.toldSpeed.path.segments = some rpm
      ∧ (rpm = j.machine.rpm ∨ (rpm == j.machine.rpm) = true) := by
  rw [toldSpeed]
  split
  · rw [lastSpeed_push]
    exact ⟨_, rfl, .inl rfl⟩
  · rename_i hsame
    have hequal : (j.machine.rpm == j.machine.announcedRpm) = true := by
      simpa only [bne, Bool.not_eq_true, Bool.not_eq_false'] using hsame
    have hspeed := h.speed
    cases hlast : lastSpeed j.path.segments with
    | none =>
        rw [hlast] at hspeed
        rw [hspeed] at hequal
        exact absurd (lt_zero_of_beq_neg_one hequal) hrpm
    | some rpm =>
        rw [hlast] at hspeed
        rw [hspeed] at hequal
        exact ⟨rpm, rfl, .inr (beq_symm hequal)⟩

/-- After an announcement the tool and the speed in use are on record. -/
theorem Mirrors.onRecord_told (h : j.Mirrors) (hrpm : ¬ j.machine.rpm < 0) :
    OnRecord j.machine j.toldTool.toldSpeed.path.segments := by
  have hspeed := lastSpeed_toldSpeed h.toldTool (by rwa [rpm_toldTool])
  rw [rpm_toldTool] at hspeed
  refine ⟨?_, hspeed⟩
  rw [lastTool_toldSpeed]
  exact lastTool_toldTool h

/-- Announcements are no cuts. -/
theorem cutsOnRecord_told {m : Machine} {n : Nat} (h : CutsOnRecord m n j.path.segments) :
    CutsOnRecord m n j.toldTool.toldSpeed.path.segments := by
  have htool : CutsOnRecord m n j.toldTool.path.segments := by
    rw [toldTool]
    split
    · rw [Toolpath.segments_push]
      exact h.concat fun hcut => by cases hcut
    · exact h
  rw [toldSpeed]
  split
  · rw [Toolpath.segments_push]
    exact htool.concat fun hcut => by cases hcut
  · exact htool

/-! ## Operations -/

/-- A job on a machine set up like `m`, past the announcement of an operation
    that found `n` steps. -/
structure Cutting (m : Machine) (n : Nat) (j : Job) : Prop where
  setup : j.machine.setup = m.setup
  onRecord : OnRecord m j.path.segments
  cuts : CutsOnRecord m n j.path.segments

namespace Cutting

variable {m : Machine} {n : Nat}

/-- A step that announces nothing, on a machine that is set up as before. -/
theorem push (h : Cutting m n j) {machine : Machine} (hsetup : machine.setup = j.machine.setup)
    (kind : Move) (target : Vec3) (feed : Float) :
    Cutting m n ⟨machine, j.path.push (.move kind target feed)⟩ := by
  refine ⟨hsetup.trans h.setup, ?_, ?_⟩
  · rw [Toolpath.segments_push]
    exact h.onRecord.concat rfl rfl
  · rw [Toolpath.segments_push]
    exact h.cuts.concat fun _ => h.onRecord

/-- To announce the same again does no harm. -/
theorem told (h : Cutting m n j) : Cutting m n j.toldTool.toldSpeed := by
  have hself : OnRecord j.machine j.path.segments := h.onRecord.of_setup h.setup
  have htool : OnRecord j.machine j.toldTool.path.segments := by
    rw [Job.toldTool]
    split
    · refine ⟨?_, ?_⟩
      · rw [lastTool_push]
        rfl
      · rw [lastSpeed_push]
        exact hself.speed
    · exact hself
  refine ⟨?_, OnRecord.of_setup ?_ h.setup.symm, cutsOnRecord_told h.cuts⟩
  · rw [setup_toldSpeed, setup_toldTool, h.setup]
  · rw [Job.toldSpeed]
    split
    · refine ⟨?_, ?_⟩
      · rw [lastTool_push]
        exact htool.tool
      · rw [lastSpeed_push, rpm_toldTool]
        exact ⟨_, rfl, .inl rfl⟩
    · exact htool

end Cutting

end Job

namespace Machining

open Job

variable {m : Machine} {n : Nat}

/-- A straight move cuts with what is on record. -/
theorem keeps_travel_cutting {kind : Move} {target : Vec3} {feed : Float} {job : Job}
    (h : Cutting m n job) : Cutting m n (endState (travel kind target feed job)) := by
  rcases travel_cases kind target feed job with ⟨f, hfail⟩ | ⟨-, hsame⟩ | hmoved
  · rw [hfail]
    exact h
  · rw [hsame]
    exact h
  · rw [hmoved]
    exact h.push (by rfl) kind target feed

/-- All moves cut with what is on record. -/
theorem motionWithin_cutting : MotionWithin (Keeps (Cutting m n)) where
  rapid _ _ _ _ := keeps_travel_cutting
  rapidZ _ _ := keeps_travel_cutting
  plunge _ _ := keeps_travel_cutting
  cut _ _ _ := keeps_travel_cutting
  arc x y cx cy job h := by
    rcases arc_cases x y cx cy job with ⟨f, hfail⟩ | ⟨center, target, -, hmoved⟩
    · rw [hfail]
      exact h
    · rw [hmoved]
      exact h.push (by rfl) _ _ _
  announce job h := by
    rw [announce_apply]
    exact h.told

/-- A rapid is no cut. -/
theorem cutsOnRecord_of_travel {target : Vec3} {feed : Float} {job job' : Job} {u : Unit}
    (h : CutsOnRecord m n job.path.segments) (hrun : travel .rapid target feed job = .ok u job') :
    CutsOnRecord m n job'.path.segments := by
  rcases travel_cases .rapid target feed job with ⟨f, hfail⟩ | ⟨-, hsame⟩ | hmoved
  · rw [hfail] at hrun
    cases hrun
  · rw [hsame] at hrun
    cases hrun
    exact h
  · rw [hmoved] at hrun
    cases hrun
    rw [Toolpath.segments_push]
    exact h.concat fun hcut => by cases hcut

/-- An approach announces tool and speed and cuts nothing. -/
theorem cutting_of_approach {x y : Float} {job job' : Job} {u : Unit} (hjob : job.Mirrors)
    (hrpm : ¬ job.machine.rpm < 0) (hrun : approach x y job = .ok u job') :
    Cutting job.machine job.path.segments.length job' := by
  obtain ⟨_, at0, hread, hrun⟩ := bind_apply_eq_ok.mp hrun
  cases hread
  obtain ⟨_, above, hrapid, hrun⟩ := bind_apply_eq_ok.mp hrun
  have hmoved := within_rapid x y job.machine.config.safeHeight job
  rw [hrapid] at hmoved
  have hsetup : above.machine.setup = job.machine.setup := hmoved.setup
  have hmirrors : above.Mirrors := (tracked_of_travel hjob hrapid).toMirrors
  have hcuts := cutsOnRecord_of_travel (cutsOnRecord_self job.machine job.path.segments) hrapid
  -- the announcement is made on the settings that the operation found
  obtain ⟨_, announced, hannounce, hrun⟩ := bind_apply_eq_ok.mp hrun
  rw [announce_apply] at hannounce
  cases hannounce
  have hrpm' : ¬ above.machine.rpm < 0 := by
    rw [Machine.eq_of_setup hsetup]
    exact hrpm
  have honRecord := (hmirrors.onRecord_told hrpm').of_setup hsetup.symm
  have hcutting : Cutting job.machine job.path.segments.length above.toldTool.toldSpeed := by
    refine ⟨?_, honRecord, cutsOnRecord_told hcuts⟩
    rw [setup_toldSpeed, setup_toldTool, hsetup]
  have hrest : Within (Keeps (Cutting job.machine job.path.segments.length)) (do
      rapidZ (← get).machine.config.clearance : Machining Unit) :=
    within_get.bind fun _ => motionWithin_cutting.rapidZ _
  have hend := hrest above.toldTool.toldSpeed hcutting
  rw [hrun] at hend
  exact hend

/-- **An operation that gets through cuts with tool and speed on record.** -/
theorem Plan.Of.cutting_of_carryOut {p : Plan} (hp : Plan.Of m p) {job job' : Job} {u : Unit}
    (hjob : job.Mirrors) (hrpm : ¬ job.machine.rpm < 0) (hrun : p.carryOut job = .ok u job') :
    Cutting job.machine job.path.segments.length job' := by
  obtain ⟨_, above, happroach, hrun⟩ := bind_apply_eq_ok.mp hrun
  have hrest : Within (Keeps (Cutting job.machine job.path.segments.length))
      (do eachPass p.passes p.pass; retract : Machining Unit) :=
    (MotionWithin.eachPass _ (motionWithin_cutting.pass hp)).bind fun _ =>
      motionWithin_cutting.retract
  have hend := hrest above (cutting_of_approach hjob hrpm happroach)
  rw [hrun] at hend
  exact hend

end Machining

/-- **A call that gets through cuts with tool and speed on record**: those in
    use when it is made. -/
theorem Call.cutsOnRecord_of_apply {args : Arguments} {f : Builtin} {job job' : Job} {v : Value}
    (hjob : job.Mirrors) (hrpm : ¬ job.machine.rpm < 0)
    (h : Call.apply args f job = .ok v job') :
    CutsOnRecord job.machine job.path.segments.length job'.path.segments := by
  have hself := cutsOnRecord_self job.machine job.path.segments
  have heffect := Call.effect_apply args f job
  generalize Call.apply args f job = r at h heffect
  cases heffect with
  | refused fault => cases h
  | settings m hm v =>
      cases h
      exact hself
  | comment text v =>
      cases h
      rw [Toolpath.segments_push]
      exact hself.concat fun hcut => by cases hcut
  | dwell seconds v =>
      cases h
      rw [Toolpath.segments_push]
      exact hself.concat fun hcut => by cases hcut
  | operation p hp w =>
      obtain ⟨u, mid, hcarried, hreturned⟩ := bind_apply_eq_ok.mp h
      cases hreturned
      exact (hp.cutting_of_carryOut hjob hrpm hcarried).cuts

end MillScript
