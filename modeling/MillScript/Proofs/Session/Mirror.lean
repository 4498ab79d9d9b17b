import MillScript.Proofs.Machining.Mirror
import MillScript.Proofs.Session.Calls
import MillScript.Proofs.Session.MotionDiscipline

/-! # Sessions mirror their toolpaths

    Five things are kept beside the toolpath: whether the tool was sent
    anywhere, where to, the tool and the spindle speed last recorded, and the
    moves as rows.  They are written in different places, and taken back in
    yet another when a script fails.  In every state that a session can
    reach they say what the toolpath says. -/

namespace MillScript

/-- Jobs that agree have one machine and one toolpath. -/
theorem Job.Agree.mirrors {j j' : Job} (h : j.Agree j') (hj : j.Mirrors) : j'.Mirrors := by
  obtain ⟨htarget, htool, hspeed⟩ := hj
  rw [h.segments, h.machine] at htarget htool hspeed
  exact ⟨htarget, htool, hspeed⟩

/-- A call keeps the mirror. -/
theorem Performed.mirrors (call : Performed) (h : call.before.Mirrors) : call.after.Mirrors :=
  Call.mirrors_of_apply h call.applied

/-- A last target is the target of a move, and wherever there is a move there
    is a last target. -/
theorem isSome_lastTarget_iff {steps : List Segment} :
    (lastTarget steps).isSome = true
      ↔ ∃ kind target feed line, ⟨.move kind target feed, line⟩ ∈ steps := by
  simp only [lastTarget, List.getLast?_isSome, ne_eq, List.filterMap_eq_nil_iff,
    Classical.not_forall, exists_prop]
  constructor
  · rintro ⟨⟨a, line⟩, hmem, htarget⟩
    cases a with
    | move kind target feed => exact ⟨kind, target, feed, line, hmem⟩
    | dwell seconds => exact absurd rfl htarget
    | spindle rpm => exact absurd rfl htarget
    | comment text => exact absurd rfl htarget
    | toolChange text => exact absurd rfl htarget
  · rintro ⟨kind, target, feed, line, hmem⟩
    exact ⟨_, hmem, fun hnone => by cases hnone⟩

/-- The moves among steps as numbers, six for each and in order: the three
    coordinates of the target, the feed, the kind (0 for a rapid move, 1 for a
    straight one, 2 for an arc) and the line.  Other steps have none. -/
inductive PointsOf : List Segment → List Float → Prop where
  | nil : PointsOf [] []
  | rapid {target : Vec3} {feed : Float} {line : Int} {steps : List Segment}
      {points : List Float} (rest : PointsOf steps points) :
      PointsOf (⟨.move .rapid target feed, line⟩ :: steps)
        ([target.x, target.y, target.z, feed, 0, Float.ofInt line] ++ points)
  | linear {target : Vec3} {feed : Float} {line : Int} {steps : List Segment}
      {points : List Float} (rest : PointsOf steps points) :
      PointsOf (⟨.move .linear target feed, line⟩ :: steps)
        ([target.x, target.y, target.z, feed, 1, Float.ofInt line] ++ points)
  | arc {center : Vec2} {target : Vec3} {feed : Float} {line : Int} {steps : List Segment}
      {points : List Float} (rest : PointsOf steps points) :
      PointsOf (⟨.move (.arc center) target feed, line⟩ :: steps)
        ([target.x, target.y, target.z, feed, 2, Float.ofInt line] ++ points)
  | still {a : Action} {line : Int} {steps : List Segment} {points : List Float}
      (other : ∀ kind target feed, a ≠ .move kind target feed) (rest : PointsOf steps points) :
      PointsOf (⟨a, line⟩ :: steps) points

/-- The values of the rows of steps are the points of their moves. -/
theorem pointsOf_rows (steps : List Segment) :
    PointsOf steps ((steps.filterMap Segment.row?).flatMap Row.values) := by
  induction steps with
  | nil => exact .nil
  | cons s rest ih =>
      obtain ⟨a, line⟩ := s
      cases a with
      | move kind target feed =>
          cases kind with
          | rapid => exact .rapid ih
          | linear => exact .linear ih
          | arc center => exact .arc ih
      | dwell seconds => exact .still (fun _ _ _ h => by cases h) ih
      | spindle rpm => exact .still (fun _ _ _ h => by cases h) ih
      | comment text => exact .still (fun _ _ _ h => by cases h) ih
      | toolChange text => exact .still (fun _ _ _ h => by cases h) ih

namespace Session

/-- The rows are those of the toolpath. -/
def RowsCurrent (s : Session) : Prop := s.rows = s.world.job.path.rows

/-- Sessions that agree have the same rows. -/
theorem Agree.rowsCurrent {s t : Session} (h : Agree s t) (hs : s.RowsCurrent) : t.RowsCurrent := by
  rw [RowsCurrent, Toolpath.rows, ← h.rows, ← h.world.job.segments]
  exact hs

/-- A script that runs through makes the rows anew; one that fails takes its
    steps back, and the rows are still those of the toolpath. -/
theorem rowsCurrent_attempt {s : Session} (hs : s.RowsCurrent) (script : Script) :
    (s.attempt script).2.RowsCurrent := by
  rcases s.attempt_cases script with ⟨-, hagree⟩ | ⟨tree, p, w, -, -, -, hdone⟩
  · exact hagree.rowsCurrent hs
  · rw [hdone]
    rfl

/-- The rows are those of the toolpath after any number of scripts. -/
theorem rowsCurrent_afterAll {s : Session} (hs : s.RowsCurrent) (scripts : List Script) :
    (s.afterAll scripts).RowsCurrent := by
  induction scripts generalizing s with
  | nil => exact hs
  | cons script rest ih => exact ih (rowsCurrent_attempt hs script)

/-- A new machine remembers nothing, and a new toolpath says nothing. -/
theorem mirrors_of_ofConfig {config : Config} {verbose : Bool} {s : Session}
    (h : ofConfig config verbose = .ok s) : s.world.job.Mirrors ∧ s.RowsCurrent := by
  rw [ofConfig, Machine.ofConfig] at h
  split at h
  · cases h
  · rw [← Except.ok.inj h]
    exact ⟨⟨rfl, rfl, rfl⟩, rfl⟩

/-- The machine mirrors the toolpath after any number of scripts. -/
theorem mirrors_afterAll {s : Session} (hs : s.world.job.Mirrors) (scripts : List Script) :
    (s.afterAll scripts).world.job.Mirrors := by
  obtain ⟨calls, hcalls⟩ := leads_afterAll s scripts
  exact (hcalls.invariant (fun hagree => hagree.mirrors) (fun call => call.mirrors) hs).2

/-- **The machine mirrors the toolpath.**  Whatever scripts a session has
    run, the position is known just if the toolpath has a move, and is then
    the target of the last one; the tool and the spindle speed on record are
    those last recorded; the values of the rows are the target, the feed, the
    kind and the line of each move in order, and nothing else. -/
theorem machine_mirrors_toolpath {config : Config} {verbose : Bool} {s : Session}
    (h : ofConfig config verbose = .ok s) (scripts : List Script) :
    let machine := (s.afterAll scripts).world.job.machine
    let steps := (s.afterAll scripts).world.job.path.segments
    (machine.positionKnown = true
        ↔ ∃ kind target feed line, ⟨.move kind target feed, line⟩ ∈ steps)
      ∧ (machine.positionKnown = true → lastTarget steps = some machine.position)
      ∧ machine.announcedTool = (lastTool steps).getD ""
      ∧ machine.announcedRpm = (lastSpeed steps).getD (-1)
      ∧ PointsOf steps ((s.afterAll scripts).rows.flatMap Row.values) := by
  intro machine steps
  obtain ⟨hmirrors, hrows⟩ := mirrors_of_ofConfig h
  obtain ⟨htarget, htool, hspeed⟩ := mirrors_afterAll hmirrors scripts
  refine ⟨?_, ?_, htool, hspeed, ?_⟩
  · rw [← isSome_lastTarget_iff]
    show machine.positionKnown = true ↔ (lastTarget steps).isSome = true
    rw [htarget]
    cases machine.positionKnown <;> simp
  · intro hknown
    rw [htarget, hknown]
    rfl
  · rw [rowsCurrent_afterAll hrows scripts]
    exact pointsOf_rows steps

/-- A hole, a script that has recorded another speed and a move when it
    fails, and an arc in brass on a second line. -/
def holeAndArc : List Script :=
  [⟨"hole", "drill(0mm,0mm,1mm);"⟩, ⟨"torn", "rpm(9);drill(2mm,0mm,1mm);x;"⟩,
    ⟨"arc", "material('brass');\ngroove(0mm,0mm,2mm,0mm,0.4mm,1mm,0mm);"⟩]

/-- After the two scripts that ran through the tool of the second is on record,
    and there are eight moves: four for the hole and four for the arc. -/
theorem machine_mirrors_toolpath_holeAndArc :
    let done := standard.afterAll holeAndArc
    let steps := done.world.job.path.segments
    ofConfig {} false = .ok standard
      ∧ lastTool steps = some "3.175mm cutter, brass"
      ∧ done.world.job.machine.announcedTool = "3.175mm cutter, brass"
      ∧ steps.filterMap Segment.speed? = [12000, 8000]
      ∧ done.world.job.machine.announcedRpm = (lastSpeed steps).getD (-1)
      ∧ lastTarget steps = some done.world.job.machine.position
      ∧ done.rows.map Row.values
        = [[0, 0, 5, 0, 0, 1], [0, 0, 0.25, 0, 0, 1], [0, 0, -1, 200, 1, 1], [0, 0, 5, 0, 0, 1],
          [0, 0, 0.25, 0, 0, 2], [0, 0, -0.4, 80, 1, 2], [2, 0, -0.4, 300, 2, 2],
          [2, 0, 5, 0, 0, 2]]
      ∧ PointsOf steps (done.rows.flatMap Row.values) := by
  intro done steps
  have hstandard : ofConfig {} false = .ok standard := rfl
  have hlast : lastTool steps = some "3.175mm cutter, brass"
      ∧ steps.filterMap Segment.speed? = [12000, 8000]
      ∧ done.world.job.machine.positionKnown = true := by decide +kernel
  obtain ⟨-, htarget, htool, hspeed, hpoints⟩ := machine_mirrors_toolpath hstandard holeAndArc
  refine ⟨hstandard, hlast.1, ?_, hlast.2.1, hspeed, htarget hlast.2.2, by decide +kernel,
    hpoints⟩
  rw [htool, hlast.1, Option.getD_some]

end Session

end MillScript
