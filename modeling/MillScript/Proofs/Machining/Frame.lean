import MillScript.Proofs.Machining.Plan
import MillScript.Proofs.Outcome

/-! # What operations leave alone

    Whether an operation succeeds or fails half way, it appends to the
    toolpath and takes nothing away, and of the machine it changes no more
    than where the tool is and what has been announced. -/

namespace MillScript

/-- The machine without what operations change. -/
def Machine.setup (m : Machine) : Machine :=
  { m with position := ⟨0, 0, 0⟩, positionKnown := false, announcedRpm := 0, announcedTool := "" }

/-- Machines that are set up alike differ in where the tool is and in what
    has been announced. -/
theorem Machine.eq_of_setup {m m' : Machine} (h : m'.setup = m.setup) :
    m' = { m with
      position := m'.position
      positionKnown := m'.positionKnown
      announcedRpm := m'.announcedRpm
      announcedTool := m'.announcedTool } := by
  cases m
  cases m'
  simp only [setup, mk.injEq, true_and, and_true] at h
  simpa only [mk.injEq, true_and, and_true] using h

/-- What operations may do to a job. -/
structure Job.Moved (j j' : Job) : Prop where
  setup : j'.machine.setup = j.machine.setup
  line : j'.path.line = j.path.line
  recorded : j.path.recorded <:+ j'.path.recorded

namespace Job

instance : IsPreorder Job Moved where
  refl _ := ⟨rfl, rfl, List.suffix_rfl⟩
  trans _ _ _ h h' :=
    ⟨h'.setup.trans h.setup, h'.line.trans h.line, h.recorded.trans h'.recorded⟩

/-- The configuration is part of what operations leave alone. -/
theorem Moved.config {j j' : Job} (h : Moved j j') : j'.machine.config = j.machine.config := by
  rw [Machine.eq_of_setup h.setup]

end Job

namespace Machining

/-! ## Single steps -/

open Job

/-- A step on a machine that is set up as before. -/
theorem moved_push {machine : Machine} {job : Job} (a : Action)
    (h : machine.setup = job.machine.setup) : Moved job ⟨machine, job.path.push a⟩ :=
  ⟨h, rfl, List.suffix_cons _ _⟩

theorem within_record (a : Action) : Within Moved (record a) := fun _ => moved_push a rfl

/-- A straight move is recorded or left out, and the machine keeps its
    settings. -/
theorem within_travel (kind : Move) (target : Vec3) (feed : Float) :
    Within Moved (travel kind target feed) := by
  intro job
  rw [travel]
  split
  · exact refl_of Moved job
  · split
    · exact refl_of Moved job
    · exact moved_push _ rfl

theorem within_arc (x y cx cy : Float) : Within Moved (arc x y cx cy) := by
  intro job
  rw [arc]
  dsimp only
  split
  · exact refl_of Moved job
  · split
    · exact refl_of Moved job
    · exact moved_push _ rfl

theorem within_rapid (x y z : Float) : Within Moved (rapid x y z) :=
  within_get.bind fun _ => within_travel _ _ _

theorem within_rapidZ (z : Float) : Within Moved (rapidZ z) :=
  within_get.bind fun _ => within_travel _ _ _

theorem within_plunge (z : Float) : Within Moved (plunge z) :=
  within_get.bind fun _ => within_travel _ _ _

theorem within_cut (x y : Float) : Within Moved (cut x y) :=
  within_get.bind fun _ => within_travel _ _ _

/-- A note of what is announced, and the step that says so. -/
theorem within_announcement (a : Action) {change : Job → Job}
    (h : ∀ job, Moved job (change job)) :
    Within Moved (do record a; modify change : Machining Unit) :=
  (within_record a).bind fun _ => h

/-- What an announcement changes is what has been announced. -/
theorem within_announce : Within Moved announce := by
  rw [announce]
  refine within_get.bind fun job => ?_
  have hspeed : Within Moved (if job.machine.rpm != job.machine.announcedRpm then do
      record (.spindle job.machine.rpm)
      modify fun j : Job => { j with machine.announcedRpm := job.machine.rpm }
      else pure () : Machining Unit) :=
    .ite (within_announcement _ fun _ => ⟨rfl, rfl, List.suffix_rfl⟩) (within_pure ())
  refine .ite ?_ hspeed
  refine (within_record _).bind fun _ => Within.bind ?_ fun _ => hspeed
  exact fun _ => ⟨rfl, rfl, List.suffix_rfl⟩

/-! ## From moves to operations -/

/-- Every move and announcement, however it ends, relates the job before it
    to the job after it. -/
structure MotionWithin (R : Job → Job → Prop) : Prop where
  rapid : ∀ x y z, Within R (rapid x y z)
  rapidZ : ∀ z, Within R (rapidZ z)
  plunge : ∀ z, Within R (plunge z)
  cut : ∀ x y, Within R (cut x y)
  arc : ∀ x y cx cy, Within R (arc x y cx cy)
  announce : Within R announce

/-- All moves and announcements do no more to a job than that. -/
theorem motionWithin_moved : MotionWithin Moved :=
  ⟨within_rapid, within_rapidZ, within_plunge, within_cut, within_arc, within_announce⟩

namespace MotionWithin

variable {R : Job → Job → Prop} [IsPreorder Job R] (h : MotionWithin R)

/-- The height clear of a cut is read, and nothing is changed. -/
theorem clearOf (z : Float) : Within R (clearOf z) := within_get.bind fun _ => within_pure _

/-- What every pass keeps, all passes together keep. -/
theorem eachPass (n : Nat) {pass : Nat → Machining Unit} (hpass : ∀ k, Within R (pass k)) :
    Within R (eachPass n pass) := .forM hpass _

include h

/-- The way to the work is made of moves and an announcement. -/
theorem approach (x y : Float) : Within R (approach x y) :=
  within_get.bind fun _ => (h.rapid _ _ _).bind fun _ =>
    h.announce.bind fun _ => within_get.bind fun _ => h.rapidZ _

theorem retract : Within R retract := within_get.bind fun _ => h.rapidZ _

/-- The passes of a drilled hole are made of moves. -/
theorem peckPass (depth : Float) (pecks k : Nat) : Within R (peckPass depth pecks k) := by
  refine (h.plunge _).bind fun _ => .ite ?_ (within_pure ())
  exact (clearOf _).bind fun _ => h.rapidZ _

/-- The passes of a pocket are made of its cuts and of moves. -/
theorem clearingPass (start : Vec2) (depth : Float) {cuts : Machining Unit}
    (hcuts : Within R cuts) (passes k : Nat) :
    Within R (clearingPass start depth cuts passes k) := by
  refine (h.plunge _).bind fun _ => hcuts.bind fun _ => .ite ?_ (within_pure ())
  refine (clearOf _).bind fun _ => (h.rapidZ _).bind fun _ => ?_
  exact (clearOf _).bind fun _ => h.rapid _ _ _

theorem groovePass (start stop : Vec2) (depth : Float) (passes k : Nat) :
    Within R (groovePass start stop depth passes k) :=
  (h.plunge _).bind fun _ => h.cut _ _

/-- The passes along an arc are made of moves. -/
theorem arcPass (start stop center : Vec2) (depth clearance : Float) (passes k : Nat) :
    Within R (arcPass start stop center depth clearance passes k) := by
  refine (h.plunge _).bind fun _ => (h.arc _ _ _ _).bind fun _ => .ite ?_ (within_pure ())
  exact (h.rapidZ _).bind fun _ => h.rapid _ _ _

theorem rings (cx cy pathRadius : Float) (n : Nat) : Within R (rings cx cy pathRadius n) :=
  eachPass n fun _ => (h.cut _ _).bind fun _ => (h.arc _ _ _ _).bind fun _ => h.arc _ _ _ _

theorem loopCuts (loops : Loops) : Within R (loopCuts loops) := .forM (fun _ => h.cut _ _) _

/-- The passes of every operation are made of moves. -/
theorem pass {m : Machine} {p : Plan} (hp : Plan.Of m p) (k : Nat) : Within R (p.pass k) := by
  cases hp with
  | drill x y depth peck hp =>
      obtain ⟨-, -, pecks, -, rfl⟩ := drillPlan_eq_ok hp
      exact h.peckPass _ _ _
  | circlePocket cx cy radius depth hp =>
      obtain ⟨-, -, n, -, passes, -, rfl⟩ := circlePlan_eq_ok hp
      exact h.clearingPass _ _ (h.rings _ _ _ _) _ _
  | groove start stop depth hp =>
      obtain ⟨-, passes, -, rfl⟩ := groovePlan_eq_ok hp
      exact h.groovePass _ _ _ _ _
  | arcGroove start stop center depth hp =>
      obtain ⟨-, -, -, passes, -, rfl⟩ := arcPlan_eq_ok hp
      exact h.arcPass _ _ _ _ _ _ _
  | groovePocket x y width height depth hp =>
      obtain ⟨-, loops, -, passes, -, rfl⟩ := pocketPlan_eq_ok hp
      exact h.clearingPass _ _ (h.loopCuts _) _ _

/-- What all moves and announcements keep, an operation keeps. -/
theorem carryOut {m : Machine} {p : Plan} (hp : Plan.Of m p) : Within R p.carryOut :=
  (h.approach _ _).bind fun _ => (eachPass _ (h.pass hp)).bind fun _ => h.retract

end MotionWithin

/-- **Operations touch motion state only**, however far they get. -/
theorem Plan.Of.within_carryOut {m : Machine} {p : Plan} (h : Plan.Of m p) :
    Within Moved p.carryOut := motionWithin_moved.carryOut h

end Machining

end MillScript
