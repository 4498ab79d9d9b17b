import MillScript.Proofs.Machining.Mirror

/-! # Arcs start somewhere and keep their height

    An arc is made from where the tool is, at the height it is at.  It does
    not go the way of the other moves: it is never left out, and it does not
    mark the position as known.  What makes its start one that the toolpath
    knows is the approach at the beginning of its operation.  From there on
    the machine has the target of the last move, so the height of an arc is
    the one at which the move before it ended, to the last bit. -/

namespace MillScript

/-- Every arc among steps comes after a move and ends at the height at which
    the last one before it did. -/
def ArcsLevel (steps : List Segment) : Prop :=
  ∀ front center target feed line back,
    steps = front ++ ⟨.move (.arc center) target feed, line⟩ :: back →
    ∃ p, lastTarget front = some p ∧ target.z = p.z

theorem arcsLevel_nil : ArcsLevel [] := by
  intro front center target feed line back hnil
  cases front <;> cases hnil

/-- A step more is no arc, or it is level. -/
theorem ArcsLevel.concat {steps : List Segment} (h : ArcsLevel steps) {s : Segment}
    (hs : ∀ center target feed, s.action = .move (.arc center) target feed →
      ∃ p, lastTarget steps = some p ∧ target.z = p.z) : ArcsLevel (steps ++ [s]) := by
  intro front center target feed line back hsteps
  rcases Lawful.eq_or_of_concat_eq hsteps with ⟨rfl, rfl⟩ | ⟨rest, hrest⟩
  · exact hs center target feed rfl
  · exact h front center target feed line rest hrest

namespace Job

/-- The arcs of the toolpath are level. -/
def Level (j : Job) : Prop := ArcsLevel j.path.segments

/-- A step that is no arc. -/
theorem Level.push {j : Job} (h : j.Level) (m : Machine) {a : Action}
    (ha : ∀ center target feed, a ≠ .move (.arc center) target feed) :
    Level ⟨m, j.path.push a⟩ := by
  rw [Level, Toolpath.segments_push]
  exact h.concat fun center target feed harc => absurd harc (ha center target feed)

theorem Level.toldTool {j : Job} (h : j.Level) : j.toldTool.Level := by
  rw [Job.toldTool]
  split
  · exact h.push _ fun _ _ _ harc => Action.noConfusion harc
  · exact h

theorem Level.toldSpeed {j : Job} (h : j.Level) : j.toldSpeed.Level := by
  rw [Job.toldSpeed]
  split
  · exact h.push _ fun _ _ _ harc => Action.noConfusion harc
  · exact h

/-- An arc, from where the tool is known to be. -/
theorem Level.push_arc {j : Job} (h : j.Level) (htracked : j.Tracked) (m : Machine)
    (center : Vec2) {target : Vec3} (feed : Float)
    (hz : target.z = j.machine.position.z) :
    Level ⟨m, j.path.push (.move (.arc center) target feed)⟩ := by
  have hlast := htracked.target
  rw [htracked.known, if_pos rfl] at hlast
  rw [Level, Toolpath.segments_push]
  refine h.concat ?_
  rintro _ _ _ ⟨⟩
  exact ⟨_, hlast, hz⟩

end Job

namespace Machining

open Job

/-! ## Straight moves -/

/-- Straight moves are no arcs. -/
theorem keeps_level_travel {kind : Move} (hkind : ∀ center, kind ≠ .arc center) {target : Vec3}
    {feed : Float} {job : Job} (h : job.Level) :
    (endState (travel kind target feed job)).Level := by
  rcases travel_cases kind target feed job with ⟨f, hfail⟩ | ⟨-, hsame⟩ | hmoved
  · rw [hfail]
    exact h
  · rw [hsame]
    exact h
  · rw [hmoved]
    refine h.push _ ?_
    rintro center _ _ ⟨⟩
    exact hkind center rfl

theorem keeps_level_rapid (x y z : Float) : Within (Keeps Level) (rapid x y z) :=
  fun _ => keeps_level_travel fun _ harc => Move.noConfusion harc

theorem keeps_level_rapidZ (z : Float) : Within (Keeps Level) (rapidZ z) :=
  fun _ => keeps_level_travel fun _ harc => Move.noConfusion harc

theorem keeps_level_announce : Within (Keeps Level) announce := by
  intro job h
  rw [announce_apply]
  exact h.toldTool.toldSpeed

/-- The way to the work has no arc. -/
theorem keeps_level_approach (x y : Float) : Within (Keeps Level) (approach x y) :=
  within_get.bind fun _ => (keeps_level_rapid _ _ _).bind fun _ =>
    keeps_level_announce.bind fun _ => within_get.bind fun _ => keeps_level_rapidZ _

/-! ## Operations -/

/-- Every move keeps the arcs level where the position is known, and keeps it
    known. -/
theorem motionWithin_level : MotionWithin (Keeps fun j => j.Tracked ∧ j.Level) where
  rapid _ _ _ job h := ⟨keeps_travel h.1, keeps_level_rapid _ _ _ job h.2⟩
  rapidZ _ job h := ⟨keeps_travel h.1, keeps_level_rapidZ _ job h.2⟩
  plunge _ _ h := ⟨keeps_travel h.1, keeps_level_travel (fun _ harc => Move.noConfusion harc) h.2⟩
  cut _ _ _ h := ⟨keeps_travel h.1, keeps_level_travel (fun _ harc => Move.noConfusion harc) h.2⟩
  arc x y cx cy job h := by
    refine ⟨keeps_arc x y cx cy job h.1, ?_⟩
    rcases arc_cases x y cx cy job with ⟨f, hfail⟩ | ⟨center, target, hz, hmoved⟩
    · rw [hfail]
      exact h.2
    · rw [hmoved]
      exact h.2.push_arc h.1 _ center _ hz
  announce job h := ⟨keeps_announce job h.1, keeps_level_announce job h.2⟩

/-- **An operation that gets through keeps the arcs level.** -/
theorem Plan.Of.level_of_carryOut {m : Machine} {p : Plan} (hp : Plan.Of m p) {job job' : Job}
    {u : Unit} (hjob : job.Mirrors) (hlevel : job.Level) (hrun : p.carryOut job = .ok u job') :
    job'.Level := by
  obtain ⟨_, above, happroach, hrun⟩ := bind_apply_eq_ok.mp hrun
  have habove : above.Level := by
    have hkept := keeps_level_approach p.start.x p.start.y job hlevel
    rw [happroach] at hkept
    exact hkept
  have hrest : Within (Keeps fun j => j.Tracked ∧ j.Level)
      (do eachPass p.passes p.pass; retract : Machining Unit) :=
    (MotionWithin.eachPass _ (motionWithin_level.pass hp)).bind fun _ =>
      motionWithin_level.retract
  have hend := hrest above ⟨tracked_of_approach hjob happroach, habove⟩
  rw [hrun] at hend
  exact hend.2

end Machining

/-- **A call that gets through keeps the arcs level.** -/
theorem Call.level_of_apply {args : Arguments} {f : Builtin} {job job' : Job} {v : Value}
    (hjob : job.Mirrors) (hlevel : job.Level) (h : Call.apply args f job = .ok v job') :
    job'.Level := by
  have heffect := Call.effect_apply args f job
  generalize Call.apply args f job = r at h heffect
  cases heffect with
  | refused fault => cases h
  | settings m hm v =>
      cases h
      exact hlevel
  | comment text v =>
      cases h
      exact hlevel.push _ fun _ _ _ harc => Action.noConfusion harc
  | dwell seconds v =>
      cases h
      exact hlevel.push _ fun _ _ _ harc => Action.noConfusion harc
  | operation p hp w =>
      obtain ⟨u, mid, hcarried, hreturned⟩ := bind_apply_eq_ok.mp h
      cases hreturned
      exact hp.level_of_carryOut hjob hlevel hcarried

end MillScript
