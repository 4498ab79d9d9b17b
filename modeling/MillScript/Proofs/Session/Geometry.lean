import MillScript.Proofs.Machining.Level
import MillScript.Proofs.Session.Mirror
import MillScript.Proofs.Session.Output

/-! # The geometry of a session can be used

    Moves of a session go to real places, and its arcs turn about real
    centres, start where a move before them ended, and keep its height.  An
    arc needs a move before it that was not taken back with a script that
    failed; as scripts are taken back whole, the approach of an operation is
    there wherever one of its arcs is.  So no arc of a session is without a
    start when the session is written out. -/

namespace MillScript

theorem Job.Agree.level {j j' : Job} (h : j.Agree j') (hj : j.Level) : j'.Level := by
  rw [Job.Level, ← h.segments]
  exact hj

namespace Session

/-- The arcs of a session are level in every state that it can reach. -/
theorem level_afterAll {config : Config} {verbose : Bool} {s : Session}
    (h : ofConfig config verbose = .ok s) (scripts : List Script) :
    (s.afterAll scripts).world.job.Level := by
  obtain ⟨calls, hcalls⟩ := leads_afterAll s scripts
  have hnew : s.world.job.Level := by
    rw [Job.Level, (atRest_of_ofConfig h).2]
    exact arcsLevel_nil
  have hkept := hcalls.invariant (I := fun j => j.Mirrors ∧ j.Level)
    (fun hagree hj => ⟨hagree.mirrors hj.1, hagree.level hj.2⟩)
    (fun call hj => ⟨call.mirrors hj.1, Call.level_of_apply hj.1 hj.2 call.applied⟩)
    ⟨(mirrors_of_ofConfig h).1, hnew⟩
  exact hkept.2.2

theorem placed_afterAll {config : Config} {verbose : Bool} {s : Session}
    (h : ofConfig config verbose = .ok s) (scripts : List Script) :
    (s.afterAll scripts).world.job.Placed := by
  obtain ⟨calls, hcalls⟩ := leads_afterAll s scripts
  exact (hcalls.invariant (fun hagree => hagree.placed) (fun call => call.placed)
    (real_of_ofConfig h).2.2).2

/-- **The geometry of a session can be used.**  Whatever scripts a session has
    run, its moves go to real places, and each of its arcs has a real centre,
    a move before it, and the height of that move.  So writing the session out
    never fails for an arc without a start. -/
theorem geometry_usable {config : Config} {verbose : Bool} {s : Session}
    (h : ofConfig config verbose = .ok s) (scripts : List Script) :
    (∀ front kind target feed line back,
        (s.afterAll scripts).world.job.path.segments
          = front ++ ⟨.move kind target feed, line⟩ :: back →
        target.isFinite = true
          ∧ ∀ center, kind = .arc center →
            center.x.isFinite = true ∧ center.y.isFinite = true
              ∧ ∃ p, lastTarget front = some p ∧ target.z = p.z)
      ∧ (s.afterAll scripts).output ≠ .error RuntimeFault.arcWithoutStart := by
  have hlevel := level_afterAll h scripts
  refine ⟨?_, ?_⟩
  · intro front kind target feed line back hsteps
    have hmem : ⟨.move kind target feed, line⟩ ∈ (s.afterAll scripts).world.job.path.recorded := by
      rw [← List.mem_reverse]
      show _ ∈ (s.afterAll scripts).world.job.path.segments
      rw [hsteps]
      exact List.mem_append_right _ List.mem_cons_self
    obtain ⟨htarget, hcenter⟩ := placed_afterAll h scripts _ hmem
    refine ⟨htarget, ?_⟩
    rintro center rfl
    obtain ⟨hx, hy⟩ := hcenter center rfl
    exact ⟨hx, hy, hlevel front center target feed line back hsteps⟩
  · intro hfault
    obtain ⟨front, center, target, feed, line, back, hsteps, hlast⟩ :=
      Gcode.exists_arc_of_emit_eq_error hfault
    obtain ⟨p, hp, -⟩ := hlevel front center target feed line back hsteps
    rw [hlast] at hp
    cases hp

/-- A groove along an arc that is taken back with its script, and the same
    groove again. -/
def tornArc : List Script :=
  [⟨"torn", "groove(0mm,0mm,2mm,0mm,1mm,1mm,0mm);x;"⟩,
    ⟨"arc", "groove(0mm,0mm,2mm,0mm,1mm,1mm,0mm);"⟩]

/-- The arc of the second groove. -/
def keptArc : Segment := ⟨.move (.arc ⟨1, 0⟩) ⟨2, 0, -1⟩ 600, 1⟩

theorem geometry_usable_tornArc :
    ofConfig {} false = .ok standard
      ∧ ∃ front back, (standard.afterAll tornArc).world.job.path.segments
          = front ++ keptArc :: back
        ∧ (∃ p, lastTarget front = some p ∧ p.z = -1)
        ∧ (standard.afterAll tornArc).output ≠ .error RuntimeFault.arcWithoutStart := by
  have hstandard : ofConfig {} false = .ok standard := rfl
  have hmem : keptArc ∈ (standard.afterAll tornArc).world.job.path.segments := by decide +kernel
  obtain ⟨hmoves, houtput⟩ := geometry_usable hstandard tornArc
  obtain ⟨front, back, hsteps⟩ := List.append_of_mem hmem
  obtain ⟨-, harc⟩ := hmoves front (.arc ⟨1, 0⟩) ⟨2, 0, -1⟩ 600 1 back hsteps
  obtain ⟨-, -, p, hp, hz⟩ := harc ⟨1, 0⟩ rfl
  exact ⟨hstandard, front, back, hsteps, ⟨p, hp, hz.symm⟩, houtput⟩

end Session

end MillScript
