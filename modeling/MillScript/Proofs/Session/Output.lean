import MillScript.Proofs.Gcode.Writable
import MillScript.Proofs.Session.MotionDiscipline
import MillScript.Proofs.Session.RealValues

/-! # Which sessions can be written out

    A session can be written out exactly when all numbers of its toolpath
    that are written are real.  Places always are.  Rates, speeds and times
    are if every call of the session gave back real numbers, which evenly
    spaced numbers need not be, as the distance between their ends may be
    out of range.  What is left is the way from the start of an arc to its
    centre: both points are real, their difference need not be. -/

namespace MillScript

/-! ## Calls and agreeing jobs -/

/-- Jobs that agree have their steps at the same places. -/
theorem Job.Agree.placed {j j' : Job} (h : j.Agree j') (hj : j.Placed) : j'.Placed := by
  rw [Job.Placed, ← h.recorded]
  exact hj

theorem Job.Agree.paced {j j' : Job} (h : j.Agree j') (hj : j.Paced) : j'.Paced :=
  ⟨h.machine ▸ hj.machine, h.recorded ▸ hj.steps⟩

namespace Performed

/-- A call leaves all steps at real places. -/
theorem placed (call : Performed) (h : call.before.Placed) : call.after.Placed := by
  have hplaced := Call.placed_apply call.arguments call.function h
  rw [call.applied] at hplaced
  exact hplaced

/-- A call on real arguments leaves all steps real rates. -/
theorem paced (call : Performed) (hargs : AllReal (List.lookup · call.arguments))
    (h : call.before.Paced) : call.after.Paced := by
  have hpaced := Call.keeps_apply hargs call.function call.before h
  rw [call.applied] at hpaced
  exact hpaced

end Performed

/-! ## Arcs in reach -/

/-- The way from the start of an arc to its centre is real. -/
def Action.inReach (last : Option Vec3) : Action → Bool
  | .move (.arc center) _ _ =>
    last.any fun p => (center.x - p.x).isFinite && (center.y - p.y).isFinite
  | _ => true

/-- So it is for all arcs among steps after the last move. -/
def arcsInReach : Option Vec3 → List Segment → Bool
  | _, [] => true
  | last, s :: rest => s.action.inReach last && arcsInReach (s.target?.or last) rest

/-- Whether all arcs are in reach can be asked step by step. -/
theorem arcsInReach_iff {before segments : List Segment} :
    arcsInReach (lastTarget before) segments = true
      ↔ ∀ front a line back, segments = front ++ ⟨a, line⟩ :: back →
        a.inReach (lastTarget (before ++ front)) = true := by
  induction segments generalizing before with
  | nil =>
      refine iff_of_true rfl ?_
      intro front a line back hnil
      cases front <;> cases hnil
  | cons s rest ih =>
      rw [Gcode.forall_steps_cons_iff (P := fun last a => a.inReach last = true), arcsInReach,
        Bool.and_eq_true, ← lastTarget_concat, ih]

/-- An arc that can be written is in reach. -/
theorem Gcode.Writable.inReach {precision : Int} {last : Option Vec3} {a : Action}
    (h : Gcode.Writable precision last a) : a.inReach last = true := by
  cases a with
  | move kind target feed =>
      cases kind with
      | rapid => rfl
      | linear => rfl
      | arc center =>
          obtain ⟨-, -, p, rfl, hx, hy⟩ := h
          show ((center.x - p.x).isFinite && (center.y - p.y).isFinite) = true
          rw [hx, hy]
          rfl
  | dwell seconds => rfl
  | spindle rpm => rfl
  | comment text => rfl
  | toolChange text => rfl

/-- With a real place, rate, speed or time, reach is all that matters. -/
theorem Action.Placed.writable {a : Action} (hplaced : a.Placed) (hpaced : a.Paced)
    {precision : Int} {last : Option Vec3} (h : a.inReach last = true) :
    Gcode.Writable precision last a := by
  cases a with
  | move kind target feed =>
      cases kind with
      | rapid => exact hplaced.1
      | linear => exact ⟨hplaced.1, .inl hpaced⟩
      | arc center =>
          cases last with
          | none => cases h
          | some p => exact ⟨hplaced.1, hpaced, p, rfl, Bool.and_eq_true_iff.mp h⟩
  | dwell seconds => exact hpaced
  | spindle rpm => exact fun _ => hpaced
  | comment text => trivial
  | toolChange text => trivial

theorem arcsInReach_of_allWritable {precision : Int} {segments : List Segment}
    (h : Gcode.AllWritable precision segments) : arcsInReach none segments = true :=
  (@arcsInReach_iff [] segments).mpr fun front a line back hsegments =>
    (h front a line back hsegments).inReach

/-- At real places and with real rates, nothing but an arc out of reach stands
    in the way. -/
theorem allWritable_of_arcsInReach (precision : Int) {segments : List Segment}
    (hplaced : ∀ s ∈ segments, s.action.Placed) (hpaced : ∀ s ∈ segments, s.action.Paced)
    (h : arcsInReach none segments = true) : Gcode.AllWritable precision segments := by
  intro front a line back hsegments
  have hmem : ⟨a, line⟩ ∈ segments := by
    rw [hsegments]
    exact List.mem_append_right _ List.mem_cons_self
  have hreach : a.inReach (lastTarget front) = true :=
    (@arcsInReach_iff [] segments).mp h front a line back hsegments
  exact (hplaced _ hmem).writable (hpaced _ hmem) hreach

/-! ## Sessions -/

namespace Session

/-- A new session has no variables, real rates, and an empty toolpath. -/
theorem real_of_ofConfig {config : Config} {verbose : Bool} {s : Session}
    (h : ofConfig config verbose = .ok s) :
    AllReal s.world.scopes.lookup ∧ s.world.job.Paced ∧ s.world.job.Placed := by
  rw [ofConfig, Machine.ofConfig] at h
  split at h
  · cases h
  · rename_i material hmaterial
    have hpaced := Material.paced_standard material (List.mem_of_find?_eq_some hmaterial)
    rw [← Except.ok.inj h]
    refine ⟨AllReal.empty, ⟨⟨hpaced.rpm, hpaced, Material.paced_standard⟩, ?_⟩, ?_⟩
    · exact fun _ hs => absurd hs List.not_mem_nil
    · exact fun _ hs => absurd hs List.not_mem_nil

/-- While calls give back real numbers they are given real arguments. -/
theorem real_arguments {s : Session} (hs : AllReal s.world.scopes.lookup) {scripts : List Script}
    (h : ∀ c ∈ s.calls scripts, c.value.isFinite = true) :
    ∀ c ∈ s.calls scripts, AllReal (List.lookup · c.arguments) := by
  induction scripts generalizing s with
  | nil => exact fun _ hc => absurd hc List.not_mem_nil
  | cons script rest ih =>
      rw [calls, List.forall_mem_append] at h ⊢
      rcases s.attempt_cases script with ⟨hnone, hagree⟩ | ⟨tree, p, w, hp, hrun, hcalls, hdone⟩
      · -- taken back: the variables are those of before
        refine ⟨?_, ih (hagree.world.scopes ▸ hs) h.2⟩
        rw [hnone]
        exact fun _ hc => absurd hc List.not_mem_nil
      · rw [hcalls] at h ⊢
        obtain ⟨-, hw, hargs⟩ := Run.real_runAll (Tree.literalsReal_toProgram hp) _ _ w hrun hs h.1
        refine ⟨hargs, ih ?_ h.2⟩
        rw [hdone]
        exact hw

/-- **Writing a session out.**  In a session with a real safe height all
    places are real, and it can be written out exactly when all its steps are
    writable.  If the calls that made it gave back real numbers, then rates,
    speeds and times are real as well, and it can be written out exactly when
    its arcs are in reach. -/
theorem exists_output_iff {config : Config} {verbose : Bool} {s : Session}
    (h : ofConfig config verbose = .ok s) (hsafe : config.safeHeight.isFinite = true)
    (scripts : List Script) :
    (∀ segment ∈ (s.afterAll scripts).world.job.path.segments, segment.action.Placed)
      ∧ ((∃ text, (s.afterAll scripts).output = .ok text)
        ↔ Gcode.AllWritable config.precision (s.afterAll scripts).world.job.path.segments)
      ∧ Leads s.world.job (s.calls scripts) (s.afterAll scripts).world.job
      ∧ ((∀ call ∈ s.calls scripts, call.value.isFinite = true) →
        (∀ segment ∈ (s.afterAll scripts).world.job.path.segments, segment.action.Paced)
        ∧ ((∃ text, (s.afterAll scripts).output = .ok text)
          ↔ arcsInReach none (s.afterAll scripts).world.job.path.segments = true)) := by
  obtain ⟨hscopes, hpaced, hplaced⟩ := real_of_ofConfig h
  have hleads := s.leads_calls scripts
  have hrest := (hleads.invariant (fun hagree => hagree.atRest) (fun call => call.atRest)
    (atRest_of_ofConfig h).1).2
  have hplaces : ∀ segment ∈ (s.afterAll scripts).world.job.path.segments,
      segment.action.Placed := by
    intro segment hsegment
    have hend := (hleads.invariant (fun hagree => hagree.placed) (fun call => call.placed)
      hplaced).2
    exact hend segment (List.mem_reverse.mp hsegment)
  have houtput : (∃ text, (s.afterAll scripts).output = .ok text)
      ↔ Gcode.AllWritable config.precision (s.afterAll scripts).world.job.path.segments := by
    -- scripts cannot change the configuration, so the height written is the one given
    rw [output, hrest.config, Gcode.exists_emit_iff]
    exact and_iff_right hsafe
  refine ⟨hplaces, houtput, hleads, ?_⟩
  intro hcalls
  -- real results first, as the arguments of a call may be results of those before it
  have hargs := real_arguments hscopes hcalls
  have hpaces : ∀ segment ∈ (s.afterAll scripts).world.job.path.segments,
      segment.action.Paced := by
    intro segment hsegment
    have hend := (hleads.invariant_of_mem (fun hagree => hagree.paced)
      (fun call hcall => call.paced (hargs call hcall)) hpaced).2
    exact hend.steps segment (List.mem_reverse.mp hsegment)
  refine ⟨hpaces, ?_⟩
  rw [houtput]
  exact ⟨arcsInReach_of_allWritable, allWritable_of_arcsInReach config.precision hplaces hpaces⟩

/-- Waits of growing length, a script that fails, and a groove along an
    arc. -/
def waitsAndArc : List Script :=
  [⟨"waits", "for t in linspace(0, 3, 4) { dwell(t); }"⟩,
    ⟨"torn", "rpm(9000); dwell(0 - 1);"⟩,
    ⟨"arc", "groove(0mm, 0mm, 2mm, 0mm, cx = 1mm, cy = 0mm, depth = 0.5mm);"⟩]

theorem exists_output_iff_waitsAndArc :
    ofConfig {} false = .ok standard
      ∧ (standard.calls waitsAndArc).length = 6
      ∧ (∀ call ∈ standard.calls waitsAndArc, call.value.isFinite = true)
      ∧ arcsInReach none (standard.afterAll waitsAndArc).world.job.path.segments = true
      ∧ ∃ text, (standard.afterAll waitsAndArc).output = .ok text := by
  have hstandard : ofConfig {} false = .ok standard := rfl
  have hcalls : (standard.calls waitsAndArc).length = 6
      ∧ ∀ call ∈ standard.calls waitsAndArc, call.value.isFinite = true := by decide +kernel
  have hreach :
      arcsInReach none (standard.afterAll waitsAndArc).world.job.path.segments = true := by
    decide +kernel
  obtain ⟨-, -, -, houtput⟩ := exists_output_iff hstandard rfl waitsAndArc
  exact ⟨hstandard, hcalls.1, hcalls.2, hreach, (houtput hcalls.2).2.mpr hreach⟩

/-- Evenly spaced waits up to the range of numbers: their ends are real, but
    the sums between them are not. -/
def longWaits : Script :=
  ⟨"waits", "a = 1024; b = a*a*a*a*a*a*a*a*a*a; c = b*b*b*b*b*b*b*b*b*b*4194304; "
    ++ "for t in linspace(0, 3*c, 4) { dwell(t); }"⟩

/-- A groove along an arc with its start and its centre at opposite ends of
    the range of numbers. -/
def farArc : Script :=
  ⟨"arc", "a = 1024; b = a*a*a*a*a*a*a*a*a*a; c = b*b*b*b*b*b*b*b*b*b*4194304*3mm; "
    ++ "groove(0mm - c, 0mm, 0mm - c, 1mm, cx = c, cy = 0mm, depth = 1mm);"⟩

/-- The fault that keeps a session from being written out. -/
def outputFault? (s : Session) : Option Fault :=
  match s.output with
  | .ok _ => none
  | .error f => some f

/-- The fault that is shown is the one that output fails with. -/
theorem output_of_outputFault? {s : Session} {f : Fault} (h : s.outputFault? = some f) :
    s.output = .error f := by
  rw [outputFault?] at h
  cases hs : s.output with
  | ok text =>
      rw [hs] at h
      cases h
  | error f' =>
      rw [hs] at h
      exact congrArg Except.error (Option.some.inj h)

/-- Arcs that are out of reach keep a session from being written out. -/
theorem not_exists_output_of_arcsInReach {s : Session}
    (h : arcsInReach none s.world.job.path.segments = false) :
    ¬ ∃ text, s.output = .ok text := by
  rw [output, Gcode.exists_emit_iff]
  rintro ⟨-, hall⟩
  rw [arcsInReach_of_allWritable hall] at h
  cases h

theorem output_fails_longWaits_farArc :
    (standard.attempt longWaits).1 = none
      ∧ (standard.afterAll [longWaits]).output = .error RuntimeFault.nonFiniteNumber
      ∧ (standard.attempt farArc).1 = none
      ∧ ¬ ∃ text, (standard.afterAll [farArc]).output = .ok text := by
  have hwaits : (standard.attempt longWaits).1 = none
      ∧ (standard.afterAll [longWaits]).outputFault? = some RuntimeFault.nonFiniteNumber := by
    decide +kernel
  have harc : (standard.attempt farArc).1 = none
      ∧ arcsInReach none (standard.afterAll [farArc]).world.job.path.segments = false := by
    decide +kernel
  exact ⟨hwaits.1, output_of_outputFault? hwaits.2, harc.1,
    not_exists_output_of_arcsInReach harc.2⟩

end Session

end MillScript
