import MillScript.Proofs.Machining.OnRecord
import MillScript.Proofs.Session.Mirror
import MillScript.Proofs.Session.Output

/-! # Sessions cut with tool and speed on record

    Settings may be changed, taken back with a script that fails, or set to
    what they are already, and announcements are left out where nothing has
    changed since the last one, perhaps scripts ago.  Still every cut of a
    session has the tool and the speed before it on record that were in use
    when its operation was called.  A speed that is not a number is on record
    too, but equals nothing, itself included. -/

namespace MillScript

theorem Job.Agree.stocked {j j' : Job} (h : j.Agree j') (hj : j.machine.Stocked) :
    j'.machine.Stocked := h.machine ▸ hj

namespace Performed

/-- A call brings in nothing that does not serve. -/
theorem stocked (call : Performed) (h : call.before.machine.Stocked) :
    call.after.machine.Stocked := by
  have hreset := Call.resets_apply call.arguments call.function call.before
  rw [call.applied] at hreset
  exact h.reset hreset

/-- A call cuts with tool and speed on record. -/
theorem cutsOnRecord (call : Performed) (h : call.before.Mirrors)
    (hstocked : call.before.machine.Stocked) :
    CutsOnRecord call.before.machine call.before.path.segments.length call.after.path.segments :=
  Call.cutsOnRecord_of_apply h hstocked.rpm call.applied

end Performed

/-! ## Sessions -/

namespace Session

/-- A session starts with standard materials. -/
theorem stocked_of_ofConfig {config : Config} {verbose : Bool} {s : Session}
    (h : ofConfig config verbose = .ok s) : s.world.job.machine.Stocked := by
  rw [ofConfig] at h
  cases hm : Machine.ofConfig config with
  | error f =>
      rw [hm] at h
      cases h
  | ok m =>
      rw [hm] at h
      cases h
      exact Machine.stocked_ofConfig hm

/-- While calls give back real numbers, the speed is a real number at each of
    them. -/
theorem isFinite_rpm {config : Config} {verbose : Bool} {s : Session}
    (h : ofConfig config verbose = .ok s) {scripts : List Script}
    (hcalls : ∀ call ∈ s.calls scripts, call.value.isFinite = true) :
    ∀ call ∈ s.calls scripts, call.before.machine.rpm.isFinite = true := by
  obtain ⟨hscopes, hpaced, -⟩ := real_of_ofConfig h
  have hargs := real_arguments hscopes hcalls
  have hbefore := ((s.leads_calls scripts).invariant_of_mem (fun hagree => hagree.paced)
    (fun call hcall => call.paced (hargs call hcall)) hpaced).1
  intro call hcall
  exact (hbefore call hcall).1.machine.rpm

/-- **Cuts are made with tool and speed on record.**  Each cut of a session
    was made by a call, and the last tool and the last speed recorded before
    the cut are those in use when that call was made: the tool by the text of
    its diameter and of the name of the material.  The speeds are equal
    as numbers unless the one in use is not a number, and it always is one if
    all calls gave back real numbers. -/
theorem cuts_on_record {config : Config} {verbose : Bool} {s : Session}
    (h : ofConfig config verbose = .ok s) (scripts : List Script) :
    Leads s.world.job (s.calls scripts) (s.afterAll scripts).world.job
      ∧ ∀ front cut back, cut.isCut = true →
        (s.afterAll scripts).world.job.path.segments = front ++ cut :: back →
        ∃ call ∈ s.calls scripts, call.before.path.segments <+: front
          ∧ front ++ [cut] <+: call.after.path.segments
          ∧ lastTool front = some (Decimal.shown call.before.machine.cutterDiameter
            ++ "mm cutter, " ++ call.before.machine.material.name)
          ∧ ∃ rpm, lastSpeed front = some rpm
            ∧ (call.before.machine.rpm.isNaN = true → rpm = call.before.machine.rpm)
            ∧ (call.before.machine.rpm.isNaN = false → (rpm == call.before.machine.rpm) = true)
            ∧ ((∀ call ∈ s.calls scripts, call.value.isFinite = true) →
              (rpm == call.before.machine.rpm) = true) := by
  have hleads := s.leads_calls scripts
  refine ⟨hleads, ?_⟩
  intro front cut back hcut hsteps
  -- the cut was recorded by a call, on a job that mirrors its toolpath
  rcases hleads.exists_call_of_eq_append hsteps with hshort | ⟨call, hcall, hfront, hthere⟩
  · rw [(atRest_of_ofConfig h).2] at hshort
    exact absurd hshort (Nat.not_lt_zero _)
  have hmirrors := ((hleads.invariant (fun hagree => hagree.mirrors) (fun call => call.mirrors)
    (mirrors_of_ofConfig h).1).1 call hcall).1
  have hstocked := ((hleads.invariant (fun hagree => hagree.stocked) (fun call => call.stocked)
    (stocked_of_ofConfig h)).1 call hcall).1
  have honRecord : OnRecord call.before.machine front := by
    obtain ⟨back', hback'⟩ := hthere
    rw [List.append_assoc, List.singleton_append] at hback'
    exact call.cutsOnRecord hmirrors hstocked front cut back' hback'.symm hfront.length_le hcut
  obtain ⟨rpm, hlast, hrpm⟩ := honRecord.speed
  have hequal : call.before.machine.rpm.isNaN = false →
      (rpm == call.before.machine.rpm) = true := by
    intro hnumber
    rcases hrpm with rfl | hrpm
    · exact beq_self_iff.mpr hnumber
    · exact hrpm
  refine ⟨call, hcall, hfront, hthere, honRecord.tool, rpm, hlast, ?_, hequal, ?_⟩
  · intro hnan
    rcases hrpm with hrpm | hrpm
    · exact hrpm
    · have hnothing := beq_eq_false_of_isNaN hnan rpm
      rw [beq_symm hrpm] at hnothing
      cases hnothing
  · intro hcalls
    exact hequal (beq_self_iff.mp (beq_self_of_isFinite (isFinite_rpm h hcalls call hcall)))

/-- A toolpath falls in two at each of its steps. -/
theorem exists_eq_take_append {steps : List Segment} {n : Nat} {s : Segment}
    (h : (steps.drop n).head? = some s) : ∃ back, steps = steps.take n ++ s :: back := by
  obtain ⟨back, hback⟩ := List.head?_eq_some_iff.mp h
  refine ⟨back, ?_⟩
  rw [← hback, List.take_append_drop]

/-- A hole, a script that has recorded another speed when it fails, and a
    second hole with the speed of the first. -/
def twoHoles : List Script :=
  [⟨"hole", "drill(0mm,0mm,1mm);"⟩, ⟨"torn", "rpm(9);drill(2mm,0mm,1mm);x;"⟩,
    ⟨"hole", "drill(4mm,0mm,1mm);"⟩]

/-- The plunge into the second hole. -/
def secondPlunge : Segment := ⟨.move .linear ⟨4, 0, -1⟩ 200, 1⟩

/-- The second hole is drilled with the speed of the first on record, as that
    of the script in between was taken back. -/
theorem cuts_on_record_twoHoles :
    ofConfig {} false = .ok standard
      ∧ secondPlunge.isCut = true
      ∧ ∃ front back, (standard.afterAll twoHoles).world.job.path.segments
          = front ++ secondPlunge :: back
        ∧ lastTool front = some "3.175mm cutter, default"
        ∧ lastSpeed front = some 12000
        ∧ ∃ call ∈ standard.calls twoHoles, call.before.path.segments <+: front
          ∧ Decimal.shown call.before.machine.cutterDiameter ++ "mm cutter, "
            ++ call.before.machine.material.name = "3.175mm cutter, default"
          ∧ (12000 == call.before.machine.rpm) = true := by
  have hstandard : ofConfig {} false = .ok standard := rfl
  have hrun : ((standard.afterAll twoHoles).world.job.path.segments.drop 8).head?
        = some secondPlunge
      ∧ lastTool ((standard.afterAll twoHoles).world.job.path.segments.take 8)
        = some "3.175mm cutter, default"
      ∧ lastSpeed ((standard.afterAll twoHoles).world.job.path.segments.take 8)
        = some 12000 := by decide +kernel
  have hcalls : ∀ call ∈ standard.calls twoHoles, call.value.isFinite = true := by
    decide +kernel
  obtain ⟨hhead, htext, hspeed⟩ := hrun
  obtain ⟨back, hsteps⟩ := exists_eq_take_append hhead
  obtain ⟨call, hcall, hfront, -, htool, rpm, hlast, -, -, hreal⟩ :=
    (cuts_on_record hstandard twoHoles).2 _ secondPlunge back rfl hsteps
  have hrpm : rpm = 12000 := Option.some.inj (hlast.symm.trans hspeed)
  exact ⟨hstandard, rfl, _, back, hsteps, htext, hspeed, call, hcall, hfront,
    Option.some.inj (htool.symm.trans htext), hrpm ▸ hreal hcalls⟩

/-- Holes at evenly spaced speeds.  The third of the outer numbers is out of
    range, and half way from there to zero is no number. -/
def spacedSpeeds : Script :=
  ⟨"speeds", "a = 8589934592; b = a*a*a*a*a*a; c = b*b*b*b*b*a; "
    ++ "for x in linspace(0, c, 4) \x7b for y in linspace(x, 0, 3) "
    ++ "\x7b rpm(y); drill(0mm, 0mm, 1mm); \x7d \x7d"⟩

theorem speed_equals_nothing_spacedSpeeds :
    (standard.attempt spacedSpeeds).1 = none
      ∧ ∃ front cut back, (standard.afterAll [spacedSpeeds]).world.job.path.segments
          = front ++ cut :: back
        ∧ cut.isCut = true
        ∧ ∃ rpm, lastSpeed front = some rpm ∧ ∀ speed, (rpm == speed) = false := by
  have hrun : (standard.attempt spacedSpeeds).1 = none
      ∧ ((standard.afterAll [spacedSpeeds]).world.job.path.segments.drop 30).head?.any Segment.isCut
        = true
      ∧ (lastSpeed ((standard.afterAll [spacedSpeeds]).world.job.path.segments.take 30)).any
        Float.isNaN = true := by decide +kernel
  obtain ⟨hok, hcut, hspeed⟩ := hrun
  obtain ⟨cut, hhead, hcut⟩ := (Option.any_eq_true _ _).mp hcut
  obtain ⟨rpm, hlast, hnan⟩ := (Option.any_eq_true _ _).mp hspeed
  obtain ⟨back, hsteps⟩ := exists_eq_take_append hhead
  exact ⟨hok, _, cut, back, hsteps, hcut, rpm, hlast, beq_eq_false_of_isNaN hnan⟩

end Session

end MillScript
