import MillScript.Proofs.Session.Runs

/-! # Failed runs are invisible

    A run may fail at any depth, half way through an operation that has
    moved the tool already.  What a session shows afterwards is what it
    showed before, and runs that fail may be deleted from a sequence without
    a change to how the others end or to what the session shows in the end.
    The one thing that is not put back is the line that the toolpath stands
    at, which the next call sets anew. -/

namespace MillScript.Session

/-- What a session shows to those who use it. -/
structure View where
  /-- The steps of the toolpath with their lines. -/
  segments : List Segment
  /-- The moves as rows. -/
  points : List Row
  machine : Machine
  /-- The value of each name. -/
  lookup : String → Option Value
  /-- The G-code, or why it cannot be written. -/
  output : Except Fault String

/-- What a session shows. -/
def view (s : Session) : View where
  segments := s.world.job.path.segments
  points := s.rows
  machine := s.world.job.machine
  lookup := s.world.scopes.lookup
  output := s.output

/-- Agreeing sessions show the same. -/
theorem Agree.view {s t : Session} (h : Agree s t) : s.view = t.view := by
  have hsegments := h.world.job.segments
  have hmachine := h.world.job.machine
  have houtput : s.output = t.output := by
    rw [output, output, Gcode.emit, Gcode.emit, hmachine, hsegments]
  rw [Session.view, Session.view, hsegments, h.rows, hmachine, h.world.scopes, houtput]

/-! ## One run -/

theorem agree_attempt {s : Session} {script : Script} {e : Error}
    (h : (s.attempt script).1 = some e) : Agree s (s.attempt script).2 := by
  rw [attempt] at h ⊢
  cases hrun : run script.name script.source s with
  | ok u s' =>
      rw [hrun] at h
      cases h
  | error e' s' => exact agree_of_run_eq_error hrun

theorem attempt_congr {s t : Session} (h : Agree s t) (script : Script) :
    (s.attempt script).1 = (t.attempt script).1
      ∧ Agree (s.attempt script).2 (t.attempt script).2 := by
  have hrun := alike_run script.name script.source h
  rw [attempt, attempt]
  generalize run script.name script.source s = r, run script.name script.source t = r' at hrun
  cases hrun with
  | ok u hs => exact ⟨rfl, hs⟩
  | error e hs => exact ⟨rfl, hs⟩

/-! ## Sequences of runs -/

theorem transcript_congr {s t : Session} (h : Agree s t) (scripts : List Script) :
    s.transcript scripts = t.transcript scripts
      ∧ Agree (s.afterAll scripts) (t.afterAll scripts) := by
  induction scripts generalizing s t with
  | nil => exact ⟨rfl, h⟩
  | cons script rest ih =>
      obtain ⟨herror, hafter⟩ := attempt_congr h script
      obtain ⟨hrest, hend⟩ := ih hafter
      refine ⟨?_, hend⟩
      rw [transcript, transcript, herror, hrest]

/-- Whether a run of a transcript got through. -/
def succeeded (run : Script × Option Error) : Bool := run.2.isNone

/-- A transcript from which failed runs were deleted is the transcript of
    the scripts that are left, and ends in a session that agrees. -/
theorem transcript_kept {s : Session} {scripts : List Script}
    {kept : List (Script × Option Error)} (hsub : kept.Sublist (s.transcript scripts))
    (hall : kept.filter succeeded = (s.transcript scripts).filter succeeded) :
    s.transcript (kept.map Prod.fst) = kept
      ∧ Agree (s.afterAll (kept.map Prod.fst)) (s.afterAll scripts) := by
  induction scripts generalizing s kept with
  | nil =>
      obtain rfl := List.sublist_nil.mp hsub
      exact ⟨rfl, .refl s⟩
  | cons script rest ih =>
      rw [transcript] at hsub hall
      cases hsub with
      | cons _ hsub =>
          cases hend : (s.attempt script).1 with
          | none =>
              -- a run that got through cannot be missing
              have hlength := (hsub.filter succeeded).length_le
              rw [hall, hend, List.filter_cons_of_pos rfl, List.length_cons] at hlength
              omega
          | some e =>
              rw [hend, List.filter_cons_of_neg Bool.false_ne_true] at hall
              obtain ⟨hsame, hagree⟩ := ih hsub hall
              obtain ⟨hcongr, hafter⟩ := transcript_congr (agree_attempt hend) (kept.map Prod.fst)
              exact ⟨hcongr.trans hsame, hafter.trans hagree⟩
      | cons_cons _ hsub =>
          rename_i kept
          have htail : kept.filter succeeded
              = ((s.attempt script).2.transcript rest).filter succeeded := by
            cases hhead : succeeded (script, (s.attempt script).1) with
            | true =>
                rw [List.filter_cons_of_pos hhead, List.filter_cons_of_pos hhead] at hall
                exact List.tail_eq_of_cons_eq hall
            | false =>
                rw [List.filter_cons_of_neg (by rw [hhead]; exact Bool.false_ne_true),
                  List.filter_cons_of_neg (by rw [hhead]; exact Bool.false_ne_true)] at hall
                exact hall
          obtain ⟨hsame, hagree⟩ := ih hsub htail
          rw [List.map_cons, transcript, hsame]
          exact ⟨rfl, hagree⟩

/-- A script that records a step and then fails at a name without a value. -/
def halfway : Script := ⟨"halfway", "comment('a');\n\ncomment('b'); x;"⟩

/-- The line of the toolpath is not put back. -/
theorem line_after_halfway :
    (standard.attempt halfway).1 ≠ none
      ∧ (standard.attempt halfway).2.world.job.path.line ≠ standard.world.job.path.line := by
  decide +kernel

/-- **Failed runs are invisible.**  Take any runs in a session, and delete
    some or all of those that fail.  The runs that are left end as they did,
    with the same errors at the same places, and the session shows the same
    in the end.  Right after a failed run it shows what it showed before,
    although the toolpath may stand at another line. -/
theorem failed_runs_invisible (s : Session) (scripts : List Script)
    (kept : List (Script × Option Error)) (hsub : kept.Sublist (s.transcript scripts))
    (hall : kept.filter succeeded = (s.transcript scripts).filter succeeded) :
    s.transcript (kept.map Prod.fst) = kept
      ∧ (s.afterAll (kept.map Prod.fst)).view = (s.afterAll scripts).view
      ∧ (∀ script e, ((s.afterAll scripts).attempt script).1 = some e →
          ((s.afterAll scripts).attempt script).2.view = (s.afterAll scripts).view)
      ∧ ∃ t script, (attempt t script).1 ≠ none
          ∧ (attempt t script).2.world.job.path.line ≠ t.world.job.path.line := by
  obtain ⟨hsame, hagree⟩ := transcript_kept hsub hall
  refine ⟨hsame, hagree.view, ?_, standard, halfway, line_after_halfway⟩
  intro script e hfail
  exact (agree_attempt hfail).view.symm

/-- A hole, a script that breaks off, one that fails in its second hole, one
    that asks for a name without a value, and a groove. -/
def workshop : List Script :=
  [⟨"hole", "depth = 1mm; drill(0mm, 0mm, depth);"⟩,
    ⟨"torn", "drill(0mm,"⟩,
    ⟨"row", "depth = 2mm; for i in linspace(0, 1, 2) { drill(1mm, 1mm / (1 - i), depth); }"⟩,
    ⟨"name", "drill(x, 0mm, depth);"⟩,
    ⟨"groove", "groove(1mm, 1mm, 4mm, 1mm, depth = depth);"⟩]

/-- How they end. -/
def workshopEnds : List (Option Error) :=
  [none, some ⟨SyntaxFault.expected .expression none, ⟨1, 11⟩⟩,
    some ⟨RuntimeFault.divisionByZero, ⟨1, 58⟩⟩, some ⟨NameFault.undefinedName "x", ⟨1, 7⟩⟩, none]

/-- Two of the three failures deleted, the one for want of a value kept. -/
theorem failed_runs_invisible_workshop :
    let kept := (workshop.zip workshopEnds).eraseIdx 1 |>.eraseIdx 1
    standard.transcript workshop = workshop.zip workshopEnds
      ∧ kept.filter succeeded = (standard.transcript workshop).filter succeeded
      ∧ standard.transcript (kept.map Prod.fst) = kept
      ∧ (standard.afterAll (kept.map Prod.fst)).view = (standard.afterAll workshop).view := by
  intro kept
  have hends : standard.transcript workshop = workshop.zip workshopEnds := by decide +kernel
  have hsub : kept.Sublist (standard.transcript workshop) := by
    rw [hends]
    exact (List.eraseIdx_sublist _ 1).trans (List.eraseIdx_sublist _ 1)
  have hall : kept.filter succeeded = (standard.transcript workshop).filter succeeded := by
    rw [hends]
    rfl
  obtain ⟨hsame, hview, -⟩ := failed_runs_invisible standard workshop kept hsub hall
  exact ⟨hends, hall, hsame, hview⟩

end MillScript.Session
