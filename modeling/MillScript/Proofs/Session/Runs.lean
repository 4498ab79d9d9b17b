import MillScript.Proofs.Call
import MillScript.Proofs.Evaluation.Agreement
import MillScript.Session

/-! # Scripts run one after the other

    A session takes scripts in turn; each one runs through or fails with an
    error.  Sessions agree if no script and no question can tell them apart:
    they may differ in what was printed and in the line that the toolpath
    stands at.  A run treats agreeing sessions alike, and a run that fails
    leaves a session that agrees with the one before it. -/

namespace MillScript

/-- A script and the name it is traced under. -/
structure Script where
  name : String
  source : String
deriving DecidableEq

namespace Session

/-- A session on a machine with the standard set-up. -/
def standard : Session := (ofConfig {} false).toOption.get rfl

/-- The error that a script fails with, if it does, and the session after
    it. -/
def attempt (s : Session) (script : Script) : Option Error × Session :=
  match run script.name script.source s with
  | .ok _ s' => (none, s')
  | .error e s' => (some e, s')

/-- How scripts end that run one after the other. -/
def transcript : Session → List Script → List (Script × Option Error)
  | _, [] => []
  | s, script :: rest => (script, (s.attempt script).1) :: transcript (s.attempt script).2 rest

/-- The session after scripts have run. -/
def afterAll : Session → List Script → Session
  | s, [] => s
  | s, script :: rest => afterAll (s.attempt script).2 rest

/-- Sessions with the same rows and worlds that agree. -/
structure Agree (s t : Session) : Prop where
  world : s.world.Agree t.world
  rows : s.rows = t.rows

theorem Agree.refl (s : Session) : Agree s s := ⟨.refl _, rfl⟩

theorem Agree.symm {s t : Session} (h : Agree s t) : Agree t s := ⟨h.world.symm, h.rows.symm⟩

theorem Agree.trans {s t u : Session} (h : Agree s t) (h' : Agree t u) : Agree s u :=
  ⟨h.world.trans h'.world, h.rows.trans h'.rows⟩

/-- What is printed does not matter. -/
theorem agree_say (s : Session) (text : Unit → String) : Agree s (s.say text) :=
  ⟨⟨⟨rfl, rfl⟩, rfl⟩, rfl⟩

/-- The session that a script which ran through leaves. -/
def done (name : String) (after : World) : Session :=
  Session.say ⟨after, after.job.path.rows⟩ fun _ =>
    name ++ ": " ++ after.job.path.size.repr ++ " segments\n"

theorem Agree.done {w w' : World} (h : w.Agree w') (name : String) :
    Agree (done name w) (done name w') := by
  refine ⟨⟨h.job, h.scopes⟩, ?_⟩
  show w.job.path.rows = w'.job.path.rows
  rw [Toolpath.rows, Toolpath.rows, h.job.segments]

/-! ## What one run does -/

/-- Dropping what a run appended gives the steps from before it. -/
theorem agree_takeBack {before after : World}
    (h : before.job.path.recorded <:+ after.job.path.recorded) :
    before.Agree (takeBack before after) := by
  refine ⟨⟨rfl, ?_⟩, rfl⟩
  obtain ⟨added, hadded⟩ := h
  show before.job.path.recorded
    = after.job.path.recorded.drop
        (after.job.path.recorded.length - before.job.path.recorded.length)
  rw [← hadded, List.length_append, Nat.add_sub_cancel, List.drop_left]

/-- Agreeing worlds are taken back to agreeing ones. -/
theorem takeBack_congr {w w' v v' : World} (h : w.Agree w') (hv : v.Agree v') :
    (takeBack w v).Agree (takeBack w' v') := by
  refine ⟨⟨h.job.machine, ?_⟩, h.scopes⟩
  show v.job.path.recorded.drop (v.job.path.recorded.length - w.job.path.recorded.length)
    = v'.job.path.recorded.drop (v'.job.path.recorded.length - w'.job.path.recorded.length)
  rw [h.job.recorded, hv.job.recorded]

/-- A run appends to the toolpath, whether it gets through or not. -/
theorem grown_run (p : Program) (w : World) : w.job.Grown (endState (p.run w)).job := by
  have hcall : ∀ line args f job,
      Job.Grown job (endState (Call.apply args f (job.atLine line))) := by
    intro line args f job
    have hline : job.Grown (job.atLine line) := ⟨rfl, List.suffix_rfl⟩
    exact trans_of Job.Grown hline (Call.within_apply args f (job.atLine line))
  exact (Run.scripted_runAll p.statements).within hcall w

/-- Carries out a program and takes back what it did if it fails. -/
def carryOut (name : String) (p : Program) : EStateM Error Session Unit := fun s =>
  match p.run s.world with
  | .ok _ after => .ok () (done name after)
  | .error e after => .error e { s with world := takeBack s.world after }

/-- The session with the trace of a tree that was read. -/
def traced (s : Session) (name : String) (tree : Tree) : Session :=
  s.say fun _ => "parse tree of " ++ name ++ "\n" ++ tree.outline

/-- A run reads its script, then carries it out. -/
theorem run_apply (name source : String) (s : Session) :
    run name source s = match Tree.ofSource source with
      | .error e => .error e s
      | .ok tree => match tree.toProgram with
        | .error e => .error e (s.traced name tree)
        | .ok p => carryOut name p (s.traced name tree) := by
  rw [run]
  cases Tree.ofSource source with
  | error e => rfl
  | ok tree =>
      dsimp only
      cases tree.toProgram with
      | error e => rfl
      | ok p =>
          show _ = carryOut name p (s.traced name tree)
          rw [carryOut]
          cases hp : p.run (s.traced name tree).world with
          | ok u after =>
              dsimp only
              rw [traced] at hp
              rw [hp]
              rfl
          | error e after =>
              dsimp only
              rw [traced] at hp
              rw [hp]
              rfl

/-- A program that fails leaves the session as it was. -/
theorem agree_of_carryOut_eq_error {name : String} {p : Program} {s s' : Session} {e : Error}
    (h : carryOut name p s = .error e s') : Agree s s' := by
  have hgrown := grown_run p s.world
  rw [carryOut] at h
  cases hp : p.run s.world with
  | ok u after =>
      rw [hp] at h
      cases h
  | error e' after =>
      rw [hp] at h hgrown
      injection h with _ hs
      rw [← hs]
      exact ⟨agree_takeBack hgrown.recorded, rfl⟩

/-- **A failed run leaves no trace.** -/
theorem agree_of_run_eq_error {name source : String} {s s' : Session} {e : Error}
    (h : run name source s = .error e s') : Agree s s' := by
  rw [run_apply] at h
  cases htree : Tree.ofSource source with
  | error e' =>
      rw [htree] at h
      injection h with _ hs
      rw [hs]
      exact .refl s'
  | ok tree =>
      rw [htree] at h
      dsimp only at h
      cases hp : tree.toProgram with
      | error e' =>
          rw [hp] at h
          injection h with _ hs
          rw [← hs]
          exact agree_say s _
      | ok p =>
          rw [hp] at h
          exact (agree_say s _).trans (agree_of_carryOut_eq_error h)

/-- Sessions that agree carry a program out alike. -/
theorem alike_carryOut (name : String) (p : Program) {s t : Session} (h : Agree s t) :
    Alike Agree (carryOut name p s) (carryOut name p t) := by
  have hrun : Alike World.Agree (p.run s.world) (p.run t.world) :=
    (Run.scripted_runAll p.statements).alike h.world
  rw [carryOut, carryOut]
  generalize p.run s.world = r, p.run t.world = r' at hrun
  cases hrun with
  | ok u hw => exact .ok () (.done hw name)
  | error e hw => exact .error e ⟨takeBack_congr h.world hw, h.rows⟩

/-- Agreeing sessions take a script alike. -/
theorem alike_run (name source : String) {s t : Session} (h : Agree s t) :
    Alike Agree (run name source s) (run name source t) := by
  rw [run_apply, run_apply]
  cases Tree.ofSource source with
  | error e => exact .error e h
  | ok tree =>
      have hsay : Agree (s.traced name tree) (t.traced name tree) :=
        (agree_say s _).symm.trans (h.trans (agree_say t _))
      dsimp only
      cases tree.toProgram with
      | error e => exact .error e hsay
      | ok p => exact alike_carryOut name p hsay

end Session

end MillScript
