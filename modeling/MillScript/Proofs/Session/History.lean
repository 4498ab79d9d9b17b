import MillScript.Proofs.Session.Runs

/-! # The history of a session

    Only calls that get through change the job of a session for good: a
    script that fails is taken back, and so are the calls it made.  So every
    state of a session comes about by a list of calls, each made on the
    machine that the one before it left, and what such calls keep holds of
    every state. -/

namespace MillScript

/-- A call that got through, with the job as it found it and as it left
    it. -/
structure Performed where
  function : Builtin
  arguments : Arguments
  before : Job
  value : Value
  after : Job
  applied : Call.apply arguments function before = .ok value after

/-- A call appends to the toolpath. -/
theorem Performed.isPrefix (c : Performed) : c.before.path.segments <+: c.after.path.segments := by
  have hgrown := Call.within_apply c.arguments c.function c.before
  rw [c.applied] at hgrown
  exact List.reverse_prefix.mpr hgrown.recorded

/-- Calls made one after the other lead from one job to another.  Between
    them the line of the toolpath may be set, but nothing else. -/
inductive Leads : Job → List Performed → Job → Prop
  | nothing {j j' : Job} (h : j.Agree j') : Leads j [] j'
  | perform {j j' : Job} (c : Performed) {calls : List Performed} (h : j.Agree c.before)
      (rest : Leads c.after calls j') : Leads j (c :: calls) j'

namespace Leads

variable {j k l : Job} {calls calls' : List Performed}

/-- Jobs that agree have the same past. -/
theorem of_agree (h : j.Agree k) (hrest : Leads k calls l) : Leads j calls l := by
  cases hrest with
  | nothing h' => exact .nothing (h.trans h')
  | perform c h' rest => exact .perform c (h.trans h') rest

/-- Histories can be put together. -/
theorem trans (h : Leads j calls k) (h' : Leads k calls' l) : Leads j (calls ++ calls') l := by
  induction h with
  | nothing hagree => exact of_agree hagree h'
  | perform c hagree _ ih => exact .perform c hagree (ih h')

/-- What does not hang on the line and is kept by each of the calls holds at
    every one of them and in the end. -/
theorem invariant_of_mem {I : Job → Prop} (hagree : ∀ {j j'}, Job.Agree j j' → I j → I j')
    (h : Leads j calls k) (hcall : ∀ c ∈ calls, I c.before → I c.after) (hj : I j) :
    (∀ c ∈ calls, I c.before ∧ I c.after) ∧ I k := by
  induction h with
  | nothing h => exact ⟨fun _ hc => absurd hc List.not_mem_nil, hagree h hj⟩
  | perform c h rest ih =>
      have hbefore := hagree h hj
      have hafter := hcall c List.mem_cons_self hbefore
      obtain ⟨hcalls, hend⟩ := ih (fun c' hc' => hcall c' (List.mem_cons_of_mem _ hc')) hafter
      refine ⟨?_, hend⟩
      intro c' hc'
      rcases List.mem_cons.mp hc' with rfl | hrest
      · exact ⟨hbefore, hafter⟩
      · exact hcalls c' hrest

/-- **Invariants of sessions**: what does not hang on the line and is kept by
    every call holds at every call and in the end. -/
theorem invariant {I : Job → Prop} (hagree : ∀ {j j'}, Job.Agree j j' → I j → I j')
    (hcall : ∀ c : Performed, I c.before → I c.after) (h : Leads j calls k) (hj : I j) :
    (∀ c ∈ calls, I c.before ∧ I c.after) ∧ I k :=
  invariant_of_mem hagree h (fun c _ => hcall c) hj

/-- Each call appends to the toolpath. -/
theorem isPrefix (h : Leads j calls k) : j.path.segments <+: k.path.segments := by
  induction h with
  | nothing h => exact h.segments ▸ List.prefix_rfl
  | perform c h _ ih =>
      rw [h.segments]
      exact c.isPrefix.trans ih

/-- A step of the toolpath was there before or was recorded by one of the
    calls. -/
theorem exists_call_of_eq_append (h : Leads j calls k) {front back : List Segment} {s : Segment}
    (hk : k.path.segments = front ++ s :: back) :
    front.length < j.path.segments.length
      ∨ ∃ c ∈ calls, c.before.path.segments <+: front
        ∧ front ++ [s] <+: c.after.path.segments := by
  induction h with
  | nothing h =>
      left
      rw [h.segments, hk, List.length_append, List.length_cons]
      omega
  | @perform j k c calls h rest ih =>
      rcases ih hk with hshort | ⟨c', hmem, hc'⟩
      · -- the step stands within what this call left
        have hwhole : front ++ [s] <+: k.path.segments := ⟨back, by simp [hk]⟩
        have hthere : front ++ [s] <+: c.after.path.segments := by
          refine List.prefix_of_prefix_length_le hwhole rest.isPrefix ?_
          rw [List.length_append, List.length_singleton]
          omega
        rw [h.segments]
        by_cases hold : front.length < c.before.path.segments.length
        · exact .inl hold
        · refine .inr ⟨c, List.mem_cons_self, ?_, hthere⟩
          refine List.prefix_of_prefix_length_le c.isPrefix ?_ (Nat.le_of_not_lt hold)
          exact (List.prefix_append front [s]).trans hthere
      · exact .inr ⟨c', List.mem_cons_of_mem _ hmem, hc'⟩

end Leads

/-! ## Where histories come from -/

instance : IsPreorder Job fun j k => ∃ calls, Leads j calls k where
  refl _ := ⟨[], .nothing ⟨rfl, rfl⟩⟩
  trans := by
    rintro j k l ⟨calls, h⟩ ⟨calls', h'⟩
    exact ⟨calls ++ calls', h.trans h'⟩

/-- Evaluation that gets through has made a list of calls. -/
theorem Run.Scripted.leads {α : Type} {x : Run α} (h : Run.Scripted x) {w w' : World} {a : α}
    (hx : x w = .ok a w') : ∃ calls, Leads w.job calls w'.job := by
  refine h.job_of_ok (R := fun j k => ∃ calls, Leads j calls k) ?_ hx
  intro line args f job v job' happly
  exact ⟨[⟨f, args, job.atLine line, v, job', happly⟩],
    .perform _ ⟨rfl, rfl⟩ (.nothing ⟨rfl, rfl⟩)⟩

namespace Session

/-- A program that runs through leads on by its calls. -/
theorem leads_carryOut {name : String} {p : Program} {s s' : Session} {u : Unit}
    (h : carryOut name p s = .ok u s') : ∃ calls, Leads s.world.job calls s'.world.job := by
  rw [carryOut] at h
  cases hp : p.run s.world with
  | ok v after =>
      rw [hp] at h
      injection h with _ hs
      rw [← hs]
      have hleads := (Run.scripted_runAll p.statements).leads hp
      exact hleads
  | error e after =>
      rw [hp] at h
      cases h

theorem leads_run {name source : String} {s s' : Session} {u : Unit}
    (h : run name source s = .ok u s') : ∃ calls, Leads s.world.job calls s'.world.job := by
  rw [run_apply] at h
  cases htree : Tree.ofSource source with
  | error e =>
      rw [htree] at h
      cases h
  | ok tree =>
      rw [htree] at h
      dsimp only at h
      cases hp : tree.toProgram with
      | error e =>
          rw [hp] at h
          cases h
      | ok p =>
          rw [hp] at h
          have hcarried : carryOut name p (s.traced name tree) = .ok u s' := h
          have hleads := leads_carryOut hcarried
          exact hleads

/-- Every script leads on by the calls that count, which are none if it
    fails. -/
theorem leads_attempt (s : Session) (script : Script) :
    ∃ calls, Leads s.world.job calls (s.attempt script).2.world.job := by
  rw [attempt]
  cases hrun : run script.name script.source s with
  | ok u s' => exact leads_run hrun
  | error e s' => exact ⟨[], .nothing (agree_of_run_eq_error hrun).world.job⟩

/-- **Every state of a session has a history.** -/
theorem leads_afterAll (s : Session) (scripts : List Script) :
    ∃ calls, Leads s.world.job calls (s.afterAll scripts).world.job := by
  induction scripts generalizing s with
  | nil => exact ⟨[], .nothing ⟨rfl, rfl⟩⟩
  | cons script rest ih =>
      obtain ⟨calls, hscript⟩ := leads_attempt s script
      obtain ⟨calls', hrest⟩ := ih (s.attempt script).2
      exact ⟨calls ++ calls', hscript.trans hrest⟩

end Session

end MillScript
