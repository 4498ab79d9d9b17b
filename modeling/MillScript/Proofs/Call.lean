import MillScript.Call
import MillScript.Proofs.Machining.Frame

/-! # What a call does

    A call is refused and leaves the job as it was, or it changes settings of
    the machine, or it writes a note on the toolpath, or it carries out the
    plan of an operation.  `Call.effect_apply` says so of every function and
    all arguments; what all calls keep is then read off its five cases. -/

namespace MillScript

/-- Settings may differ, but not the configuration, nor what the machine was
    last told. -/
structure Machine.Adjusted (m m' : Machine) : Prop where
  config : m'.config = m.config
  position : m'.position = m.position
  positionKnown : m'.positionKnown = m.positionKnown
  announcedRpm : m'.announcedRpm = m.announcedRpm
  announcedTool : m'.announcedTool = m.announcedTool

theorem Machine.adjusted_refl (m : Machine) : m.Adjusted m := ⟨rfl, rfl, rfl, rfl, rfl⟩

/-- To change the material moves no tool and announces nothing. -/
theorem Machine.adjusted_useMaterial (m : Machine) (material : Material) :
    m.Adjusted (m.useMaterial material) := ⟨rfl, rfl, rfl, rfl, rfl⟩

/-- To define a material does not either, even if it is the one in use. -/
theorem Machine.adjusted_defineMaterial (m : Machine) (material : Material) :
    m.Adjusted (m.defineMaterial material) := by
  rw [Machine.defineMaterial]
  dsimp only
  split
  · exact ⟨rfl, rfl, rfl, rfl, rfl⟩
  · exact ⟨rfl, rfl, rfl, rfl, rfl⟩

/-- What calls may do to a job: settings change, the toolpath only grows. -/
structure Job.Grown (j j' : Job) : Prop where
  config : j'.machine.config = j.machine.config
  recorded : j.path.recorded <:+ j'.path.recorded

instance : IsPreorder Job Job.Grown where
  refl _ := ⟨rfl, List.suffix_rfl⟩
  trans _ _ _ h h' := ⟨h'.config.trans h.config, h.recorded.trans h'.recorded⟩

/-- A job that operations moved has grown. -/
theorem Job.Moved.grown {j j' : Job} (h : j.Moved j') : j.Grown j' := ⟨h.config, h.recorded⟩

namespace Call

open Machining

/-- What an operation on a job comes to: it is refused, or its plan is
    carried out as far as that goes. -/
inductive Operates {α : Type} (job : Job) : EStateM.Result Fault Job α → Prop
  | refused (f : Fault) : Operates job (.error f job)
  | planned (p : Plan) (h : Plan.Of job.machine p) (v : α) :
      Operates job ((do p.carryOut; return v : Machining α) job)

/-- What a call on a job may come to. -/
inductive Effect {α : Type} (job : Job) : EStateM.Result Fault Job α → Prop
  | refused (f : Fault) : Effect job (.error f job)
  | settings (m : Machine) (h : job.machine.Adjusted m) (v : α) :
      Effect job (.ok v { job with machine := m })
  | comment (text : String) (v : α) :
      Effect job (.ok v { job with path := job.path.push (.comment text) })
  | dwell (seconds : Float) (v : α) :
      Effect job (.ok v { job with path := job.path.push (.dwell seconds) })
  | operation (p : Plan) (h : Plan.Of job.machine p) (v : α) :
      Effect job ((do p.carryOut; return v : Machining α) job)

section Effect

variable {α β : Type} {job : Job}

/-- Work that goes on with a computed value is refused where the value is. -/
theorem Effect.ofExcept {r : Except Fault β} {f : β → Machining α}
    (h : ∀ b, Effect job (f b job)) : Effect job ((Machining.ofExcept r >>= f) job) := by
  cases r with
  | error fault => exact .refused fault
  | ok b => exact h b

/-- A call that is checked first is refused or goes on. -/
theorem Effect.ite {c : Prop} [Decidable c] {x y : Machining α} (hx : Effect job (x job))
    (hy : Effect job (y job)) : Effect job ((if c then x else y) job) := by
  by_cases hc : c
  · rw [if_pos hc]
    exact hx
  · rw [if_neg hc]
    exact hy

/-- A change that is made or refused, and the toolpath as it was. -/
theorem effect_adjust {change : Machine → Except Fault Machine}
    (h : ∀ m, change job.machine = .ok m → job.machine.Adjusted m) :
    Effect job (adjust change job) := by
  rw [adjust]
  cases hc : change job.machine with
  | error fault => exact .refused fault
  | ok m => exact .settings m (h m hc) ()

/-- What work comes to does not hang on the value given back after it. -/
theorem Effect.andReturn {x : Machining β} (v : α) (h : Effect job (x job)) :
    Effect job ((do let _ ← x; return v : Machining α) job) := by
  rw [bind_apply]
  generalize x job = r at h
  cases h with
  | refused f => exact .refused f
  | settings m h _ => exact .settings m h v
  | comment text _ => exact .comment text v
  | dwell seconds _ => exact .dwell seconds v
  | operation p h u =>
      have hdone := Effect.operation p h v
      rw [bind_apply] at hdone ⊢
      cases hp : p.carryOut job with
      | error f j =>
          rw [hp] at hdone
          exact hdone
      | ok _ j =>
          rw [hp] at hdone
          exact hdone

end Effect

section Operates

variable {α β : Type} {job : Job}

/-- An operation is one of the effects that a call can have. -/
theorem Operates.effect {r : EStateM.Result Fault Job α} (h : Operates job r) : Effect job r := by
  cases h with
  | refused f => exact .refused f
  | planned p h v => exact .operation p h v

/-- A result that is looked at first may be a refusal. -/
theorem Operates.ofExcept {r : Except Fault β} {f : β → Machining α}
    (h : ∀ b, Operates job (f b job)) : Operates job ((Machining.ofExcept r >>= f) job) := by
  cases r with
  | error fault => exact .refused fault
  | ok b => exact h b

theorem Operates.ite {c : Prop} [Decidable c] {x y : Machining α} (hx : Operates job (x job))
    (hy : Operates job (y job)) : Operates job ((if c then x else y) job) := by
  by_cases hc : c
  · rw [if_pos hc]
    exact hx
  · rw [if_neg hc]
    exact hy

/-- An operation is refused by its plan or carries it out. -/
theorem operates_planned {plan : Machine → Except Fault Plan}
    (h : ∀ p, plan job.machine = .ok p → Plan.Of job.machine p) :
    Operates job (Machining.planned plan job) := by
  rw [Machining.planned]
  cases hp : plan job.machine with
  | error fault => exact .refused fault
  | ok p =>
      have hdone := Operates.planned p (h p hp) ()
      rw [bind_pure_unit] at hdone
      exact hdone

end Operates

/-! ## One function after the other -/

/-- A cutter is set or refused. -/
theorem effect_setCutter (args : Arguments) (job : Job) : Effect job (setCutter args job) := by
  rw [setCutter]
  refine .ofExcept fun d => .ite (effect_adjust fun m h => ?_) (.refused _)
  rw [← Except.ok.inj h]
  exact ⟨rfl, rfl, rfl, rfl, rfl⟩

/-- A material is set or not known. -/
theorem effect_selectMaterial (name : String) (job : Job) :
    Effect job (adjust (·.selectMaterial name) job) := by
  refine effect_adjust fun m h => ?_
  rw [Machine.selectMaterial] at h
  split at h
  · rw [← Except.ok.inj h]
    exact job.machine.adjusted_useMaterial _
  · cases h

theorem effect_setSpeed (args : Arguments) (job : Job) : Effect job (setSpeed args job) := by
  rw [setSpeed]
  refine .ite (.refused _) (effect_adjust fun m h => ?_)
  rw [← Except.ok.inj h]
  exact ⟨rfl, rfl, rfl, rfl, rfl⟩

theorem effect_setScale (args : Arguments) (job : Job) : Effect job (setScale args job) := by
  rw [setScale]
  refine .ite (effect_adjust fun m h => ?_) (.refused _)
  rw [← Except.ok.inj h]
  exact ⟨rfl, rfl, rfl, rfl, rfl⟩

/-- Each of these calls reads its arguments and then carries out one operation;
    here that of a drilled hole. -/
theorem operates_drill (args : Arguments) (job : Job) : Operates job (drill args job) := by
  have hgo : ∀ peck, Operates job ((do
      let x ← Machining.ofExcept (args.length "x")
      let y ← Machining.ofExcept (args.length "y")
      let depth ← Machining.ofExcept (args.length "depth")
      Machining.drill x y depth peck : Machining Unit) job) := by
    intro peck
    refine .ofExcept fun x => .ofExcept fun y => .ofExcept fun depth => ?_
    rw [drill_eq]
    exact operates_planned fun p h => .drill x y depth peck h
  show Operates job ((ite _ _ _ : Machining Unit) job)
  exact .ite (.ofExcept hgo) (hgo _)

/-- The size of a round pocket is read off the argument that gives it. -/
theorem operates_circlePocket (args : Arguments) (job : Job) :
    Operates job (circlePocket args job) := by
  have hgo : ∀ radius, Operates job ((do
      let x ← Machining.ofExcept (args.length "x")
      let y ← Machining.ofExcept (args.length "y")
      let depth ← Machining.ofExcept (args.length "depth")
      Machining.circlePocket x y radius depth : Machining Unit) job) := by
    intro radius
    refine .ofExcept fun x => .ofExcept fun y => .ofExcept fun depth => ?_
    rw [circlePocket_eq]
    exact operates_planned fun p h => .circlePocket x y radius depth h
  rw [circlePocket]
  refine .ite (.refused _) (.ite (.ofExcept hgo) ?_)
  rw [map_eq_pure_bind, bind_assoc]
  exact .ofExcept fun diameter => hgo (diameter / 2)

/-- A groove is straight or along an arc. -/
theorem operates_groove (args : Arguments) (job : Job) : Operates job (groove args job) := by
  rw [groove]
  refine .ofExcept fun x => .ofExcept fun y => .ofExcept fun stop => ?_
  refine .ite (.refused _) (.ite ?_ ?_)
  · refine .ofExcept fun cx => .ofExcept fun cy => .ofExcept fun depth => ?_
    rw [arcGroove_eq]
    exact operates_planned fun p h => .arcGroove ⟨x, y⟩ stop ⟨cx, cy⟩ depth h
  · refine .ofExcept fun depth => ?_
    rw [groove_eq]
    exact operates_planned fun p h => .groove ⟨x, y⟩ stop depth h

theorem operates_groovePocket (args : Arguments) (job : Job) :
    Operates job (groovePocket args job) := by
  rw [groovePocket]
  refine .ofExcept fun x => .ofExcept fun y => .ofExcept fun width => .ofExcept fun height =>
    .ofExcept fun depth => ?_
  rw [groovePocket_eq]
  exact operates_planned fun p h => .groovePocket x y width height depth h

/-- **Every call has one of the five effects.** -/
theorem effect_apply (args : Arguments) (f : Builtin) (job : Job) :
    Effect job (apply args f job) := by
  cases f with
  | cutterDiameter => exact (effect_setCutter args job).andReturn _
  | material => exact (effect_selectMaterial _ job).andReturn _
  | defineMaterial =>
      refine .ofExcept fun material => (effect_adjust fun m h => ?_).andReturn _
      rw [← Except.ok.inj h]
      exact job.machine.adjusted_defineMaterial material
  | rpm => exact (effect_setSpeed args job).andReturn _
  | scale => exact (effect_setScale args job).andReturn _
  | comment => exact .comment _ _
  | dwell =>
      refine Effect.andReturn _ ?_
      rw [Machining.dwell]
      exact .ite (.refused _) (.dwell _ _)
  | drill => exact (operates_drill args job).effect.andReturn _
  | circlePocket => exact (operates_circlePocket args job).effect.andReturn _
  | groove => exact (operates_groove args job).effect.andReturn _
  | groovePocket => exact (operates_groovePocket args job).effect.andReturn _
  | linspace => exact .ofExcept fun items => .settings _ job.machine.adjusted_refl _

/-! ## What every call keeps -/

/-- Whether it succeeds or fails half way, a call takes nothing off the
    toolpath. -/
theorem within_apply (args : Arguments) (f : Builtin) :
    Within Job.Grown (apply args f) := by
  intro job
  have heffect := effect_apply args f job
  generalize apply args f job = r at heffect
  cases heffect with
  | refused fault => exact refl_of Job.Grown job
  | settings m h v => exact ⟨h.config, List.suffix_rfl⟩
  | comment text v => exact ⟨rfl, List.suffix_cons _ _⟩
  | dwell seconds v => exact ⟨rfl, List.suffix_cons _ _⟩
  | operation p h v =>
      have hmoved := h.within_carryOut.bind (fun _ => within_pure v) job
      exact hmoved.grown

end Call

end MillScript
