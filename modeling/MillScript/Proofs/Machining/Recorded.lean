import MillScript.Proofs.Machining.Settings
import MillScript.Proofs.Value
import MillScript.Proofs.Vec

/-! # What calls record

    An operation records moves to real positions at the rates of the material
    in use, changes of the tool, and the spindle speed that is set.  So no
    call records a move to a place that is not real, whatever it is given:
    toolpaths are *placed*.  Rates, speeds and times are taken from arguments
    as they are; if the arguments of a call are real numbers, it keeps all
    rates, speeds and times of the job real: the job is *paced*. -/

namespace MillScript

/-! ## Operations -/

/-- The steps that an operation on a machine records. -/
inductive Action.MadeOn (m : Machine) : Action → Prop
  | rapid {target : Vec3} (h : target.isFinite = true) : MadeOn m (.move .rapid target 0)
  | plunge {target : Vec3} (h : target.isFinite = true) :
      MadeOn m (.move .linear target m.material.plungeRate)
  | cut {target : Vec3} (h : target.isFinite = true) :
      MadeOn m (.move .linear target m.material.feedRate)
  | arc {center : Vec2} {target : Vec3} (h : target.isFinite = true)
      (hx : center.x.isFinite = true) (hy : center.y.isFinite = true) :
      MadeOn m (.move (.arc center) target m.material.feedRate)
  | toolChange (text : String) : MadeOn m (.toolChange text)
  | spindle : MadeOn m (.spindle m.rpm)

/-- Neither the material nor the spindle speed is changed by operations. -/
theorem Action.MadeOn.of_setup {m m' : Machine} {a : Action} (h : m'.setup = m.setup)
    (ha : a.MadeOn m') : a.MadeOn m := by
  rw [Machine.eq_of_setup h] at ha
  cases ha with
  | rapid h => exact .rapid h
  | plunge h => exact .plunge h
  | cut h => exact .cut h
  | arc h hx hy => exact .arc h hx hy
  | toolChange text => exact .toolChange text
  | spindle => exact .spindle

/-- What operations add to a job. -/
structure Job.Machined (j j' : Job) : Prop where
  setup : j'.machine.setup = j.machine.setup
  made : ∀ s ∈ j'.path.recorded, s ∈ j.path.recorded ∨ s.action.MadeOn j.machine

instance : IsPreorder Job Job.Machined where
  refl _ := ⟨rfl, fun _ hs => .inl hs⟩
  trans j k l h h' := by
    refine ⟨h'.setup.trans h.setup, ?_⟩
    intro s hs
    rcases h'.made s hs with hold | hmade
    · exact h.made s hold
    · exact .inr (hmade.of_setup h.setup)

namespace Machining

open Job

/-- A step that is made on the settings of the machine, which stay. -/
theorem machined_push {machine : Machine} {job : Job} {a : Action}
    (h : machine.setup = job.machine.setup) (ha : a.MadeOn job.machine) :
    Machined job ⟨machine, job.path.push a⟩ := by
  refine ⟨h, ?_⟩
  intro s hs
  rcases List.mem_cons.mp hs with rfl | hold
  · exact .inr ha
  · exact .inl hold

/-- A straight move is recorded only if its target is real. -/
theorem machined_travel {kind : Move} {target : Vec3} {feed : Float} {job : Job}
    (h : target.isFinite = true → Action.MadeOn job.machine (.move kind target feed)) :
    Machined job (endState (travel kind target feed job)) := by
  rw [travel]
  split
  · exact refl_of Machined job
  · rename_i hfinite
    split
    · exact refl_of Machined job
    · exact machined_push rfl (h (by simpa using hfinite))

/-- An arc is recorded only if its target and its centre are real. -/
theorem machined_arc (x y cx cy : Float) : Within Machined (arc x y cx cy) := by
  intro job
  rw [arc]
  dsimp only
  split
  · exact refl_of Machined job
  · split
    · exact refl_of Machined job
    · rename_i hfinite
      rw [Bool.or_eq_true, not_or, Bool.not_eq_true', Bool.not_eq_true', Bool.not_eq_false,
        Bool.not_eq_false] at hfinite
      obtain ⟨hx, hy, -⟩ := Vec3.isFinite_iff.mp hfinite.2
      exact machined_push rfl (.arc hfinite.1 hx hy)

/-- Announcements tell the tool and the speed of the machine. -/
theorem machined_announce : Within Machined announce := by
  intro job
  -- the spindle speed is that of the job before the tool is announced
  have hspeed : ∀ j : Job, j.machine.rpm = job.machine.rpm →
      Machined j (endState ((if job.machine.rpm != job.machine.announcedRpm then do
        record (.spindle job.machine.rpm)
        modify fun j : Job => { j with machine.announcedRpm := job.machine.rpm }
        else pure () : Machining Unit) j)) := by
    intro j hrpm
    split
    · rw [← hrpm]
      exact ⟨rfl, (machined_push rfl .spindle).made⟩
    · exact refl_of Machined j
  show Machined job (endState ((ite _ _ _ : Machining Unit) job))
  split
  · refine trans_of Machined ?_ (hspeed _ ?_)
    · exact ⟨rfl, (machined_push rfl (.toolChange job.machine.toolText)).made⟩
    · rfl
  · exact hspeed job rfl

/-- All that operations record is made on the settings they found. -/
theorem motionWithin_machined : MotionWithin Machined where
  rapid _ _ _ _ := machined_travel .rapid
  rapidZ _ _ := machined_travel .rapid
  plunge _ _ := machined_travel .plunge
  cut _ _ _ := machined_travel .cut
  arc := machined_arc
  announce := machined_announce

end Machining

/-- What a plan that is carried out adds to the job, however far it gets. -/
theorem machined_carryOut {α : Type} {job : Job} {p : Machining.Plan}
    (h : Machining.Plan.Of job.machine p) (v : α) :
    job.Machined (endState ((do p.carryOut; return v : Machining α) job)) :=
  (Machining.motionWithin_machined.carryOut h).bind (fun _ => within_pure v) job

/-! ## Placed toolpaths -/

/-- The target of a move and the centre of an arc are real. -/
def Action.Placed : Action → Prop
  | .move kind target _ => target.isFinite = true
    ∧ ∀ center, kind = .arc center → center.x.isFinite = true ∧ center.y.isFinite = true
  | _ => True

/-- What is made on a machine goes to real places. -/
theorem Action.MadeOn.placed {m : Machine} {a : Action} (h : a.MadeOn m) : a.Placed := by
  cases h with
  | rapid h => exact ⟨h, fun _ hkind => Move.noConfusion hkind⟩
  | plunge h => exact ⟨h, fun _ hkind => Move.noConfusion hkind⟩
  | cut h => exact ⟨h, fun _ hkind => Move.noConfusion hkind⟩
  | arc h hx hy =>
      refine ⟨h, ?_⟩
      rintro _ ⟨⟩
      exact ⟨hx, hy⟩
  | toolChange text => trivial
  | spindle => trivial

/-- Every step of the toolpath is placed. -/
def Job.Placed (j : Job) : Prop := ∀ s ∈ j.path.recorded, s.action.Placed

/-- Steps stay at real places through every operation. -/
theorem Job.Placed.machined {j j' : Job} (hj : j.Placed) (h : j.Machined j') : j'.Placed := by
  intro s hs
  rcases h.made s hs with hold | hmade
  · exact hj s hold
  · exact hmade.placed

theorem Job.Placed.push {j : Job} (hj : j.Placed) {a : Action} (ha : a.Placed) :
    Job.Placed { j with path := j.path.push a } := by
  intro s hs
  rcases List.mem_cons.mp hs with rfl | hold
  · exact ha
  · exact hj s hold

/-- **No call records a move to a place that is not real**, whatever it is
    given and however it ends. -/
theorem Call.placed_apply (args : Arguments) (f : Builtin) {job : Job} (h : job.Placed) :
    (endState (Call.apply args f job)).Placed := by
  have heffect := Call.effect_apply args f job
  generalize Call.apply args f job = r at heffect
  cases heffect with
  | refused fault => exact h
  | settings m _ v => exact h
  | comment text v => exact h.push trivial
  | dwell seconds v => exact h.push trivial
  | operation p hp v => exact h.machined (machined_carryOut hp v)

/-! ## Paced jobs -/

/-- The rates and the spindle speed of a material are real. -/
structure Material.Paced (m : Material) : Prop where
  feedRate : m.feedRate.isFinite = true
  plungeRate : m.plungeRate.isFinite = true
  rpm : m.rpm.isFinite = true

/-- So are those that a machine uses or knows. -/
structure Machine.Paced (m : Machine) : Prop where
  rpm : m.rpm.isFinite = true
  material : m.material.Paced
  known : ∀ material ∈ m.materials, material.Paced

/-- The rate, speed or time of a step is real. -/
def Action.Paced : Action → Prop
  | .move _ _ feed => feed.isFinite = true
  | .dwell seconds => seconds.isFinite = true
  | .spindle rpm => rpm.isFinite = true
  | .comment _ => True
  | .toolChange _ => True

/-- On a machine with real rates, what is made has a real rate. -/
theorem Action.MadeOn.paced {m : Machine} {a : Action} (hm : m.Paced) (h : a.MadeOn m) :
    a.Paced := by
  cases h with
  | rapid h => rfl
  | plunge h => exact hm.material.plungeRate
  | cut h => exact hm.material.feedRate
  | arc h hx hy => exact hm.material.feedRate
  | toolChange text => trivial
  | spindle => exact hm.rpm

/-- All rates, speeds and times of a machine and its toolpath are real. -/
structure Job.Paced (j : Job) : Prop where
  machine : j.machine.Paced
  steps : ∀ s ∈ j.path.recorded, s.action.Paced

/-- The standard materials have real rates. -/
theorem Material.paced_standard : ∀ m ∈ Material.standard, m.Paced := by
  have hall : Material.standard.all (fun m =>
      m.feedRate.isFinite && m.plungeRate.isFinite && m.rpm.isFinite) = true := by decide
  intro m hm
  have hreal := List.all_eq_true.mp hall m hm
  rw [Bool.and_eq_true, Bool.and_eq_true] at hreal
  exact ⟨hreal.1.1, hreal.1.2, hreal.2⟩

namespace Machine.Paced

variable {m : Machine} {material : Material}

/-- Rates are settings, which operations leave alone. -/
theorem of_setup {m' : Machine} (hm : m.Paced) (h : m'.setup = m.setup) : m'.Paced := by
  rw [eq_of_setup h]
  exact ⟨hm.rpm, hm.material, hm.known⟩

/-- With a material come its rates. -/
theorem useMaterial (hm : m.Paced) (h : material.Paced) : (m.useMaterial material).Paced :=
  ⟨h.rpm, h, hm.known⟩

theorem selectMaterial {m' : Machine} {name : String} (hm : m.Paced)
    (h : m.selectMaterial name = .ok m') : m'.Paced := by
  rw [Machine.selectMaterial] at h
  split at h
  · rename_i found hfound
    rw [← Except.ok.inj h]
    exact hm.useMaterial (hm.known found (List.mem_of_find?_eq_some hfound))
  · cases h

/-- A definition with real rates adds no others. -/
theorem defineMaterial (hm : m.Paced) (h : material.Paced) :
    (m.defineMaterial material).Paced := by
  have hknown : ∀ k ∈ Material.define m.materials material, k.Paced := by
    intro k hk
    rcases Material.eq_or_mem_of_mem_define hk with rfl | hold
    · exact h
    · exact hm.known k hold
  rw [Machine.defineMaterial]
  dsimp only
  split
  · exact ⟨h.rpm, h, hknown⟩
  · exact ⟨hm.rpm, hm.material, hknown⟩

end Machine.Paced

namespace Job.Paced

variable {j : Job}

/-- Steps keep real rates through every operation. -/
theorem machined {j' : Job} (hj : j.Paced) (h : j.Machined j') : j'.Paced := by
  refine ⟨hj.machine.of_setup h.setup, ?_⟩
  intro s hs
  rcases h.made s hs with hold | hmade
  · exact hj.steps s hold
  · exact hmade.paced hj.machine

theorem push (hj : j.Paced) {a : Action} (ha : a.Paced) :
    Job.Paced { j with path := j.path.push a } := by
  refine ⟨hj.machine, ?_⟩
  intro s hs
  rcases List.mem_cons.mp hs with rfl | hold
  · exact ha
  · exact hj.steps s hold

end Job.Paced

namespace Call

open Job

variable {args : Arguments}

/-- An operation keeps the job paced, as it has a paced machine to work on. -/
theorem keeps_operation {α : Type} {x : Machining α} (h : ∀ job, Operates job (x job)) :
    Within (Keeps Paced) x := by
  intro job hj
  have hx := h job
  generalize x job = r at hx
  cases hx with
  | refused f => exact hj
  | planned p hp v => exact hj.machined (machined_carryOut hp v)

/-- So does a change of settings that keeps the machine paced. -/
theorem keeps_adjust {change : Machine → Except Fault Machine}
    (h : ∀ m m', m.Paced → change m = .ok m' → m'.Paced) :
    Within (Keeps Paced) (adjust change) := by
  intro job hj
  rw [adjust]
  cases hm : change job.machine with
  | error f => exact hj
  | ok m => exact ⟨h job.machine m hj.machine hm, hj.steps⟩

/-- A result that is passed on changes no rate. -/
theorem keeps_ofExcept {α β : Type} {r : Except Fault α} {x : α → Machining β}
    (h : ∀ a, r = .ok a → Within (Keeps Paced) (x a)) :
    Within (Keeps Paced) (Machining.ofExcept r >>= x) := by
  cases r with
  | error f => exact fun _ hj => hj
  | ok a => exact h a rfl

theorem keeps_fail {α : Type} (f : RuntimeFault) :
    Within (Keeps Paced) (Machining.fail f : Machining α) := fun _ hj => hj

theorem keeps_record {a : Action} (ha : a.Paced) : Within (Keeps Paced) (Machining.record a) :=
  fun _ hj => hj.push ha

/-- Real arguments describe a material with real rates. -/
theorem paced_of_describeMaterial {material : Material}
    (hargs : AllReal (List.lookup · args)) (h : describeMaterial args = .ok material) :
    material.Paced := by
  rw [describeMaterial, bind_eq_ok] at h
  obtain ⟨stepdown, -, h⟩ := h
  -- four checks, none of which looks at whether the rates are real
  dsimp only at h
  split at h
  · cases h
  split at h
  · cases h
  split at h
  · cases h
  split at h
  · cases h
  rw [← Except.ok.inj h]
  exact ⟨hargs.number _, hargs.number _, hargs.number _⟩

theorem keeps_setCutter (args : Arguments) : Within (Keeps Paced) (setCutter args) := by
  refine keeps_ofExcept fun d _ => .ite (keeps_adjust fun m m' hm h => ?_) (keeps_fail _)
  rw [← Except.ok.inj h]
  exact ⟨hm.rpm, hm.material, hm.known⟩

/-- A real argument is a real speed. -/
theorem keeps_setSpeed (hargs : AllReal (List.lookup · args)) :
    Within (Keeps Paced) (setSpeed args) := by
  refine .ite (keeps_fail _) (keeps_adjust fun m m' hm h => ?_)
  rw [← Except.ok.inj h]
  exact ⟨hargs.number _, hm.material, hm.known⟩

theorem keeps_setScale (args : Arguments) : Within (Keeps Paced) (setScale args) := by
  refine .ite (keeps_adjust fun m m' hm h => ?_) (keeps_fail _)
  rw [← Except.ok.inj h]
  exact ⟨hm.rpm, hm.material, hm.known⟩

/-- A real argument is a real time. -/
theorem keeps_dwell {seconds : Float} (h : seconds.isFinite = true) :
    Within (Keeps Paced) (Machining.dwell seconds) :=
  .ite (keeps_fail _) (keeps_record h)

/-- **Calls with real arguments keep the job paced**, however they end. -/
theorem keeps_apply (hargs : AllReal (List.lookup · args)) (f : Builtin) :
    Within (Keeps Paced) (apply args f) := by
  cases f with
  | cutterDiameter => exact (keeps_setCutter args).bind fun _ => within_pure _
  | material =>
      exact (keeps_adjust fun m m' hm h => hm.selectMaterial h).bind fun _ => within_pure _
  | defineMaterial =>
      refine keeps_ofExcept fun material hmaterial => Within.bind ?_ fun _ => within_pure _
      refine keeps_adjust fun m m' hm h => ?_
      rw [← Except.ok.inj h]
      exact hm.defineMaterial (paced_of_describeMaterial hargs hmaterial)
  | rpm => exact (keeps_setSpeed hargs).bind fun _ => within_pure _
  | scale => exact (keeps_setScale args).bind fun _ => within_pure _
  | comment =>
      exact (keeps_record (a := .comment (args.text "text")) trivial).bind fun _ => within_pure _
  | dwell => exact (keeps_dwell (hargs.number _)).bind fun _ => within_pure _
  | drill => exact (keeps_operation (operates_drill args)).bind fun _ => within_pure _
  | circlePocket =>
      exact (keeps_operation (operates_circlePocket args)).bind fun _ => within_pure _
  | groove => exact (keeps_operation (operates_groove args)).bind fun _ => within_pure _
  | groovePocket =>
      exact (keeps_operation (operates_groovePocket args)).bind fun _ => within_pure _
  | linspace => exact within_get.bind fun _ => keeps_ofExcept fun _ _ => within_pure _

end Call

end MillScript
