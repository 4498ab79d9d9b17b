import MillScript.Proofs.Call

/-! # Settings of the machine

    Five functions change settings, each one in its own way and only to
    values that it accepts; all other calls leave the settings alone.
    `Call.resets_apply` says so of every call, however it ends.  What holds of
    a machine as it is set up, and is kept by the five changes, then holds for
    good: here, that materials are usable and the spindle never turns
    backwards. -/

namespace MillScript

/-! ## Usable materials -/

/-- A material that can be worked: this is what a definition is checked
    for. -/
structure Material.Valid (m : Material) : Prop where
  stepover_pos : 0 < m.stepover
  stepover_le : m.stepover ≤ 1
  stepdown : 0 < m.stepdown
  feedRate : 0 < m.feedRate
  plungeRate : 0 < m.plungeRate
  rpm : ¬ m.rpm < 0

namespace Material

/-- The standard materials have rates and steps that serve. -/
theorem valid_standard : ∀ m ∈ standard, m.Valid := by
  have hall : standard.all (fun m =>
      decide (0 < m.stepover) && decide (m.stepover ≤ 1) && decide (0 < m.stepdown)
        && decide (0 < m.feedRate) && decide (0 < m.plungeRate)
        && !decide (m.rpm < 0)) = true := by decide
  intro m hm
  have hvalid := List.all_eq_true.mp hall m hm
  simp only [Bool.and_eq_true, decide_eq_true_iff, Bool.not_eq_true', decide_eq_false_iff_not]
    at hvalid
  obtain ⟨⟨⟨⟨⟨hover, hle⟩, hdown⟩, hfeed⟩, hplunge⟩, hrpm⟩ := hvalid
  exact ⟨hover, hle, hdown, hfeed, hplunge, hrpm⟩

/-- A table into which a material was put has no other new one. -/
theorem eq_or_mem_of_mem_define {table : List Material} {m k : Material}
    (h : k ∈ define table m) : k = m ∨ k ∈ table := by
  rw [define] at h
  split at h
  · obtain ⟨old, hold, rfl⟩ := List.mem_map.mp h
    split
    · exact .inl rfl
    · exact .inr hold
  · rcases List.mem_append.mp h with hold | hnew
    · exact .inr hold
    · exact .inl (List.mem_singleton.mp hnew)

end Material

/-- A material that can be defined has rates and steps that serve. -/
theorem Call.valid_of_describeMaterial {args : Arguments} {material : Material}
    (h : describeMaterial args = .ok material) : material.Valid := by
  rw [describeMaterial, bind_eq_ok] at h
  obtain ⟨stepdown, -, h⟩ := h
  -- the four checks in the order in which they are made
  dsimp only at h
  split at h
  · cases h
  rename_i hover
  split at h
  · cases h
  rename_i hdown
  split at h
  · cases h
  rename_i hrates
  split at h
  · cases h
  rename_i hrpm
  cases h
  simp only [Bool.not_eq_true', Bool.not_eq_false, Bool.and_eq_true, decide_eq_true_iff]
    at hover hdown hrates
  exact ⟨hover.1, hover.2, hdown, hrates.1, hrates.2, hrpm⟩

/-! ## What calls change -/

/-- The settings of a machine are those of before, or one of them has been
    changed to a value that is accepted. -/
inductive Machine.Reset (m : Machine) : Machine → Prop
  | kept {m' : Machine} (h : m'.setup = m.setup) : Reset m m'
  | cutter {d : Float} (h : 0 < d) : Reset m { m with cutterDiameter := d }
  | material {name : String} {material : Material} (h : m.findMaterial? name = some material) :
      Reset m (m.useMaterial material)
  | define {material : Material} (h : material.Valid) : Reset m (m.defineMaterial material)
  | speed {rpm : Float} (h : ¬ rpm < 0) : Reset m { m with rpm }
  | scale {x y : Float} (hx : 0 < x) (hy : 0 < y) : Reset m { m with scale := ⟨x, y⟩ }

namespace Call

open Machine

/-- A job whose settings changed in one of the ways. -/
def Resets (j j' : Job) : Prop := j.machine.Reset j'.machine

theorem resets_of_eq {j j' : Job} (h : j'.machine = j.machine) : Resets j j' :=
  .kept (congrArg setup h)

/-- A result that is looked at first sets nothing. -/
theorem resets_ofExcept {α β : Type} {r : Except Fault α} {x : α → Machining β}
    (h : ∀ a, r = .ok a → Within Resets (x a)) :
    Within Resets (Machining.ofExcept r >>= x) := by
  cases r with
  | error f => exact fun _ => resets_of_eq rfl
  | ok a => exact h a rfl

theorem resets_fail {α : Type} (f : RuntimeFault) :
    Within Resets (Machining.fail f : Machining α) := fun _ => resets_of_eq rfl

/-- A change that is refused sets nothing. -/
theorem resets_adjust {change : Machine → Except Fault Machine}
    (h : ∀ m m', change m = .ok m' → m.Reset m') : Within Resets (adjust change) := by
  intro job
  rw [adjust]
  cases hm : change job.machine with
  | error f => exact resets_of_eq rfl
  | ok m => exact h job.machine m hm

theorem resets_andReturn {α β : Type} {x : Machining α} (h : Within Resets x) (b : β) :
    Within Resets (do let _ ← x; return b : Machining β) := by
  intro job
  rw [endState_andReturn]
  exact h job

/-- Operations set nothing. -/
theorem resets_operation {α : Type} {x : Machining α} (h : ∀ job, Operates job (x job)) :
    Within Resets x := by
  intro job
  have hx := h job
  generalize x job = r at hx
  cases hx with
  | refused f => exact resets_of_eq rfl
  | planned p hp v => exact .kept (hp.within_carryOut.bind (fun _ => within_pure v) job).setup

/-- A cutter that is set has a positive diameter. -/
theorem resets_setCutter (args : Arguments) : Within Resets (setCutter args) := by
  refine resets_ofExcept fun d _ => ?_
  by_cases hd : 0 < d
  · rw [if_pos hd]
    refine resets_adjust fun m m' h => ?_
    cases h
    exact .cutter hd
  · rw [if_neg hd]
    exact resets_fail _

/-- A material that is set is one of the table. -/
theorem resets_selectMaterial (name : String) :
    Within Resets (adjust (·.selectMaterial name)) := by
  refine resets_adjust fun m m' h => ?_
  rw [selectMaterial] at h
  split at h
  · rename_i found hfound
    cases h
    exact .material hfound
  · cases h

/-- A speed that is set is not negative. -/
theorem resets_setSpeed (args : Arguments) : Within Resets (setSpeed args) := by
  rw [setSpeed]
  split
  · exact resets_fail _
  · rename_i hrpm
    refine resets_adjust fun m m' h => ?_
    cases h
    exact .speed hrpm

/-- A scale that is set is positive along both axes. -/
theorem resets_setScale (args : Arguments) : Within Resets (setScale args) := by
  rw [setScale]
  split
  · rename_i hscale
    rw [Bool.and_eq_true, decide_eq_true_iff, decide_eq_true_iff] at hscale
    refine resets_adjust fun m m' h => ?_
    cases h
    exact .scale hscale.1 hscale.2
  · exact resets_fail _

/-- **Calls change one setting at a time**, and only to what is accepted. -/
theorem resets_apply (args : Arguments) (f : Builtin) : Within Resets (apply args f) := by
  cases f with
  | cutterDiameter => exact resets_andReturn (resets_setCutter args) _
  | material => exact resets_andReturn (resets_selectMaterial _) _
  | defineMaterial =>
      refine resets_ofExcept fun material hmaterial => resets_andReturn (resets_adjust ?_) _
      intro m m' h
      cases h
      exact .define (valid_of_describeMaterial hmaterial)
  | rpm => exact resets_andReturn (resets_setSpeed args) _
  | scale => exact resets_andReturn (resets_setScale args) _
  | comment => exact fun _ => resets_of_eq rfl
  | dwell =>
      refine resets_andReturn (x := Machining.dwell _) ?_ _
      exact .ite (resets_fail _) fun _ => resets_of_eq rfl
  | drill => exact resets_andReturn (resets_operation (operates_drill args)) _
  | circlePocket => exact resets_andReturn (resets_operation (operates_circlePocket args)) _
  | groove => exact resets_andReturn (resets_operation (operates_groove args)) _
  | groovePocket => exact resets_andReturn (resets_operation (operates_groovePocket args)) _
  | linspace =>
      intro job
      have hitems : ∀ items : List Quantity, Within Resets
          (pure (.sequence (items.map .number)) : Machining Value) :=
        fun _ _ => resets_of_eq rfl
      exact resets_ofExcept (fun items _ => hitems items) job

end Call

/-! ## Stocked machines -/

/-- All materials that a machine knows or uses are usable, and its spindle
    does not turn backwards. -/
structure Machine.Stocked (m : Machine) : Prop where
  rpm : ¬ m.rpm < 0
  material : m.material.Valid
  known : ∀ material ∈ m.materials, material.Valid

namespace Machine.Stocked

variable {m m' : Machine}

/-- Stock is a matter of settings, which operations leave alone. -/
theorem of_setup (hm : m.Stocked) (h : m'.setup = m.setup) : m'.Stocked := by
  rw [eq_of_setup h]
  exact ⟨hm.rpm, hm.material, hm.known⟩

/-- A valid definition may be added, or replace the material in use. -/
theorem defineMaterial (hm : m.Stocked) {material : Material} (h : material.Valid) :
    (m.defineMaterial material).Stocked := by
  have hknown : ∀ k ∈ Material.define m.materials material, k.Valid := by
    intro k hk
    rcases Material.eq_or_mem_of_mem_define hk with rfl | hold
    · exact h
    · exact hm.known k hold
  rw [Machine.defineMaterial]
  dsimp only
  split
  · exact ⟨h.rpm, h, hknown⟩
  · exact ⟨hm.rpm, hm.material, hknown⟩

/-- No reset brings in anything that does not serve. -/
theorem reset (hm : m.Stocked) (h : m.Reset m') : m'.Stocked := by
  cases h with
  | kept h => exact hm.of_setup h
  | cutter h => exact ⟨hm.rpm, hm.material, hm.known⟩
  | @material name found h =>
      have hfound := hm.known found (List.mem_of_find?_eq_some h)
      exact ⟨hfound.rpm, hfound, hm.known⟩
  | define h => exact hm.defineMaterial h
  | speed h => exact ⟨h, hm.material, hm.known⟩
  | scale hx hy => exact ⟨hm.rpm, hm.material, hm.known⟩

end Machine.Stocked

/-- A machine comes with standard materials only. -/
theorem Machine.stocked_ofConfig {config : Config} {m : Machine}
    (h : Machine.ofConfig config = .ok m) : m.Stocked := by
  rw [Machine.ofConfig] at h
  split at h
  · cases h
  · rename_i material hmaterial
    cases h
    have hvalid := Material.valid_standard material (List.mem_of_find?_eq_some hmaterial)
    exact ⟨hvalid.rpm, hvalid, Material.valid_standard⟩

end MillScript
