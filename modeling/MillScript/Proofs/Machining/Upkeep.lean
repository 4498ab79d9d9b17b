import Mathlib.Data.List.Nodup
import MillScript.Proofs.Machining.Settings

/-! # Machines in order

    A table of materials has each name once, and a definition goes to its own
    name: other names are looked up as before, and no entry changes its place.
    The material in use is a copy of an entry, and has to follow when the entry
    is defined anew.  A machine is in order (`Machine.InOrder`) when the copy
    is up to date and all settings make sense; whichever setting a call
    changes, the machine stays in order (`Machine.InOrder.reset`). -/

namespace MillScript

/-! ## The table -/

namespace Material

variable (table : List Material) (m : Material)

/-- An entry after a definition. -/
def redefined (old : Material) : Material := if old.name = m.name then m else old

/-- A material keeps its name when it is redefined. -/
@[simp] theorem name_redefined (old : Material) : (redefined m old).name = old.name := by
  rw [redefined]
  split
  · rename_i hname
    exact hname.symm
  · rfl

/-- A definition goes to the entry of its name, or else to the end. -/
theorem define_eq :
    define table m
      = if m.name ∈ table.map name then table.map (redefined m) else table ++ [m] := by
  have hany : table.any (fun old => old.name == m.name) = true ↔ m.name ∈ table.map name := by
    rw [List.any_eq_true, List.mem_map]
    simp only [beq_iff_eq]
  rw [define]
  simp only [hany]
  rfl

/-- No name gets into the table twice. -/
theorem nodup_define (h : (table.map name).Nodup) : ((define table m).map name).Nodup := by
  rw [define_eq]
  split
  · rw [List.map_map]
    have hnames : name ∘ redefined m = name := funext (name_redefined m)
    rwa [hnames]
  · rename_i hnew
    rw [List.map_append, List.nodup_append]
    refine ⟨h, List.nodup_singleton _, ?_⟩
    intro a ha b hb hab
    rw [List.mem_singleton.mp hb] at hab
    exact hnew (hab ▸ ha)

/-- The entry at a place is the old one or what replaces it. -/
theorem getElem?_define {k : Nat} {old : Material} (h : table[k]? = some old) :
    (define table m)[k]? = some (redefined m old) := by
  rw [define_eq]
  split
  · rw [List.getElem?_map, h]
    rfl
  · rename_i hnew
    have hne : ¬ old.name = m.name := by
      intro hname
      exact hnew (hname ▸ List.mem_map_of_mem (List.mem_of_getElem? h))
    have hk : k < table.length := (List.getElem?_eq_some_iff.mp h).1
    rw [List.getElem?_append_left hk, h, redefined, if_neg hne]

/-- What is found under a name has it. -/
theorem name_of_find? {table : List Material} {name : String} {old : Material}
    (h : find? table name = some old) : old.name = name := by
  rw [find?] at h
  have hname := List.find?_some h
  exact beq_iff_eq.mp hname

/-- The definition is found under its name, and under other names what was
    found there before. -/
theorem find?_define (name : String) :
    find? (define table m) name = if name = m.name then some m else find? table name := by
  rw [define_eq]
  split
  · rename_i hmem
    -- entries keep their names, so that the search stops where it did before
    have hsearch : find? (table.map (redefined m)) name = (find? table name).map (redefined m) := by
      rw [find?, find?, List.find?_map]
      simp only [Function.comp_def, name_redefined]
    rw [hsearch]
    cases hold : find? table name with
    | some old =>
        rw [Option.map_some, redefined, name_of_find? hold]
        split <;> rfl
    | none =>
        rw [find?, List.find?_eq_none] at hold
        obtain ⟨old, hin, hname⟩ := List.mem_map.mp hmem
        rw [if_neg, Option.map_none]
        rintro rfl
        exact hold old hin (beq_iff_eq.mpr hname)
  · rename_i hnew
    rw [find?, List.find?_append]
    show (find? table name).or _ = _
    by_cases hname : name = m.name
    · have hnone : find? table name = none := by
        rw [find?, List.find?_eq_none]
        intro old hin hold
        rw [beq_iff_eq, hname] at hold
        exact hnew (hold ▸ List.mem_map_of_mem hin)
      rw [hnone, if_pos hname, hname]
      simp
    · have hlast : ¬ m.name = name := fun h => hname h.symm
      rw [if_neg hname]
      simp [hlast]

end Material

/-! ## The machine -/

namespace Machine

/-- A machine in order, that was set up as configured. -/
structure InOrder (config : Config) (m : Machine) : Prop where
  names : (m.materials.map Material.name).Nodup
  known : ∀ material ∈ m.materials, material.Valid
  /-- The material in use is the one that the table has under its name. -/
  inUse : m.findMaterial? m.material.name = some m.material
  cutterDiameter : 0 < m.cutterDiameter
  scaleX : 0 < m.scale.x
  scaleY : 0 < m.scale.y
  rpm : ¬ m.rpm < 0
  config : m.config = config

namespace InOrder

variable {config : Config} {m m' : Machine}

theorem stocked (hm : m.InOrder config) : m.Stocked :=
  ⟨hm.rpm, hm.known _ (List.mem_of_find?_eq_some hm.inUse), hm.known⟩

/-- The order of a machine does not hang on what operations change. -/
theorem of_setup (hm : m.InOrder config) (h : m'.setup = m.setup) : m'.InOrder config := by
  rw [eq_of_setup h]
  exact ⟨hm.names, hm.known, hm.inUse, hm.cutterDiameter, hm.scaleX, hm.scaleY, hm.rpm, hm.config⟩

/-- A material that was found is in the table under its own name. -/
theorem useMaterial (hm : m.InOrder config) {name : String} {found : Material}
    (h : m.findMaterial? name = some found) : (m.useMaterial found).InOrder config := by
  have hvalid := hm.known found (List.mem_of_find?_eq_some h)
  have hname : found.name = name := Material.name_of_find? h
  exact ⟨hm.names, hm.known, hname ▸ h, hm.cutterDiameter, hm.scaleX, hm.scaleY, hvalid.rpm,
    hm.config⟩

/-- The copy in use follows a definition of its name, and is left alone by
    the others. -/
theorem defineMaterial (hm : m.InOrder config) {material : Material} (h : material.Valid) :
    (m.defineMaterial material).InOrder config := by
  have hnames := Material.nodup_define m.materials material hm.names
  have hknown := (hm.stocked.defineMaterial h).known
  have hfind := Material.find?_define m.materials material
  rw [Machine.defineMaterial] at hknown ⊢
  dsimp only at hknown ⊢
  split at hknown
  · rename_i hname
    rw [if_pos hname]
    refine ⟨hnames, hknown, ?_, hm.cutterDiameter, hm.scaleX, hm.scaleY, h.rpm, hm.config⟩
    exact (hfind material.name).trans (if_pos rfl)
  · rename_i hname
    rw [if_neg hname]
    refine ⟨hnames, hknown, ?_, hm.cutterDiameter, hm.scaleX, hm.scaleY, hm.rpm, hm.config⟩
    exact (hfind m.material.name).trans ((if_neg (Ne.symm hname)).trans hm.inUse)

/-- **Machines stay in order**, whichever setting is changed. -/
theorem reset (hm : m.InOrder config) (h : m.Reset m') : m'.InOrder config := by
  cases h with
  | kept h => exact hm.of_setup h
  | cutter h => exact { hm with cutterDiameter := h }
  | material h => exact hm.useMaterial h
  | define h => exact hm.defineMaterial h
  | speed h => exact { hm with rpm := h }
  | scale hx hy => exact { hm with scaleX := hx, scaleY := hy }

end InOrder

/-- A machine comes in order if its cutter has a diameter. -/
theorem inOrder_ofConfig {config : Config} (hcutter : 0 < config.cutterDiameter) {m : Machine}
    (h : ofConfig config = .ok m) : m.InOrder config := by
  have hstocked := stocked_ofConfig h
  rw [ofConfig] at h
  split at h
  · cases h
  · rename_i material hmaterial
    cases h
    have hnames : (Material.standard.map Material.name).Nodup := by decide
    have hscale : (0 : Float) < 1 := by decide
    refine ⟨hnames, hstocked.known, ?_, hcutter, hscale, hscale, hstocked.rpm, rfl⟩
    rwa [← Material.name_of_find? hmaterial] at hmaterial

@[simp] theorem materials_defineMaterial (m : Machine) (material : Material) :
    (m.defineMaterial material).materials = Material.define m.materials material := by
  rw [defineMaterial]
  dsimp only
  split <;> rfl

end Machine

/-- What a definition that goes through defines. -/
theorem Call.exists_of_defineMaterial {args : Arguments} {job job' : Job} {v : Value}
    (h : apply args .defineMaterial job = .ok v job') :
    ∃ material, describeMaterial args = .ok material
      ∧ job'.machine = job.machine.defineMaterial material := by
  cases hmaterial : describeMaterial args with
  | error f =>
      rw [apply, hmaterial] at h
      cases h
  | ok material =>
      rw [apply, hmaterial] at h
      cases h
      exact ⟨material, rfl, rfl⟩

end MillScript
