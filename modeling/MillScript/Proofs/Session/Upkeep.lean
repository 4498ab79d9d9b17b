import MillScript.Proofs.Machining.Upkeep
import MillScript.Proofs.Session.Calls

/-! # Sessions keep the machine in order

    Materials are defined, defined anew, selected and overridden by scripts,
    in loops, and by scripts that fail and are taken back.  From a
    configuration that makes sense on, the machine is in order whenever a
    script has ended, however it ended. -/

namespace MillScript

theorem Job.Agree.inOrder {config : Config} {j j' : Job} (h : j.Agree j')
    (hj : j.machine.InOrder config) : j'.machine.InOrder config := h.machine ▸ hj

/-- A call leaves the machine in order. -/
theorem Performed.inOrder {config : Config} (call : Performed)
    (h : call.before.machine.InOrder config) : call.after.machine.InOrder config := by
  have hreset := Call.resets_apply call.arguments call.function call.before
  rw [call.applied] at hreset
  exact h.reset hreset

namespace Session

/-- A known material is all that it takes to set up a session. -/
theorem exists_ofConfig {config : Config}
    (hmaterial : (Material.find? Material.standard config.material).isSome = true)
    (verbose : Bool) :
    ∃ s m, ofConfig config verbose = .ok s ∧ Machine.ofConfig config = .ok m
      ∧ s.world.job.machine = m := by
  obtain ⟨material, hfound⟩ := Option.isSome_iff_exists.mp hmaterial
  have hm : ∃ m, Machine.ofConfig config = .ok m := by
    rw [Machine.ofConfig, hfound]
    exact ⟨_, rfl⟩
  obtain ⟨m, hm⟩ := hm
  rw [ofConfig, hm]
  exact ⟨_, m, rfl, rfl, rfl⟩

/-- The machine is in order after any number of scripts. -/
theorem inOrder_afterAll {config : Config} {s : Session}
    (hs : s.world.job.machine.InOrder config) (scripts : List Script) :
    (s.afterAll scripts).world.job.machine.InOrder config :=
  ((s.leads_calls scripts).invariant (fun hagree => hagree.inOrder)
    (fun call => call.inOrder) hs).2

/-- **The machine stays in order over whole sessions.**  A configuration with
    a known material and a cutter of positive diameter sets up a session, and
    after any scripts its machine is in order: names of materials are
    distinct, all materials are usable, the one in use is the one in the
    table, the settings make sense, and the configuration is the one it was
    set up with.  A definition goes to its own name: other names are looked up
    as before, and every entry stays at its place. -/
theorem machine_stays_in_order (config : Config)
    (hmaterial : (Material.find? Material.standard config.material).isSome = true)
    (hcutter : 0 < config.cutterDiameter) (verbose : Bool) :
    (∃ s, ofConfig config verbose = .ok s
      ∧ ∀ scripts, (s.afterAll scripts).world.job.machine.InOrder config)
    ∧ ∀ (args : Arguments) (job job' : Job) (v : Value),
      Call.apply args .defineMaterial job = .ok v job' →
      ∃ material, Call.describeMaterial args = .ok material
        ∧ job'.machine.findMaterial? material.name = some material
        ∧ (∀ name, name ≠ material.name →
            job'.machine.findMaterial? name = job.machine.findMaterial? name)
        ∧ ∀ (k : Nat) (old : Material), job.machine.materials[k]? = some old →
            job'.machine.materials[k]?
              = some (if old.name = material.name then material else old) := by
  constructor
  · obtain ⟨s, m, hs, hm, hmachine⟩ := exists_ofConfig hmaterial verbose
    have horder : s.world.job.machine.InOrder config := by
      rw [hmachine]
      exact Machine.inOrder_ofConfig hcutter hm
    exact ⟨s, hs, fun scripts => inOrder_afterAll horder scripts⟩
  · intro args job job' v h
    obtain ⟨material, hmaterial, hmachine⟩ := Call.exists_of_defineMaterial h
    have hfind := Material.find?_define job.machine.materials material
    refine ⟨material, hmaterial, ?_, ?_, ?_⟩
    · rw [hmachine, Machine.findMaterial?, Machine.materials_defineMaterial, hfind, if_pos rfl]
    · intro name hname
      rw [hmachine, Machine.findMaterial?, Machine.materials_defineMaterial, hfind, if_neg hname]
      rfl
    · intro k old hold
      rw [hmachine, Machine.materials_defineMaterial]
      exact Material.getElem?_define _ material hold

/-- Foam is defined and used at a speed of its own; a script goes over to wood
    and then fails, since it asks for steps wider than the cutter; foam is
    defined anew, twice in a loop, while it is in use. -/
def foamWork : List Script :=
  [⟨"foam", "define_material('foam', 0.5, 10mm, 3000, 1000, 8000); material('foam'); rpm(9000);"⟩,
    ⟨"wide", "material('wood'); define_material('foam', 2, 1mm, 3000, 1000, 8000);"⟩,
    ⟨"thin", "scale(2, 0.5); for d in linspace(1mm, 5mm, 2) \x7b\n"
      ++ "  define_material('foam', 0.5, d, 3000, 1000, 7000);\n\x7d"⟩]

/-- Arguments that define wood anew. -/
def softWood : Arguments :=
  [("name", .string "wood"), ("stepover", .number ⟨0.5, none⟩), ("stepdown", .number ⟨3, some .mm⟩),
    ("feed_rate", .number ⟨1500, none⟩), ("plunge_rate", .number ⟨500, none⟩),
    ("rpm", .number ⟨18000, none⟩)]

theorem machine_stays_in_order_foamWork :
    let machine := (standard.afterAll foamWork).world.job.machine
    let wood : Material := ⟨"wood", 0.5, 3, 1500, 500, 18000⟩
    (standard.transcript foamWork).map Prod.snd
        = [none, some ⟨RuntimeFault.stepoverFraction, ⟨1, 19⟩⟩, none]
      ∧ machine.InOrder {}
      ∧ machine.material = ⟨"foam", 0.5, 5, 3000, 1000, 7000⟩
      ∧ ∃ job', Call.apply softWood .defineMaterial standard.world.job = .ok .none job'
        ∧ job'.machine.findMaterial? "wood" = some wood
        ∧ job'.machine.findMaterial? "mdf" = some ⟨"mdf", 0.45, 1.5, 1000, 300, 16000⟩
        ∧ job'.machine.materials[1]? = some wood := by
  have hends : (standard.transcript foamWork).map Prod.snd
        = [none, some ⟨RuntimeFault.stepoverFraction, ⟨1, 19⟩⟩, none]
      ∧ (standard.afterAll foamWork).world.job.machine.material
        = ⟨"foam", 0.5, 5, 3000, 1000, 7000⟩ := by decide +kernel
  intro machine wood
  have hwood : Call.describeMaterial softWood = .ok wood := by decide +kernel
  have hmdf : standard.world.job.machine.findMaterial? "mdf"
      = some ⟨"mdf", 0.45, 1.5, 1000, 300, 16000⟩ := by decide +kernel
  obtain ⟨⟨s, hs, horder⟩, hdefine⟩ :=
    machine_stays_in_order {} (by decide) (by decide) false
  obtain rfl : standard = s := Except.ok.inj hs
  have happly : ∃ job',
      Call.apply softWood .defineMaterial standard.world.job = .ok .none job' := by
    rw [Call.apply, hwood]
    exact ⟨_, rfl⟩
  obtain ⟨job', happly⟩ := happly
  obtain ⟨material, hmaterial, hself, hothers, hplaces⟩ := hdefine _ _ _ _ happly
  obtain rfl : wood = material := Except.ok.inj (hwood.symm.trans hmaterial)
  refine ⟨hends.1, horder foamWork, hends.2, job', happly, hself, ?_, ?_⟩
  · rw [hothers "mdf" (by decide), hmdf]
  · exact hplaces 1 _ rfl

end Session

end MillScript
