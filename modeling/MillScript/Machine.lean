import MillScript.Fault
import MillScript.Material
import MillScript.Vec

/-! # The machine

    What operations read and change: the cutter, the material, the spindle
    speed, the scale of the drawing, and what the machine has been told so
    far. -/

namespace MillScript

/-- How a machine is set up before a script runs; lengths in millimetres. -/
structure Config where
  /-- Height above the stock at which the tool travels. -/
  safeHeight : Float := 5
  /-- Height above the work at which a rapid descent stops. -/
  clearance : Float := 0.25
  /-- The deepest peck of a drill, unless a call says otherwise. -/
  peckDepth : Float := 2
  cutterDiameter : Float := 3.175
  material : String := "default"
  /-- Decimals in the output. -/
  precision : Int := 3
  /-- The most items of a sequence. -/
  maxSequence : Nat := 1000000
deriving DecidableEq

/-- The state of a machine. -/
structure Machine where
  config : Config
  materials : List Material
  cutterDiameter : Float
  material : Material
  /-- Spindle speed of the next cut. -/
  rpm : Float
  /-- Where the tool was last sent. -/
  position : Vec3
  /-- Whether the tool was sent anywhere at all. -/
  positionKnown : Bool := false
  scale : Vec2 := ⟨1, 1⟩
  /-- The spindle speed last recorded. -/
  announcedRpm : Float := -1
  /-- The tool and material last recorded. -/
  announcedTool : String := ""
deriving DecidableEq

namespace Machine

/-- A machine set up as configured, with the standard materials. -/
def ofConfig (config : Config) : Except Fault Machine :=
  match Material.find? Material.standard config.material with
  | none => .error (ConfigFault.unknownMaterial config.material)
  | some material =>
    .ok
      { config
        materials := Material.standard
        cutterDiameter := config.cutterDiameter
        material
        rpm := material.rpm
        position := ⟨0, 0, config.safeHeight⟩ }

/-- The material of a name. -/
def findMaterial? (m : Machine) (name : String) : Option Material :=
  Material.find? m.materials name

/-- Goes over to a material and its spindle speed. -/
def useMaterial (m : Machine) (material : Material) : Machine :=
  { m with material, rpm := material.rpm }

/-- Goes over to a material of the table. -/
def selectMaterial (m : Machine) (name : String) : Except Fault Machine :=
  match m.findMaterial? name with
  | some material => .ok (m.useMaterial material)
  | none => .error (ConfigFault.unknownMaterial name)

/-- Adds a material or replaces the one of its name; if that is the one in
    use, the new one is used at once. -/
def defineMaterial (m : Machine) (material : Material) : Machine :=
  let m := { m with materials := Material.define m.materials material }
  if material.name = m.material.name then m.useMaterial material else m

/-- The widest sideways step in millimetres. -/
def stepover (m : Machine) : Float := m.material.stepover * m.cutterDiameter

/-- The tool and material, as recorded on the toolpath. -/
def toolText (m : Machine) : String :=
  Decimal.shown m.cutterDiameter ++ "mm cutter, " ++ m.material.name

/-- A point of the drawing on the machine. -/
def place (m : Machine) (x y z : Float) : Vec3 := ⟨x * m.scale.x, y * m.scale.y, z⟩

end Machine

end MillScript
