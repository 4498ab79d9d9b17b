/-! # Materials

    Feeds and speeds by stock material, in a table where each name stands
    once. -/

namespace MillScript

/-- How a material is cut. -/
structure Material where
  name : String
  /-- The widest sideways step, as a fraction of the cutter diameter. -/
  stepover : Float
  /-- The deepest pass, in millimetres. -/
  stepdown : Float
  /-- Millimetres a minute when cutting sideways. -/
  feedRate : Float
  /-- Millimetres a minute when cutting downwards. -/
  plungeRate : Float
  /-- Turns of the spindle a minute. -/
  rpm : Float
deriving DecidableEq

namespace Material

/-- The materials that every machine knows. -/
def standard : List Material :=
  [⟨"default", 0.4, 1, 600, 200, 12000⟩,
    ⟨"wood", 0.45, 2, 1200, 400, 16000⟩,
    ⟨"mdf", 0.45, 1.5, 1000, 300, 16000⟩,
    ⟨"acrylic", 0.4, 1, 800, 200, 14000⟩,
    ⟨"aluminium", 0.3, 0.5, 400, 100, 10000⟩,
    ⟨"brass", 0.3, 0.4, 300, 80, 8000⟩,
    ⟨"steel", 0.2, 0.2, 150, 40, 4000⟩]

/-- The material of a name in a table. -/
def find? (table : List Material) (name : String) : Option Material :=
  table.find? fun m => m.name == name

/-- Puts a material into a table, in place of the one of its name. -/
def define (table : List Material) (m : Material) : List Material :=
  if table.any (fun old => old.name == m.name) then
    table.map fun old => if old.name = m.name then m else old
  else table ++ [m]

end Material

end MillScript
