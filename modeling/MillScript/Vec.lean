import MillScript.Decimal.Write

/-! # Points of the plane and of space

    Tool positions are points of space, arc centres points of the plane.
    Equality is that of the coordinates as numbers: zeros of either sign
    are equal, and a coordinate that is not a number equals nothing. -/

namespace MillScript

/-- Sum of the products of coordinates, taken from the left, from zero. -/
def dotProduct (a b : List Float) : Float :=
  (a.zip b).foldl (fun sum pair => sum + pair.1 * pair.2) 0

/-- Coordinates as shown to people, each followed by a blank. -/
def coordinateText (coords : List Float) : String :=
  coords.foldl (fun text x => text ++ Decimal.shown x ++ " ") ""

/-- A point of the plane, in millimetres. -/
structure Vec2 where
  x : Float
  y : Float
deriving DecidableEq

namespace Vec2

def coords (v : Vec2) : List Float := [v.x, v.y]

instance : Add Vec2 := ⟨fun a b => ⟨a.x + b.x, a.y + b.y⟩⟩

instance : Sub Vec2 := ⟨fun a b => ⟨a.x - b.x, a.y - b.y⟩⟩

instance : BEq Vec2 := ⟨fun a b => a.x == b.x && a.y == b.y⟩

def dot (a b : Vec2) : Float := dotProduct a.coords b.coords

/-- Distance from the origin. -/
def length (v : Vec2) : Float := (v.dot v).sqrt

def text (v : Vec2) : String := coordinateText v.coords

end Vec2

/-- A point of space, in millimetres. -/
structure Vec3 where
  x : Float
  y : Float
  z : Float
deriving DecidableEq

namespace Vec3

def coords (v : Vec3) : List Float := [v.x, v.y, v.z]

instance : Add Vec3 := ⟨fun a b => ⟨a.x + b.x, a.y + b.y, a.z + b.z⟩⟩

instance : Sub Vec3 := ⟨fun a b => ⟨a.x - b.x, a.y - b.y, a.z - b.z⟩⟩

instance : BEq Vec3 := ⟨fun a b => a.x == b.x && a.y == b.y && a.z == b.z⟩

def dot (a b : Vec3) : Float := dotProduct a.coords b.coords

/-- Distance from the origin. -/
def length (v : Vec3) : Float := (v.dot v).sqrt

def text (v : Vec3) : String := coordinateText v.coords

/-- Whether every coordinate is a real number. -/
def isFinite (v : Vec3) : Bool := v.x.isFinite && v.y.isFinite && v.z.isFinite

end Vec3

end MillScript
