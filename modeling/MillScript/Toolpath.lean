import MillScript.Vec

/-! # Toolpaths

    What a script makes the machine do, step by step.  Each step keeps the
    line of the script it comes from.  The steps are held with the latest
    first; `segments` is the order in which they are carried out. -/

namespace MillScript

/-- How the tool moves. -/
inductive Move where
  /-- As fast as the machine can. -/
  | rapid
  /-- Straight, at a feed rate. -/
  | linear
  /-- Counterclockwise about a centre, at a feed rate. -/
  | arc (center : Vec2)
deriving DecidableEq

/-- One step of a toolpath.  Coordinates are absolute, in millimetres. -/
inductive Action where
  | move (kind : Move) (target : Vec3) (feed : Float)
  | dwell (seconds : Float)
  | spindle (rpm : Float)
  | comment (text : String)
  | toolChange (text : String)
deriving DecidableEq

/-- A step and the line of the script that asked for it. -/
structure Segment where
  action : Action
  line : Int
deriving DecidableEq

/-- A move as numbers: target, feed, kind and line. -/
structure Row where
  target : Vec3
  feed : Float
  kind : Float
  line : Float
deriving DecidableEq

namespace Row

/-- The numbers of a row in their order: the target first, the line last. -/
def values (r : Row) : List Float :=
  [r.target.x, r.target.y, r.target.z, r.feed, r.kind, r.line]

end Row

namespace Move

/-- The number of a kind of move in rows. -/
def rowKind : Move → Float
  | .rapid => 0
  | .linear => 1
  | .arc _ => 2

end Move

namespace Segment

/-- The row of a move; other steps have none. -/
def row? (s : Segment) : Option Row :=
  match s.action with
  | .move kind target feed => some ⟨target, feed, kind.rowKind, Float.ofInt s.line⟩
  | _ => none

end Segment

/-- The steps so far, the latest first, and the line of the script that the
    next ones come from. -/
structure Toolpath where
  recorded : List Segment := []
  line : Int := 0

namespace Toolpath

/-- The steps in the order in which they are carried out. -/
def segments (p : Toolpath) : List Segment := p.recorded.reverse

/-- How many steps there are. -/
def size (p : Toolpath) : Nat := p.recorded.length

/-- One more step. -/
def push (p : Toolpath) (a : Action) : Toolpath :=
  { p with recorded := ⟨a, p.line⟩ :: p.recorded }

/-- Drops the steps past the first `n`. -/
def truncate (p : Toolpath) (n : Nat) : Toolpath :=
  { p with recorded := p.recorded.drop (p.size - n) }

/-- The moves as rows, in order. -/
def rows (p : Toolpath) : List Row := p.segments.filterMap Segment.row?

@[simp] theorem segments_push (p : Toolpath) (a : Action) :
    (p.push a).segments = p.segments ++ [⟨a, p.line⟩] := by
  simp [push, segments]

end Toolpath

end MillScript
