import MillScript.Gcode.Line
import MillScript.Toolpath

/-! # From toolpaths to G-code

    The controller remembers the kind of motion, the coordinates and the
    feed it was last given, so a word that would repeat them is left out,
    and a move that would not move the tool is left out whole.  `Modal` is
    what the controller remembers; coordinates are compared as written. -/

namespace MillScript.Gcode

/-- What the controller remembers, and the exact end of the last move. -/
structure Modal where
  mode : Nat
  x : Option String := none
  y : Option String := none
  z : Option String := none
  feed : Option String := none
  position : Option Vec3 := none

/-- A word, unless the controller has its value already. -/
def wordUnless (known : Option String) (letter : Char) (text : String) : List Word :=
  if known = some text then [] else [⟨letter, text⟩]

/-- The number of a kind of motion. -/
def motionCode : Move → Nat
  | .rapid => 0
  | .linear => 1
  | .arc _ => 3

namespace Modal

/-- The words of an arc that lead to its centre, from the exact end of the
    last move; straight moves have none. -/
def offsetWords (precision : Int) (m : Modal) (kind : Move) : Except Fault (List Word) :=
  match kind, m.position with
  | .arc center, some p => do
    let i ← number precision (center.x - p.x)
    let j ← number precision (center.y - p.y)
    return [⟨'I', i⟩, ⟨'J', j⟩]
  | .arc _, none => .error RuntimeFault.arcWithoutStart
  | _, _ => .ok []

/-- The words of a move that say where it ends.  An arc always names the
    point of the plane. -/
def targetWords (m : Modal) (kind : Move) (x y z : String) : List Word :=
  match kind with
  | .arc _ => [⟨'X', x⟩, ⟨'Y', y⟩] ++ wordUnless m.z 'Z' z
  | _ => wordUnless m.x 'X' x ++ wordUnless m.y 'Y' y ++ wordUnless m.z 'Z' z

/-- The lines of a move and what the controller knows after it. -/
def move (precision : Int) (m : Modal) (kind : Move) (target : Vec3) (feed : Float) :
    Except Fault (List Line × Modal) := do
  let offset ← m.offsetWords precision kind
  let x ← number precision target.x
  let y ← number precision target.y
  let z ← number precision target.z
  let words := m.targetWords kind x y z ++ offset
  let m' := { m with x := some x, y := some y, z := some z, position := some target }
  if words.isEmpty then return ([], m')
  let code := motionCode kind
  let codeWords := if code = m.mode then [] else [⟨'G', code.repr⟩]
  if code = 0 then return ([.code (codeWords ++ words)], { m' with mode := code })
  let f ← number precision feed
  return ([.code (codeWords ++ words ++ wordUnless m.feed 'F' f)],
    { m' with mode := code, feed := some f })

end Modal

/-- The line that stops the spindle. -/
def spindleOff : Line := .code [⟨'M', "05"⟩]

/-- The lines of a step and what the controller knows after it. -/
def step (precision : Int) (m : Modal) : Action → Except Fault (List Line × Modal)
  | .move kind target feed => m.move precision kind target feed
  | .dwell seconds => do
    let p ← number precision seconds
    return ([.code [⟨'G', "4"⟩, ⟨'P', p⟩]], m)
  | .spindle rpm =>
    if 0 < rpm then do
      let s ← number precision rpm
      return ([.code [⟨'M', "03"⟩, ⟨'S', s⟩]], m)
    else .ok ([spindleOff], m)
  | .comment text => .ok (commentLines text, m)
  | .toolChange text => .ok (commentLines ("tool: " ++ text), m)

/-- The lines of all steps, after the lines written so far, the latest
    first. -/
def steps (precision : Int) (m : Modal) (written : List Line) :
    List Segment → Except Fault (List Line)
  | [] => .ok written
  | s :: rest => do
    let (lines, m') ← step precision m s.action
    steps precision m' (lines.reverse ++ written) rest

/-- The first lines: absolute millimetres, the tool straight up to the safe
    height, the spindle off. -/
def opening (z : String) : List Line :=
  [.code [⟨'G', "90"⟩], .code [⟨'G', "21"⟩], .code [⟨'G', "0"⟩, ⟨'Z', z⟩], spindleOff]

/-- The last lines: the spindle off, the end of the program. -/
def closing : List Line := [spindleOff, .code [⟨'M', "02"⟩]]

/-- The program of a toolpath. -/
def lines (precision : Int) (safeHeight : Float) (segments : List Segment) :
    Except Fault (List Line) := do
  let z ← number precision safeHeight
  let written ← steps precision { mode := 0, z := some z } [] segments
  return opening z ++ written.reverse ++ closing

/-- The text of the program of a toolpath. -/
def emit (precision : Int) (safeHeight : Float) (path : Toolpath) : Except Fault String :=
  (lines precision safeHeight path.segments).map render

end MillScript.Gcode
