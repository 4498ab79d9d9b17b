import MillScript.Machining.Motion
import MillScript.Machining.Steps

/-! # Machining operations

    Every operation checks its arguments and counts its passes before the
    tool moves, starts with an approach and ends with a retraction. -/

namespace MillScript.Machining

/-- Carries out the passes `1` to `n`. -/
def eachPass (n : Nat) (pass : Nat → Machining Unit) : Machining Unit :=
  (List.range' 1 n).forM pass

/-- The height that is just clear of the work at a depth. -/
def clearOf (z : Float) : Machining Float := do
  return z + (← get).machine.config.clearance

/-- Drills a hole in pecks, with the chip broken after each. -/
def drill (x y depth peck : Float) : Machining Unit := do
  ofExcept (requirePositive "drill depth" depth)
  ofExcept (requirePositive "peck depth" peck)
  let pecks ← ofExcept (depthPasses depth peck)
  approach x y
  eachPass pecks fun k => do
    let z := -passDepth depth k pecks
    plunge z
    if k < pecks then rapidZ (← clearOf z)
  retract

/-- A ring about a centre: out to its radius, then two half circles. -/
def ring (cx cy r : Float) : Machining Unit := do
  cut (cx + r) cy
  arc (cx - r) cy cx cy
  arc (cx + r) cy cx cy

/-- Clears a round pocket with rings from the middle outwards. -/
def circlePocket (cx cy radius depth : Float) : Machining Unit := do
  ofExcept (requirePositive "pocket depth" depth)
  let m := (← get).machine
  let d := m.cutterDiameter
  if 2 * radius ≤ d then fail (.roundPocketTooSmall (2 * radius) d)
  let pathRadius := radius - d / 2
  let rings ← ofExcept (stepCount "stepover" pathRadius m.stepover)
  let passes ← ofExcept (depthPasses depth m.material.stepdown)
  approach cx cy
  eachPass passes fun k => do
    let z := -passDepth depth k passes
    plunge z
    eachPass rings fun i => ring cx cy (pathRadius * Float.ofNat i / Float.ofNat rings)
    if k < passes then
      rapidZ (← clearOf z)
      rapid cx cy (← clearOf z)
  retract

/-- Cuts a straight groove, forth in odd passes and back in even ones. -/
def groove (start stop : Vec2) (depth : Float) : Machining Unit := do
  ofExcept (requirePositive "groove depth" depth)
  let passes ← ofExcept (depthPasses depth (← get).machine.material.stepdown)
  approach start.x start.y
  eachPass passes fun k => do
    plunge (-passDepth depth k passes)
    let goal := if k % 2 = 1 then stop else start
    cut goal.x goal.y
  retract

/-- How far the ends of an arc may differ in their distance from its
    centre, in millimetres. -/
def arcTolerance : Float := 1e-3

/-- Cuts a groove along an arc; every pass starts at the same end. -/
def arcGroove (start stop center : Vec2) (depth : Float) : Machining Unit := do
  ofExcept (requirePositive "groove depth" depth)
  let r0 := (start - center).length
  let r1 := (stop - center).length
  if r0 < arcTolerance then fail .arcFromCentre
  if arcTolerance < (r0 - r1).abs then fail (.arcRadii r0 r1)
  let m := (← get).machine
  let passes ← ofExcept (depthPasses depth m.material.stepdown)
  approach start.x start.y
  eachPass passes fun k => do
    plunge (-passDepth depth k passes)
    arc stop.x stop.y center.x center.y
    if k < passes then
      rapidZ m.config.clearance
      rapid start.x start.y m.config.clearance
  retract

/-- The loops that clear a rectangle: the smaller half of its sides is
    covered from the middle in equal steps. -/
structure Loops where
  x : Float
  y : Float
  width : Float
  height : Float
  half : Float
  count : Nat

namespace Loops

/-- How far loop `k` lies inside the outermost one. -/
def inset (l : Loops) (k : Nat) : Float :=
  if l.count = 0 then 0 else l.half * Float.ofNat k / Float.ofNat l.count

/-- Where loop `k` starts and ends. -/
def corner (l : Loops) (k : Nat) : Vec2 := ⟨l.x + l.inset k, l.y + l.inset k⟩

/-- The corners of loop `k`, the first one again at the end. -/
def corners (l : Loops) (k : Nat) : List Vec2 :=
  let o := l.inset k
  [l.corner k, ⟨l.x + l.width - o, l.y + o⟩, ⟨l.x + l.width - o, l.y + l.height - o⟩,
    ⟨l.x + o, l.y + l.height - o⟩, l.corner k]

/-- Where the innermost loop starts. -/
def start (l : Loops) : Vec2 := l.corner l.count

/-- All corners from the innermost loop outwards. -/
def path (l : Loops) : List Vec2 := (List.range (l.count + 1)).reverse.flatMap l.corners

end Loops

/-- Clears a rectangular pocket with loops from the middle outwards. -/
def groovePocket (x y width height depth : Float) : Machining Unit := do
  ofExcept (requirePositive "pocket depth" depth)
  let m := (← get).machine
  let d := m.cutterDiameter
  if width < d || height < d then fail (.pocketTooSmall width height d)
  let w := width - d
  let h := height - d
  let half := (if h < w then h else w) / 2
  let count ← if 0 < half then ofExcept (stepCount "stepover" half m.stepover) else pure 0
  let loops : Loops := ⟨x + d / 2, y + d / 2, w, h, half, count⟩
  let passes ← ofExcept (depthPasses depth m.material.stepdown)
  approach loops.start.x loops.start.y
  eachPass passes fun k => do
    let z := -passDepth depth k passes
    plunge z
    (loops.path.drop 1).forM fun p => cut p.x p.y
    if k < passes then
      rapidZ (← clearOf z)
      rapid loops.start.x loops.start.y (← clearOf z)
  retract

/-- Writes a comment on the toolpath. -/
def comment (text : String) : Machining Unit := record (.comment text)

/-- Lets the machine wait. -/
def dwell (seconds : Float) : Machining Unit := do
  if seconds < 0 then fail .negativeDwell
  record (.dwell seconds)

end MillScript.Machining
