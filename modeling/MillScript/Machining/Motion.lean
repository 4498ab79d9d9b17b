import MillScript.Machine
import MillScript.Toolpath

/-! # Moving the tool

    Operations append to a toolpath and keep the machine's state in step
    with it.  They work on points of the drawing; the scale is applied
    where a point becomes a move.  An operation that fails leaves the moves
    it has made so far. -/

namespace MillScript

/-- A machine at work on a toolpath. -/
structure Job where
  machine : Machine
  path : Toolpath := {}

/-- Work that may fail half way. -/
abbrev Machining := EStateM Fault Job

namespace Machining

/-- Goes on with a result, or fails as it did. -/
def ofExcept {α : Type} (r : Except Fault α) : Machining α := fun job =>
  match r with
  | .ok a => .ok a job
  | .error f => .error f job

/-- Gives up and leaves the job as it is. -/
def fail {α : Type} (f : RuntimeFault) : Machining α := fun job => .error f job

/-- Records a step. -/
def record (a : Action) : Machining Unit := fun job =>
  .ok () { job with path := job.path.push a }

/-- Sends the tool straight to a point of the machine.  A move to where the
    tool is known to be is not recorded. -/
def travel (kind : Move) (target : Vec3) (feed : Float) : Machining Unit := fun job =>
  if !target.isFinite then .error RuntimeFault.positionOutOfRange job
  else if job.machine.positionKnown && target == job.machine.position then .ok () job
  else
    .ok ()
      { machine := { job.machine with position := target, positionKnown := true }
        path := job.path.push (.move kind target feed) }

/-- Travels to a point of the drawing at a height. -/
def rapid (x y z : Float) : Machining Unit := do
  travel .rapid ((← get).machine.place x y z) 0

/-- Travels straight up or down. -/
def rapidZ (z : Float) : Machining Unit := do
  travel .rapid { (← get).machine.position with z } 0

/-- Cuts straight down. -/
def plunge (z : Float) : Machining Unit := do
  let m := (← get).machine
  travel .linear { m.position with z } m.material.plungeRate

/-- Cuts sideways to a point of the drawing. -/
def cut (x y : Float) : Machining Unit := do
  let m := (← get).machine
  travel .linear (m.place x y m.position.z) m.material.feedRate

/-- Cuts counterclockwise about a centre.  Scales that differ would make the
    circle an ellipse. -/
def arc (x y cx cy : Float) : Machining Unit := fun job =>
  let m := job.machine
  let target := m.place x y m.position.z
  let center : Vec2 := ⟨cx * m.scale.x, cy * m.scale.y⟩
  if m.scale.x != m.scale.y then .error RuntimeFault.unevenScale job
  else if !target.isFinite || !(Vec3.mk center.x center.y 0).isFinite then
    .error RuntimeFault.positionOutOfRange job
  else
    .ok ()
      { machine := { m with position := target }
        path := job.path.push (.move (.arc center) target m.material.feedRate) }

/-- Records tool and spindle speed where they differ from those last
    recorded. -/
def announce : Machining Unit := do
  let m := (← get).machine
  if m.toolText != m.announcedTool then
    record (.toolChange m.toolText)
    modify fun job => { job with machine.announcedTool := m.toolText }
  if m.rpm != m.announcedRpm then
    record (.spindle m.rpm)
    modify fun job => { job with machine.announcedRpm := m.rpm }

/-- Travels at safe height to a point of the drawing, then down to just
    above the work. -/
def approach (x y : Float) : Machining Unit := do
  rapid x y (← get).machine.config.safeHeight
  announce
  rapidZ (← get).machine.config.clearance

/-- Travels up to safe height. -/
def retract : Machining Unit := do
  rapidZ (← get).machine.config.safeHeight

end Machining

end MillScript
