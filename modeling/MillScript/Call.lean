import MillScript.Machining.Operations
import MillScript.Spacing

/-! # Calls

    What each function does with its arguments.  By now the arguments have
    the kinds that the parameters ask for; what is left to check is their
    size and which of the optional ones go together.  Nothing in the language
    says in which order the arguments of a call are made lengths; here it is
    from the left, so the first one out of range is the one reported.  The
    two sides of a power are lowered from the left in the same way. -/

namespace MillScript.Call

/-- Changes the machine, as far as the change can be made. -/
def adjust (change : Machine → Except Fault Machine) : Machining Unit := fun job =>
  match change job.machine with
  | .ok machine => .ok () { job with machine }
  | .error f => .error f job

/-- Sets the diameter of the cutter. -/
def setCutter (args : Arguments) : Machining Unit := do
  let d ← Machining.ofExcept (args.length "diameter")
  if 0 < d then adjust fun m => .ok { m with cutterDiameter := d }
  else Machining.fail (.cutterDiameter (args.quantity "diameter"))

/-- The material that a definition describes. -/
def describeMaterial (args : Arguments) : Except Fault Material := do
  let stepdown ← args.length "stepdown"
  let m : Material :=
    { name := args.text "name"
      stepover := args.number "stepover"
      stepdown
      feedRate := args.number "feed_rate"
      plungeRate := args.number "plunge_rate"
      rpm := args.number "rpm" }
  if !(0 < m.stepover && m.stepover ≤ 1) then .error RuntimeFault.stepoverFraction
  else if !(0 < m.stepdown) then .error RuntimeFault.stepdown
  else if !(0 < m.feedRate && 0 < m.plungeRate) then .error RuntimeFault.rates
  else if m.rpm < 0 then .error RuntimeFault.negativeSpeed
  else .ok m

/-- Sets the spindle speed. -/
def setSpeed (args : Arguments) : Machining Unit :=
  let rpm := args.number "rpm"
  if rpm < 0 then Machining.fail .negativeSpeed
  else adjust fun m => .ok { m with rpm }

/-- Sets the scale of the drawing. -/
def setScale (args : Arguments) : Machining Unit :=
  let x := args.number "x"
  let y := args.number "y"
  if 0 < x && 0 < y then adjust fun m => .ok { m with scale := ⟨x, y⟩ }
  else Machining.fail .scaleFactors

/-- Drills, in pecks of the configured depth unless the call says otherwise. -/
def drill (args : Arguments) : Machining Unit := do
  let config := (← get).machine.config
  let peck ←
    if args.has "peck" then Machining.ofExcept (args.length "peck")
    else pure config.peckDepth
  let x ← Machining.ofExcept (args.length "x")
  let y ← Machining.ofExcept (args.length "y")
  let depth ← Machining.ofExcept (args.length "depth")
  Machining.drill x y depth peck

/-- Clears a round pocket given by its radius or its diameter. -/
def circlePocket (args : Arguments) : Machining Unit := do
  if args.has "radius" = args.has "diameter" then
    Machining.ofExcept (.error BindingFault.pocketSize)
  let radius ←
    if args.has "radius" then Machining.ofExcept (args.length "radius")
    else (· / 2) <$> Machining.ofExcept (args.length "diameter")
  let x ← Machining.ofExcept (args.length "x")
  let y ← Machining.ofExcept (args.length "y")
  let depth ← Machining.ofExcept (args.length "depth")
  Machining.circlePocket x y radius depth

/-- The end of a groove: a point, or a way along the second axis. -/
def grooveEnd (args : Arguments) (start : Vec2) : Except Fault Vec2 := do
  let hasEnd := args.has "x2" || args.has "y2"
  if hasEnd = args.has "up" then .error BindingFault.grooveEnd
  else if hasEnd then
    if args.has "x2" && args.has "y2" then
      let x ← args.length "x2"
      let y ← args.length "y2"
      return ⟨x, y⟩
    else .error BindingFault.grooveEndHalf
  else
    let up ← args.length "up"
    return ⟨start.x, start.y + up⟩

/-- Cuts a groove, along an arc if it has a centre. -/
def groove (args : Arguments) : Machining Unit := do
  let x ← Machining.ofExcept (args.length "x1")
  let y ← Machining.ofExcept (args.length "y1")
  let start : Vec2 := ⟨x, y⟩
  let stop ← Machining.ofExcept (grooveEnd args start)
  if args.has "cx" != args.has "cy" then
    Machining.ofExcept (.error BindingFault.grooveCentreHalf)
  if args.has "cx" then
    let cx ← Machining.ofExcept (args.length "cx")
    let cy ← Machining.ofExcept (args.length "cy")
    let depth ← Machining.ofExcept (args.length "depth")
    Machining.arcGroove start stop ⟨cx, cy⟩ depth
  else
    let depth ← Machining.ofExcept (args.length "depth")
    Machining.groove start stop depth

/-- Clears a rectangular pocket. -/
def groovePocket (args : Arguments) : Machining Unit := do
  let x ← Machining.ofExcept (args.length "x")
  let y ← Machining.ofExcept (args.length "y")
  let width ← Machining.ofExcept (args.length "width")
  let height ← Machining.ofExcept (args.length "height")
  let depth ← Machining.ofExcept (args.length "depth")
  Machining.groovePocket x y width height depth

/-- A sequence of evenly spaced numbers. -/
def linspace (args : Arguments) : Machining Value := do
  let limit := (← get).machine.config.maxSequence
  let items ← Machining.ofExcept (Spacing.items (args.quantity "start") (args.quantity "stop")
    (args.quantity "count") limit)
  return .sequence (items.map .number)

/-- Carries out a call.  Only one function has a value. -/
def apply (args : Arguments) : Builtin → Machining Value
  | .cutterDiameter => do setCutter args; return .none
  | .material => do adjust (·.selectMaterial (args.text "name")); return .none
  | .defineMaterial => do
    let material ← Machining.ofExcept (describeMaterial args)
    adjust fun m => .ok (m.defineMaterial material)
    return .none
  | .rpm => do setSpeed args; return .none
  | .scale => do setScale args; return .none
  | .comment => do Machining.comment (args.text "text"); return .none
  | .dwell => do Machining.dwell (args.number "seconds"); return .none
  | .drill => do drill args; return .none
  | .circlePocket => do circlePocket args; return .none
  | .groove => do groove args; return .none
  | .groovePocket => do groovePocket args; return .none
  | .linspace => linspace args

end MillScript.Call
