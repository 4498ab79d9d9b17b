import MillScript.Machining.Operations
import MillScript.Proofs.Outcome

/-! # Operations as plans

    Every operation accepts or refuses its arguments before the tool moves.
    What it then does has one shape: an approach, a number of passes, a
    retraction.  Here each operation is shown to be such a plan, made on the
    machine as it stands and carried out. -/

namespace MillScript.Machining

/-- How an operation goes once its arguments are accepted. -/
structure Plan where
  /-- The point of the drawing above which it starts. -/
  start : Vec2
  passes : Nat
  /-- What is done in each pass, counted from one. -/
  pass : Nat → Machining Unit

namespace Plan

/-- Goes to the start, makes the passes and comes up again. -/
def carryOut (p : Plan) : Machining Unit := do
  approach p.start.x p.start.y
  eachPass p.passes p.pass
  retract

end Plan

/-- Plans on the machine as it stands, then carries the plan out. -/
def planned (plan : Machine → Except Fault Plan) : Machining Unit := fun job =>
  match plan job.machine with
  | .ok p => p.carryOut job
  | .error f => .error f job

/-! ## The plans -/

/-- A peck down to a depth, and up to clear the chip unless it is the last. -/
def peckPass (depth : Float) (pecks k : Nat) : Machining Unit := do
  let z := -passDepth depth k pecks
  plunge z
  if k < pecks then rapidZ (← clearOf z)

/-- A hole in equal pecks. -/
def drillPlan (x y depth peck : Float) (_ : Machine) : Except Fault Plan := do
  requirePositive "drill depth" depth
  requirePositive "peck depth" peck
  let pecks ← depthPasses depth peck
  return ⟨⟨x, y⟩, pecks, peckPass depth pecks⟩

/-- One depth of a pocket: down, what is cut there, and back to the start
    just clear of the work unless it is the last. -/
def clearingPass (start : Vec2) (depth : Float) (cuts : Machining Unit) (passes k : Nat) :
    Machining Unit := do
  let z := -passDepth depth k passes
  plunge z
  cuts
  if k < passes then
    rapidZ (← clearOf z)
    rapid start.x start.y (← clearOf z)

/-- The rings of a round pocket. -/
def rings (cx cy pathRadius : Float) (n : Nat) : Machining Unit :=
  eachPass n fun i => ring cx cy (pathRadius * Float.ofNat i / Float.ofNat n)

/-- A round pocket: all rings in every pass. -/
def circlePlan (cx cy radius depth : Float) (m : Machine) : Except Fault Plan := do
  requirePositive "pocket depth" depth
  let d := m.cutterDiameter
  if 2 * radius ≤ d then .error (RuntimeFault.roundPocketTooSmall (2 * radius) d)
  let pathRadius := radius - d / 2
  let n ← stepCount "stepover" pathRadius m.stepover
  let passes ← depthPasses depth m.material.stepdown
  return ⟨⟨cx, cy⟩, passes, clearingPass ⟨cx, cy⟩ depth (rings cx cy pathRadius n) passes⟩

/-- One depth of a straight groove. -/
def groovePass (start stop : Vec2) (depth : Float) (passes k : Nat) : Machining Unit := do
  plunge (-passDepth depth k passes)
  let goal := if k % 2 = 1 then stop else start
  cut goal.x goal.y

/-- A straight groove, forth and back. -/
def groovePlan (start stop : Vec2) (depth : Float) (m : Machine) : Except Fault Plan := do
  requirePositive "groove depth" depth
  let passes ← depthPasses depth m.material.stepdown
  return ⟨start, passes, groovePass start stop depth passes⟩

/-- One depth of a groove along an arc, and back to its start at clearance
    unless it is the last. -/
def arcPass (start stop center : Vec2) (depth clearance : Float) (passes k : Nat) :
    Machining Unit := do
  plunge (-passDepth depth k passes)
  arc stop.x stop.y center.x center.y
  if k < passes then
    rapidZ clearance
    rapid start.x start.y clearance

/-- A groove along an arc, always from the same end. -/
def arcPlan (start stop center : Vec2) (depth : Float) (m : Machine) : Except Fault Plan := do
  requirePositive "groove depth" depth
  let r0 := (start - center).length
  let r1 := (stop - center).length
  if r0 < arcTolerance then .error RuntimeFault.arcFromCentre
  if arcTolerance < (r0 - r1).abs then .error (RuntimeFault.arcRadii r0 r1)
  let passes ← depthPasses depth m.material.stepdown
  return ⟨start, passes, arcPass start stop center depth m.config.clearance passes⟩

/-- The number of loops within the outermost one of a rectangle. -/
def loopCount (half : Float) (m : Machine) : Except Fault Nat :=
  if 0 < half then stepCount "stepover" half m.stepover else .ok 0

/-- The loops of a rectangular pocket. -/
def pocketLoops (x y width height : Float) (m : Machine) : Except Fault Loops := do
  let d := m.cutterDiameter
  let w := width - d
  let h := height - d
  let half := (if h < w then h else w) / 2
  let count ← loopCount half m
  return ⟨x + d / 2, y + d / 2, w, h, half, count⟩

/-- The cuts along all loops after the first corner. -/
def loopCuts (loops : Loops) : Machining Unit :=
  (loops.path.drop 1).forM fun p => cut p.x p.y

/-- A rectangular pocket: all loops in every pass. -/
def pocketPlan (x y width height depth : Float) (m : Machine) : Except Fault Plan := do
  requirePositive "pocket depth" depth
  let d := m.cutterDiameter
  if width < d || height < d then .error (RuntimeFault.pocketTooSmall width height d)
  let w := width - d
  let h := height - d
  let half := (if h < w then h else w) / 2
  let count ← loopCount half m
  let loops : Loops := ⟨x + d / 2, y + d / 2, w, h, half, count⟩
  let passes ← depthPasses depth m.material.stepdown
  return ⟨loops.start, passes, clearingPass loops.start depth (loopCuts loops) passes⟩

/-- The plans that operations make on a machine. -/
inductive Plan.Of (m : Machine) : Plan → Prop
  | drill {p : Plan} (x y depth peck : Float) (h : drillPlan x y depth peck m = .ok p) :
      Plan.Of m p
  | circlePocket {p : Plan} (cx cy radius depth : Float)
      (h : circlePlan cx cy radius depth m = .ok p) : Plan.Of m p
  | groove {p : Plan} (start stop : Vec2) (depth : Float)
      (h : groovePlan start stop depth m = .ok p) : Plan.Of m p
  | arcGroove {p : Plan} (start stop center : Vec2) (depth : Float)
      (h : arcPlan start stop center depth m = .ok p) : Plan.Of m p
  | groovePocket {p : Plan} (x y width height depth : Float)
      (h : pocketPlan x y width height depth m = .ok p) : Plan.Of m p

/-! ## Each operation is its plan -/

/-- To drill is to carry out a plan, and so it is with the other operations. -/
theorem drill_eq (x y depth peck : Float) :
    drill x y depth peck = planned (drillPlan x y depth peck) := by
  funext job
  rw [drill, planned, drillPlan]
  cases requirePositive "drill depth" depth with
  | error f => rfl
  | ok _ =>
      cases requirePositive "peck depth" peck with
      | error f => rfl
      | ok _ =>
          cases depthPasses depth peck with
          | error f => rfl
          | ok pecks => rfl

theorem circlePocket_eq (cx cy radius depth : Float) :
    circlePocket cx cy radius depth = planned (circlePlan cx cy radius depth) := by
  funext job
  rw [circlePocket, planned, circlePlan]
  cases requirePositive "pocket depth" depth with
  | error f => rfl
  | ok _ =>
      by_cases hsize : 2 * radius ≤ job.machine.cutterDiameter
      · show (ite _ _ _ : Machining Unit) job = _
        simp only [if_pos hsize]
        rfl
      · show (ite _ _ _ : Machining Unit) job = _
        simp only [if_neg hsize]
        cases stepCount "stepover" (radius - job.machine.cutterDiameter / 2)
          job.machine.stepover with
        | error f => rfl
        | ok n =>
            cases depthPasses depth job.machine.material.stepdown with
            | error f => rfl
            | ok passes => rfl

theorem groove_eq (start stop : Vec2) (depth : Float) :
    groove start stop depth = planned (groovePlan start stop depth) := by
  funext job
  rw [groove, planned, groovePlan]
  cases requirePositive "groove depth" depth with
  | error f => rfl
  | ok _ =>
      show (ofExcept (depthPasses depth job.machine.material.stepdown) >>= _) job = _
      cases depthPasses depth job.machine.material.stepdown with
      | error f => rfl
      | ok passes => rfl

theorem arcGroove_eq (start stop center : Vec2) (depth : Float) :
    arcGroove start stop center depth = planned (arcPlan start stop center depth) := by
  funext job
  rw [arcGroove, planned, arcPlan]
  cases requirePositive "groove depth" depth with
  | error f => rfl
  | ok _ =>
      show (ite _ _ _ : Machining Unit) job = _
      by_cases hstart : (start - center).length < arcTolerance
      · simp only [if_pos hstart]
        rfl
      · simp only [if_neg hstart]
        by_cases hstop :
            arcTolerance < ((start - center).length - (stop - center).length).abs
        · simp only [if_pos hstop]
          rfl
        · simp only [if_neg hstop]
          show (ofExcept (depthPasses depth job.machine.material.stepdown) >>= _) job = _
          cases depthPasses depth job.machine.material.stepdown with
          | error f => rfl
          | ok passes => rfl

theorem groovePocket_eq (x y width height depth : Float) :
    groovePocket x y width height depth = planned (pocketPlan x y width height depth) := by
  funext job
  rw [groovePocket, planned, pocketPlan]
  cases requirePositive "pocket depth" depth with
  | error f => rfl
  | ok _ =>
      show (ite _ _ _ : Machining Unit) job = _
      by_cases hsize : (decide (width < job.machine.cutterDiameter)
          || decide (height < job.machine.cutterDiameter)) = true
      · simp only [if_pos hsize]
        rfl
      · simp only [if_neg hsize]
        -- the count of loops is taken only where there is room for one
        show (ite _ _ _ : Machining Unit) job = _
        simp only [loopCount]
        generalize (if height - job.machine.cutterDiameter < width - job.machine.cutterDiameter
          then height - job.machine.cutterDiameter
          else width - job.machine.cutterDiameter) / 2 = half
        by_cases hhalf : 0 < half
        · simp only [if_pos hhalf]
          cases stepCount "stepover" half job.machine.stepover with
          | error f => rfl
          | ok count =>
              show (ofExcept (depthPasses depth job.machine.material.stepdown) >>= _) job = _
              cases depthPasses depth job.machine.material.stepdown with
              | error f => rfl
              | ok passes => rfl
        · simp only [if_neg hhalf]
          show (ofExcept (depthPasses depth job.machine.material.stepdown) >>= _) job = _
          cases depthPasses depth job.machine.material.stepdown with
          | error f => rfl
          | ok passes => rfl

/-! ## What a plan that was made looks like -/

/-- What is planned and gets through was accepted and carried out. -/
theorem planned_eq_ok {plan : Machine → Except Fault Plan} {job job' : Job} {u : Unit}
    (h : planned plan job = .ok u job') :
    ∃ p, plan job.machine = .ok p ∧ p.carryOut job = .ok u job' := by
  rw [planned] at h
  split at h
  · exact ⟨_, by assumption, h⟩
  · cases h

section Made

variable {m : Machine} {p : Plan}

/-- A size that passes is positive. -/
theorem requirePositive_eq_ok {what : String} {x : Float} {u : Unit}
    (h : requirePositive what x = .ok u) : 0 < x := by
  rw [requirePositive] at h
  split at h
  · assumption
  · cases h

/-- Steps that are counted are the fewest that are small enough, at least one,
    and not too many. -/
theorem stepCount_eq_ok {what : String} {distance step : Float} {n : Nat}
    (h : stepCount what distance step = .ok n) :
    0 < step ∧ distance / step - stepTolerance ≤ Float.ofNat maxSteps
      ∧ n = max 1 (Decimal.ceil (distance / step - stepTolerance)) := by
  rw [stepCount, bind_eq_ok] at h
  obtain ⟨_, hstep, h⟩ := h
  dsimp only at h
  split at h
  · rename_i hle
    refine ⟨requirePositive_eq_ok hstep, hle, ?_⟩
    have hn := Except.ok.inj h
    split at hn <;> omega
  · cases h

/-- A plan for a hole has passed the checks of its depth and its peck. -/
theorem drillPlan_eq_ok {x y depth peck : Float} (h : drillPlan x y depth peck m = .ok p) :
    0 < depth ∧ 0 < peck ∧ ∃ pecks, depthPasses depth peck = .ok pecks
      ∧ p = ⟨⟨x, y⟩, pecks, peckPass depth pecks⟩ := by
  rw [drillPlan, bind_eq_ok] at h
  obtain ⟨_, hdepth, h⟩ := h
  rw [bind_eq_ok] at h
  obtain ⟨_, hpeck, h⟩ := h
  rw [bind_eq_ok] at h
  obtain ⟨pecks, hpecks, h⟩ := h
  exact ⟨requirePositive_eq_ok hdepth, requirePositive_eq_ok hpeck, pecks, hpecks,
    (Except.ok.inj h).symm⟩

/-- A plan for a round pocket has passed its checks: it is wider than the
    cutter. -/
theorem circlePlan_eq_ok {cx cy radius depth : Float}
    (h : circlePlan cx cy radius depth m = .ok p) :
    0 < depth ∧ ¬ 2 * radius ≤ m.cutterDiameter
      ∧ ∃ n, stepCount "stepover" (radius - m.cutterDiameter / 2) m.stepover = .ok n
      ∧ ∃ passes, depthPasses depth m.material.stepdown = .ok passes
      ∧ p = ⟨⟨cx, cy⟩, passes, clearingPass ⟨cx, cy⟩ depth
          (rings cx cy (radius - m.cutterDiameter / 2) n) passes⟩ := by
  rw [circlePlan, bind_eq_ok] at h
  obtain ⟨_, hdepth, h⟩ := h
  dsimp only at h
  split at h
  · cases h
  · rename_i hsize
    rw [bind_eq_ok] at h
    obtain ⟨n, hn, h⟩ := h
    rw [bind_eq_ok] at h
    obtain ⟨passes, hpasses, h⟩ := h
    exact ⟨requirePositive_eq_ok hdepth, hsize, n, hn, passes, hpasses, (Except.ok.inj h).symm⟩

/-- A plan for a groove has passed the check of its depth. -/
theorem groovePlan_eq_ok {start stop : Vec2} {depth : Float}
    (h : groovePlan start stop depth m = .ok p) :
    0 < depth ∧ ∃ passes, depthPasses depth m.material.stepdown = .ok passes
      ∧ p = ⟨start, passes, groovePass start stop depth passes⟩ := by
  rw [groovePlan, bind_eq_ok] at h
  obtain ⟨_, hdepth, h⟩ := h
  rw [bind_eq_ok] at h
  obtain ⟨passes, hpasses, h⟩ := h
  exact ⟨requirePositive_eq_ok hdepth, passes, hpasses, (Except.ok.inj h).symm⟩

/-- A plan for an arc has passed its checks: its ends lie about on one
    circle. -/
theorem arcPlan_eq_ok {start stop center : Vec2} {depth : Float}
    (h : arcPlan start stop center depth m = .ok p) :
    0 < depth ∧ ¬ (start - center).length < arcTolerance
      ∧ ¬ arcTolerance < ((start - center).length - (stop - center).length).abs
      ∧ ∃ passes, depthPasses depth m.material.stepdown = .ok passes
      ∧ p = ⟨start, passes, arcPass start stop center depth m.config.clearance passes⟩ := by
  rw [arcPlan, bind_eq_ok] at h
  obtain ⟨_, hdepth, h⟩ := h
  dsimp only at h
  split at h
  · cases h
  · rename_i hstart
    split at h
    · cases h
    · rename_i hstop
      rw [bind_eq_ok] at h
      obtain ⟨passes, hpasses, h⟩ := h
      exact ⟨requirePositive_eq_ok hdepth, hstart, hstop, passes, hpasses,
        (Except.ok.inj h).symm⟩

/-- A plan for a rectangular pocket has passed its checks, and its loops could
    be counted. -/
theorem pocketPlan_eq_ok {x y width height depth : Float}
    (h : pocketPlan x y width height depth m = .ok p) :
    0 < depth ∧ ∃ loops, pocketLoops x y width height m = .ok loops
      ∧ ∃ passes, depthPasses depth m.material.stepdown = .ok passes
      ∧ p = ⟨Loops.start loops, passes,
          clearingPass loops.start depth (loopCuts loops) passes⟩ := by
  rw [pocketPlan, bind_eq_ok] at h
  obtain ⟨_, hdepth, h⟩ := h
  dsimp only at h
  split at h
  · cases h
  · rw [bind_eq_ok] at h
    obtain ⟨count, hcount, h⟩ := h
    rw [bind_eq_ok] at h
    obtain ⟨passes, hpasses, h⟩ := h
    refine ⟨requirePositive_eq_ok hdepth, _, ?_, passes, hpasses, (Except.ok.inj h).symm⟩
    rw [pocketLoops, hcount]
    rfl

end Made

/-! ## A job to start from -/

/-- A machine as it comes, with nothing on its toolpath. -/
def fresh : Job := ⟨(Machine.ofConfig {}).toOption.get rfl, {}⟩

/-- Whether work got through. -/
def gotThrough {α : Type} : EStateM.Result Fault Job α → Bool
  | .ok _ _ => true
  | .error _ _ => false

/-- Work that got through has an end. -/
theorem eq_ok_of_gotThrough {α : Type} {r : EStateM.Result Fault Job α}
    (h : gotThrough r = true) : ∃ a job, r = .ok a job := by
  cases r with
  | ok a job => exact ⟨a, job, rfl⟩
  | error f job => cases h

end MillScript.Machining
