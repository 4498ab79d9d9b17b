import MillScript.Call
import MillScript.Proofs.Machining.Plan

/-! # What calls fail for

    Some faults lie in the program: a name that stands for nothing, a value of
    the wrong kind, parameters that do not go together.  Others lie in the
    values at hand: a number that does not serve, a material that is not
    there.  Whatever a call computes and however the tool is moved, it fails
    for the values; the few checks of parameters and kinds that calls make
    stand in front of the work and read nothing else. -/

namespace MillScript

namespace Fault

/-- Faults of names, kinds and parameters. -/
def isStatic : Fault → Bool
  | .naming _ | .typing _ | .binding _ => true
  | .grammar _ | .configuration _ | .execution _ => false

/-- Faults of the work itself. -/
def isExecution : Fault → Bool
  | .execution _ => true
  | .grammar _ | .naming _ | .typing _ | .binding _ | .configuration _ => false

/-- Faults of numbers and materials. -/
def isDynamic : Fault → Bool
  | .configuration _ | .execution _ => true
  | .grammar _ | .naming _ | .typing _ | .binding _ => false

/-- Faults of the tool on its way. -/
def OfMotion (f : Fault) : Prop :=
  f = RuntimeFault.positionOutOfRange ∨ f = RuntimeFault.unevenScale

end Fault

namespace Machining

/-- If work fails, it is for the values that it was given. -/
abbrev FailsOnValues {α : Type} (x : Machining α) : Prop :=
  FailsWith (fun f : Fault => f.isDynamic = true) x

/-- If work fails, it is in carrying it out. -/
abbrev FailsInExecution {α : Type} (x : Machining α) : Prop :=
  FailsWith (fun f : Fault => f.isExecution = true) x

/-- If work fails, it is for where the tool is sent. -/
abbrev FailsInMotion {α : Type} (x : Machining α) : Prop := FailsWith Fault.OfMotion x

/-- A fault of the tool on its way is one of carrying out the job. -/
theorem FailsInMotion.inExecution {α : Type} {x : Machining α} (h : FailsInMotion x) :
    FailsInExecution x := by
  intro job f t hf
  rcases h job f t hf with rfl | rfl
  · rfl
  · rfl

/-- A fault of carrying out the job hangs on values, not on the text of the
    script. -/
theorem FailsInExecution.onValues {α : Type} {x : Machining α} (h : FailsInExecution x) :
    FailsOnValues x := by
  intro job f t hf
  cases f with
  | execution r => rfl
  | grammar r => cases h job _ t hf
  | naming r => cases h job _ t hf
  | typing r => cases h job _ t hf
  | binding r => cases h job _ t hf
  | configuration r => rfl

/-- Work that only passes a result on fails for what the result fails for. -/
theorem failsWith_ofExcept {α : Type} {D : Fault → Prop} {r : Except Fault α}
    (h : ∀ f, r = .error f → D f) : FailsWith D (ofExcept r) := by
  intro job f t hr
  cases r with
  | ok a => cases hr
  | error f' =>
      injection hr with hf _
      rw [← hf]
      exact h f' rfl

/-- A result made from another one fails on values if both do. -/
theorem failsOnValues_ofExcept_bind {α β : Type} {r : Except Fault α} {next : α → Except Fault β}
    (hr : FailsOnValues (ofExcept r)) (hnext : ∀ a, FailsOnValues (ofExcept (next a))) :
    FailsOnValues (ofExcept (r >>= next)) := by
  cases r with
  | error f =>
      intro job f' t h
      injection h with hf _
      rw [← hf]
      exact hr job f job rfl
  | ok a => exact hnext a

/-- Every runtime fault is one of carrying out the job. -/
theorem failsInExecution_fail {α : Type} (f : RuntimeFault) :
    FailsInExecution (fail f : Machining α) := by
  intro job f' t h
  injection h with hf _
  rw [← hf]
  rfl

/-- What follows a failure does not matter. -/
theorem failsInExecution_fail_bind {α β : Type} (f : RuntimeFault) (next : α → Machining β) :
    FailsInExecution (fail f >>= next) := fun job => failsInExecution_fail f job

/-! ## Moving the tool -/

theorem failsWith_modify {D : Fault → Prop} (change : Job → Job) :
    FailsWith D (modify change : Machining Unit) := by
  intro job f t h
  cases h

theorem failsWith_record {D : Fault → Prop} (a : Action) : FailsWith D (record a) := by
  intro job f t h
  cases h

/-- A straight move fails only if its target is out of range. -/
theorem failsInMotion_travel (kind : Move) (target : Vec3) (feed : Float) :
    FailsInMotion (travel kind target feed) := by
  intro job f t h
  rw [travel] at h
  split at h
  · injection h with hf _
    exact .inl hf.symm
  · split at h
    · cases h
    · cases h

/-- An arc fails also where the scale would make an ellipse of it. -/
theorem failsInMotion_arc (x y cx cy : Float) : FailsInMotion (arc x y cx cy) := by
  intro job f t h
  rw [arc] at h
  dsimp only at h
  split at h
  · injection h with hf _
    exact .inr hf.symm
  · split at h
    · injection h with hf _
      exact .inl hf.symm
    · cases h

theorem failsInMotion_rapid (x y z : Float) : FailsInMotion (rapid x y z) :=
  failsWith_get.bind fun _ => failsInMotion_travel _ _ _

theorem failsInMotion_rapidZ (z : Float) : FailsInMotion (rapidZ z) :=
  failsWith_get.bind fun _ => failsInMotion_travel _ _ _

theorem failsInMotion_plunge (z : Float) : FailsInMotion (plunge z) :=
  failsWith_get.bind fun _ => failsInMotion_travel _ _ _

theorem failsInMotion_cut (x y : Float) : FailsInMotion (cut x y) :=
  failsWith_get.bind fun _ => failsInMotion_travel _ _ _

theorem failsInMotion_clearOf (z : Float) : FailsInMotion (clearOf z) :=
  failsWith_get.bind fun _ => failsWith_pure _

/-- An announcement never fails, so it fails for nothing else. -/
theorem failsInMotion_announce : FailsInMotion announce := by
  refine failsWith_get.bind fun job => ?_
  have hspeed : FailsInMotion (if job.machine.rpm != job.machine.announcedRpm then do
      record (.spindle job.machine.rpm)
      modify fun j : Job => { j with machine.announcedRpm := job.machine.rpm }
      else pure () : Machining Unit) :=
    .ite ((failsWith_record _).bind fun _ => failsWith_modify _) (failsWith_pure ())
  refine .ite ?_ hspeed
  exact (failsWith_record _).bind fun _ => (failsWith_modify _).bind fun _ => hspeed

/-- On the way to the work only moves can fail. -/
theorem failsInMotion_approach (x y : Float) : FailsInMotion (approach x y) :=
  failsWith_get.bind fun _ => (failsInMotion_rapid _ _ _).bind fun _ =>
    failsInMotion_announce.bind fun _ => failsWith_get.bind fun _ => failsInMotion_rapidZ _

theorem failsInMotion_retract : FailsInMotion retract :=
  failsWith_get.bind fun _ => failsInMotion_rapidZ _

/-! ## Plans -/

/-- The passes of the operations are made of moves alone, and fail as moves do;
    here those of a drilled hole. -/
theorem failsInMotion_peckPass (depth : Float) (pecks k : Nat) :
    FailsInMotion (peckPass depth pecks k) := by
  refine (failsInMotion_plunge _).bind fun _ => .ite ?_ (failsWith_pure ())
  exact (failsInMotion_clearOf _).bind fun _ => failsInMotion_rapidZ _

/-- A pass of a pocket adds to its cuts only moves. -/
theorem failsInMotion_clearingPass (start : Vec2) (depth : Float) {cuts : Machining Unit}
    (h : FailsInMotion cuts) (passes k : Nat) :
    FailsInMotion (clearingPass start depth cuts passes k) := by
  refine (failsInMotion_plunge _).bind fun _ => h.bind fun _ => .ite ?_ (failsWith_pure ())
  refine (failsInMotion_clearOf _).bind fun _ => (failsInMotion_rapidZ _).bind fun _ => ?_
  exact (failsInMotion_clearOf _).bind fun _ => failsInMotion_rapid _ _ _

theorem failsInMotion_groovePass (start stop : Vec2) (depth : Float) (passes k : Nat) :
    FailsInMotion (groovePass start stop depth passes k) :=
  (failsInMotion_plunge _).bind fun _ => failsInMotion_cut _ _

/-- A pass along an arc goes back to its start for the next one by moves. -/
theorem failsInMotion_arcPass (start stop center : Vec2) (depth clearance : Float)
    (passes k : Nat) : FailsInMotion (arcPass start stop center depth clearance passes k) := by
  refine (failsInMotion_plunge _).bind fun _ => (failsInMotion_arc _ _ _ _).bind fun _ => ?_
  refine .ite ?_ (failsWith_pure ())
  exact (failsInMotion_rapidZ _).bind fun _ => failsInMotion_rapid _ _ _

theorem failsInMotion_rings (cx cy pathRadius : Float) (n : Nat) :
    FailsInMotion (rings cx cy pathRadius n) := by
  refine .forM (fun i => (failsInMotion_cut _ _).bind fun _ => ?_) _
  exact (failsInMotion_arc _ _ _ _).bind fun _ => failsInMotion_arc _ _ _ _

/-- The loops of a rectangular pocket are straight cuts. -/
theorem failsInMotion_loopCuts (loops : Loops) : FailsInMotion (loopCuts loops) :=
  .forM (fun _ => failsInMotion_cut _ _) _

/-- A plan whose passes fail only in motion does so as a whole. -/
theorem Plan.failsInMotion_carryOut {p : Plan} (h : ∀ k, FailsInMotion (p.pass k)) :
    FailsInMotion p.carryOut :=
  (failsInMotion_approach _ _).bind fun _ => FailsWith.bind (.forM h _) fun _ =>
    failsInMotion_retract

/-- **A plan can only fail on the way.** -/
theorem Plan.Of.failsInMotion {m : Machine} {p : Plan} (h : Plan.Of m p) :
    FailsInMotion p.carryOut := by
  refine Plan.failsInMotion_carryOut fun k => ?_
  cases h with
  | drill x y depth peck hp =>
      obtain ⟨-, -, pecks, -, rfl⟩ := drillPlan_eq_ok hp
      exact failsInMotion_peckPass _ _ _
  | circlePocket cx cy radius depth hp =>
      obtain ⟨-, -, n, -, passes, -, rfl⟩ := circlePlan_eq_ok hp
      exact failsInMotion_clearingPass _ _ (failsInMotion_rings _ _ _ _) _ _
  | groove start stop depth hp =>
      obtain ⟨-, passes, -, rfl⟩ := groovePlan_eq_ok hp
      exact failsInMotion_groovePass _ _ _ _ _
  | arcGroove start stop center depth hp =>
      obtain ⟨-, -, -, passes, -, rfl⟩ := arcPlan_eq_ok hp
      exact failsInMotion_arcPass _ _ _ _ _ _ _
  | groovePocket x y width height depth hp =>
      obtain ⟨-, loops, -, passes, -, rfl⟩ := pocketPlan_eq_ok hp
      exact failsInMotion_clearingPass _ _ (failsInMotion_loopCuts _) _ _

/-! ## Operations -/

/-- A size that has to be positive is refused as a runtime fault. -/
theorem failsInExecution_requirePositive (what : String) (x : Float) :
    FailsInExecution (ofExcept (requirePositive what x)) := by
  refine failsWith_ofExcept fun f h => ?_
  rw [requirePositive] at h
  split at h
  · cases h
  · rw [← Except.error.inj h]
    rfl

/-- Steps that are too small or too many are refused as a runtime fault. -/
theorem failsInExecution_stepCount (what : String) (distance step : Float) :
    FailsInExecution (ofExcept (stepCount what distance step)) := by
  refine failsWith_ofExcept fun f h => ?_
  rw [stepCount, requirePositive] at h
  by_cases hpos : 0 < step
  · rw [if_pos hpos] at h
    change (ite _ _ _ : Except Fault Nat) = _ at h
    split at h
    · cases h
    · rw [← Except.error.inj h]
      rfl
  · rw [if_neg hpos] at h
    rw [← Except.error.inj h]
    rfl

/-- No operation fails for anything but its sizes and the way of the tool; here
    a drilled hole. -/
theorem failsInExecution_drill (x y depth peck : Float) :
    FailsInExecution (drill x y depth peck) := by
  refine (failsInExecution_requirePositive _ _).bind fun _ => ?_
  refine (failsInExecution_requirePositive _ _).bind fun _ => ?_
  refine (failsInExecution_stepCount _ _ _).bind fun pecks => ?_
  exact (Plan.failsInMotion_carryOut (p := ⟨⟨x, y⟩, pecks, peckPass depth pecks⟩)
    (failsInMotion_peckPass _ _)).inExecution

/-- A round pocket may also be too small for the cutter, or have too many
    rings. -/
theorem failsInExecution_circlePocket (cx cy radius depth : Float) :
    FailsInExecution (circlePocket cx cy radius depth) := by
  refine (failsInExecution_requirePositive _ _).bind fun _ => failsWith_get.bind fun job => ?_
  refine .ite (failsInExecution_fail_bind _ _) ?_
  refine (failsInExecution_stepCount _ _ _).bind fun n => ?_
  refine (failsInExecution_stepCount _ _ _).bind fun passes => ?_
  let cuts := rings cx cy (radius - job.machine.cutterDiameter / 2) n
  exact (Plan.failsInMotion_carryOut
    (p := ⟨⟨cx, cy⟩, passes, clearingPass ⟨cx, cy⟩ depth cuts passes⟩)
    (failsInMotion_clearingPass _ _ (failsInMotion_rings _ _ _ _) passes)).inExecution

theorem failsInExecution_groove (start stop : Vec2) (depth : Float) :
    FailsInExecution (groove start stop depth) := by
  refine (failsInExecution_requirePositive _ _).bind fun _ => failsWith_get.bind fun job => ?_
  refine (failsInExecution_stepCount _ _ _).bind fun passes => ?_
  exact (Plan.failsInMotion_carryOut (p := ⟨start, passes, groovePass start stop depth passes⟩)
    (failsInMotion_groovePass _ _ _ _)).inExecution

/-- An arc may also start in its centre, or end at another distance from it. -/
theorem failsInExecution_arcGroove (start stop center : Vec2) (depth : Float) :
    FailsInExecution (arcGroove start stop center depth) := by
  refine (failsInExecution_requirePositive _ _).bind fun _ => ?_
  refine .ite (failsInExecution_fail_bind _ _) (.ite (failsInExecution_fail_bind _ _) ?_)
  refine failsWith_get.bind fun job => (failsInExecution_stepCount _ _ _).bind fun passes => ?_
  exact (Plan.failsInMotion_carryOut
    (p := ⟨start, passes, arcPass start stop center depth job.machine.config.clearance passes⟩)
    (failsInMotion_arcPass _ _ _ _ _ _)).inExecution

/-- A rectangular pocket may be too small for the cutter, or have too many
    loops. -/
theorem failsInExecution_groovePocket (x y width height depth : Float) :
    FailsInExecution (groovePocket x y width height depth) := by
  refine (failsInExecution_requirePositive _ _).bind fun _ => failsWith_get.bind fun job => ?_
  refine .ite (failsInExecution_fail_bind _ _) ?_
  have hgo : ∀ loops : Loops, FailsInExecution (do
      let passes ← ofExcept (depthPasses depth job.machine.material.stepdown)
      Plan.carryOut
        ⟨loops.start, passes, clearingPass loops.start depth (loopCuts loops) passes⟩) := by
    intro loops
    refine (failsInExecution_stepCount _ _ _).bind fun passes => ?_
    exact (Plan.failsInMotion_carryOut
      (failsInMotion_clearingPass _ _ (failsInMotion_loopCuts _) _)).inExecution
  -- loops within the outermost one are counted only where there is room for one
  let d := job.machine.cutterDiameter
  let loops (count : Nat) : Loops :=
    ⟨x + d / 2, y + d / 2, width - d, height - d,
      (if height - d < width - d then height - d else width - d) / 2, count⟩
  exact .ite ((failsInExecution_stepCount _ _ _).bind fun count => hgo (loops count))
    (hgo (loops 0))

theorem failsInExecution_dwell (seconds : Float) : FailsInExecution (dwell seconds) :=
  .ite (failsInExecution_fail_bind _ _) (failsWith_record _)

end Machining

/-! ## Calls -/

namespace Call

open Machining

/-- A change of settings fails for what the change is refused for. -/
theorem failsOnValues_adjust {change : Machine → Except Fault Machine}
    (h : ∀ m f, change m = .error f → f.isDynamic = true) : FailsOnValues (adjust change) := by
  intro job f t hf
  rw [adjust] at hf
  cases hc : change job.machine with
  | ok m =>
      rw [hc] at hf
      cases hf
  | error f' =>
      rw [hc] at hf
      injection hf with hf _
      rw [← hf]
      exact h _ _ hc

/-- A setting that is always accepted. -/
theorem failsOnValues_set (change : Machine → Machine) :
    FailsOnValues (adjust fun m => .ok (change m)) :=
  failsOnValues_adjust fun m f h => by cases h

/-- An argument that is a length may be too large as one, and that hangs on its
    value. -/
theorem failsOnValues_length (args : Arguments) (name : String) :
    FailsOnValues (Machining.ofExcept (args.length name)) := by
  refine failsWith_ofExcept fun f h => ?_
  rw [Arguments.length] at h
  split at h
  · cases h
  · rw [← Except.error.inj h]
    rfl

/-- A cutter is refused for its diameter only. -/
theorem failsOnValues_setCutter (args : Arguments) : FailsOnValues (setCutter args) :=
  (failsOnValues_length _ _).bind fun d =>
    .ite (failsOnValues_set fun m => { m with cutterDiameter := d })
      (failsInExecution_fail _).onValues

/-- Whether a material is known shows when the script runs. -/
theorem failsOnValues_selectMaterial (name : String) :
    FailsOnValues (adjust (·.selectMaterial name)) := by
  refine failsOnValues_adjust fun m f h => ?_
  rw [Machine.selectMaterial] at h
  split at h
  · cases h
  · rw [← Except.error.inj h]
    rfl

/-- A definition of a material is refused for its numbers only. -/
theorem failsOnValues_describeMaterial (args : Arguments) :
    FailsOnValues (Machining.ofExcept (describeMaterial args)) := by
  rw [describeMaterial]
  refine failsOnValues_ofExcept_bind (failsOnValues_length _ _) fun stepdown => ?_
  refine failsWith_ofExcept fun f h => ?_
  -- whichever number of the material is refused
  dsimp only at h
  repeat' split at h
  all_goals cases h
  all_goals rfl

theorem failsOnValues_setSpeed (args : Arguments) : FailsOnValues (setSpeed args) :=
  .ite (failsInExecution_fail _).onValues
    (failsOnValues_set fun m => { m with rpm := args.number "rpm" })

theorem failsOnValues_setScale (args : Arguments) : FailsOnValues (setScale args) :=
  .ite (failsOnValues_set fun m => { m with scale := ⟨args.number "x", args.number "y"⟩ })
    (failsInExecution_fail _).onValues

/-- A call to drill fails for a length or in the operation. -/
theorem failsOnValues_drill (args : Arguments) : FailsOnValues (drill args) := by
  have hgo : ∀ peck, FailsOnValues (do
      let x ← Machining.ofExcept (args.length "x")
      let y ← Machining.ofExcept (args.length "y")
      let depth ← Machining.ofExcept (args.length "depth")
      Machining.drill x y depth peck) := by
    intro peck
    refine (failsOnValues_length _ _).bind fun x => (failsOnValues_length _ _).bind fun y => ?_
    exact (failsOnValues_length _ _).bind fun depth =>
      (Machining.failsInExecution_drill _ _ _ _).onValues
  exact failsWith_get.bind fun job => .ite ((failsOnValues_length _ _).bind hgo) (hgo _)

theorem failsOnValues_groovePocket (args : Arguments) : FailsOnValues (groovePocket args) := by
  refine (failsOnValues_length _ _).bind fun x => (failsOnValues_length _ _).bind fun y => ?_
  refine (failsOnValues_length _ _).bind fun width => ?_
  refine (failsOnValues_length _ _).bind fun height => ?_
  exact (failsOnValues_length _ _).bind fun depth =>
    (Machining.failsInExecution_groovePocket _ _ _ _ _).onValues

/-- Given by its radius or its diameter, a round pocket fails for the values
    only. -/
theorem failsOnValues_circlePocket {args : Arguments}
    (h : args.has "radius" ≠ args.has "diameter") : FailsOnValues (circlePocket args) := by
  have hgo : ∀ radius, FailsOnValues (do
      let x ← Machining.ofExcept (args.length "x")
      let y ← Machining.ofExcept (args.length "y")
      let depth ← Machining.ofExcept (args.length "depth")
      Machining.circlePocket x y radius depth) := by
    intro radius
    refine (failsOnValues_length _ _).bind fun x => (failsOnValues_length _ _).bind fun y => ?_
    exact (failsOnValues_length _ _).bind fun depth =>
      (Machining.failsInExecution_circlePocket _ _ _ _).onValues
  rw [circlePocket, if_neg h]
  refine .ite ((failsOnValues_length _ _).bind hgo) ?_
  rw [map_eq_pure_bind, bind_assoc]
  exact (failsOnValues_length _ _).bind fun diameter => hgo (diameter / 2)

/-- The end of a groove given as a point fails only for its lengths. -/
theorem failsOnValues_groovePoint (args : Arguments) :
    FailsOnValues (Machining.ofExcept (do
      let x ← args.length "x2"
      let y ← args.length "y2"
      return (⟨x, y⟩ : Vec2))) := by
  refine failsOnValues_ofExcept_bind (failsOnValues_length _ _) fun x => ?_
  exact failsOnValues_ofExcept_bind (failsOnValues_length _ _) fun y => failsWith_pure _

theorem failsOnValues_grooveUp (args : Arguments) (start : Vec2) :
    FailsOnValues (Machining.ofExcept (do
      let up ← args.length "up"
      return (⟨start.x, start.y + up⟩ : Vec2))) :=
  failsOnValues_ofExcept_bind (failsOnValues_length _ _) fun _ => failsWith_pure _

/-- Past the checks on which arguments go together, a groove along an arc fails
    on values. -/
theorem failsOnValues_grooveArc (args : Arguments) (start stop : Vec2) :
    FailsOnValues (do
      let cx ← Machining.ofExcept (args.length "cx")
      let cy ← Machining.ofExcept (args.length "cy")
      let depth ← Machining.ofExcept (args.length "depth")
      arcGroove start stop ⟨cx, cy⟩ depth) := by
  refine (failsOnValues_length _ _).bind fun cx => (failsOnValues_length _ _).bind fun cy => ?_
  exact (failsOnValues_length _ _).bind fun depth => (failsInExecution_arcGroove _ _ _ _).onValues

theorem failsOnValues_grooveStraight (args : Arguments) (start stop : Vec2) :
    FailsOnValues (do
      let depth ← Machining.ofExcept (args.length "depth")
      Machining.groove start stop depth) :=
  (failsOnValues_length _ _).bind fun _ => (Machining.failsInExecution_groove _ _ _).onValues

end Call

end MillScript
