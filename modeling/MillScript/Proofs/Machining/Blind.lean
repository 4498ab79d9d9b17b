import MillScript.Proofs.Machining.Mirror

/-! # Calls do not look at the toolpath

    A call reads the machine and writes on the toolpath, but never reads what
    is written there, nor at which line it is writing.  So on one and the
    same machine it comes to the same, whatever the toolpaths, and if these
    are related in a way that a further step does not disturb, they still are
    when the call is over. -/

namespace MillScript

/-- A relation of toolpaths that stays if the same step is recorded on
    both. -/
def Toolpath.Steady (R : Toolpath → Toolpath → Prop) : Prop :=
  ∀ p p' a, R p p' → R (p.push a) (p'.push a)

/-- Jobs on the same machine, with toolpaths that are related. -/
structure Job.Beside (R : Toolpath → Toolpath → Prop) (j j' : Job) : Prop where
  machine : j.machine = j'.machine
  path : R j.path j'.path

namespace Machining

open Toolpath Job

variable {α β : Type}

/-- Work that does not look at the toolpath. -/
def Blind (x : Machining α) : Prop :=
  ∀ R, Steady R → ∀ j j', Beside R j j' → Alike (Beside R) (x j) (x j')

/-! ## What blind work is made of -/

theorem blind_pure (a : α) : Blind (pure a) := fun _ _ _ _ h => .ok a h

theorem blind_fail (f : RuntimeFault) : Blind (fail f : Machining α) := fun _ _ _ _ h => .error _ h

/-- Work that goes on from what the machine told is blind if both parts are. -/
theorem Blind.bind {x : Machining α} {f : α → Machining β} (hx : Blind x)
    (hf : ∀ a, Blind (f a)) : Blind (x >>= f) := by
  intro R hR j j' h
  exact (hx R hR j j' h).bind fun a k k' hk => hf a R hR k k' hk

/-- What is read of a job is its machine. -/
theorem blind_machine (x : Machine → Machining α) (h : ∀ m, Blind (x m)) :
    Blind (do x (← get).machine) := by
  intro R hR j j' hj
  show Alike _ (x j.machine j) (x j'.machine j')
  rw [hj.machine]
  exact h j'.machine R hR j j' hj

/-- A result is passed on whatever the toolpath. -/
theorem blind_ofExcept (r : Except Fault α) : Blind (ofExcept r) := by
  intro R hR j j' h
  cases r with
  | error f => exact .error f h
  | ok a => exact .ok a h

/-- Nothing is done after a refusal. -/
theorem blind_refused (f : Fault) (x : α → Machining β) : Blind (ofExcept (.error f) >>= x) :=
  fun _ _ _ _ h => .error f h

theorem Blind.ite {c : Prop} [Decidable c] {x y : Machining α} (hx : Blind x) (hy : Blind y) :
    Blind (if c then x else y) := by
  by_cases hc : c
  · rw [if_pos hc]
    exact hx
  · rw [if_neg hc]
    exact hy

theorem Blind.forM {f : α → Machining PUnit} (hf : ∀ a, Blind (f a)) (items : List α) :
    Blind (items.forM f) := by
  induction items with
  | nil => exact blind_pure _
  | cons a rest ih => exact (hf a).bind fun _ => ih

/-! ## Moves and announcements -/

/-- To record a step is to write, not to read. -/
theorem blind_record (a : Action) : Blind (record a) := by
  intro R hR j j' h
  exact .ok () ⟨h.machine, hR _ _ a h.path⟩

/-- Whether a move is left out hangs on where the machine has the tool. -/
theorem blind_travel (kind : Move) (target : Vec3) (feed : Float) :
    Blind (travel kind target feed) := by
  intro R hR j j' h
  rw [travel, travel, h.machine]
  split
  · exact .error _ h
  · split
    · exact .ok () h
    · exact .ok () ⟨rfl, hR _ _ _ h.path⟩

theorem blind_arc (x y cx cy : Float) : Blind (arc x y cx cy) := by
  intro R hR j j' h
  rw [arc, arc, h.machine]
  dsimp only
  split
  · exact .error _ h
  · split
    · exact .error _ h
    · exact .ok () ⟨rfl, hR _ _ _ h.path⟩

theorem blind_rapid (x y z : Float) : Blind (rapid x y z) :=
  blind_machine (fun m => travel .rapid (m.place x y z) 0) fun _ => blind_travel _ _ _

theorem blind_rapidZ (z : Float) : Blind (rapidZ z) :=
  blind_machine (fun m => travel .rapid { m.position with z } 0) fun _ => blind_travel _ _ _

theorem blind_plunge (z : Float) : Blind (plunge z) :=
  blind_machine (fun m => travel .linear { m.position with z } m.material.plungeRate) fun _ =>
    blind_travel _ _ _

theorem blind_cut (x y : Float) : Blind (cut x y) :=
  blind_machine (fun m => travel .linear (m.place x y m.position.z) m.material.feedRate) fun _ =>
    blind_travel _ _ _

/-- What was announced last is kept by the machine. -/
theorem blind_announce : Blind announce := by
  intro R hR j j' h
  have htool : Beside R j.toldTool j'.toldTool := by
    rw [toldTool, toldTool, h.machine]
    split
    · exact ⟨rfl, hR _ _ _ h.path⟩
    · exact h
  rw [announce_apply, announce_apply]
  refine .ok () ?_
  rw [toldSpeed, toldSpeed, htool.machine]
  split
  · exact ⟨rfl, hR _ _ _ htool.path⟩
  · exact htool

/-- The way to the work looks at the machine only. -/
theorem blind_approach (x y : Float) : Blind (approach x y) := by
  refine blind_machine (fun m => do
    rapid x y m.config.safeHeight
    announce
    rapidZ (← get).machine.config.clearance) fun m => ?_
  refine (blind_rapid _ _ _).bind fun _ => blind_announce.bind fun _ => ?_
  exact blind_machine (fun m => rapidZ m.config.clearance) fun _ => blind_rapidZ _

theorem blind_retract : Blind retract :=
  blind_machine (fun m => rapidZ m.config.safeHeight) fun _ => blind_rapidZ _

/-! ## Operations -/

theorem blind_clearOf (z : Float) : Blind (clearOf z) :=
  blind_machine (fun m => pure (z + m.config.clearance)) fun _ => blind_pure _

/-- The passes of an operation are made of such moves; here those of a drilled
    hole. -/
theorem blind_peckPass (depth : Float) (pecks k : Nat) : Blind (peckPass depth pecks k) := by
  refine (blind_plunge _).bind fun _ => .ite ?_ (blind_pure ())
  exact (blind_clearOf _).bind fun _ => blind_rapidZ _

/-- A pass of a pocket is blind if its cuts are. -/
theorem blind_clearingPass (start : Vec2) (depth : Float) {cuts : Machining Unit}
    (hcuts : Blind cuts) (passes k : Nat) : Blind (clearingPass start depth cuts passes k) := by
  refine (blind_plunge _).bind fun _ => hcuts.bind fun _ => .ite ?_ (blind_pure ())
  refine (blind_clearOf _).bind fun _ => (blind_rapidZ _).bind fun _ => ?_
  exact (blind_clearOf _).bind fun _ => blind_rapid _ _ _

theorem blind_arcPass (start stop center : Vec2) (depth clearance : Float) (passes k : Nat) :
    Blind (arcPass start stop center depth clearance passes k) := by
  refine (blind_plunge _).bind fun _ => (blind_arc _ _ _ _).bind fun _ =>
    .ite ?_ (blind_pure ())
  exact (blind_rapidZ _).bind fun _ => blind_rapid _ _ _

theorem blind_rings (cx cy pathRadius : Float) (n : Nat) : Blind (rings cx cy pathRadius n) :=
  .forM (fun _ => (blind_cut _ _).bind fun _ => (blind_arc _ _ _ _).bind fun _ =>
    blind_arc _ _ _ _) _

/-- The passes of every operation are blind. -/
theorem Plan.Of.blind_pass {m : Machine} {p : Plan} (h : Plan.Of m p) (k : Nat) :
    Blind (p.pass k) := by
  cases h with
  | drill x y depth peck h =>
      obtain ⟨-, -, pecks, -, rfl⟩ := drillPlan_eq_ok h
      exact blind_peckPass _ _ _
  | circlePocket cx cy radius depth h =>
      obtain ⟨-, -, n, -, passes, -, rfl⟩ := circlePlan_eq_ok h
      exact blind_clearingPass _ _ (blind_rings _ _ _ _) _ _
  | groove start stop depth h =>
      obtain ⟨-, passes, -, rfl⟩ := groovePlan_eq_ok h
      exact (blind_plunge _).bind fun _ => blind_cut _ _
  | arcGroove start stop center depth h =>
      obtain ⟨-, -, -, passes, -, rfl⟩ := arcPlan_eq_ok h
      exact blind_arcPass _ _ _ _ _ _ _
  | groovePocket x y width height depth h =>
      obtain ⟨-, loops, -, passes, -, rfl⟩ := pocketPlan_eq_ok h
      exact blind_clearingPass _ _ (.forM (fun _ => blind_cut _ _) _) _ _

/-- An operation plans on the machine alone, and carries its plan out without
    a look at the toolpath. -/
theorem blind_planned {plan : Machine → Except Fault Plan}
    (h : ∀ m p, plan m = .ok p → Plan.Of m p) : Blind (planned plan) := by
  intro R hR j j' hj
  rw [planned, planned, hj.machine]
  cases hp : plan j'.machine with
  | error f => exact .error f hj
  | ok p =>
      have hcarry : Blind p.carryOut :=
        (blind_approach _ _).bind fun _ =>
          (Blind.forM (h _ p hp).blind_pass _).bind fun _ => blind_retract
      exact hcarry R hR j j' hj

end Machining

/-! ## Calls -/

namespace Call

open Machining

/-- A change of settings does not concern the toolpath. -/
theorem blind_adjust (change : Machine → Except Fault Machine) : Blind (adjust change) := by
  intro R hR j j' h
  rw [adjust, adjust, h.machine]
  cases change j'.machine with
  | error f => exact .error f h
  | ok m => exact .ok () ⟨rfl, h.path⟩

theorem blind_setCutter (args : Arguments) : Blind (setCutter args) :=
  (blind_ofExcept _).bind fun _ => .ite (blind_adjust _) (blind_fail _)

theorem blind_setSpeed (args : Arguments) : Blind (setSpeed args) :=
  .ite (blind_fail _) (blind_adjust _)

theorem blind_setScale (args : Arguments) : Blind (setScale args) :=
  .ite (blind_adjust _) (blind_fail _)

/-- A call to drill reads its arguments, the configuration and the machine. -/
theorem blind_drill (args : Arguments) : Blind (drill args) := by
  let go (peck : Float) : Machining Unit := do
    let x ← Machining.ofExcept (args.length "x")
    let y ← Machining.ofExcept (args.length "y")
    let depth ← Machining.ofExcept (args.length "depth")
    Machining.drill x y depth peck
  have hgo : ∀ peck, Blind (go peck) := by
    intro peck
    refine (blind_ofExcept _).bind fun x => (blind_ofExcept _).bind fun y =>
      (blind_ofExcept _).bind fun depth => ?_
    rw [drill_eq]
    exact blind_planned fun m p h => .drill x y depth peck h
  -- the depth of a peck is read off the machine unless it is given
  exact blind_machine
    (fun m => if args.has "peck" then Machining.ofExcept (args.length "peck") >>= go
      else go m.config.peckDepth)
    fun m => .ite ((blind_ofExcept _).bind hgo) (hgo _)

/-- A call for a round pocket decides by its arguments how large it is. -/
theorem blind_circlePocket (args : Arguments) : Blind (circlePocket args) := by
  have hgo : ∀ radius, Blind (do
      let x ← Machining.ofExcept (args.length "x")
      let y ← Machining.ofExcept (args.length "y")
      let depth ← Machining.ofExcept (args.length "depth")
      Machining.circlePocket x y radius depth) := by
    intro radius
    refine (blind_ofExcept _).bind fun x => (blind_ofExcept _).bind fun y =>
      (blind_ofExcept _).bind fun depth => ?_
    rw [circlePocket_eq]
    exact blind_planned fun m p h => .circlePocket x y radius depth h
  rw [circlePocket]
  refine .ite (blind_refused _ _) (.ite ((blind_ofExcept _).bind hgo) ?_)
  rw [map_eq_pure_bind, bind_assoc]
  exact (blind_ofExcept _).bind fun diameter => hgo (diameter / 2)

/-- A call for a groove decides by its arguments where it ends and whether it
    is an arc. -/
theorem blind_groove (args : Arguments) : Blind (groove args) := by
  rw [groove]
  refine (blind_ofExcept _).bind fun x => (blind_ofExcept _).bind fun y =>
    (blind_ofExcept _).bind fun stop => ?_
  refine .ite (blind_refused _ _) (.ite ?_ ?_)
  · refine (blind_ofExcept _).bind fun cx => (blind_ofExcept _).bind fun cy =>
      (blind_ofExcept _).bind fun depth => ?_
    rw [arcGroove_eq]
    exact blind_planned fun m p h => .arcGroove ⟨x, y⟩ stop ⟨cx, cy⟩ depth h
  · refine (blind_ofExcept _).bind fun depth => ?_
    rw [groove_eq]
    exact blind_planned fun m p h => .groove ⟨x, y⟩ stop depth h

theorem blind_groovePocket (args : Arguments) : Blind (groovePocket args) := by
  refine (blind_ofExcept _).bind fun x => (blind_ofExcept _).bind fun y =>
    (blind_ofExcept _).bind fun width => (blind_ofExcept _).bind fun height =>
    (blind_ofExcept _).bind fun depth => ?_
  rw [groovePocket_eq]
  exact blind_planned fun m p h => .groovePocket x y width height depth h

/-- **Calls do not look at the toolpath.** -/
theorem blind_apply (args : Arguments) (f : Builtin) : Blind (apply args f) := by
  cases f with
  | cutterDiameter => exact (blind_setCutter args).bind fun _ => blind_pure _
  | material => exact (blind_adjust _).bind fun _ => blind_pure _
  | defineMaterial =>
      exact (blind_ofExcept _).bind fun _ => (blind_adjust _).bind fun _ => blind_pure _
  | rpm => exact (blind_setSpeed args).bind fun _ => blind_pure _
  | scale => exact (blind_setScale args).bind fun _ => blind_pure _
  | comment => exact (blind_record _).bind fun _ => blind_pure _
  | dwell => exact (Blind.ite (blind_fail _) (blind_record _)).bind fun _ => blind_pure _
  | drill => exact (blind_drill args).bind fun _ => blind_pure _
  | circlePocket => exact (blind_circlePocket args).bind fun _ => blind_pure _
  | groove => exact (blind_groove args).bind fun _ => blind_pure _
  | groovePocket => exact (blind_groovePocket args).bind fun _ => blind_pure _
  | linspace =>
      refine blind_machine (fun m => do
        let items ← Machining.ofExcept (Spacing.items (args.quantity "start")
          (args.quantity "stop") (args.quantity "count") m.config.maxSequence)
        return Value.sequence (items.map .number)) fun m => ?_
      exact (blind_ofExcept _).bind fun _ => blind_pure _

end Call

end MillScript
