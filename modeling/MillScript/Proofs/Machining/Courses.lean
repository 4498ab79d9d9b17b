import MillScript.Proofs.Machining.Stages

/-! # The courses of the operations

    Pockets and grooves along arcs repeat the same strokes in every pass and
    come back to the start between passes.  A straight groove goes forth and
    back.  A hole has no strokes. -/

namespace MillScript

open Job

/-- The same strokes from the same point in each of `n` passes. -/
def Course.again (m : Machine) (start : Vec2) (strokes : List Machining.Stroke) (n : Nat) :
    Course where
  start _ := m.spot start
  stop k := if k < n then m.spot start else Machining.leadsTo m (m.spot start) strokes
  cuts _ := Machining.traced m (m.spot start) strokes

/-- Forth in odd passes and back in even ones. -/
def Course.forthAndBack (m : Machine) (start stop : Vec2) : Course where
  start k := m.spot (if k % 2 = 1 then start else stop)
  stop k := m.spot (if k % 2 = 1 then stop else start)
  cuts k := Machining.Stroke.cuts m (m.spot (if k % 2 = 1 then start else stop))
    (.line (if k % 2 = 1 then stop else start))

namespace Machining

/-! ## The strokes of pockets -/

/-- The strokes of a ring: out to its radius, then two half circles. -/
def ringStrokes (center : Vec2) (r : Float) : List Stroke :=
  [.line ⟨center.x + r, center.y⟩, .arc ⟨center.x - r, center.y⟩ center,
    .arc ⟨center.x + r, center.y⟩ center]

/-- The strokes of a round pocket: rings from the middle outwards. -/
def roundStrokes (center : Vec2) (pathRadius : Float) (n : Nat) : List Stroke :=
  (List.range' 1 n).flatMap fun i =>
    ringStrokes center (pathRadius * Float.ofNat i / Float.ofNat n)

/-- A ring is its strokes. -/
theorem ring_eq (cx cy r : Float) :
    ring cx cy r = (ringStrokes ⟨cx, cy⟩ r).forM Stroke.draw := by
  show _ = (cut (cx + r) cy >>= fun _ => arc (cx - r) cy cx cy >>= fun _ =>
    arc (cx + r) cy cx cy >>= fun _ => pure PUnit.unit)
  simp only [bind_pure_unit]
  rfl

theorem forM_flatMap {α β : Type} (f : α → List β) (g : β → Machining Unit) (l : List α) :
    (l.flatMap f).forM g = l.forM fun a => (f a).forM g := by
  induction l with
  | nil => rfl
  | cons a l ih =>
      rw [List.flatMap_cons]
      simp only [List.forM_eq_forM, List.forM_append, List.forM_cons]
      simp only [List.forM_eq_forM] at ih
      rw [ih]

/-- The rings of a round pocket are the strokes of all of them. -/
theorem rings_eq (cx cy pathRadius : Float) (n : Nat) :
    rings cx cy pathRadius n = (roundStrokes ⟨cx, cy⟩ pathRadius n).forM Stroke.draw := by
  rw [rings, eachPass, roundStrokes, forM_flatMap]
  simp only [ring_eq]

/-- The loops of a rectangular pocket are lines between the corners. -/
theorem loopCuts_eq (loops : Loops) :
    loopCuts loops = ((loops.path.drop 1).map Stroke.line).forM Stroke.draw := by
  rw [loopCuts]
  simp only [List.forM_eq_forM, List.forM_map]
  rfl

/-! ## Each plan follows its course -/

/-- The last pass is as deep as the whole. -/
theorem passDepth_self (depth : Float) (n : Nat) : passDepth depth n n = depth := if_pos rfl

section Follows

variable {m : Machine} {start : Vec2} {depth : Float} {n : Nat}

/-- Passes repeat their strokes if all but the last go back to the start. -/
theorem follows_again {strokes : List Stroke} {pass : Nat → Machining Unit}
    (hback : ∀ k z, k < n → ∃ z', Goes m (m.spot start) z (pass k) (m.spot start) z'
      (· == -passDepth depth k n) (traced m (m.spot start) strokes))
    (hlast : ∀ z, Goes m (m.spot start) z (pass n) (leadsTo m (m.spot start) strokes) (-depth)
      (· == -depth) (traced m (m.spot start) strokes)) :
    Plan.Follows m depth (.again m start strokes n) ⟨start, n, pass⟩ := by
  refine ⟨rfl, fun k hk => if_pos hk, ?_⟩
  intro k z _ hle
  show ∃ z', (k = n → _) ∧ Goes m _ z (pass k) (if k < n then _ else _) z'
    (· == -passDepth depth k n) _
  -- only the last pass stays where its strokes lead
  rcases Nat.lt_or_eq_of_le hle with hk | rfl
  · obtain ⟨z', hgoes⟩ := hback k z hk
    rw [if_pos hk]
    exact ⟨z', fun heq => absurd heq (Nat.ne_of_lt hk), hgoes⟩
  · rw [if_neg (Nat.lt_irrefl _), passDepth_self]
    exact ⟨-depth, fun _ => rfl, hlast z⟩

/-- A hole has no strokes: every pass only goes down. -/
theorem follows_drill (x y : Float) :
    Plan.Follows m depth (.again m ⟨x, y⟩ [] n) ⟨⟨x, y⟩, n, peckPass depth n⟩ := by
  refine follows_again ?_ ?_
  · intro k z hk
    rw [peckPass, if_pos hk]
    exact ⟨_, (goes_plunge _).bind fun _ => goes_clearOf (goes_rapidZ _)⟩
  · intro z
    rw [peckPass, if_neg (Nat.lt_irrefl n), passDepth_self]
    exact (goes_plunge _).bind fun _ => goes_pure _

/-- A pass of a pocket makes all its strokes and goes back to the start for the
    next one. -/
theorem follows_clearing (strokes : List Stroke) :
    Plan.Follows m depth (.again m start strokes n)
      ⟨start, n, clearingPass start depth (strokes.forM Stroke.draw) n⟩ := by
  refine follows_again ?_ ?_
  · intro k z hk
    rw [clearingPass, if_pos hk]
    exact ⟨_, (goes_plunge _).bind fun _ => (goes_strokes strokes).bindQuiet fun _ =>
      goes_clearOf ((goes_rapidZ _).bind fun _ => goes_clearOf (goes_rapid start _))⟩
  · intro z
    rw [clearingPass, if_neg (Nat.lt_irrefl n), passDepth_self]
    exact (goes_plunge _).bind fun _ => (goes_strokes strokes).bindQuiet fun _ => goes_pure _

/-- A pass along an arc goes back to its start, too. -/
theorem follows_arc (stop center : Vec2) (clearance : Float) :
    Plan.Follows m depth (.again m start [.arc stop center] n)
      ⟨start, n, arcPass start stop center depth clearance n⟩ := by
  refine follows_again ?_ ?_
  · intro k z hk
    rw [arcPass, if_pos hk]
    exact ⟨_, (goes_plunge _).bind fun _ => (goes_arc stop center).bindQuiet fun _ =>
      (goes_rapidZ _).bind fun _ => goes_rapid start _⟩
  · intro z
    rw [arcPass, if_neg (Nat.lt_irrefl n), passDepth_self]
    exact (goes_plunge _).bind fun _ => (goes_arc stop center).bindQuiet fun _ => goes_pure _

/-- A straight groove does not: the next pass starts at the other end. -/
theorem follows_groove (stop : Vec2) :
    Plan.Follows m depth (.forthAndBack m start stop)
      ⟨start, n, groovePass start stop depth n⟩ := by
  refine ⟨rfl, ?_, ?_⟩
  · intro k _
    show m.spot (if k % 2 = 1 then stop else start)
      = m.spot (if (k + 1) % 2 = 1 then start else stop)
    -- the end of a pass is the start of the next, whose number is of the other parity
    rcases Nat.mod_two_eq_zero_or_one k with hk | hk
    · rw [if_neg (by omega), if_pos (by omega)]
    · rw [if_pos hk, if_neg (by omega)]
  · intro k z _ _
    refine ⟨-passDepth depth k n, ?_, ?_⟩
    · rintro rfl
      exact congrArg _ (passDepth_self depth _)
    · exact (goes_plunge _).bind fun _ => goes_line _

end Follows

end Machining

/-! ## Operations -/

namespace Machining

/-- The operations that cut, with their arguments. -/
inductive Operation where
  | drill (x y depth peck : Float)
  | circlePocket (cx cy radius depth : Float)
  | groove (start stop : Vec2) (depth : Float)
  | arcGroove (start stop center : Vec2) (depth : Float)
  | groovePocket (x y width height depth : Float)

namespace Operation

/-- Carries out an operation. -/
def run : Operation → Machining Unit
  | .drill x y depth peck => Machining.drill x y depth peck
  | .circlePocket cx cy radius depth => Machining.circlePocket cx cy radius depth
  | .groove start stop depth => Machining.groove start stop depth
  | .arcGroove start stop center depth => Machining.arcGroove start stop center depth
  | .groovePocket x y width height depth => Machining.groovePocket x y width height depth

/-- What an operation is planned to do. -/
def plan : Operation → Machine → Except Fault Plan
  | .drill x y depth peck => drillPlan x y depth peck
  | .circlePocket cx cy radius depth => circlePlan cx cy radius depth
  | .groove start stop depth => groovePlan start stop depth
  | .arcGroove start stop center depth => arcPlan start stop center depth
  | .groovePocket x y width height depth => pocketPlan x y width height depth

/-- How deep an operation goes. -/
def depth : Operation → Float
  | .drill _ _ depth _ => depth
  | .circlePocket _ _ _ depth => depth
  | .groove _ _ depth => depth
  | .arcGroove _ _ _ depth => depth
  | .groovePocket _ _ _ _ depth => depth

/-- How deep one pass may go: a hole is pecked as asked for, all else is cut
    as the material allows. -/
def stepdown (m : Machine) : Operation → Float
  | .drill _ _ _ peck => peck
  | _ => m.material.stepdown

/-- Where the first pass starts: a rectangular pocket is cleared from the
    first corner of its innermost loop. -/
def StartsAt (m : Machine) (v : Vec2) : Operation → Prop
  | .drill x y _ _ => v = ⟨x, y⟩
  | .circlePocket cx cy _ _ => v = ⟨cx, cy⟩
  | .groove start _ _ => v = start
  | .arcGroove start _ _ _ => v = start
  | .groovePocket x y width height _ =>
    ∃ loops, pocketLoops x y width height m = .ok loops ∧ v = loops.start

/-- **Every operation is its plan, carried out.** -/
theorem run_eq (o : Operation) : o.run = planned o.plan := by
  cases o with
  | drill x y depth peck => exact drill_eq x y depth peck
  | circlePocket cx cy radius depth => exact circlePocket_eq cx cy radius depth
  | groove start stop depth => exact groove_eq start stop depth
  | arcGroove start stop center depth => exact arcGroove_eq start stop center depth
  | groovePocket x y width height depth => exact groovePocket_eq x y width height depth

end Operation

/-- **Every operation follows a course** from where it starts, in the passes
    that its depth needs. -/
theorem Operation.exists_follows {o : Operation} {m : Machine} {p : Plan}
    (h : o.plan m = .ok p) :
    depthPasses o.depth (o.stepdown m) = .ok p.passes ∧ o.StartsAt m p.start
      ∧ ∃ c, p.Follows m o.depth c := by
  cases o with
  | drill x y depth peck =>
      have hplan : drillPlan x y depth peck m = .ok p := h
      obtain ⟨-, -, n, hn, rfl⟩ := drillPlan_eq_ok hplan
      exact ⟨hn, rfl, _, follows_drill x y⟩
  | circlePocket cx cy radius depth =>
      obtain ⟨-, -, k, -, n, hn, rfl⟩ := circlePlan_eq_ok h
      rw [rings_eq]
      exact ⟨hn, rfl, _, follows_clearing _⟩
  | groove start stop depth =>
      obtain ⟨-, n, hn, rfl⟩ := groovePlan_eq_ok h
      exact ⟨hn, rfl, _, follows_groove stop⟩
  | arcGroove start stop center depth =>
      obtain ⟨-, -, -, n, hn, rfl⟩ := arcPlan_eq_ok h
      exact ⟨hn, rfl, _, follows_arc stop center _⟩
  | groovePocket x y width height depth =>
      obtain ⟨-, loops, hloops, n, hn, rfl⟩ := pocketPlan_eq_ok h
      rw [loopCuts_eq]
      exact ⟨hn, ⟨loops, hloops, rfl⟩, _, follows_clearing _⟩

end Machining

end MillScript
