import Mathlib.Analysis.Real.Sqrt
import MillScript.Proofs.Machining.Repetition

/-! # How far the rings of a round pocket are apart

    The number of rings is chosen on the drawing: so many that no step from
    ring to ring is wider there than what the cutter may take sideways.  The
    rings are cut on the machine, where everything is scaled.  So the step on
    the machine is within the limit as long as the drawing is not enlarged,
    and no wider than the scaled limit if it is.  The rest is rounding: it is
    small next to the limit unless the pocket lies very far out or the limit
    is close to the least double. -/

namespace MillScript

open Job Decimal

/-! ## Radii on the machine -/

/-- The distance of two points. -/
noncomputable def Vec2.distance (p q : Vec2) : ℝ :=
  √(((value p.x - value q.x) ^ 2 + (value p.y - value q.y) ^ 2 : ℚ) : ℝ)

/-- Points side by side are as far apart as their first coordinates. -/
theorem Vec2.distance_of_level {p q : Vec2} (h : p.y = q.y) :
    p.distance q = (|value p.x - value q.x| : ℚ) := by
  rw [distance, h, sub_self, zero_pow two_ne_zero, add_zero, Rat.cast_pow,
    Real.sqrt_sq_eq_abs, Rat.cast_abs]

/-- The radius of a cut along an arc. -/
noncomputable def SideCut.radius? (c : SideCut) : Option ℝ :=
  match c.kind with
  | .arc center => some (c.goal.distance center)
  | _ => none

/-- The radii of rings, of two half circles each: no radius differs by more
    than a step from those of the ring before it, or from zero if there is
    none. -/
def RingsWithin (step : ℝ) (n : Nat) (radii : List ℝ) : Prop :=
  ∃ rings : List (ℝ × ℝ), rings.length = n ∧ radii = rings.flatMap (fun ρ => [ρ.1, ρ.2])
    ∧ ((0, 0) :: rings).IsChain fun ρ ρ' =>
      ∀ a ∈ [ρ.1, ρ.2], ∀ b ∈ [ρ'.1, ρ'.2], |b - a| ≤ step

theorem isChain_map_range' {α : Type} {R : α → α → Prop} {f : Nat → α} {k r : Nat}
    (h : ∀ i, k ≤ i → i < k + r → R (f i) (f (i + 1))) :
    (f k :: (List.range' (k + 1) r).map f).IsChain R := by
  induction r generalizing k with
  | zero => exact .singleton _
  | succ r ih =>
      rw [List.range'_succ, List.map_cons]
      refine .cons_cons (h k le_rfl (by omega)) (ih ?_)
      intro i hk hi
      exact h i (by omega) (by omega)

namespace Machining

/-! ## The radii of strokes -/

/-- The radius of an arc on the machine. -/
noncomputable def Stroke.radius? (m : Machine) : Stroke → Option ℝ
  | .line _ => none
  | .arc goal center => some ((m.spot goal).distance (m.spot center))

/-- The radii that are cut are those of the arcs that are drawn. -/
theorem filterMap_radius_traced (m : Machine) (p : Vec2) (strokes : List Stroke) :
    (traced m p strokes).filterMap SideCut.radius? = strokes.filterMap (Stroke.radius? m) := by
  induction strokes generalizing p with
  | nil => rfl
  | cons s rest ih =>
      rw [traced, List.filterMap_append, ih]
      cases s with
      | line goal =>
          -- whether or not the line is left out, it is no arc
          rw [Stroke.cuts]
          split <;> rfl
      | arc goal center => rfl

/-- The radius of ring `i` of `n` on the drawing. -/
def ringRadius (pathRadius : Float) (n i : Nat) : Float :=
  pathRadius * Float.ofNat i / Float.ofNat n

/-- The radii of the halves of a ring on the machine. -/
noncomputable def ringRadii (m : Machine) (center : Vec2) (r : Float) : ℝ × ℝ :=
  ((m.spot ⟨center.x - r, center.y⟩).distance (m.spot center),
    (m.spot ⟨center.x + r, center.y⟩).distance (m.spot center))

theorem filterMap_radius_roundStrokes (m : Machine) (center : Vec2) (pathRadius : Float)
    (n : Nat) :
    (roundStrokes center pathRadius n).filterMap (Stroke.radius? m)
      = ((List.range' 1 n).map fun i =>
          ringRadii m center (ringRadius pathRadius n i)).flatMap fun ρ => [ρ.1, ρ.2] := by
  rw [roundStrokes, List.filterMap_flatMap, List.flatMap_map]
  rfl

/-! ## Real places -/

/-- Every arc that is drawn is cut. -/
theorem arc_mem_traced {m : Machine} {p goal center : Vec2} {strokes : List Stroke}
    (h : .arc goal center ∈ strokes) :
    ⟨.arc (m.spot center), m.spot goal⟩ ∈ traced m p strokes := by
  induction strokes generalizing p with
  | nil => cases h
  | cons s rest ih =>
      rw [traced, List.mem_append]
      rcases List.mem_cons.mp h with rfl | hrest
      · exact .inl List.mem_cons_self
      · exact .inr (ih hrest)

/-- Arcs that are cut lead from real places around real centres. -/
theorem real_of_mem_sideCuts {p : Vec3} {steps : List Segment} {goal center : Vec2}
    (hplaced : ∀ s ∈ steps, s.action.Placed) (h : ⟨.arc center, goal⟩ ∈ sideCuts p steps) :
    goal.x.isFinite = true ∧ center.x.isFinite = true := by
  induction steps generalizing p with
  | nil => cases h
  | cons s rest ih =>
      rw [sideCuts, List.mem_append] at h
      rcases h with hfirst | hrest
      · have hs := hplaced s List.mem_cons_self
        rw [Option.mem_toList, Segment.sideCut?] at hfirst
        split at hfirst
        · rename_i c target feed haction
          rw [haction] at hs
          cases hfirst
          exact ⟨(Vec3.isFinite_iff.mp hs.1).1, (hs.2 center rfl).1⟩
        · split at hfirst <;> cases hfirst
        · cases hfirst
      · exact ih (fun s hs => hplaced s (List.mem_cons_of_mem _ hs)) hrest

end Machining

/-! ## Rounding -/

namespace Decimal

/-- Rounding moves a number by little of what bounds it. -/
theorem Nearby.abs_sub_le {v w A : ℚ} (h : Nearby v w) (hv : |v| ≤ A) :
    |w - v| ≤ A / 2 ^ 52 + least :=
  h.close.trans (by gcongr)

theorem least_le {σ : ℚ} (h : 2 ^ (-1000 : ℤ) ≤ σ) : least ≤ σ / 2 ^ 74 := by
  have hleast : least = 2 ^ (-1000 : ℤ) / 2 ^ 74 := by
    rw [least, div_eq_mul_inv, ← zpow_natCast, ← zpow_neg, ← zpow_add₀ two_ne_zero]
    rfl
  rw [hleast]
  gcongr

end Decimal

namespace Machining

section Rounding

variable {σ : ℚ}

/-- Rings are spaced evenly on the drawing, but for rounding. -/
theorem abs_ringRadius_sub_le (hσ : 2 ^ (-1000 : ℤ) ≤ σ) {p : Float} {n i : Nat}
    (hreal : (ringRadius p n i).isFinite = true) (hn : 1 ≤ n) (hmax : n ≤ maxSteps) (hi : i ≤ n)
    (hp : 0 ≤ value p) (hle : value p ≤ 2 * 10 ^ 5 * σ) :
    |value (ringRadius p n i) - value p * i / n| ≤ σ / 10 ^ 9 := by
  have hsmall : maxSteps < Nat.pow 2 53 := by decide
  obtain ⟨-, hvi⟩ := value_ofNat (n := i) (by omega)
  obtain ⟨hrealn, hvn⟩ := value_ofNat (n := n) (by omega)
  have hnpos : (1 : ℚ) ≤ n := by exact_mod_cast hn
  have hin : (i : ℚ) ≤ n := by exact_mod_cast hi
  have hleast := least_le hσ
  -- the product, then the quotient
  have hproduct := nearby_mul (isFinite_of_div hreal)
  have hquotient := nearby_div hreal hrealn (by rw [hvn]; linarith)
  rw [hvi] at hproduct
  rw [hvn] at hquotient
  have hwhole : |value p * i| ≤ value p * n := by
    rw [abs_of_nonneg (by positivity)]
    exact mul_le_mul_of_nonneg_left hin hp
  have hshift : |value (p * Float.ofNat i) / n - value p * i / n|
      ≤ value p / 2 ^ 52 + least := by
    rw [← sub_div, abs_div, Nat.abs_cast, div_le_iff₀ (by linarith)]
    have hmoved := hproduct.abs_sub_le hwhole
    have hmore : least ≤ least * n := le_mul_of_one_le_right least_pos.le hnpos
    linarith
  have hshare : |value p * i / n| ≤ value p := by
    rw [abs_div, Nat.abs_cast, div_le_iff₀ (by linarith)]
    exact hwhole
  have hbound : |value (p * Float.ofNat i) / n| ≤ 2 * value p + least := by
    have := abs_sub_abs_le_abs_sub (value (p * Float.ofNat i) / n) (value p * i / n)
    linarith
  have hmoved := hquotient.abs_sub_le hbound
  have htriangle := abs_sub_le (value (ringRadius p n i)) (value (p * Float.ofNat i) / n)
    (value p * i / n)
  rw [ringRadius] at htriangle ⊢
  linarith

/-- A point at a distance from the centre is at the scaled distance on the
    machine, but for rounding. -/
theorem abs_place_sub_le (hσ : 2 ^ (-1000 : ℤ) ≤ σ) {x y s : Float} {ρ : ℚ}
    (hy : Nearby (value x + ρ) (value y)) (hreal : (y * s).isFinite = true)
    (hcenter : (x * s).isFinite = true) (hx : |value x| ≤ 10 ^ 8 * σ)
    (hρ : |ρ| ≤ 3 * 10 ^ 5 * σ) :
    |value (y * s) - value (x * s) - value s * ρ| ≤ max 1 |value s| * σ * (2 / 10 ^ 7) := by
  have hσ0 : 0 < σ := lt_of_lt_of_le (by positivity) hσ
  have hleast := least_le hσ
  -- all errors are measured by the greater of the limit and the scaled limit
  have hone : σ ≤ max 1 |value s| * σ := le_mul_of_one_le_left hσ0.le (le_max_left _ _)
  have hscale : |value s| * σ ≤ max 1 |value s| * σ :=
    mul_le_mul_of_nonneg_right (le_max_right _ _) hσ0.le
  generalize max 1 |value s| * σ = T at hone hscale ⊢
  have hsum : |value x + ρ| ≤ 2 * 10 ^ 8 * σ := by
    have := abs_add_le (value x) ρ
    linarith
  have hmoved := hy.abs_sub_le hsum
  have hfar : |value y| ≤ 3 * 10 ^ 8 * σ := by
    have := abs_sub_abs_le_abs_sub (value y) (value x + ρ)
    linarith
  have hproduct : ∀ {a K : ℚ}, 0 ≤ K → |a| ≤ K * σ → |a * value s| ≤ K * T := by
    intro a K hK ha
    rw [abs_mul]
    calc |a| * |value s| ≤ K * σ * |value s| := by gcongr
      _ = K * (|value s| * σ) := by ring
      _ ≤ K * T := by gcongr
  have hplace := (nearby_mul hreal).abs_sub_le (hproduct (by norm_num) hfar)
  have hmiddle := (nearby_mul hcenter).abs_sub_le (hproduct (by norm_num) hx)
  have hscaled : |(value y - (value x + ρ)) * value s| ≤ 1 / 10 ^ 7 * T :=
    hproduct (by norm_num) (by linarith)
  rw [abs_le] at hplace hmiddle hscaled ⊢
  constructor <;> linarith

/-- Each half of a ring has the scaled radius of the ring, but for
    rounding. -/
theorem abs_half_sub_le (hσ : 2 ^ (-1000 : ℤ) ≤ σ) {x y r s : Float} {q : ℚ}
    (hy : Nearby (value x + value r) (value y) ∨ Nearby (value x - value r) (value y))
    (hreal : (y * s).isFinite = true) (hcenter : (x * s).isFinite = true)
    (hx : |value x| ≤ 10 ^ 8 * σ) (hq : 0 ≤ q) (hqle : q ≤ 2 * 10 ^ 5 * σ)
    (hr : |value r - q| ≤ σ / 10 ^ 9) :
    abs (|value (y * s) - value (x * s)| - |value s| * q)
      ≤ max 1 |value s| * σ * (3 / 10 ^ 7) := by
  have hσ0 : 0 < σ := lt_of_lt_of_le (by positivity) hσ
  have hradius : |value r| ≤ 3 * 10 ^ 5 * σ := by
    have := abs_sub_abs_le_abs_sub (value r) q
    rw [abs_of_nonneg hq] at this
    linarith
  -- on either side
  have hside : abs (|value (y * s) - value (x * s)| - |value s| * |value r|)
      ≤ max 1 |value s| * σ * (2 / 10 ^ 7) := by
    rcases hy with hy | hy
    · rw [← abs_mul]
      exact (abs_abs_sub_abs_le _ _).trans (abs_place_sub_le hσ hy hreal hcenter hx hradius)
    · rw [← abs_neg (value r), ← abs_mul]
      rw [sub_eq_add_neg] at hy
      rw [← abs_neg] at hradius
      exact (abs_abs_sub_abs_le _ _).trans (abs_place_sub_le hσ hy hreal hcenter hx hradius)
  have hspaced : abs (|value s| * |value r| - |value s| * q)
      ≤ max 1 |value s| * σ * (1 / 10 ^ 9) := by
    rw [← mul_sub, abs_mul, abs_abs]
    have hdiff : abs (|value r| - q) ≤ σ / 10 ^ 9 := by
      have hle := abs_abs_sub_abs_le (value r) q
      rw [abs_of_nonneg hq] at hle
      exact hle.trans hr
    calc |value s| * abs (|value r| - q) ≤ max 1 |value s| * (σ / 10 ^ 9) := by
          gcongr
          exact le_max_right _ _
      _ = max 1 |value s| * σ * (1 / 10 ^ 9) := by ring
  have htriangle := abs_sub_le |value (y * s) - value (x * s)| (|value s| * |value r|)
    (|value s| * q)
  have hpos : 0 ≤ max 1 |value s| * σ := by positivity
  linarith

/-! ## The radius of the outermost ring -/

/-- A pocket that is wide enough for the cutter leaves it room. -/
theorem pathRadius_nonneg {radius d : Float} (hsize : ¬ 2 * radius ≤ d)
    (hreal : (radius - d / 2).isFinite = true) : 0 ≤ value (radius - d / 2) := by
  obtain ⟨hradius, hhalf⟩ := isFinite_of_sub hreal
  obtain ⟨htworeal, htwo⟩ : (2 : Float).isFinite = true ∧ value 2 = 2 :=
    value_ofNat (n := 2) (by decide)
  have hzero : Short 0 := short_natCast (n := 0) (by decide)
  by_contra hnegative
  have hless : value radius < value (d / 2) := by
    by_contra hge
    exact hnegative ((nearby_sub hreal).ge 0 hzero (by linarith))
  -- rounding the half does not go past the radius
  have hlesshalf : value radius < value d / 2 := by
    by_contra hge
    have hnear := nearby_div hhalf htworeal (by rw [htwo]; norm_num)
    rw [htwo] at hnear
    have := hnear.le _ (short_value hradius) (by linarith)
    linarith
  refine hsize (le_of_rounds (rounds_mul htworeal hradius) (isFinite_of_div hhalf) ?_)
  rw [htwo]
  linarith

/-- The tolerance in counting steps is small. -/
theorem value_stepTolerance : 0 ≤ value stepTolerance ∧ value stepTolerance ≤ 2 / 10 ^ 9 := by
  have hvalue : value stepTolerance
      = factor .positive * ((4835703278458517 : Nat) * 2 ^ (-82 : Int)) := rfl
  rw [hvalue, factor]
  norm_num

/-- Steps are counted from a real quotient. -/
theorem isFinite_of_stepCount {what : String} {p step : Float} {n : Nat}
    (h : stepCount what p step = .ok n) (hp : p.isFinite = true) (hnonneg : 0 ≤ value p)
    (hstep : step.isFinite = true) (hpos : 0 < value step) :
    (p / step).isFinite = true ∧ 0 ≤ value (p / step)
      ∧ (p / step - stepTolerance).isFinite = true := by
  obtain ⟨-, hle, -⟩ := stepCount_eq_ok h
  obtain ⟨hmax, -⟩ := value_ofNat (n := maxSteps) (by decide)
  have hzero : Short 0 := short_natCast (n := 0) (by decide)
  have hquotient := rounds_div hp hstep hpos.ne'
  have hv : 0 ≤ value p / value step := by positivity
  have hreal : (p / step).isFinite = true := by
    obtain ⟨w, hw, ⟨hreal, -⟩ | ⟨s, hinfinite, hgreat⟩⟩ := hquotient
    · exact hreal
    · cases s with
      | positive =>
          -- an infinite quotient is more than the most steps
          exact absurd hle (not_le_of_infinity (unpack_sub_of_infinity hinfinite rfl) hmax)
      | negative =>
          have hge := hw.ge 0 hzero hv
          have hlimit : 0 < limit := by
            rw [limit]
            positivity
          rw [factor] at hgreat
          linarith
  have hge := (hquotient.nearby hreal).ge 0 hzero hv
  have htol := value_stepTolerance.2
  exact ⟨hreal, hge, (rounds_sub hreal rfl).isFinite_of_le (by linarith) hle hmax⟩

/-- So many steps are counted that none is longer than the limit, but for
    rounding. -/
theorem le_of_stepCount {what : String} {p step : Float} {n : Nat}
    (h : stepCount what p step = .ok n) (hp : p.isFinite = true) (hnonneg : 0 ≤ value p)
    (hσ : 2 ^ (-1000 : ℤ) ≤ value step) : value p ≤ n * value step * (1 + 1 / 10 ^ 8) := by
  have hσ0 : 0 < value step := lt_of_lt_of_le (by positivity) hσ
  have hone : (1 : ℚ) ≤ n := by exact_mod_cast one_le_stepCount h
  have hstep : step.isFinite = true := by
    by_contra hnot
    rw [value_of_not_isFinite hnot] at hσ0
    exact lt_irrefl _ hσ0
  obtain ⟨hreal, hge, hreal'⟩ := isFinite_of_stepCount h hp hnonneg hstep hσ0
  obtain ⟨htol, htolle⟩ := value_stepTolerance
  have hleast : least ≤ 1 / 2 ^ 74 := least_le (zpow_le_one_of_nonpos₀ one_le_two (by norm_num))
  -- from the number of steps back to the quotient
  have hceil : value (p / step - stepTolerance) ≤ n := by
    refine (le_ceil _).trans ?_
    rw [(stepCount_eq_ok h).2.2]
    exact_mod_cast Nat.le_max_right 1 _
  have hclose := (nearby_div hreal hstep hσ0.ne').close
  have hv : 0 ≤ value p / value step := by positivity
  rw [abs_of_nonneg hv] at hclose
  have hbound : |value (p / step) - value stepTolerance|
      ≤ value (p / step) + value stepTolerance := by
    rw [abs_le]
    constructor <;> linarith
  have hclose' := (nearby_sub hreal').abs_sub_le hbound
  have hratio : value p / value step ≤ n * (1 + 1 / 10 ^ 8) := by
    linarith [(abs_le.mp hclose).1, (abs_le.mp hclose').1]
  rw [div_le_iff₀ hσ0] at hratio
  linarith

/-- Two rings that follow each other are a step apart, but for rounding. -/
theorem abs_step_le {S P ρ ρ' : ℚ} {n i : Nat} (hσ : 0 < σ) (hS : 0 ≤ S) (hP : 0 ≤ P)
    (hn : 1 ≤ n) (hle : P ≤ n * σ * (1 + 1 / 10 ^ 8))
    (hρ : |ρ - S * (P * i / n)| ≤ max 1 S * σ * (3 / 10 ^ 7))
    (hρ' : |ρ' - S * (P * (i + 1 : Nat) / n)| ≤ max 1 S * σ * (3 / 10 ^ 7)) :
    |ρ' - ρ| ≤ max 1 S * σ * (1 + 1 / 10 ^ 6) := by
  have hstep : S * (P / n) ≤ max 1 S * σ * (1 + 1 / 10 ^ 8) := by
    rw [mul_assoc]
    gcongr
    · exact le_max_right _ _
    · rw [div_le_iff₀ (by exact_mod_cast hn)]
      linarith
  have hnext : S * (P * (i + 1 : Nat) / n) = S * (P * i / n) + S * (P / n) := by
    push_cast
    ring
  have hforth : 0 ≤ S * (P / n) := by positivity
  have hT : 0 ≤ max 1 S * σ := by positivity
  rw [abs_le] at hρ hρ' ⊢
  constructor <;> linarith [hρ.1, hρ.2, hρ'.1, hρ'.2]

end Rounding

/-! ## The rings of a pass -/

section Rings

variable {m : Machine} {center : Vec2} {pathRadius : Float} {n : Nat} {p : Vec3}
  {stage : List Segment}

/-- Both ends of a ring and its centre are real on the machine. -/
theorem isFinite_of_traces (htraces : Traces m center (roundStrokes center pathRadius n) p stage)
    (hplaced : ∀ s ∈ stage, s.action.Placed) {i : Nat} (hone : 1 ≤ i) (hi : i ≤ n) :
    ((center.x - ringRadius pathRadius n i) * m.scale.x).isFinite = true
      ∧ ((center.x + ringRadius pathRadius n i) * m.scale.x).isFinite = true
      ∧ (center.x * m.scale.x).isFinite = true := by
  have hcut : ∀ goal, Stroke.arc goal center ∈ ringStrokes center (ringRadius pathRadius n i) →
      (m.spot goal).x.isFinite = true ∧ (m.spot center).x.isFinite = true := by
    intro goal hgoal
    refine real_of_mem_sideCuts (p := p) hplaced ?_
    rw [htraces.2]
    refine arc_mem_traced (List.mem_flatMap.mpr ⟨i, ?_, hgoal⟩)
    exact List.mem_range'_1.mpr ⟨hone, by omega⟩
  have hback := hcut ⟨center.x - ringRadius pathRadius n i, center.y⟩
    (List.mem_cons_of_mem _ List.mem_cons_self)
  have hforth := hcut ⟨center.x + ringRadius pathRadius n i, center.y⟩
    (List.mem_cons_of_mem _ (List.mem_cons_of_mem _ List.mem_cons_self))
  exact ⟨hback.1, hforth.1, hforth.2⟩

/-- The radii of a ring, zero for the middle. -/
noncomputable def ringAt (m : Machine) (center : Vec2) (pathRadius : Float) (n : Nat) :
    Nat → ℝ × ℝ
  | 0 => (0, 0)
  | i + 1 => ringRadii m center (ringRadius pathRadius n (i + 1))

/-- Rings lie evenly spaced on the machine, but for rounding. -/
theorem abs_ringAt_sub_le (hσ : 2 ^ (-1000 : ℤ) ≤ value m.stepover)
    (hcenter : |value center.x| ≤ 10 ^ 8 * value m.stepover)
    (htraces : Traces m center (roundStrokes center pathRadius n) p stage)
    (hplaced : ∀ s ∈ stage, s.action.Placed) (hn : 1 ≤ n) (hmax : n ≤ maxSteps)
    (hpath : 0 ≤ value pathRadius) (hle : value pathRadius ≤ 2 * 10 ^ 5 * value m.stepover)
    {i : Nat} (hi : i ≤ n) {a : ℝ}
    (ha : a = (ringAt m center pathRadius n i).1 ∨ a = (ringAt m center pathRadius n i).2) :
    ∃ ρ : ℚ, a = ρ ∧ |ρ - |value m.scale.x| * (value pathRadius * i / n)|
      ≤ max 1 |value m.scale.x| * value m.stepover * (3 / 10 ^ 7) := by
  have hσ0 : 0 < value m.stepover := lt_of_lt_of_le (by positivity) hσ
  cases i with
  | zero =>
      refine ⟨0, ?_, ?_⟩
      · rw [Rat.cast_zero]
        exact ha.elim id id
      · rw [Nat.cast_zero, mul_zero, zero_div, mul_zero, sub_zero, abs_zero]
        positivity
  | succ i =>
      obtain ⟨hback, hforth, hmiddle⟩ := isFinite_of_traces htraces hplaced (Nat.le_add_left 1 i) hi
      have hsum := isFinite_of_mul hforth
      have hring := abs_ringRadius_sub_le hσ (isFinite_of_add hsum).2 hn hmax hi hpath hle
      have hin : ((i + 1 : Nat) : ℚ) ≤ n := by exact_mod_cast hi
      have hshare : value pathRadius * (i + 1 : Nat) / n ≤ 2 * 10 ^ 5 * value m.stepover := by
        refine le_trans ?_ hle
        rw [div_le_iff₀ (by positivity)]
        exact mul_le_mul_of_nonneg_left hin hpath
      rcases ha with rfl | rfl
      · exact ⟨_, Vec2.distance_of_level rfl, abs_half_sub_le hσ
          (.inr (nearby_sub (isFinite_of_mul hback))) hback hmiddle hcenter (by positivity)
          hshare hring⟩
      · exact ⟨_, Vec2.distance_of_level rfl, abs_half_sub_le hσ (.inl (nearby_add hsum))
          hforth hmiddle hcenter (by positivity) hshare hring⟩

/-- **The rings of a pass** are no more than the limit apart where the drawing
    is not enlarged, and no more than the scaled limit where it is. -/
theorem ringsWithin_of_traces (hσ : 2 ^ (-1000 : ℤ) ≤ value m.stepover)
    (hcenter : |value center.x| ≤ 10 ^ 8 * value m.stepover)
    (hcount : stepCount "stepover" pathRadius m.stepover = .ok n)
    (hroom : pathRadius.isFinite = true → 0 ≤ value pathRadius)
    (htraces : Traces m center (roundStrokes center pathRadius n) p stage)
    (hplaced : ∀ s ∈ stage, s.action.Placed) :
    RingsWithin (max 1 |value m.scale.x| * value m.stepover * (1 + 1 / 10 ^ 6) : ℚ) n
      ((sideCuts p stage).filterMap SideCut.radius?) := by
  have hone := one_le_stepCount hcount
  have hmax := stepCount_le_maxSteps hcount
  -- the outermost ring is real, so is its radius
  have houter := (isFinite_of_add (isFinite_of_mul
    (isFinite_of_traces htraces hplaced hone le_rfl).2.1)).2
  have hreal : pathRadius.isFinite = true := isFinite_of_mul (isFinite_of_div houter)
  have hpath := hroom hreal
  have hle := le_of_stepCount hcount hreal hpath hσ
  have hσ0 : 0 < value m.stepover := lt_of_lt_of_le (by positivity) hσ
  have hle' : value pathRadius ≤ 2 * 10 ^ 5 * value m.stepover := by
    have hsteps : (n : ℚ) * value m.stepover ≤ 10 ^ 5 * value m.stepover := by
      gcongr
      exact_mod_cast hmax
    linarith
  have hnear : ∀ {i : Nat}, i ≤ n → ∀ a ∈ [(ringAt m center pathRadius n i).1,
      (ringAt m center pathRadius n i).2], ∃ ρ : ℚ, a = ρ
        ∧ |ρ - |value m.scale.x| * (value pathRadius * i / n)|
          ≤ max 1 |value m.scale.x| * value m.stepover * (3 / 10 ^ 7) := by
    intro i hi a ha
    rw [List.mem_cons, List.mem_singleton] at ha
    exact abs_ringAt_sub_le hσ hcenter htraces hplaced hone hmax hpath hle' hi ha
  refine ⟨(List.range' 1 n).map (ringAt m center pathRadius n), ?_, ?_, ?_⟩
  · rw [List.length_map, List.length_range']
  · rw [htraces.2, filterMap_radius_traced, filterMap_radius_roundStrokes]
    congr 1
    refine List.map_congr_left ?_
    intro i hi
    obtain ⟨j, rfl⟩ := Nat.exists_eq_add_of_le' (List.mem_range'_1.mp hi).1
    rfl
  · refine isChain_map_range' (f := ringAt m center pathRadius n) (k := 0) ?_
    intro i _ hi a ha b hb
    obtain ⟨ρ, rfl, hρ⟩ := hnear (by omega) a ha
    obtain ⟨ρ', rfl, hρ'⟩ := hnear (by omega) b hb
    exact_mod_cast abs_step_le hσ0 (abs_nonneg _) hpath hone hle hρ hρ'

end Rings

/-- **How far rings are apart.**  In every pass of a round pocket that gets
    through, the radii of each ring on the machine differ from those of the
    ring before it, and those of the first ring from zero, by no more than
    what the cutter may take sideways, enlarged as the drawing is, up to one
    part in a million.  The pocket must not lie so far out that rounding its
    place alone is more than that. -/
theorem rings_step_within {cx cy radius depth : Float} {job job' : Job}
    (h : circlePocket cx cy radius depth job = .ok () job')
    (hσ : 2 ^ (-1000 : ℤ) ≤ value job.machine.stepover)
    (hcenter : |value cx| ≤ 10 ^ 8 * value job.machine.stepover) :
    ∃ n, depthPasses depth job.machine.material.stepdown = .ok n
      ∧ ∃ rings, stepCount "stepover" (radius - job.machine.cutterDiameter / 2)
        job.machine.stepover = .ok rings
      ∧ InPasses depth n (fun _ p stage =>
          RingsWithin (max 1 |value job.machine.scale.x| * value job.machine.stepover
            * (1 + 1 / 10 ^ 6) : ℚ) rings ((sideCuts p stage).filterMap SideCut.radius?))
        job job' := by
  obtain ⟨rings, hrings, n, hn, hpasses⟩ := circlePocket_repeats h
  rw [circlePocket_eq] at h
  obtain ⟨plan, hplan, -⟩ := planned_eq_ok h
  obtain ⟨-, hsize, -⟩ := circlePlan_eq_ok hplan
  refine ⟨n, hn, rings, hrings, hpasses.imp ?_⟩
  intro _ p stage htraces hplaced
  refine ringsWithin_of_traces hσ ?_ hrings (pathRadius_nonneg hsize) htraces hplaced
  exact hcenter

theorem rings_step_within_threePasses :
    ∃ job', circlePocket 10 0 4 3 fresh = .ok () job'
      ∧ 2 ^ (-1000 : ℤ) ≤ value fresh.machine.stepover
      ∧ |value 10| ≤ 10 ^ 8 * value fresh.machine.stepover
      ∧ InPasses 3 3 (fun _ p stage =>
          RingsWithin (max 1 |value fresh.machine.scale.x| * value fresh.machine.stepover
            * (1 + 1 / 10 ^ 6) : ℚ) 2 ((sideCuts p stage).filterMap SideCut.radius?))
        fresh job' := by
  have hthrough : gotThrough (circlePocket 10 0 4 3 fresh) = true := by decide +kernel
  have hpasses : depthPasses 3 fresh.machine.material.stepdown = .ok 3 := by decide +kernel
  have hrings : stepCount "stepover" (4 - fresh.machine.cutterDiameter / 2)
      fresh.machine.stepover = .ok 2 := by decide +kernel
  have hone : 1 ≤ value fresh.machine.stepover := by
    obtain ⟨hreal, hvalue⟩ := value_ofNat (n := 1) (by decide)
    have hstepover : fresh.machine.stepover.isFinite = true := by decide +kernel
    have hle : Float.ofNat 1 ≤ fresh.machine.stepover := by decide +kernel
    rw [le_iff_value hreal hstepover, hvalue] at hle
    exact_mod_cast hle
  have hσ : 2 ^ (-1000 : ℤ) ≤ value fresh.machine.stepover :=
    (zpow_le_one_of_nonpos₀ one_le_two (by norm_num)).trans hone
  have hcenter : |value 10| ≤ 10 ^ 8 * value fresh.machine.stepover := by
    have hten : value 10 = (10 : Nat) := (value_ofNat (n := 10) (by decide)).2
    rw [hten, Nat.abs_cast]
    push_cast
    linarith
  obtain ⟨_, job', hrun⟩ := eq_ok_of_gotThrough hthrough
  obtain ⟨n, hn, rings, hcount, hwithin⟩ := rings_step_within hrun hσ hcenter
  have hthree : n = 3 := Except.ok.inj (hn.symm.trans hpasses)
  have htwo : rings = 2 := Except.ok.inj (hcount.symm.trans hrings)
  rw [hthree, htwo] at hwithin
  exact ⟨job', hrun, hσ, hcenter, hwithin⟩

/-- A machine as it comes that draws everything at twice its size. -/
def doubled : Job := { fresh with machine.scale := ⟨2, 2⟩ }

/-- There rings are wider apart than what the cutter may take sideways. -/
theorem rings_step_beyond_doubled :
    ∃ job', circlePocket 0 0 3.5875 1 doubled = .ok () job'
      ∧ (sideCuts doubled.machine.position job'.path.segments).filterMap SideCut.radius?
        = [2, 2, 4, 4]
      ∧ value doubled.machine.stepover * (1 + 1 / 10 ^ 6) < 2 := by
  have hthrough : gotThrough (circlePocket 0 0 3.5875 1 doubled) = true := by decide +kernel
  have hcuts : sideCuts doubled.machine.position
      (endState (circlePocket 0 0 3.5875 1 doubled)).path.segments
        = [⟨.linear, ⟨2, 0⟩⟩, ⟨.arc ⟨0, 0⟩, ⟨-2, 0⟩⟩, ⟨.arc ⟨0, 0⟩, ⟨2, 0⟩⟩,
          ⟨.linear, ⟨4, 0⟩⟩, ⟨.arc ⟨0, 0⟩, ⟨-4, 0⟩⟩, ⟨.arc ⟨0, 0⟩, ⟨4, 0⟩⟩] := by
    decide +kernel
  have hradius : ∀ {x : Float} {ρ : ℚ}, value x = ρ →
      Vec2.distance ⟨x, 0⟩ ⟨0, 0⟩ = (|ρ| : ℚ) := by
    rintro x _ rfl
    have hlevel : Vec2.distance ⟨x, 0⟩ ⟨0, 0⟩ = (|value x - value 0| : ℚ) :=
      Vec2.distance_of_level rfl
    have hzero : value 0 = 0 := rfl
    rw [hlevel, hzero, sub_zero]
  have htwo : value 2 = factor .positive * ((4503599627370496 : Nat) * 2 ^ (-51 : Int)) := rfl
  have htwo' : value (-2) = factor .negative * ((4503599627370496 : Nat) * 2 ^ (-51 : Int)) := rfl
  have hfour : value 4 = factor .positive * ((4503599627370496 : Nat) * 2 ^ (-50 : Int)) := rfl
  have hfour' : value (-4) = factor .negative * ((4503599627370496 : Nat) * 2 ^ (-50 : Int)) :=
    rfl
  have hstepover : doubled.machine.stepover = 1.27 := by decide +kernel
  have hvalue : value 1.27 = factor .positive * ((5719571526760530 : Nat) * 2 ^ (-52 : Int)) :=
    rfl
  obtain ⟨_, job', hrun⟩ := eq_ok_of_gotThrough hthrough
  rw [hrun, endState] at hcuts
  refine ⟨job', hrun, ?_, ?_⟩
  · rw [hcuts]
    show [Vec2.distance ⟨-2, 0⟩ ⟨0, 0⟩, Vec2.distance ⟨2, 0⟩ ⟨0, 0⟩,
      Vec2.distance ⟨-4, 0⟩ ⟨0, 0⟩, Vec2.distance ⟨4, 0⟩ ⟨0, 0⟩] = _
    rw [hradius htwo, hradius htwo', hradius hfour, hradius hfour']
    norm_num [factor]
  · rw [hstepover, hvalue, factor]
    norm_num

end Machining

end MillScript
