import MillScript.Proofs.Lengths
import MillScript.Proofs.Machining.Faults

/-! # The ends of arc grooves

    A groove along an arc is refused if its start is at the centre or its
    ends are not equally far from it.  Both checks compare doubles, so they
    let through what is not a number.  A distance is always a number, but the
    difference of two infinite ones is not: ends that are both too far away
    for a double are accepted however far apart they are. -/

namespace MillScript

open Decimal Float.Model

/-- A vector whose coordinates are real numbers. -/
def Vec2.Real (v : Vec2) : Prop := v.x.isFinite = true ∧ v.y.isFinite = true

/-- The distance of two points with real coordinates is not negative. -/
theorem hasSign_distance {a b : Vec2} (ha : a.Real) (hb : b.Real) :
    HasSign .positive (a - b).length.toModel.unpack :=
  hasSign_length (rounds_sub ha.1 hb.1).isNaN_eq_false (rounds_sub ha.2 hb.2).isNaN_eq_false

namespace Decimal

/-- A finite number is finite without its sign. -/
theorem isFinite_abs {x : Float} (h : x.isFinite = true) : x.abs.isFinite = true := by
  show (Float.Model.pack x.toModel.unpack.abs).unpack.isFinite = true
  obtain ⟨s, hx⟩ | ⟨s, m, e, hm, hx⟩ := unpack_of_isFinite h
  · rw [hx]
    cases s <;> rfl
  · have he := (unpack_bounds hx).2
    rw [hx]
    exact isFinite_pack hm he

/-- Infinity without its sign is the positive one. -/
theorem unpack_abs_of_infinity {x : Float} {s : UnpackedFloat.Sign}
    (h : x.toModel.unpack = .infinity s) : x.abs.toModel.unpack = .infinity .positive := by
  show (Float.Model.pack x.toModel.unpack.abs).unpack = _
  rw [h]
  cases s <;> rfl

/-- No real number reaches what is infinite. -/
theorem lt_of_infinity {x y : Float} (hx : x.isFinite = true)
    (hy : y.toModel.unpack = .infinity .positive) : x < y := by
  rw [lt_iff_compare, hy]
  obtain ⟨s, hx⟩ | ⟨s, m, e, hm, hx⟩ := unpack_of_isFinite hx
  · rw [hx]
    rfl
  · rw [hx]
    cases s <;> rfl

/-- The order of finite numbers is total. -/
theorem le_of_not_lt {x y : Float} (hx : x.isFinite = true) (hy : y.isFinite = true)
    (h : ¬ x < y) : y ≤ x := by
  rw [lt_iff_value hx hy, not_lt] at h
  rw [le_iff_value hy hx]
  exact h

/-- A number that is not negative is real or infinite. -/
theorem HasSign.cases {x : Float} (h : HasSign .positive x.toModel.unpack) :
    x.isFinite = true ∨ x.toModel.unpack = .infinity .positive := by
  show x.toModel.unpack.isFinite = true ∨ _
  generalize x.toModel.unpack = u at h
  cases u with
  | notANumber => exact h.elim
  | infinity s => exact .inr (congrArg _ h)
  | zero s => exact .inl rfl
  | finite s m e hm => exact .inl rfl

/-- The difference of a real number and an infinite one. -/
theorem exists_unpack_sub {x y : Float}
    (h : x.isFinite = true ∧ y.toModel.unpack = .infinity .positive
      ∨ x.toModel.unpack = .infinity .positive ∧ y.isFinite = true) :
    ∃ s, (x - y).toModel.unpack = .infinity s := by
  rcases h with ⟨hx, hy⟩ | ⟨hx, hy⟩
  · have hsub : (x - y).toModel.unpack = (Float.Model.pack (UnpackedFloat.sub .binary64
      x.toModel.unpack y.toModel.unpack)).unpack := rfl
    rw [hsub, hy]
    obtain ⟨s, hx⟩ | ⟨s, m, e, hm, hx⟩ := unpack_of_isFinite hx
    · rw [hx]
      exact ⟨.negative, unpack_pack_infinity .negative⟩
    · rw [hx]
      exact ⟨.negative, unpack_pack_infinity .negative⟩
  · exact ⟨.positive, unpack_sub_of_infinity hx hy⟩

end Decimal

namespace Machining

theorem isFinite_arcTolerance : arcTolerance.isFinite = true := rfl

/-- A difference that is not above the tolerance is not infinite. -/
theorem not_infinity_of_accepted {d : Float} (h : ¬ arcTolerance < d.abs)
    {s : UnpackedFloat.Sign} : d.toModel.unpack ≠ .infinity s := by
  intro hinfinite
  exact h (lt_of_infinity isFinite_arcTolerance (unpack_abs_of_infinity hinfinite))

/-- What the two checks of distances let through. -/
theorem distances_of_accepted {r r' : Float} (hr : HasSign .positive r.toModel.unpack)
    (hr' : HasSign .positive r'.toModel.unpack) (hstart : ¬ r < arcTolerance)
    (hstop : ¬ arcTolerance < (r - r').abs) :
    r.isFinite = true ∧ r'.isFinite = true ∧ arcTolerance ≤ r ∧ (r - r').abs ≤ arcTolerance
      ∨ r.isInf = true ∧ r'.isInf = true := by
  -- a difference that is neither real nor infinite takes two infinite distances
  rcases hr.cases with hreal | hinfinite
  · rcases hr'.cases with hreal' | hinfinite'
    · refine .inl ⟨hreal, hreal', le_of_not_lt hreal isFinite_arcTolerance hstart, ?_⟩
      obtain ⟨-, -, ⟨hdifference, -⟩ | ⟨s, hdifference, -⟩⟩ := rounds_sub hreal hreal'
      · exact le_of_not_lt isFinite_arcTolerance (isFinite_abs hdifference) hstop
      · exact absurd hdifference (not_infinity_of_accepted hstop)
    · obtain ⟨s, hdifference⟩ := exists_unpack_sub (.inl ⟨hreal, hinfinite'⟩)
      exact absurd hdifference (not_infinity_of_accepted hstop)
  · rcases hr'.cases with hreal' | hinfinite'
    · obtain ⟨s, hdifference⟩ := exists_unpack_sub (.inr ⟨hinfinite, hreal'⟩)
      exact absurd hdifference (not_infinity_of_accepted hstop)
    · refine .inr ⟨?_, ?_⟩
      · show r.toModel.unpack.isInf = true
        rw [hinfinite]
        rfl
      · show r'.toModel.unpack.isInf = true
        rw [hinfinite']
        rfl

/-- Whatever work does not get through fails in execution. -/
theorem exists_ok_or_error {x : Machining Unit} (h : FailsInExecution x) (job : Job) :
    (∃ job', x job = .ok () job') ∨ ∃ f job', x job = .error (.execution f) job' := by
  cases hx : x job with
  | ok u job' => exact .inl ⟨job', rfl⟩
  | error f job' =>
      have hkind := h job f job' hx
      cases f with
      | execution r => exact .inr ⟨r, job', rfl⟩
      | grammar r => cases hkind
      | naming r => cases hkind
      | typing r => cases hkind
      | binding r => cases hkind
      | configuration r => cases hkind

/-- **The ends of an arc are equally far from its centre**, and its start is
    not at the centre, or the groove is refused; but ends that are both
    infinitely far away pass. -/
theorem arc_ends_equidistant {start stop center : Vec2} (hstart : start.Real)
    (hstop : stop.Real) (hcenter : center.Real) (depth : Float) (job : Job) :
    (∃ job', arcGroove start stop center depth job = .ok () job'
      ∧ ((start - center).length.isFinite = true ∧ (stop - center).length.isFinite = true
          ∧ arcTolerance ≤ (start - center).length
          ∧ ((start - center).length - (stop - center).length).abs ≤ arcTolerance
        ∨ (start - center).length.isInf = true ∧ (stop - center).length.isInf = true))
      ∨ ∃ f job', arcGroove start stop center depth job = .error (.execution f) job' := by
  rcases exists_ok_or_error (failsInExecution_arcGroove start stop center depth) job with
    ⟨job', hrun⟩ | hfault
  · refine .inl ⟨job', hrun, ?_⟩
    rw [arcGroove_eq] at hrun
    obtain ⟨p, hplan, -⟩ := planned_eq_ok hrun
    obtain ⟨-, hnear, hfar, -⟩ := arcPlan_eq_ok hplan
    exact distances_of_accepted (hasSign_distance hstart hcenter)
      (hasSign_distance hstop hcenter) hnear hfar
  · exact .inr hfault

theorem arc_ends_equidistant_fiveApart :
    Vec2.Real ⟨4, 5⟩ ∧ Vec2.Real ⟨-4, 1⟩ ∧ Vec2.Real ⟨1, 1⟩
      ∧ ∃ job', arcGroove ⟨4, 5⟩ ⟨-4, 1⟩ ⟨1, 1⟩ 2 fresh = .ok () job'
        ∧ arcTolerance ≤ ((⟨4, 5⟩ : Vec2) - ⟨1, 1⟩).length
        ∧ (((⟨4, 5⟩ : Vec2) - ⟨1, 1⟩).length - ((⟨-4, 1⟩ : Vec2) - ⟨1, 1⟩).length).abs
          ≤ arcTolerance := by
  have hstart : Vec2.Real ⟨4, 5⟩ := ⟨rfl, rfl⟩
  have hstop : Vec2.Real ⟨-4, 1⟩ := ⟨rfl, rfl⟩
  have hcenter : Vec2.Real ⟨1, 1⟩ := ⟨rfl, rfl⟩
  have hthrough : gotThrough (arcGroove ⟨4, 5⟩ ⟨-4, 1⟩ ⟨1, 1⟩ 2 fresh) = true := by
    decide +kernel
  have hreal : ((⟨4, 5⟩ : Vec2) - ⟨1, 1⟩).length.isInf = false := by decide +kernel
  refine ⟨hstart, hstop, hcenter, ?_⟩
  rcases arc_ends_equidistant hstart hstop hcenter 2 fresh with
    ⟨job', hrun, ⟨-, -, hnear, hfar⟩ | ⟨hinf, -⟩⟩ | ⟨f, job', hfault⟩
  · exact ⟨job', hrun, hnear, hfar⟩
  · rw [hreal] at hinf
    cases hinf
  · rw [hfault] at hthrough
    cases hthrough

/-- Ends of which one is much farther from the centre than the other. -/
theorem arc_ends_unequal_bothFar :
    gotThrough (arcGroove ⟨1e200, 0⟩ ⟨0, 1e300⟩ ⟨0, 0⟩ 1 fresh) = true
      ∧ ((⟨1e200, 0⟩ : Vec2) - ⟨0, 0⟩).length.isFinite = false
      ∧ ((⟨0, 1e300⟩ : Vec2) - ⟨0, 0⟩).length.isFinite = false := by
  decide +kernel

end Machining

end MillScript
