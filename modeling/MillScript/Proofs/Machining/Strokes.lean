import MillScript.Proofs.Machining.OnRecord
import MillScript.Proofs.Machining.Recorded

/-! # What work appends to a toolpath

    A straight move to where the tool is known to be is left out, so what a
    piece of work appends depends on where the tool stands before it.  It
    depends on that place only as far as `==` can tell: `Job.Over` says where
    the tool stands up to `==`, and `Goes` says for each move, and from there
    for moves in sequence, which cuts it appends and where it leaves the
    tool.  The cuts of `Stroke`s, the lines and arcs of a drawing, are so
    known before the tool moves: they are `traced`. -/

namespace MillScript

/-! ## Steps and where they leave the tool -/

/-- The last move of both, if the second has one. -/
theorem lastTarget_append (steps steps' : List Segment) :
    lastTarget (steps ++ steps') = (lastTarget steps').or (lastTarget steps) := by
  rw [lastTarget, lastTarget, lastTarget, List.filterMap_append, List.getLast?_append]

/-- Where steps leave a tool that stood at a point. -/
def standing (p : Vec3) (steps : List Segment) : Vec3 := (lastTarget steps).getD p

theorem standing_append (p : Vec3) (steps steps' : List Segment) :
    standing p (steps ++ steps') = standing (standing p steps) steps' := by
  rw [standing, standing, standing, lastTarget_append]
  cases lastTarget steps' <;> rfl

theorem standing_cons (p : Vec3) (s : Segment) (rest : List Segment) :
    standing p (s :: rest) = standing (s.target?.getD p) rest := by
  rw [← List.singleton_append, standing_append]
  congr 1
  rw [standing, lastTarget]
  cases h : s.target? <;> simp [h]

namespace Segment

/-- The height of a cut. -/
def cutHeight? (s : Segment) : Option Float :=
  match s.action with
  | .move .rapid _ _ => none
  | .move _ target _ => some target.z
  | _ => none

/-- A step is no cut, or a cut at a height of a kind. -/
def CutsAt (P : Float → Prop) (s : Segment) : Prop := ∀ z, s.cutHeight? = some z → P z

/-- What does not cut cuts at no wrong height. -/
theorem cutsAt_of_none {s : Segment} (h : s.cutHeight? = none) (P : Float → Prop) :
    s.CutsAt P := by
  intro z hz
  rw [h] at hz
  cases hz

end Segment

/-- A cut that is no plunge: how it is made, with the centre of an arc, and
    where it leads on the plane of the machine. -/
structure SideCut where
  kind : Move
  goal : Vec2
deriving DecidableEq

/-- What a step cuts sideways from a tool at a height.  A straight cut that
    changes the height is a plunge. -/
def Segment.sideCut? (z : Float) (s : Segment) : Option SideCut :=
  match s.action with
  | .move (.arc center) target _ => some ⟨.arc center, ⟨target.x, target.y⟩⟩
  | .move .linear target _ =>
    if target.z == z then some ⟨.linear, ⟨target.x, target.y⟩⟩ else none
  | _ => none

/-- What steps cut sideways, from a tool at a point. -/
def sideCuts (p : Vec3) : List Segment → List SideCut
  | [] => []
  | s :: rest => (s.sideCut? p.z).toList ++ sideCuts (s.target?.getD p) rest

/-- The side cuts of later steps start from where the earlier ones led. -/
theorem sideCuts_append (p : Vec3) (steps steps' : List Segment) :
    sideCuts p (steps ++ steps') = sideCuts p steps ++ sideCuts (standing p steps) steps' := by
  induction steps generalizing p with
  | nil => rfl
  | cons s rest ih =>
      rw [List.cons_append, sideCuts, sideCuts, ih, standing_cons, List.append_assoc]

/-! ## Where the tool stands -/

/-- A point of the drawing on the plane of the machine. -/
def Machine.spot (m : Machine) (v : Vec2) : Vec2 := ⟨v.x * m.scale.x, v.y * m.scale.y⟩

/-- A point of the drawing is at one place on all machines that are set up
    alike. -/
theorem Machine.place_of_setup {m m' : Machine} (h : m'.setup = m.setup) (v : Vec2) (z : Float) :
    m'.place v.x v.y z = ⟨(m.spot v).x, (m.spot v).y, z⟩ := by
  rw [eq_of_setup h]
  rfl

/-- A place above or below a point of the plane. -/
def Vec3.Over (p : Vec2) (v : Vec3) : Prop := (v.x == p.x) = true ∧ (v.y == p.y) = true

/-- The tool stands over a point of the plane at a height, on a machine that
    is set up like another one. -/
structure Job.Over (m : Machine) (p : Vec2) (z : Float) (job : Job) : Prop where
  setup : job.machine.setup = m.setup
  known : job.machine.positionKnown = true
  point : job.machine.position.Over p
  height : (job.machine.position.z == z) = true

/-- Machines that are set up alike have one configuration. -/
theorem Job.Over.config {m : Machine} {p : Vec2} {z : Float} {job : Job} (h : Over m p z job) :
    job.machine.config = m.config := by
  rw [Machine.eq_of_setup h.setup]

/-- One job grew out of another by steps that moved its tool. -/
structure Job.Grew (steps : List Segment) (j j' : Job) : Prop where
  segments : j'.path.segments = j.path.segments ++ steps
  position : j'.machine.position = standing j.machine.position steps

/-- It grew by steps to real places with given side cuts, and with cuts at
    heights of a kind only. -/
structure Job.Went (P : Float → Prop) (cuts : List SideCut) (steps : List Segment)
    (j j' : Job) : Prop extends Job.Grew steps j j' where
  sideCuts : sideCuts j.machine.position steps = cuts
  heights : ∀ s ∈ steps, s.CutsAt P
  placed : ∀ s ∈ steps, s.action.Placed

namespace Job

variable {P : Float → Prop} {cuts cuts' : List SideCut} {steps steps' : List Segment}
  {j j' j'' : Job}

theorem Grew.refl (j : Job) : Grew [] j j :=
  ⟨(List.append_nil _).symm, rfl⟩

theorem Grew.trans (h : Grew steps j j') (h' : Grew steps' j' j'') :
    Grew (steps ++ steps') j j'' := by
  constructor
  · rw [h'.segments, h.segments, List.append_assoc]
  · rw [h'.position, h.position, standing_append]

theorem Went.refl (P : Float → Prop) (j : Job) : Went P [] [] j j :=
  ⟨.refl j, rfl, fun _ hs => absurd hs List.not_mem_nil, fun _ hs => absurd hs List.not_mem_nil⟩

/-- Ways can be put together, with the cuts of the first one first. -/
theorem Went.trans (h : Went P cuts steps j j') (h' : Went P cuts' steps' j' j'') :
    Went P (cuts ++ cuts') (steps ++ steps') j j'' := by
  refine ⟨h.toGrew.trans h'.toGrew, ?_, ?_, ?_⟩
  · rw [sideCuts_append, h.sideCuts, ← h.position, h'.sideCuts]
  · exact List.forall_mem_append.mpr ⟨h.heights, h'.heights⟩
  · exact List.forall_mem_append.mpr ⟨h.placed, h'.placed⟩

/-- A move more. -/
theorem went_push {kind : Move} {target : Vec3} {feed : Float} {m : Machine}
    (hm : m.position = target)
    (hcuts : (Segment.sideCut? j.machine.position.z
      ⟨.move kind target feed, j.path.line⟩).toList = cuts)
    (hheight : Segment.CutsAt P ⟨.move kind target feed, j.path.line⟩)
    (hplaced : Action.Placed (.move kind target feed)) :
    Went P cuts [⟨.move kind target feed, j.path.line⟩] j
      ⟨m, j.path.push (.move kind target feed)⟩ := by
  refine ⟨⟨Toolpath.segments_push _ _, hm⟩, ?_, ?_, ?_⟩
  · rw [MillScript.sideCuts, hcuts, MillScript.sideCuts, List.append_nil]
  · exact List.forall_mem_singleton.mpr hheight
  · exact List.forall_mem_singleton.mpr hplaced

end Job

namespace Machining

open Job

/-- A straight move that gets through was left out, because the tool is known
    to be there, or is recorded. -/
theorem travel_eq_ok {kind : Move} {target : Vec3} {feed : Float} {job job' : Job} {u : Unit}
    (h : travel kind target feed job = .ok u job') :
    target.isFinite = true
      ∧ (job.machine.positionKnown = true ∧ (target == job.machine.position) = true ∧ job' = job
        ∨ (job.machine.positionKnown = true → (target == job.machine.position) = false)
          ∧ job' = ⟨{ job.machine with position := target, positionKnown := true },
              job.path.push (.move kind target feed)⟩) := by
  rw [travel] at h
  split at h
  · cases h
  · rename_i hfinite
    refine ⟨by simpa using hfinite, ?_⟩
    split at h
    · rename_i hsame
      rw [Bool.and_eq_true] at hsame
      injection h with _ hjob
      exact .inl ⟨hsame.1, hsame.2, hjob.symm⟩
    · rename_i hother
      injection h with _ hjob
      refine .inr ⟨?_, hjob.symm⟩
      intro hknown
      simpa [hknown] using hother

/-- A straight move has no centre that could be out of range. -/
theorem placed_of_straight {kind : Move} {target : Vec3} (feed : Float)
    (hkind : kind = .rapid ∨ kind = .linear) (h : target.isFinite = true) :
    Action.Placed (.move kind target feed) := by
  refine ⟨h, ?_⟩
  rintro center rfl
  rcases hkind with hkind | hkind <;> cases hkind

/-! ## Strokes of the drawing -/

/-- A line or a counterclockwise arc of the drawing, by where it ends. -/
inductive Stroke where
  | line (goal : Vec2)
  | arc (goal center : Vec2)
deriving DecidableEq

namespace Stroke

/-- Where a stroke ends. -/
def goal : Stroke → Vec2
  | .line goal => goal
  | .arc goal _ => goal

/-- Cuts a stroke from where the tool is. -/
def draw : Stroke → Machining Unit
  | .line goal => cut goal.x goal.y
  | .arc goal center => Machining.arc goal.x goal.y center.x center.y

/-- What is cut for a stroke from a point of the plane: nothing for a line to
    that point. -/
def cuts (m : Machine) (p : Vec2) : Stroke → List SideCut
  | .line goal => if m.spot goal == p then [] else [⟨.linear, m.spot goal⟩]
  | .arc goal center => [⟨.arc (m.spot center), m.spot goal⟩]

end Stroke

/-- What is cut for strokes one after the other. -/
def traced (m : Machine) (p : Vec2) : List Stroke → List SideCut
  | [] => []
  | s :: rest => s.cuts m p ++ traced m (m.spot s.goal) rest

/-- Where strokes lead. -/
def leadsTo (m : Machine) (p : Vec2) : List Stroke → Vec2
  | [] => p
  | s :: rest => leadsTo m (m.spot s.goal) rest

/-! ## Work from a place to a place -/

/-- Work on a machine set up like `m` that starts with the tool over `p` at
    height `z` and gets through leaves it over `p'` at `z'`, cuts sideways
    just `cuts`, and cuts at heights of the kind `P` only. -/
def Goes (m : Machine) (p : Vec2) (z : Float) (x : Machining Unit) (p' : Vec2) (z' : Float)
    (P : Float → Prop) (cuts : List SideCut) : Prop :=
  ∀ job u job', Over m p z job → x job = .ok u job' →
    Over m p' z' job' ∧ ∃ steps, Went P cuts steps job job'

section Goes

variable {m : Machine} {p p' p'' : Vec2} {z z' z'' : Float} {P : Float → Prop}
  {cuts cuts' : List SideCut}

theorem goes_pure (u : Unit) : Goes m p z (pure u) p z P [] := by
  intro job u' job' hover hrun
  injection hrun with _ hjob
  rw [← hjob]
  exact ⟨hover, [], .refl P job⟩

/-- Work goes on from the point and the height where the work before it
    ended. -/
theorem Goes.bind {x : Machining Unit} {f : Unit → Machining Unit}
    (hx : Goes m p z x p' z' P cuts) (hf : ∀ u, Goes m p' z' (f u) p'' z'' P cuts') :
    Goes m p z (x >>= f) p'' z'' P (cuts ++ cuts') := by
  intro job u job' hover hrun
  obtain ⟨u', mid, hmid, hrun⟩ := bind_apply_eq_ok.mp hrun
  obtain ⟨hover', steps, hwent⟩ := hx job u' mid hover hmid
  obtain ⟨hover'', steps', hwent'⟩ := hf u' mid u job' hover' hrun
  exact ⟨hover'', steps ++ steps', hwent.trans hwent'⟩

/-- Work that makes no side cut after work that may. -/
theorem Goes.bindQuiet {x : Machining Unit} {f : Unit → Machining Unit}
    (hx : Goes m p z x p' z' P cuts) (hf : ∀ u, Goes m p' z' (f u) p'' z'' P []) :
    Goes m p z (x >>= f) p'' z'' P cuts := by
  have hgoes := hx.bind hf
  rw [List.append_nil] at hgoes
  exact hgoes

/-- What is read off the configuration is that of the machine. -/
theorem goes_clearOf {f : Float → Machining Unit} {height : Float}
    (h : Goes m p z (f (height + m.config.clearance)) p' z' P cuts) :
    Goes m p z (clearOf height >>= f) p' z' P cuts := by
  intro job u job' hover hrun
  rw [← hover.config] at h
  exact h job u job' hover hrun

/-! ## Single moves -/

/-- A straight move that is made from a known place, or left out. -/
theorem over_of_travel {kind : Move} {target : Vec3} {feed : Float} {job job' : Job} {u : Unit}
    (hover : Over m p z job) (hrun : travel kind target feed job = .ok u job')
    (hkind : kind = .rapid ∨ kind = .linear)
    (hcuts : ∀ line, (target == job.machine.position) = false →
      (Segment.sideCut? job.machine.position.z ⟨.move kind target feed, line⟩).toList = cuts)
    (hnone : (target == job.machine.position) = true → cuts = [])
    (hheight : ∀ line, Segment.CutsAt P ⟨.move kind target feed, line⟩) :
    Over m ⟨target.x, target.y⟩ target.z job' ∧ ∃ steps, Went P cuts steps job job' := by
  obtain ⟨hfinite, ⟨-, hsame, rfl⟩ | ⟨hother, rfl⟩⟩ := travel_eq_ok hrun
  · obtain ⟨hx, hy, hz⟩ := Vec3.beq_iff.mp hsame
    rw [hnone hsame]
    exact ⟨{ hover with point := ⟨beq_symm hx, beq_symm hy⟩, height := beq_symm hz }, [],
      .refl P job'⟩
  · obtain ⟨hx, hy, hz⟩ := Vec3.isFinite_iff.mp hfinite
    exact ⟨⟨hover.setup, rfl, ⟨beq_self_of_isFinite hx, beq_self_of_isFinite hy⟩,
      beq_self_of_isFinite hz⟩, _, went_push rfl (hcuts _ (hother hover.known)) (hheight _)
        (placed_of_straight feed hkind hfinite)⟩

/-- A rapid leads over its point, to its height, and cuts nothing. -/
theorem goes_rapid (v : Vec2) (z' : Float) :
    Goes m p z (rapid v.x v.y z') (m.spot v) z' P [] := by
  intro job u job' hover hrun
  have htravel : travel .rapid (job.machine.place v.x v.y z') 0 job = .ok u job' := hrun
  rw [Machine.place_of_setup hover.setup] at htravel
  exact over_of_travel hover htravel (.inl rfl) (fun _ _ => rfl) (fun _ => rfl)
    fun _ => Segment.cutsAt_of_none rfl P

/-- A move up or down stays over the point. -/
theorem over_of_height {kind : Move} {feed : Float} {job job' : Job} {u : Unit}
    (hover : Over m p z job)
    (hrun : travel kind { job.machine.position with z := z' } feed job = .ok u job')
    (hkind : kind = .rapid ∨ kind = .linear)
    (hcuts : ∀ line, (z' == job.machine.position.z) = false →
      (Segment.sideCut? job.machine.position.z
        ⟨.move kind { job.machine.position with z := z' } feed, line⟩) = none)
    (hheight : ∀ line, Segment.CutsAt P
      ⟨.move kind { job.machine.position with z := z' } feed, line⟩) :
    Over m p z' job' ∧ ∃ steps, Went P [] steps job job' := by
  have hx := beq_trans hover.point.1 (beq_symm hover.point.1)
  have hy := beq_trans hover.point.2 (beq_symm hover.point.2)
  have hcuts' : ∀ line, ({ job.machine.position with z := z' } == job.machine.position) = false →
      (Segment.sideCut? job.machine.position.z
        ⟨.move kind { job.machine.position with z := z' } feed, line⟩).toList = [] := by
    intro line hother
    rw [hcuts line, Option.toList_none]
    rw [Bool.eq_false_iff] at hother ⊢
    intro hz
    exact hother (Vec3.beq_iff.mpr ⟨hx, hy, hz⟩)
  obtain ⟨hover', hwent⟩ := over_of_travel hover hrun hkind hcuts' (fun _ => rfl) hheight
  refine ⟨{ hover' with point := ?_ }, hwent⟩
  exact ⟨beq_trans hover'.point.1 hover.point.1, beq_trans hover'.point.2 hover.point.2⟩

/-- A rapid up or down cuts nothing. -/
theorem goes_rapidZ (z' : Float) : Goes m p z (rapidZ z') p z' P [] := by
  intro job u job' hover hrun
  exact over_of_height hover hrun (.inl rfl) (fun _ _ => rfl) fun _ => Segment.cutsAt_of_none rfl P

/-- A plunge cuts at its own height, but not sideways. -/
theorem goes_plunge (z' : Float) : Goes m p z (plunge z') p z' (· == z') [] := by
  intro job u job' hover hrun
  have hfinite := (travel_eq_ok hrun).1
  refine over_of_height hover hrun (.inr rfl) ?_ ?_
  · -- a plunge that is recorded changes the height
    intro line hother
    show (if z' == job.machine.position.z then _ else none) = none
    rw [hother]
    rfl
  · rintro line _ ⟨⟩
    exact beq_self_of_isFinite (Vec3.isFinite_iff.mp hfinite).2.2

/-! ## Strokes -/

/-- A straight cut at the height of the tool, unless the tool is there
    already. -/
theorem goes_line (goal : Vec2) :
    Goes m p z (cut goal.x goal.y) (m.spot goal) z (· == z) (Stroke.cuts m p (.line goal)) := by
  intro job u job' hover hrun
  have htravel : travel .linear (job.machine.place goal.x goal.y job.machine.position.z)
      job.machine.material.feedRate job = .ok u job' := hrun
  rw [Machine.place_of_setup hover.setup] at htravel
  have hz := beq_trans hover.height (beq_symm hover.height)
  -- whether the line is left out does not depend on where between equals the tool is
  have hsame : (Vec3.mk (m.spot goal).x (m.spot goal).y job.machine.position.z
      == job.machine.position) = true ↔ (m.spot goal == p) = true := by
    rw [Vec3.beq_iff]
    show _ ↔ ((m.spot goal).x == p.x && (m.spot goal).y == p.y) = true
    rw [Bool.and_eq_true]
    constructor
    · rintro ⟨hx, hy, -⟩
      exact ⟨beq_trans hx hover.point.1, beq_trans hy hover.point.2⟩
    · rintro ⟨hx, hy⟩
      exact ⟨beq_trans hx (beq_symm hover.point.1), beq_trans hy (beq_symm hover.point.2), hz⟩
  have hmade : ∀ line, (Vec3.mk (m.spot goal).x (m.spot goal).y job.machine.position.z
      == job.machine.position) = false →
      (Segment.sideCut? job.machine.position.z ⟨.move .linear ⟨(m.spot goal).x, (m.spot goal).y,
        job.machine.position.z⟩ job.machine.material.feedRate, line⟩).toList
        = Stroke.cuts m p (.line goal) := by
    intro line hother
    rw [Bool.eq_false_iff, ne_eq, hsame] at hother
    show (if job.machine.position.z == job.machine.position.z then some _ else none).toList = _
    rw [Stroke.cuts, if_neg hother, hz]
    rfl
  have hheight : ∀ line, Segment.CutsAt (· == z) ⟨.move .linear ⟨(m.spot goal).x,
      (m.spot goal).y, job.machine.position.z⟩ job.machine.material.feedRate, line⟩ := by
    rintro line _ ⟨⟩
    exact hover.height
  obtain ⟨hover', hwent⟩ := over_of_travel hover htravel (.inr rfl) hmade
    (fun heq => by rw [Stroke.cuts, if_pos (hsame.mp heq)]) hheight
  exact ⟨{ hover' with height := beq_trans hover'.height hover.height }, hwent⟩

/-- An arc is cut at the height of the tool. -/
theorem goes_arc (goal center : Vec2) :
    Goes m p z (arc goal.x goal.y center.x center.y) (m.spot goal) z (· == z)
      (Stroke.cuts m p (.arc goal center)) := by
  intro job u job' hover hrun
  rw [arc] at hrun
  dsimp only at hrun
  rw [Machine.place_of_setup hover.setup] at hrun
  split at hrun
  · cases hrun
  · split at hrun
    · cases hrun
    · rename_i hfinite
      injection hrun with _ hjob
      rw [Bool.or_eq_true, not_or, Bool.not_eq_true', Bool.not_eq_true', Bool.not_eq_false,
        Bool.not_eq_false] at hfinite
      obtain ⟨htarget, hcenter⟩ := hfinite
      obtain ⟨hx, hy, -⟩ := Vec3.isFinite_iff.mp htarget
      obtain ⟨hcx, hcy, -⟩ := Vec3.isFinite_iff.mp hcenter
      -- an arc is recorded even if it leads back to where the tool is
      rw [← hjob]
      refine ⟨⟨hover.setup, hover.known, ⟨beq_self_of_isFinite hx,
        beq_self_of_isFinite hy⟩, hover.height⟩, _, went_push rfl ?_ ?_ ⟨htarget, ?_⟩⟩
      · rw [Machine.eq_of_setup hover.setup]
        rfl
      · rintro _ ⟨⟩
        exact hover.height
      · rintro _ ⟨⟩
        exact ⟨hcx, hcy⟩

theorem goes_draw (s : Stroke) : Goes m p z s.draw (m.spot s.goal) z (· == z) (s.cuts m p) := by
  cases s with
  | line goal => exact goes_line goal
  | arc goal center => exact goes_arc goal center

/-- **Strokes are cut as traced**, at the height that the tool is at. -/
theorem goes_strokes (strokes : List Stroke) :
    Goes m p z (strokes.forM Stroke.draw) (leadsTo m p strokes) z (· == z)
      (traced m p strokes) := by
  induction strokes generalizing p with
  | nil => exact goes_pure _
  | cons s rest ih => exact (goes_draw s).bind fun _ => ih

end Goes

end Machining

end MillScript
