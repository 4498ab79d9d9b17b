import MillScript.Proofs.Gcode.ModalSuppression
import MillScript.Proofs.Machining.Discipline

/-! # Which toolpaths can be written

    A program cannot hold a number that is no real one, so a toolpath with
    such a number in a place that is written has no program.  `Writable` says
    for one step, by the target of the move before it, which numbers these
    are; a toolpath has a program exactly when all its steps are writable and
    the safe height is a real number.  The one number that may be left out is
    the feed of a straight cut whose target is written like the one before
    it, as such a cut has no line. -/

namespace MillScript.Gcode

/-! ## Single steps -/

/-- The coordinates of two points have the same texts. -/
def WrittenAlike (precision : Int) (p q : Vec3) : Prop :=
  number precision p.x = number precision q.x ∧ number precision p.y = number precision q.y
    ∧ number precision p.z = number precision q.z

/-- The numbers of a step that are written are real ones; an arc starts
    somewhere. -/
def Writable (precision : Int) (last : Option Vec3) : Action → Prop
  | .move .rapid target _ => target.isFinite = true
  | .move .linear target feed =>
    target.isFinite = true
      ∧ (feed.isFinite = true ∨ ∃ p, last = some p ∧ WrittenAlike precision p target)
  | .move (.arc center) target feed =>
    target.isFinite = true ∧ feed.isFinite = true
      ∧ ∃ p, last = some p ∧ (center.x - p.x).isFinite = true ∧ (center.y - p.y).isFinite = true
  | .dwell seconds => seconds.isFinite = true
  | .spindle rpm => 0 < rpm → rpm.isFinite = true
  | .comment _ => True
  | .toolChange _ => True

/-- A number can be written just if it is real. -/
theorem exists_number_iff (precision : Int) {x : Float} :
    (∃ text, number precision x = .ok text) ↔ x.isFinite = true := by
  show _ ↔ x.toModel.unpack.isFinite = true
  rw [number, Decimal.read]
  cases x.toModel.unpack with
  | notANumber =>
      constructor
      · rintro ⟨text, h⟩
        cases h
      · intro h
        cases h
  | infinity s =>
      constructor
      · rintro ⟨text, h⟩
        cases h
      · intro h
        cases h
  | zero s => exact iff_of_true ⟨_, rfl⟩ rfl
  | finite s m e hm => exact iff_of_true ⟨_, rfl⟩ rfl

theorem exists_target_iff {precision : Int} {target : Vec3} :
    (∃ x y z, number precision target.x = .ok x ∧ number precision target.y = .ok y
      ∧ number precision target.z = .ok z) ↔ target.isFinite = true := by
  rw [Vec3.isFinite_iff, ← exists_number_iff precision, ← exists_number_iff precision,
    ← exists_number_iff precision]
  constructor
  · rintro ⟨x, y, z, hx, hy, hz⟩
    exact ⟨⟨x, hx⟩, ⟨y, hy⟩, ⟨z, hz⟩⟩
  · rintro ⟨⟨x, hx⟩, ⟨y, hy⟩, ⟨z, hz⟩⟩
    exact ⟨x, y, z, hx, hy, hz⟩

/-! ## What the emitter knows -/

namespace Modal

/-- The emitter after moves that ended at a point: it has the point and the
    texts of its coordinates. -/
structure After (precision : Int) (last : Option Vec3) (m : Modal) : Prop where
  position : m.position = last
  unsent : last = none → m.x = none
  written : ∀ p, last = some p → ∃ x y z, number precision p.x = .ok x
    ∧ number precision p.y = .ok y ∧ number precision p.z = .ok z
    ∧ m.x = some x ∧ m.y = some y ∧ m.z = some z

/-- After a move the writer has the target for its position. -/
theorem after_arrived {precision : Int} (m : Modal) {target : Vec3} {x y z : String}
    (hx : number precision target.x = .ok x) (hy : number precision target.y = .ok y)
    (hz : number precision target.z = .ok z) :
    (m.arrived x y z target).After precision (some target) where
  position := rfl
  unsent := fun h => by cases h
  written := by
    intro p hp
    rw [← Option.some.inj hp]
    exact ⟨x, y, z, hx, hy, hz, rfl, rfl, rfl⟩

/-- The target of a cut needs no word exactly when the one before it is
    written alike. -/
theorem After.targetWords_eq_nil_iff {precision : Int} {last : Option Vec3} {m : Modal}
    (h : m.After precision last) {target : Vec3} {x y z : String}
    (hx : number precision target.x = .ok x) (hy : number precision target.y = .ok y)
    (hz : number precision target.z = .ok z) :
    m.targetWords .linear x y z = [] ↔ ∃ p, last = some p ∧ WrittenAlike precision p target := by
  rw [Gcode.targetWords_eq_nil_iff m .linear (by decide)]
  show Coordinates.mk m.x m.y m.z = _ ↔ _
  rw [Coordinates.mk.injEq]
  cases last with
  | none =>
      refine iff_of_false ?_ ?_
      · rintro ⟨hknown, -⟩
        rw [h.unsent rfl] at hknown
        cases hknown
      · rintro ⟨p, hp, -⟩
        cases hp
  | some p =>
      obtain ⟨x', y', z', hx', hy', hz', hmx, hmy, hmz⟩ := h.written p rfl
      rw [hmx, hmy, hmz]
      constructor
      · rintro ⟨hsame, hsame', hsame''⟩
        refine ⟨p, rfl, ?_, ?_, ?_⟩
        · rw [hx', hx, Option.some.inj hsame]
        · rw [hy', hy, Option.some.inj hsame']
        · rw [hz', hz, Option.some.inj hsame'']
      · rintro ⟨q, hq, hsame, hsame', hsame''⟩
        rw [← Option.some.inj hq] at hsame hsame' hsame''
        rw [hx', hx] at hsame
        rw [hy', hy] at hsame'
        rw [hz', hz] at hsame''
        exact ⟨congrArg some (Except.ok.inj hsame), congrArg some (Except.ok.inj hsame'),
          congrArg some (Except.ok.inj hsame'')⟩

/-- A move can be written once its offset and target can, unless it needs a
    feed that cannot. -/
theorem exists_move {precision : Int} {m : Modal} {kind : Move} {target : Vec3} {feed : Float}
    {offset : List Word} {x y z : String} (hoffset : m.offsetWords precision kind = .ok offset)
    (hx : number precision target.x = .ok x) (hy : number precision target.y = .ok y)
    (hz : number precision target.z = .ok z)
    (hfeed : m.targetWords kind x y z ++ offset = [] ∨ motionCode kind = 0
      ∨ ∃ f, number precision feed = .ok f) :
    ∃ r, m.move precision kind target feed = .ok r := by
  rw [move, hoffset, hx, hy, hz]
  show ∃ r, (ite _ _ _ : Except Fault (List Line × Modal)) = .ok r
  split
  · exact ⟨_, rfl⟩
  · rename_i hwords
    split
    · exact ⟨_, rfl⟩
    · rename_i hcode
      rcases hfeed with hempty | hrapid | ⟨f, hf⟩
      · exact absurd (List.isEmpty_iff.mpr hempty) hwords
      · exact absurd hrapid hcode
      · rw [hf]
        exact ⟨_, rfl⟩

/-- A move can be written just if its numbers are real, and for an arc also the
    way from its start to its centre. -/
theorem After.exists_move_iff {precision : Int} {last : Option Vec3} {m : Modal}
    (h : m.After precision last) (kind : Move) (target : Vec3) (feed : Float) :
    (∃ r, m.move precision kind target feed = .ok r)
      ↔ Writable precision last (.move kind target feed) := by
  constructor
  · rintro ⟨⟨ls, m'⟩, hmove⟩
    obtain ⟨offset, x, y, z, hoffset, hx, hy, hz, hcases⟩ := move_cases hmove
    have htarget := exists_target_iff.mp ⟨x, y, z, hx, hy, hz⟩
    cases kind with
    | rapid => exact htarget
    | linear =>
        refine ⟨htarget, ?_⟩
        rcases hcases with ⟨hempty, -⟩ | ⟨-, hcode, -⟩ | ⟨-, -, f, hf, -⟩
        · rw [← Except.ok.inj hoffset, List.append_nil] at hempty
          exact .inr ((h.targetWords_eq_nil_iff hx hy hz).mp hempty)
        · cases hcode
        · exact .inl ((exists_number_iff precision).mp ⟨f, hf⟩)
    | arc center =>
        obtain ⟨p, i, j, hp, hi, hj, -⟩ := offsetWords_arc hoffset
        refine ⟨htarget, ?_, p, h.position.symm.trans hp,
          (exists_number_iff precision).mp ⟨i, hi⟩, (exists_number_iff precision).mp ⟨j, hj⟩⟩
        rcases hcases with ⟨hempty, -⟩ | ⟨-, hcode, -⟩ | ⟨-, -, f, hf, -⟩
        · cases hempty
        · cases hcode
        · exact (exists_number_iff precision).mp ⟨f, hf⟩
  · intro hwritable
    cases kind with
    | rapid =>
        obtain ⟨x, y, z, hx, hy, hz⟩ := exists_target_iff.mpr hwritable
        exact exists_move rfl hx hy hz (.inr (.inl rfl))
    | linear =>
        obtain ⟨htarget, hfeed⟩ := hwritable
        obtain ⟨x, y, z, hx, hy, hz⟩ := exists_target_iff.mpr htarget
        refine exists_move rfl hx hy hz ?_
        rcases hfeed with hfinite | hsame
        · exact .inr (.inr ((exists_number_iff precision).mpr hfinite))
        · refine .inl ?_
          rw [List.append_nil]
          exact (h.targetWords_eq_nil_iff hx hy hz).mpr hsame
    | arc center =>
        obtain ⟨htarget, hfeed, p, hp, hi, hj⟩ := hwritable
        obtain ⟨x, y, z, hx, hy, hz⟩ := exists_target_iff.mpr htarget
        obtain ⟨i, hi⟩ := (exists_number_iff precision).mpr hi
        obtain ⟨j, hj⟩ := (exists_number_iff precision).mpr hj
        have hoffset : m.offsetWords precision (.arc center) = .ok [⟨'I', i⟩, ⟨'J', j⟩] := by
          rw [offsetWords.eq_def, h.position, hp]
          show (number precision (center.x - p.x) >>= _) = _
          rw [hi]
          show (number precision (center.y - p.y) >>= _) = _
          rw [hj]
          rfl
        exact exists_move hoffset hx hy hz
          (.inr (.inr ((exists_number_iff precision).mpr hfeed)))

/-- A move that was written is what the emitter knows next. -/
theorem after_move {precision : Int} {m m' : Modal} {kind : Move} {target : Vec3} {feed : Float}
    {ls : List Line} (h : m.move precision kind target feed = .ok (ls, m')) :
    m'.After precision (some target) := by
  obtain ⟨offset, x, y, z, -, hx, hy, hz, hcases⟩ := move_cases h
  have harrived := m.after_arrived hx hy hz
  rcases hcases with ⟨-, -, rfl⟩ | ⟨-, -, -, rfl⟩ | ⟨-, -, f, -, -, rfl⟩
  · exact harrived
  · exact ⟨harrived.position, harrived.unsent, harrived.written⟩
  · exact ⟨harrived.position, harrived.unsent, harrived.written⟩

end Modal

/-- A step can be written exactly when it is writable, and the emitter then
    knows the last target. -/
theorem Modal.After.exists_step_iff {precision : Int} {last : Option Vec3} {m : Modal}
    (h : m.After precision last) (a : Action) :
    (∃ r, step precision m a = .ok r) ↔ Writable precision last a := by
  cases a with
  | move kind target feed => exact h.exists_move_iff kind target feed
  | dwell seconds =>
      refine Iff.trans ?_ (exists_number_iff precision)
      constructor
      · rintro ⟨r, hr⟩
        obtain ⟨p, hp, -⟩ := bind_eq_ok.mp hr
        exact ⟨p, hp⟩
      · rintro ⟨p, hp⟩
        exact ⟨_, bind_eq_ok.mpr ⟨p, hp, rfl⟩⟩
  | spindle rpm =>
      show _ ↔ (0 < rpm → rpm.isFinite = true)
      rw [step]
      by_cases hpos : 0 < rpm
      · rw [if_pos hpos, ← exists_number_iff precision]
        constructor
        · rintro ⟨r, hr⟩ -
          obtain ⟨s, hs, -⟩ := bind_eq_ok.mp hr
          exact ⟨s, hs⟩
        · intro hnumber
          obtain ⟨s, hs⟩ := hnumber hpos
          exact ⟨_, bind_eq_ok.mpr ⟨s, hs, rfl⟩⟩
      · rw [if_neg hpos]
        exact iff_of_true ⟨_, rfl⟩ fun h => absurd h hpos
  | comment text => exact iff_of_true ⟨_, rfl⟩ trivial
  | toolChange text => exact iff_of_true ⟨_, rfl⟩ trivial

/-- Every step that is written leaves the writer at the last target. -/
theorem Modal.After.step {precision : Int} {before : List Segment} {m m' : Modal} {s : Segment}
    {ls : List Line} (h : m.After precision (lastTarget before))
    (hstep : Gcode.step precision m s.action = .ok (ls, m')) :
    m'.After precision (lastTarget (before ++ [s])) := by
  obtain ⟨a, line⟩ := s
  cases a with
  | move kind target feed =>
      rw [lastTarget_concat_move]
      exact Modal.after_move hstep
  | dwell seconds =>
      obtain ⟨p, -, hp⟩ := bind_eq_ok.mp hstep
      obtain ⟨-, rfl⟩ := Prod.mk.inj (Except.ok.inj hp)
      rw [lastTarget_concat_of_none rfl]
      exact h
  | spindle rpm =>
      rw [lastTarget_concat_of_none rfl]
      rw [Gcode.step] at hstep
      split at hstep
      · obtain ⟨p, -, hp⟩ := bind_eq_ok.mp hstep
        obtain ⟨-, rfl⟩ := Prod.mk.inj (Except.ok.inj hp)
        exact h
      · obtain ⟨-, rfl⟩ := Prod.mk.inj (Except.ok.inj hstep)
        exact h
  | comment text =>
      obtain ⟨-, rfl⟩ := Prod.mk.inj (Except.ok.inj hstep)
      rw [lastTarget_concat_of_none rfl]
      exact h
  | toolChange text =>
      obtain ⟨-, rfl⟩ := Prod.mk.inj (Except.ok.inj hstep)
      rw [lastTarget_concat_of_none rfl]
      exact h

/-! ## Whole toolpaths -/

/-- Every step is writable after the steps in front of it. -/
def AllWritable (precision : Int) (segments : List Segment) : Prop :=
  ∀ front a line back, segments = front ++ ⟨a, line⟩ :: back →
    Writable precision (lastTarget front) a

/-- What holds of all steps that follow others, the first of them apart. -/
theorem forall_steps_cons_iff {P : Option Vec3 → Action → Prop} {before rest : List Segment}
    {s : Segment} :
    (∀ front a line back, s :: rest = front ++ ⟨a, line⟩ :: back →
        P (lastTarget (before ++ front)) a)
      ↔ P (lastTarget before) s.action
        ∧ ∀ front a line back, rest = front ++ ⟨a, line⟩ :: back →
          P (lastTarget (before ++ [s] ++ front)) a := by
  constructor
  · intro h
    constructor
    · have hfirst := h [] s.action s.line rest rfl
      rw [List.append_nil] at hfirst
      exact hfirst
    · intro front a line back hrest
      rw [List.append_assoc]
      exact h (s :: front) a line back (by rw [hrest]; rfl)
  · rintro ⟨hfirst, hrest⟩ front a line back hall
    cases front with
    | nil =>
        obtain ⟨rfl, -⟩ := List.cons.inj hall
        rw [List.append_nil]
        exact hfirst
    | cons s' front =>
        obtain ⟨rfl, hback⟩ := List.cons.inj hall
        have hlater := hrest front a line back hback
        rw [List.append_assoc] at hlater
        exact hlater

/-- Steps can be written just if each of them can after those before it. -/
theorem exists_steps_iff {precision : Int} {before : List Segment} {m : Modal}
    (h : m.After precision (lastTarget before)) (written : List Line) (segments : List Segment) :
    (∃ ls, steps precision m written segments = .ok ls)
      ↔ ∀ front a line back, segments = front ++ ⟨a, line⟩ :: back →
        Writable precision (lastTarget (before ++ front)) a := by
  induction segments generalizing before m written with
  | nil =>
      refine iff_of_true ⟨written, rfl⟩ ?_
      intro front a line back hnil
      cases front <;> cases hnil
  | cons s rest ih =>
      rw [forall_steps_cons_iff, ← h.exists_step_iff]
      constructor
      · rintro ⟨all, hall⟩
        rw [steps] at hall
        obtain ⟨⟨ls, m'⟩, hstep, hrest⟩ := bind_eq_ok.mp hall
        exact ⟨⟨_, hstep⟩, (ih (h.step hstep) _).mp ⟨all, hrest⟩⟩
      · rintro ⟨⟨⟨ls, m'⟩, hstep⟩, hrest⟩
        obtain ⟨all, hall⟩ := (ih (h.step hstep) (ls.reverse ++ written)).mpr hrest
        exact ⟨all, bind_eq_ok.mpr ⟨_, hstep, hall⟩⟩

/-- The emitter at the start has been told the height only. -/
theorem Modal.after_opening (precision : Int) (z : String) :
    Modal.After precision (lastTarget []) { mode := 0, z := some z } :=
  ⟨rfl, fun _ => rfl, fun p hp => by cases hp⟩

/-- A program can be written just if the safe height is real and each step can
    be written after those before it. -/
theorem exists_lines_iff (precision : Int) (safeHeight : Float) (segments : List Segment) :
    (∃ ls, lines precision safeHeight segments = .ok ls)
      ↔ safeHeight.isFinite = true ∧ AllWritable precision segments := by
  have hstart := Modal.after_opening precision
  rw [← exists_number_iff precision]
  constructor
  · rintro ⟨ls, hls⟩
    obtain ⟨z, hz, hls⟩ := bind_eq_ok.mp hls
    obtain ⟨written, hwritten, -⟩ := bind_eq_ok.mp hls
    exact ⟨⟨z, hz⟩, (exists_steps_iff (hstart z) [] segments).mp ⟨written, hwritten⟩⟩
  · rintro ⟨⟨z, hz⟩, hall⟩
    obtain ⟨written, hwritten⟩ := (exists_steps_iff (hstart z) [] segments).mpr hall
    exact ⟨_, bind_eq_ok.mpr ⟨z, hz, bind_eq_ok.mpr ⟨written, hwritten, rfl⟩⟩⟩

/-- **A toolpath has a program exactly when its numbers can be written.** -/
theorem exists_emit_iff (precision : Int) (safeHeight : Float) (path : Toolpath) :
    (∃ text, emit precision safeHeight path = .ok text)
      ↔ safeHeight.isFinite = true ∧ AllWritable precision path.segments := by
  rw [← exists_lines_iff, emit]
  cases lines precision safeHeight path.segments with
  | error f =>
      refine iff_of_false ?_ ?_
      · rintro ⟨text, h⟩
        cases h
      · rintro ⟨ls, h⟩
        cases h
  | ok ls => exact iff_of_true ⟨_, rfl⟩ ⟨ls, rfl⟩

/-! ## Arcs without a start -/

/-- There is one reason not to write a number. -/
theorem number_eq_error {precision : Int} {x : Float} {f : Fault}
    (h : number precision x = .error f) : f = RuntimeFault.nonFiniteNumber := by
  rw [number] at h
  split at h
  · cases h
  · exact (Except.error.inj h).symm

/-- A step is refused for a number that is not real, or because it is an arc
    and there was no move before it. -/
def Misses (last : Option Vec3) (a : Action) (f : Fault) : Prop :=
  f = RuntimeFault.nonFiniteNumber
    ∨ last = none ∧ ∃ center target feed, a = .move (.arc center) target feed

theorem Modal.offsetWords_eq_error {precision : Int} {m : Modal} {kind : Move} {f : Fault}
    (h : m.offsetWords precision kind = .error f) :
    f = RuntimeFault.nonFiniteNumber ∨ m.position = none ∧ ∃ center, kind = .arc center := by
  rw [offsetWords.eq_def] at h
  split at h
  case h_1 center p hposition =>
      rcases bind_eq_error.mp h with hi | ⟨i, -, h⟩
      · exact .inl (number_eq_error hi)
      · rcases bind_eq_error.mp h with hj | ⟨j, -, h⟩
        · exact .inl (number_eq_error hj)
        · cases h
  case h_2 center hposition => exact .inr ⟨hposition, center, rfl⟩
  case h_3 => cases h

theorem Modal.misses_of_move {precision : Int} {m : Modal} {kind : Move} {target : Vec3}
    {feed : Float} {f : Fault} (h : m.move precision kind target feed = .error f) :
    Misses m.position (.move kind target feed) f := by
  rcases bind_eq_error.mp h with hoffset | ⟨offset, -, h⟩
  · rcases offsetWords_eq_error hoffset with hnumber | ⟨hposition, center, rfl⟩
    · exact .inl hnumber
    · exact .inr ⟨hposition, center, target, feed, rfl⟩
  -- from here on only numbers are written
  left
  rcases bind_eq_error.mp h with hx | ⟨x, -, h⟩
  · exact number_eq_error hx
  rcases bind_eq_error.mp h with hy | ⟨y, -, h⟩
  · exact number_eq_error hy
  rcases bind_eq_error.mp h with hz | ⟨z, -, h⟩
  · exact number_eq_error hz
  dsimp only at h
  split at h
  · cases h
  · split at h
    · cases h
    · rcases bind_eq_error.mp h with hfeed | ⟨fw, -, h⟩
      · exact number_eq_error hfeed
      · cases h

/-- A step that is not written has a number that is not real, or is an arc from
    nowhere. -/
theorem misses_of_step {precision : Int} {m : Modal} {a : Action} {f : Fault}
    (h : step precision m a = .error f) : Misses m.position a f := by
  cases a with
  | move kind target feed => exact Modal.misses_of_move h
  | dwell seconds =>
      rcases bind_eq_error.mp h with hp | ⟨p, -, h⟩
      · exact .inl (number_eq_error hp)
      · cases h
  | spindle rpm =>
      rw [step] at h
      split at h
      · rcases bind_eq_error.mp h with hs | ⟨s, -, h⟩
        · exact .inl (number_eq_error hs)
        · cases h
      · cases h
  | comment text => cases h
  | toolChange text => cases h

/-- A toolpath that is refused has a step that is. -/
theorem misses_of_steps {precision : Int} {before : List Segment} {m : Modal}
    (h : m.After precision (lastTarget before)) {written : List Line} {segments : List Segment}
    {f : Fault} (hsteps : steps precision m written segments = .error f) :
    ∃ front a line back, segments = front ++ ⟨a, line⟩ :: back
      ∧ Misses (lastTarget (before ++ front)) a f := by
  induction segments generalizing before m written with
  | nil => cases hsteps
  | cons s rest ih =>
      rw [steps] at hsteps
      rcases bind_eq_error.mp hsteps with hstep | ⟨⟨ls, m'⟩, hstep, hrest⟩
      · refine ⟨[], s.action, s.line, rest, rfl, ?_⟩
        rw [List.append_nil, ← h.position]
        exact misses_of_step hstep
      · obtain ⟨front, a, line, back, rfl, hmisses⟩ := ih (h.step hstep) hrest
        rw [List.append_assoc] at hmisses
        exact ⟨s :: front, a, line, back, rfl, hmisses⟩

/-- **Only an arc that no move comes before has no start.** -/
theorem exists_arc_of_emit_eq_error {precision : Int} {safeHeight : Float} {path : Toolpath}
    (h : emit precision safeHeight path = .error RuntimeFault.arcWithoutStart) :
    ∃ front center target feed line back,
      path.segments = front ++ ⟨.move (.arc center) target feed, line⟩ :: back
      ∧ lastTarget front = none := by
  have hlines : lines precision safeHeight path.segments = .error RuntimeFault.arcWithoutStart := by
    rw [emit] at h
    cases hls : lines precision safeHeight path.segments with
    | error f =>
        rw [hls] at h
        cases h
        rfl
    | ok ls =>
        rw [hls] at h
        cases h
  rcases bind_eq_error.mp hlines with hz | ⟨z, hz, hrest⟩
  · cases number_eq_error hz
  rcases bind_eq_error.mp hrest with hsteps | ⟨written, -, hdone⟩
  · obtain ⟨front, a, line, back, hsegments, hnumber | ⟨hlast, center, target, feed, rfl⟩⟩ :=
      misses_of_steps (Modal.after_opening precision z) hsteps
    · cases hnumber
    · exact ⟨front, center, target, feed, line, back, hsegments, hlast⟩
  · cases hdone

end MillScript.Gcode
