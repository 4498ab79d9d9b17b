import MillScript.Proofs.Call
import MillScript.Proofs.Vec

/-! # The discipline of moves

    A move goes straight up or down, or it keeps its height.  Cuts that go
    down run at the plunge rate, cuts that keep their height at the feed
    rate of the material in use, and the first move of all is a rapid at safe
    height.  `Obeys` is this rule for one move, by the target of the move
    before it.  Every operation that gets through keeps to it, from a tool
    at rest, not sent anywhere yet or at safe height, to a tool at safe
    height. -/

namespace MillScript

/-! ## The rule -/

/-- What the last of the steps that say something says. -/
def latest {α : Type} (says? : Segment → Option α) (steps : List Segment) : Option α :=
  (steps.filterMap says?).getLast?

/-- The last step says it, or what was said before still holds. -/
theorem latest_concat {α : Type} (says? : Segment → Option α) (steps : List Segment)
    (s : Segment) : latest says? (steps ++ [s]) = (says? s).or (latest says? steps) := by
  rw [latest, latest, List.filterMap_append, List.getLast?_append]
  cases hs : says? s with
  | none => simp [hs]
  | some a => simp [hs]

/-- Where a step sends the tool, if it is a move. -/
def Segment.target? (s : Segment) : Option Vec3 :=
  match s.action with
  | .move _ target _ => some target
  | _ => none

/-- The target of the last move among steps. -/
def lastTarget (steps : List Segment) : Option Vec3 :=
  (steps.filterMap Segment.target?).getLast?

/-- A further step is the last move if it is a move. -/
theorem lastTarget_concat (steps : List Segment) (s : Segment) :
    lastTarget (steps ++ [s]) = s.target?.or (lastTarget steps) :=
  latest_concat Segment.target? steps s

theorem lastTarget_concat_move (steps : List Segment) (kind : Move) (target : Vec3)
    (feed : Float) (line : Int) :
    lastTarget (steps ++ [⟨.move kind target feed, line⟩]) = some target :=
  lastTarget_concat steps ⟨.move kind target feed, line⟩

/-- Steps that are no moves do not change where the tool was last sent. -/
theorem lastTarget_concat_of_none {s : Segment} (h : s.target? = none) (steps : List Segment) :
    lastTarget (steps ++ [s]) = lastTarget steps := by
  rw [lastTarget_concat, h, Option.none_or]

/-- A move that is recorded is the last one. -/
theorem lastTarget_push_move (path : Toolpath) (kind : Move) (target : Vec3) (feed : Float) :
    lastTarget (path.push (.move kind target feed)).segments = some target := by
  rw [Toolpath.segments_push]
  exact lastTarget_concat_move _ _ _ _ _

theorem lastTarget_push_of_none {path : Toolpath} {a : Action}
    (h : Segment.target? ⟨a, path.line⟩ = none) :
    lastTarget (path.push a).segments = lastTarget path.segments := by
  rw [Toolpath.segments_push, lastTarget_concat_of_none h]

/-- The rate that a move has to carry, by whether it keeps its height; a
    rapid carries none, an arc has to keep its height. -/
def Move.HasRate (material : Material) (keepsHeight : Bool) (feed : Float) : Move → Prop
  | .rapid => True
  | .linear => feed = if keepsHeight then material.feedRate else material.plungeRate
  | .arc _ => keepsHeight = true ∧ feed = material.feedRate

/-- The rule for a move after the last one; the first of all is a rapid at
    safe height. -/
def Move.Obeys (safeHeight : Float) (material : Material) (last : Option Vec3) (kind : Move)
    (target : Vec3) (feed : Float) : Prop :=
  match last with
  | none => kind = .rapid ∧ (target.z == safeHeight) = true
  | some p =>
    ((target.z == p.z) = true ∨ (target.x == p.x) = true ∧ (target.y == p.y) = true)
      ∧ kind.HasRate material (target.z == p.z) feed

/-- Steps were appended, and the moves among them keep to the rule. -/
inductive Lawful (safeHeight : Float) (material : Material) (old : List Segment) :
    List Segment → Prop
  | refl : Lawful safeHeight material old old
  | note {new : List Segment} {s : Segment} (h : Lawful safeHeight material old new)
      (hs : s.target? = none) : Lawful safeHeight material old (new ++ [s])
  | move {new : List Segment} {kind : Move} {target : Vec3} {feed : Float} {line : Int}
      (h : Lawful safeHeight material old new)
      (hmove : kind.Obeys safeHeight material (lastTarget new) target feed) :
      Lawful safeHeight material old (new ++ [⟨.move kind target feed, line⟩])

namespace Lawful

variable {safeHeight : Float} {material : Material} {old mid new : List Segment}

/-- The rule looks back over all steps, so it holds of what was appended in two
    goes. -/
theorem trans (h : Lawful safeHeight material old mid) (h' : Lawful safeHeight material mid new) :
    Lawful safeHeight material old new := by
  induction h' with
  | refl => exact h
  | note _ hs ih => exact .note ih hs
  | move _ hmove ih => exact .move ih hmove

/-- No step is taken away. -/
theorem isPrefix (h : Lawful safeHeight material old new) : old <+: new := by
  induction h with
  | refl => exact List.prefix_rfl
  | note _ _ ih => exact ih.trans (List.prefix_append _ _)
  | move _ _ ih => exact ih.trans (List.prefix_append _ _)

/-- An element found in a list is its last one or stands before that. -/
theorem eq_or_of_concat_eq {α : Type} {l front back : List α} {a b : α}
    (h : l ++ [a] = front ++ b :: back) :
    (l = front ∧ a = b) ∨ ∃ rest, l = front ++ b :: rest := by
  rcases List.eq_nil_or_concat back with rfl | ⟨rest, c, rfl⟩
  · obtain ⟨hl, ha⟩ := List.append_inj' h rfl
    exact .inl ⟨hl, List.singleton_inj.mp ha⟩
  · rw [List.concat_eq_append, ← List.cons_append, ← List.append_assoc] at h
    exact .inr ⟨rest, (List.append_inj' h rfl).1⟩

end Lawful

/-! ## Jobs that keep to the rule -/

/-- One job grew out of another by the rule, on the same material. -/
structure Job.Follows (j j' : Job) : Prop where
  config : j'.machine.config = j.machine.config
  material : j'.machine.material = j.machine.material
  lawful : Lawful j.machine.config.safeHeight j.machine.material j.path.segments j'.path.segments

namespace Job

instance : IsPreorder Job Follows where
  refl _ := ⟨rfl, rfl, .refl⟩
  trans a b c h h' := by
    refine ⟨h'.config.trans h.config, h'.material.trans h.material, h.lawful.trans ?_⟩
    rw [← h.config, ← h.material]
    exact h'.lawful

/-- A job follows from the one before a move that keeps to the rule. -/
theorem follows_push_move {job : Job} {machine : Machine} {kind : Move} {target : Vec3}
    {feed : Float} (hconfig : machine.config = job.machine.config)
    (hmaterial : machine.material = job.machine.material)
    (hmove : kind.Obeys job.machine.config.safeHeight job.machine.material
      (lastTarget job.path.segments) target feed) :
    Follows job ⟨machine, job.path.push (.move kind target feed)⟩ := by
  refine ⟨hconfig, hmaterial, ?_⟩
  show Lawful _ _ job.path.segments (job.path.push (.move kind target feed)).segments
  rw [Toolpath.segments_push]
  exact .move .refl hmove

/-- The tool is where it was last sent, at a height. -/
structure At (c : Config) (z : Float) (job : Job) : Prop where
  config : job.machine.config = c
  known : job.machine.positionKnown = true
  finite : job.machine.position.isFinite = true
  height : (job.machine.position.z == z) = true
  last : lastTarget job.path.segments = some job.machine.position

/-- The tool was not sent anywhere yet. -/
structure Unsent (c : Config) (job : Job) : Prop where
  config : job.machine.config = c
  unknown : job.machine.positionKnown = false
  last : lastTarget job.path.segments = none

/-- The tool was not sent anywhere yet or is at safe height. -/
def AtRest (c : Config) (job : Job) : Prop := Unsent c job ∨ At c c.safeHeight job

/-- Whether or not the tool was sent anywhere, the configuration is known. -/
theorem AtRest.config {c : Config} {job : Job} (h : AtRest c job) : job.machine.config = c := by
  rcases h with hunsent | hat
  · exact hunsent.config
  · exact hat.config

/-- The tool was sent somewhere. -/
def Sent (c : Config) (job : Job) : Prop := ∃ z, At c z job

end Job

namespace Machining

open Job

/-- Work that starts where `P` holds and gets through keeps to the rule and
    ends where `Q` holds. -/
def Ensures {α : Type} (P : Job → Prop) (x : Machining α) (Q : Job → Prop) : Prop :=
  ∀ job a job', P job → x job = .ok a job' → Follows job job' ∧ Q job'

section Ensures

variable {α β : Type} {P Q S : Job → Prop}

theorem ensures_pure (a : α) : Ensures P (pure a) P := by
  intro job b job' hP hrun
  injection hrun with _ hjob
  rw [← hjob]
  exact ⟨refl_of Follows job, hP⟩

/-- The end of one piece of work is the start of the next. -/
theorem Ensures.bind {x : Machining α} {f : α → Machining β} (hx : Ensures P x Q)
    (hf : ∀ a, Ensures Q (f a) S) : Ensures P (x >>= f) S := by
  intro job b job' hP hrun
  obtain ⟨a, mid, hxa, hfb⟩ := bind_apply_eq_ok.mp hrun
  obtain ⟨hfollows, hQ⟩ := hx job a mid hP hxa
  obtain ⟨hfollows', hS⟩ := hf a mid b job' hQ hfb
  exact ⟨trans_of Follows hfollows hfollows', hS⟩

theorem ensures_get {f : Job → Machining β} (h : ∀ job, Ensures P (f job) Q) :
    Ensures P (get >>= f) Q := by
  intro job b job' hP hrun
  exact h job job b job' hP hrun

theorem Ensures.ite {c : Prop} [Decidable c] {x y : Machining α} (hx : Ensures P x Q)
    (hy : Ensures P y Q) : Ensures P (if c then x else y) Q := by
  by_cases hc : c
  · rw [if_pos hc]
    exact hx
  · rw [if_neg hc]
    exact hy

theorem Ensures.weaken {x : Machining α} (h : Ensures P x Q) (hQ : ∀ job, Q job → S job) :
    Ensures P x S := by
  intro job a job' hP hrun
  obtain ⟨hfollows, hpost⟩ := h job a job' hP hrun
  exact ⟨hfollows, hQ job' hpost⟩

/-- What every round of a loop keeps, the loop keeps. -/
theorem Ensures.forM {f : α → Machining PUnit} (hf : ∀ a, Ensures P (f a) P) (items : List α) :
    Ensures P (items.forM f) P := by
  induction items with
  | nil => exact ensures_pure _
  | cons a rest ih => exact (hf a).bind fun _ => ih

variable {c : Config} {z : Float}

/-- Where the height does not matter, it may be taken as given. -/
theorem ensures_of_sent {x : Machining α} (h : ∀ z, Ensures (At c z) x Q) :
    Ensures (Sent c) x Q := by
  rintro job a job' ⟨z, hat⟩ hrun
  exact h z job a job' hat hrun

theorem Ensures.sent {x : Machining α} (h : Ensures P x (At c z)) : Ensures P x (Sent c) :=
  h.weaken fun _ hat => ⟨z, hat⟩

/-- What is read off the configuration is that of the job. -/
theorem ensures_config (f : Config → Machining α) (hP : ∀ job, P job → job.machine.config = c)
    (h : Ensures P (f c) Q) : Ensures P (do f (← get).machine.config) Q := by
  intro job a job' hpre hrun
  rw [← hP job hpre] at h
  exact h job a job' hpre hrun

/-- The height clear of a cut is read off the configuration. -/
theorem ensures_clearOf {f : Float → Machining α} {z' : Float}
    (h : Ensures (At c z) (f (z' + c.clearance)) Q) :
    Ensures (At c z) (clearOf z' >>= f) Q :=
  ensures_config (fun c => f (z' + c.clearance)) (fun _ hat => hat.config) h

end Ensures

/-! ## Single steps -/

section Steps

variable {c : Config} {z : Float} {job job' : Job} {u : Unit}

/-- A move that is made by the rule leads to the height of its target; one
    that is left out was there already. -/
theorem at_of_travel {kind : Move} {target : Vec3} {feed : Float} (hat : At c z job)
    (hrun : travel kind target feed job = .ok u job')
    (hmove : (target == job.machine.position) = false →
      kind.Obeys job.machine.config.safeHeight job.machine.material (some job.machine.position)
        target feed) :
    Follows job job' ∧ At c target.z job' := by
  rw [travel] at hrun
  split at hrun
  · cases hrun
  · rename_i hfinite
    rw [hat.known, Bool.true_and] at hrun
    split at hrun
    · -- the tool is there already and nothing is recorded
      rename_i hsame
      injection hrun with _ hjob
      rw [← hjob]
      refine ⟨refl_of Follows job, { hat with height := ?_ }⟩
      exact beq_symm (Vec3.beq_iff.mp hsame).2.2
    · rename_i hother
      injection hrun with _ hjob
      have htarget : target.isFinite = true := by
        simpa using hfinite
      rw [← hjob]
      refine ⟨follows_push_move rfl rfl ?_, hat.config, rfl, htarget,
        beq_self_of_isFinite (Vec3.isFinite_iff.mp htarget).2.2, lastTarget_push_move _ _ _ _⟩
      rw [hat.last]
      exact hmove (by simpa using hother)

/-- A rapid up or down ends at its height. -/
theorem ensures_rapidZ (z' : Float) : Ensures (At c z) (rapidZ z') (At c z') := by
  intro job u job' hat hrun
  have hfinite := Vec3.isFinite_iff.mp hat.finite
  refine at_of_travel hat hrun fun _ => ⟨.inr ⟨?_, ?_⟩, trivial⟩
  · exact beq_self_of_isFinite hfinite.1
  · exact beq_self_of_isFinite hfinite.2.1

/-- A plunge that is recorded changes the height, as it would be left out
    otherwise. -/
theorem ensures_plunge (z' : Float) : Ensures (At c z) (plunge z') (At c z') := by
  intro job u job' hat hrun
  have hfinite := Vec3.isFinite_iff.mp hat.finite
  have hx := beq_self_of_isFinite hfinite.1
  have hy := beq_self_of_isFinite hfinite.2.1
  refine at_of_travel hat hrun fun hother => ⟨.inr ⟨hx, hy⟩, ?_⟩
  have hz : (z' == job.machine.position.z) = false := by
    rw [Bool.eq_false_iff] at hother ⊢
    intro hz
    exact hother (Vec3.beq_iff.mpr ⟨hx, hy, hz⟩)
  show job.machine.material.plungeRate = if z' == job.machine.position.z then _ else _
  rw [hz]
  rfl

/-- A straight cut keeps its height. -/
theorem ensures_cut (x y : Float) : Ensures (At c z) (cut x y) (At c z) := by
  intro job u job' hat hrun
  have hz := beq_self_of_isFinite (Vec3.isFinite_iff.mp hat.finite).2.2
  obtain ⟨hfollows, hat'⟩ := at_of_travel hat hrun fun _ => ⟨.inl hz, by
    show job.machine.material.feedRate
      = if job.machine.position.z == job.machine.position.z then _ else _
    rw [hz]
    rfl⟩
  exact ⟨hfollows, { hat' with height := beq_trans hat'.height hat.height }⟩

/-- Sideways at the height that the tool is at. -/
theorem ensures_rapid (x y : Float) : Ensures (At c z) (rapid x y z) (At c z) := by
  intro job u job' hat hrun
  exact at_of_travel hat hrun fun _ => ⟨.inl (beq_symm hat.height), trivial⟩

/-- The first move of all has nowhere to start from. -/
theorem ensures_rapid_of_unsent (x y : Float) :
    Ensures (Unsent c) (rapid x y c.safeHeight) (At c c.safeHeight) := by
  intro job u job' hunsent hrun
  have htravel : travel .rapid (job.machine.place x y c.safeHeight) 0 job = .ok u job' := hrun
  rw [travel] at htravel
  split at htravel
  · cases htravel
  · rename_i hfinite
    have htarget : (job.machine.place x y c.safeHeight).isFinite = true := by
      simpa using hfinite
    have hheight : (c.safeHeight == c.safeHeight) = true :=
      beq_self_of_isFinite (Vec3.isFinite_iff.mp htarget).2.2
    rw [hunsent.unknown, Bool.false_and, if_neg Bool.false_ne_true] at htravel
    injection htravel with _ hjob
    rw [← hjob]
    refine ⟨follows_push_move rfl rfl ?_, hunsent.config, rfl, htarget, hheight,
      lastTarget_push_move _ _ _ _⟩
    rw [hunsent.last, hunsent.config]
    exact ⟨rfl, hheight⟩

/-- An arc keeps its height. -/
theorem ensures_arc (x y cx cy : Float) : Ensures (At c z) (arc x y cx cy) (At c z) := by
  intro job u job' hat hrun
  have hz := beq_self_of_isFinite (Vec3.isFinite_iff.mp hat.finite).2.2
  rw [arc] at hrun
  dsimp only at hrun
  split at hrun
  · cases hrun
  · split at hrun
    · cases hrun
    · rename_i hfinite
      injection hrun with _ hjob
      rw [Bool.or_eq_true, not_or] at hfinite
      rw [← hjob]
      refine ⟨follows_push_move rfl rfl ?_, hat.config, hat.known, by simpa using hfinite.1,
        hat.height, lastTarget_push_move _ _ _ _⟩
      rw [hat.last]
      exact ⟨.inl hz, hz, rfl⟩

/-- Steps other than moves leave the tool where it is. -/
theorem ensures_record {a : Action} (ha : ∀ line, Segment.target? ⟨a, line⟩ = none) :
    Ensures (At c z) (record a) (At c z) := by
  intro job u job' hat hrun
  injection hrun with _ hjob
  rw [← hjob]
  refine ⟨⟨rfl, rfl, ?_⟩, { hat with last := (lastTarget_push_of_none (ha _)).trans hat.last }⟩
  rw [Toolpath.segments_push]
  exact .note .refl (ha _)

theorem ensures_announceTool (text : String) :
    Ensures (At c z) (modify fun j : Job => { j with machine.announcedTool := text })
      (At c z) := by
  intro job u job' hat hrun
  injection hrun with _ hjob
  rw [← hjob]
  exact ⟨⟨rfl, rfl, .refl⟩, hat.config, hat.known, hat.finite, hat.height, hat.last⟩

theorem ensures_announceRpm (rpm : Float) :
    Ensures (At c z) (modify fun j : Job => { j with machine.announcedRpm := rpm })
      (At c z) := by
  intro job u job' hat hrun
  injection hrun with _ hjob
  rw [← hjob]
  exact ⟨⟨rfl, rfl, .refl⟩, hat.config, hat.known, hat.finite, hat.height, hat.last⟩

/-- Announcements are no moves, so the tool is where it was. -/
theorem ensures_announce : Ensures (At c z) announce (At c z) := by
  rw [announce]
  refine ensures_get fun job => ?_
  have hspeed : Ensures (At c z) (if job.machine.rpm != job.machine.announcedRpm then do
      record (.spindle job.machine.rpm)
      modify fun j : Job => { j with machine.announcedRpm := job.machine.rpm }
      else pure () : Machining Unit) (At c z) :=
    .ite ((ensures_record fun _ => rfl).bind fun _ => ensures_announceRpm _) (ensures_pure ())
  refine .ite ?_ hspeed
  exact (ensures_record fun _ => rfl).bind fun _ =>
    (ensures_announceTool _).bind fun _ => hspeed

/-- The traverse to the start of an operation is made at safe height. -/
theorem ensures_rapid_of_atRest (x y : Float) :
    Ensures (AtRest c) (rapid x y c.safeHeight) (At c c.safeHeight) := by
  rintro job u job' (hunsent | hat) hrun
  · exact ensures_rapid_of_unsent x y job u job' hunsent hrun
  · exact ensures_rapid x y job u job' hat hrun

/-- An operation that finds the tool at rest brings it down to the
    clearance. -/
theorem ensures_approach (x y : Float) :
    Ensures (AtRest c) (approach x y) (At c c.clearance) := by
  refine ensures_config (fun h => rapid x y h.safeHeight >>= _) (fun _ h => h.config) ?_
  refine (ensures_rapid_of_atRest x y).bind fun _ => ensures_announce.bind fun _ => ?_
  exact ensures_config (fun h => rapidZ h.clearance) (fun _ h => h.config) (ensures_rapidZ _)

/-- Every operation ends at safe height. -/
theorem ensures_retract : Ensures (At c z) retract (At c c.safeHeight) :=
  ensures_config (fun h => rapidZ h.safeHeight) (fun _ h => h.config) (ensures_rapidZ _)

end Steps

/-! ## Passes and plans -/

section Passes

variable {c : Config} {z : Float}

/-- A peck ends at some height, its own or one clear of it. -/
theorem ensures_peckPass (depth : Float) (pecks k : Nat) :
    Ensures (Sent c) (peckPass depth pecks k) (Sent c) := by
  refine ensures_of_sent fun z => (ensures_plunge _).bind fun _ => .ite ?_ ?_
  · exact ensures_clearOf (ensures_rapidZ _).sent
  · exact (ensures_pure ()).sent

/-- A pass of a pocket keeps to the rule if its cuts do. -/
theorem ensures_clearingPass (start : Vec2) (depth : Float) {cuts : Machining Unit}
    (h : ∀ z, Ensures (At c z) cuts (At c z)) (passes k : Nat) :
    Ensures (Sent c) (clearingPass start depth cuts passes k) (Sent c) := by
  refine ensures_of_sent fun z => (ensures_plunge _).bind fun _ => (h _).bind fun _ => .ite ?_ ?_
  · refine ensures_clearOf ((ensures_rapidZ _).bind fun _ => ?_)
    exact ensures_clearOf (ensures_rapid _ _).sent
  · exact (ensures_pure ()).sent

theorem ensures_groovePass (start stop : Vec2) (depth : Float) (passes k : Nat) :
    Ensures (Sent c) (groovePass start stop depth passes k) (Sent c) :=
  ensures_of_sent fun _ => (ensures_plunge _).bind fun _ => (ensures_cut _ _).sent

/-- A pass along an arc may end with the way back to the start. -/
theorem ensures_arcPass (start stop center : Vec2) (depth clearance : Float) (passes k : Nat) :
    Ensures (Sent c) (arcPass start stop center depth clearance passes k) (Sent c) := by
  refine ensures_of_sent fun z => (ensures_plunge _).bind fun _ =>
    (ensures_arc _ _ _ _).bind fun _ => .ite ?_ ?_
  · exact (ensures_rapidZ _).bind fun _ => (ensures_rapid _ _).sent
  · exact (ensures_pure ()).sent

theorem ensures_rings (cx cy pathRadius : Float) (n : Nat) :
    Ensures (At c z) (rings cx cy pathRadius n) (At c z) :=
  .forM (fun _ => (ensures_cut _ _).bind fun _ => (ensures_arc _ _ _ _).bind fun _ =>
    ensures_arc _ _ _ _) _

theorem ensures_loopCuts (loops : Loops) : Ensures (At c z) (loopCuts loops) (At c z) :=
  .forM (fun _ => ensures_cut _ _) _

/-- The passes of every operation keep to the rule. -/
theorem Plan.Of.ensures_pass {m : Machine} {p : Plan} (h : Plan.Of m p) (k : Nat) :
    Ensures (Sent c) (p.pass k) (Sent c) := by
  cases h with
  | drill x y depth peck h =>
      obtain ⟨-, -, pecks, -, rfl⟩ := drillPlan_eq_ok h
      exact ensures_peckPass _ _ _
  | circlePocket cx cy radius depth h =>
      obtain ⟨-, -, n, -, passes, -, rfl⟩ := circlePlan_eq_ok h
      exact ensures_clearingPass _ _ (fun _ => ensures_rings _ _ _ _) _ _
  | groove start stop depth h =>
      obtain ⟨-, passes, -, rfl⟩ := groovePlan_eq_ok h
      exact ensures_groovePass _ _ _ _ _
  | arcGroove start stop center depth h =>
      obtain ⟨-, -, -, passes, -, rfl⟩ := arcPlan_eq_ok h
      exact ensures_arcPass _ _ _ _ _ _ _
  | groovePocket x y width height depth h =>
      obtain ⟨-, loops, -, passes, -, rfl⟩ := pocketPlan_eq_ok h
      exact ensures_clearingPass _ _ (fun _ => ensures_loopCuts _) _ _

/-- **An operation goes from rest to safe height by the rule.** -/
theorem Plan.Of.ensures_carryOut {m : Machine} {p : Plan} (h : Plan.Of m p) :
    Ensures (AtRest c) p.carryOut (At c c.safeHeight) := by
  refine (ensures_approach _ _).sent.bind fun _ => ?_
  refine (Ensures.forM h.ensures_pass _).bind fun _ => ?_
  exact ensures_of_sent fun _ => ensures_retract

end Passes

end Machining

/-! ## Calls -/

namespace Job

/-- Settings of the machine have no part in where the tool is. -/
theorem AtRest.adjusted {c : Config} {job : Job} (h : AtRest c job) {m : Machine}
    (hm : job.machine.Adjusted m) : AtRest c { job with machine := m } := by
  rcases h with hunsent | hat
  · exact .inl ⟨hm.config.trans hunsent.config, hm.positionKnown.trans hunsent.unknown,
      hunsent.last⟩
  · refine .inr ⟨hm.config.trans hat.config, hm.positionKnown.trans hat.known, ?_, ?_, ?_⟩
    · rw [hm.position]
      exact hat.finite
    · rw [hm.position]
      exact hat.height
    · rw [hm.position]
      exact hat.last

/-- Neither have steps that are no moves. -/
theorem AtRest.push {c : Config} {job : Job} (h : AtRest c job) {a : Action}
    (ha : Segment.target? ⟨a, job.path.line⟩ = none) :
    AtRest c { job with path := job.path.push a } := by
  have hlast := lastTarget_push_of_none ha
  rcases h with hunsent | hat
  · exact .inl { hunsent with last := hlast.trans hunsent.last }
  · exact .inr { hat with last := hlast.trans hat.last }

end Job

/-- **A call that gets through keeps to the rule**, for the material in use
    when it is made, and leaves the tool at rest if it found it so. -/
theorem Call.lawful_of_apply {c : Config} {args : Arguments} {f : Builtin} {job job' : Job}
    {v : Value} (hrest : job.AtRest c) (h : Call.apply args f job = .ok v job') :
    Lawful c.safeHeight job.machine.material job.path.segments job'.path.segments
      ∧ job'.AtRest c := by
  have heffect := Call.effect_apply args f job
  generalize Call.apply args f job = r at h heffect
  cases heffect with
  | refused fault => cases h
  | settings m hm v =>
      injection h with _ hjob
      rw [← hjob]
      exact ⟨.refl, hrest.adjusted hm⟩
  | comment text v =>
      injection h with _ hjob
      rw [← hjob, Toolpath.segments_push]
      exact ⟨.note .refl rfl, hrest.push rfl⟩
  | dwell seconds v =>
      injection h with _ hjob
      rw [← hjob, Toolpath.segments_push]
      exact ⟨.note .refl rfl, hrest.push rfl⟩
  | operation p hp w =>
      obtain ⟨u, mid, hcarried, hreturned⟩ := bind_apply_eq_ok.mp h
      injection hreturned with _ hjob
      obtain ⟨hfollows, hat⟩ := hp.ensures_carryOut job u mid hrest hcarried
      rw [← hjob, ← hrest.config]
      exact ⟨hfollows.lawful, .inr (hrest.config.symm ▸ hat)⟩

end MillScript
