import Mathlib.Logic.Relation
import MillScript.Proofs.Evaluation.Blame

/-! # The innermost node has the last word

    Evaluating a node leads to evaluating nodes in it.  `Visit.Enters` says
    which ones, each with the world that it is evaluated in: an operand comes
    after those on its left, an argument after those of the slots before it, a
    statement after the statements before it and, in a loop, after the rounds
    before.  From there on an error is passed on as it is
    (`Visit.outcome_of_reaches`), and each error comes from a node that blames
    it on itself while nothing in that node fails (`Visit.exists_innermost`). -/

namespace MillScript

/-! ## The steps of blocks, loops and scripts -/

namespace Stmt

/-- One statement among others. -/
def perform (s : Stmt) : Run Unit := do
  let _ ← s.eval
  return ()

/-- A body is its statements one after the other. -/
theorem evalAll_eq_forM (body : List Stmt) : evalAll body = body.forM perform := by
  induction body with
  | nil =>
      rw [evalAll]
      rfl
  | cons s rest ih =>
      rw [evalAll, ih]
      show _ = (s.perform >>= fun _ => rest.forM perform)
      rw [perform, bind_assoc]
      rfl

/-- The trace of a loop. -/
def announce (item : String) (items : List Value) : Run Unit :=
  Run.say fun _ => "for " ++ item ++ " in " ++ (Value.sequence items).text ++ "\n"

/-- One round of a loop. -/
def round (item : String) (body : List Stmt) (v : Value) : Run Unit := Run.inFrame do
  Run.bindName item v
  evalAll body

end Stmt

namespace Program

/-- The trace of a statement of a script. -/
def announce (s : Stmt) : Run Unit := Run.say fun w =>
  "line " ++ s.location.line.repr ++ ": " ++ w.job.path.size.repr ++ " segments so far\n"

/-- One statement of a script. -/
def step (s : Stmt) : Run Unit := do
  announce s
  s.perform

theorem runAll_eq_forM (statements : List Stmt) : runAll statements = statements.forM step := by
  induction statements with
  | nil => rfl
  | cons s rest ih =>
      rw [runAll, ih]
      show _ = (step s >>= fun _ => rest.forM step)
      rw [step, Stmt.perform, bind_assoc, bind_assoc]
      rfl

end Program

/-- Evaluation of the slots of a call gets to an argument, after those of the
    slots before it have been evaluated and fit their parameters. -/
inductive Slot.GetsTo (f : Builtin) :
    List Param → List Slot → World → Expr → World → Prop
  | here {p : Param} {params : List Param} {l : Location} {value : Expr} {slots : List Slot}
      {w : World} : GetsTo f (p :: params) (.given l value :: slots) w value w
  | absent {p : Param} {params : List Param} {slots : List Slot} {value : Expr} {w u : World}
      (h : GetsTo f params slots w value u) : GetsTo f (p :: params) (.absent :: slots) w value u
  | given {p : Param} {params : List Param} {l : Location} {first value : Expr}
      {slots : List Slot} {v : Value} {w w₁ w₂ u : World} (hfirst : first.eval w = .ok v w₁)
      (hcheck : Run.checkArgument f p l v w₁ = .ok () w₂) (h : GetsTo f params slots w₂ value u) :
      GetsTo f (p :: params) (.given l first :: slots) w value u

/-! ## Visits -/

/-- A node that is evaluated, and the world that it is evaluated in. -/
structure Visit where
  node : Node
  world : World

namespace Visit

/-- A statement that is evaluated in a world. -/
abbrev stmt (s : Stmt) (w : World) : Visit := ⟨.statement s, w⟩

/-- An expression that is evaluated in a world. -/
abbrev expr (e : Expr) (w : World) : Visit := stmt (.expr e) w

/-- What the evaluation comes to. -/
def outcome (v : Visit) : EStateM.Result Error World Value := v.node.eval v.world

/-- In the course of the first visit the second takes place, with no other
    between them. -/
inductive Enters : Visit → Visit → Prop
  | lhs {l : Location} {op : BinaryOp} {lhs rhs : Expr} {w : World} :
      Enters (expr (.binary l op lhs rhs) w) (expr lhs w)
  | rhs {l : Location} {op : BinaryOp} {lhs rhs : Expr} {w w' : World} {a : Value}
      (hlhs : lhs.eval w = .ok a w') : Enters (expr (.binary l op lhs rhs) w) (expr rhs w')
  | operand {l : Location} {op : UnaryOp} {operand : Expr} {w : World} :
      Enters (expr (.unary l op operand) w) (expr operand w)
  | assigned {l : Location} {name : String} {value : Expr} {w : World} :
      Enters (expr (.assign l name value) w) (expr value w)
  | argument {l : Location} {f : Builtin} {slots : List Slot} {value : Expr} {w w' : World}
      (h : Slot.GetsTo f f.params slots w value w') :
      Enters (expr (.call l f slots) w) (expr value w')
  | inBlock {l : Location} {before after : List Stmt} {s : Stmt} {w w' : World}
      (hbefore : Stmt.evalAll before { w with scopes := w.scopes.push } = .ok () w') :
      Enters (stmt (.block l (before ++ s :: after)) w) (stmt s w')
  | source {l opened : Location} {item : String} {source : Expr} {body : List Stmt} {w : World} :
      Enters (stmt (.forLoop l item source opened body) w) (expr source w)
  | inRound {l opened : Location} {item : String} {source : Expr} {before after : List Stmt}
      {s : Stmt} {done more : List Value} {v : Value} {w w₁ w₂ w₃ : World}
      (hsource : source.eval w = .ok (.sequence (done ++ v :: more)) w₁)
      (hrounds : (do
          Stmt.announce item (done ++ v :: more)
          done.forM (Stmt.round item (before ++ s :: after)) : Run Unit) w₁ = .ok () w₂)
      (hbefore : (do Run.bindName item v; Stmt.evalAll before : Run Unit)
        { w₂ with scopes := w₂.scopes.push } = .ok () w₃) :
      Enters (stmt (.forLoop l item source opened (before ++ s :: after)) w) (stmt s w₃)
  | inProgram {l : Location} {before after : List Stmt} {s : Stmt} {w w' w'' : World}
      (hbefore : Program.runAll before w = .ok () w')
      (htrace : Program.announce s w' = .ok () w'') :
      Enters ⟨.program ⟨l, before ++ s :: after⟩, w⟩ (stmt s w'')

end Visit

/-! ## Passing an error on -/

section PassOn

variable {ε σ α β : Type} {x : EStateM ε σ α} {f : α → EStateM ε σ β} {s t : σ}

theorem bind_apply_of_ok {a : α} (h : x s = .ok a t) : (x >>= f) s = f a t := by
  rw [bind_apply, h]

theorem bind_apply_of_error {e : ε} (h : x s = .error e t) : (x >>= f) s = .error e t := by
  rw [bind_apply, h]

/-- Work in two parts fails in the first one, or in the second after the first
    got through. -/
theorem error_of_bind_apply {e : ε} (h : (x >>= f) s = .error e t) :
    x s = .error e t ∨ ∃ a u, x s = .ok a u ∧ f a u = .error e t := by
  cases hx : x s with
  | ok a u =>
      rw [bind_apply_of_ok hx] at h
      exact .inr ⟨a, u, rfl, h⟩
  | error e' u =>
      rw [bind_apply_of_error hx] at h
      cases h
      exact .inl rfl

/-- Work over a list, cut at one of the items. -/
theorem forM_append_apply {k : α → EStateM ε σ PUnit} {done more : List α}
    (h : done.forM k s = .ok ⟨⟩ t) : (done ++ more).forM k s = more.forM k t := by
  induction done generalizing s with
  | nil =>
      cases h
      rfl
  | cons a done ih =>
      obtain ⟨_, u, hu, hdone⟩ := bind_apply_eq_ok.mp h
      exact (bind_apply_of_ok hu).trans (ih hdone)

/-- Work over a list fails at one of the items. -/
theorem exists_of_forM_eq_error {k : α → EStateM ε σ PUnit} {items : List α} {e : ε}
    (h : items.forM k s = .error e t) :
    ∃ done a more u, items = done ++ a :: more ∧ done.forM k s = .ok ⟨⟩ u ∧ k a u = .error e t := by
  induction items generalizing s with
  | nil => cases h
  | cons a items ih =>
      rcases error_of_bind_apply h with ha | ⟨_, u, ha, hrest⟩
      · exact ⟨[], a, items, s, rfl, rfl, ha⟩
      · obtain ⟨done, b, more, v, rfl, hdone, hb⟩ := ih hrest
        exact ⟨a :: done, b, more, v, rfl, (bind_apply_of_ok ha).trans hdone, hb⟩

end PassOn

/-- An error that has a place keeps it. -/
theorem Error.locate_of_isKnown {e : Error} (h : e.location.isKnown = true) (l : Location) :
    e.locate l = e := by
  rw [Error.locate, if_pos h]

namespace Run

variable {α : Type} {x : Run α} {w w' : World} {e : Error}

theorem locating_of_error (hknown : e.location.isKnown = true) (l : Location)
    (h : x w = .error e w') : locating l x w = .error e w' := by
  rw [locating, h]
  dsimp only
  rw [Error.locate_of_isKnown hknown]

/-- The frame is taken away, the error stays. -/
theorem inFrame_of_error (h : x { w with scopes := w.scopes.push } = .error e w') :
    ∃ w'', inFrame x w = .error e w'' := by
  rw [inFrame, h]
  exact ⟨_, rfl⟩

end Run

namespace Slot

variable {f : Builtin} {w w' : World} {e : Error}

/-- A value that is got to is one that was given. -/
theorem GetsTo.exists_mem {params : List Param} {slots : List Slot} {value : Expr} {u : World}
    (h : GetsTo f params slots w value u) : ∃ l, .given l value ∈ slots := by
  induction h with
  | here => exact ⟨_, List.mem_cons_self⟩
  | absent _ ih =>
      obtain ⟨l, hl⟩ := ih
      exact ⟨l, List.mem_cons_of_mem _ hl⟩
  | given _ _ _ ih =>
      obtain ⟨l, hl⟩ := ih
      exact ⟨l, List.mem_cons_of_mem _ hl⟩

/-- If that value fails, so do the arguments as a whole. -/
theorem GetsTo.evalAll_eq_error {params : List Param} {slots : List Slot} {value : Expr}
    {u : World} (h : GetsTo f params slots w value u) (hvalue : value.eval u = .error e w') :
    evalAll f params slots w = .error e w' := by
  induction h with
  | here =>
      rw [evalAll]
      exact bind_apply_of_error hvalue
  | absent _ ih =>
      rw [evalAll]
      exact ih hvalue
  | given hfirst hcheck _ ih =>
      rw [evalAll, bind_apply_of_ok hfirst, bind_apply_of_ok hcheck]
      exact bind_apply_of_error (ih hvalue)

/-- The arguments of a call fail at one of them, or because one does not fit
    its parameter. -/
theorem exists_of_evalAll_eq_error {params : List Param} {slots : List Slot} {w : World}
    (h : evalAll f params slots w = .error e w') :
    (∃ value u, GetsTo f params slots w value u ∧ value.eval u = .error e w')
      ∨ ∃ l value, .given l value ∈ slots ∧ e.location = l := by
  match params, slots with
  | _ :: params, .absent :: slots =>
      rw [evalAll] at h
      rcases exists_of_evalAll_eq_error h with ⟨value, u, hgets, hvalue⟩ | ⟨l, value, hmem, hl⟩
      · exact .inl ⟨value, u, .absent hgets, hvalue⟩
      · exact .inr ⟨l, value, List.mem_cons_of_mem _ hmem, hl⟩
  | p :: params, .given l first :: slots =>
      rw [evalAll] at h
      rcases error_of_bind_apply h with hfirst | ⟨v, w₁, hfirst, h⟩
      · exact .inl ⟨first, w, .here, hfirst⟩
      rcases error_of_bind_apply h with hcheck | ⟨_, w₂, hcheck, h⟩
      · have hl : e.location = l :=
          Run.blames_checkArgument (P := (· = l)) f p rfl v w₁ e w' hcheck
        exact .inr ⟨l, first, List.mem_cons_self, hl⟩
      rcases error_of_bind_apply h with hrest | ⟨_, _, _, h⟩
      · rcases exists_of_evalAll_eq_error hrest with
          ⟨value, u, hgets, hvalue⟩ | ⟨m, value, hmem, hm⟩
        · exact .inl ⟨value, u, .given hfirst hcheck hgets, hvalue⟩
        · exact .inr ⟨m, value, List.mem_cons_of_mem _ hmem, hm⟩
      · cases h
  | [], [] => cases h
  | [], _ :: _ => cases h
  | _ :: _, [] => cases h

end Slot

namespace Stmt

variable {s : Stmt} {before : List Stmt} {w u w' : World} {e : Error}

/-- A statement among others fails if it fails. -/
theorem perform_of_error (h : s.eval w = .error e w') : s.perform w = .error e w' :=
  bind_apply_of_error h

theorem eval_of_perform_eq_error (h : s.perform w = .error e w') : s.eval w = .error e w' := by
  rcases error_of_bind_apply h with h | ⟨_, _, _, h⟩
  · exact h
  · cases h

/-- A statement that fails, after the statements before it. -/
theorem evalAll_of_error (hbefore : evalAll before w = .ok () u) (h : s.eval u = .error e w')
    (after : List Stmt) : evalAll (before ++ s :: after) w = .error e w' := by
  rw [evalAll_eq_forM] at hbefore ⊢
  rw [forM_append_apply hbefore]
  exact bind_apply_of_error (perform_of_error h)

/-- A body fails at one of its statements, after those before it got
    through. -/
theorem exists_of_evalAll_eq_error {body : List Stmt} (h : evalAll body w = .error e w') :
    ∃ before s after u, body = before ++ s :: after ∧ evalAll before w = .ok () u
      ∧ s.eval u = .error e w' := by
  rw [evalAll_eq_forM] at h
  obtain ⟨before, s, after, u, hbody, hbefore, hs⟩ := exists_of_forM_eq_error h
  rw [← evalAll_eq_forM] at hbefore
  exact ⟨before, s, after, u, hbody, hbefore, eval_of_perform_eq_error hs⟩

/-- A round of a loop fails if its body does. -/
theorem round_of_error {item : String} {body : List Stmt} {v : Value}
    (hname : Run.bindName item v { w with scopes := w.scopes.push } = .ok () u)
    (h : evalAll body u = .error e w') : ∃ w'', round item body v w = .error e w'' :=
  Run.inFrame_of_error ((bind_apply_of_ok hname).trans h)

/-- A loop fails when its rounds do. -/
theorem eval_forLoop_of_error (hknown : e.location.isKnown = true) (l opened : Location)
    {item : String} {source : Expr} {body : List Stmt} {items : List Value} {w₁ w₂ : World}
    (hsource : source.eval w = .ok (.sequence items) w₁)
    (hannounce : announce item items w₁ = .ok () w₂)
    (hrounds : items.forM (round item body) w₂ = .error e w') :
    (Stmt.forLoop l item source opened body).eval w = .error e w' := by
  rw [eval]
  refine Run.locating_of_error hknown l ?_
  rw [bind_apply_of_ok hsource]
  exact (bind_apply_of_ok hannounce).trans (bind_apply_of_error hrounds)

end Stmt

/-! ## From one visit to the one around it -/

/-- The places of slots are those of each of them. -/
theorem Slot.allPlacesIn_iff {P : Location → Prop} {slots : List Slot} :
    Slot.AllPlacesIn P slots ↔ ∀ s ∈ slots, s.AllPlaces P := by
  induction slots with
  | nil => simp [Slot.AllPlacesIn]
  | cons s rest ih => simp [Slot.AllPlacesIn, ih]

/-- The places of a body are those of its statements. -/
theorem Stmt.allPlacesIn_iff {P : Location → Prop} {body : List Stmt} :
    Stmt.AllPlacesIn P body ↔ ∀ s ∈ body, s.AllPlaces P := by
  induction body with
  | nil => simp [Stmt.AllPlacesIn]
  | cons s rest ih => simp [Stmt.AllPlacesIn, ih]

namespace Visit

variable {v v' : Visit} {e : Error} {w : World}

/-- What is entered lies within the node, places and all. -/
theorem Enters.allPlaces {P : Location → Prop} (h : v.Enters v') (hv : v.node.AllPlaces P) :
    v'.node.AllPlaces P := by
  cases h with
  | lhs => exact hv.2.1
  | rhs => exact hv.2.2
  | operand => exact hv.2
  | assigned => exact hv.2
  | argument h =>
      obtain ⟨l, hmem⟩ := h.exists_mem
      exact (Slot.allPlacesIn_iff.mp hv.2 _ hmem).2
  | inBlock => exact Stmt.allPlacesIn_iff.mp hv.2 _ List.mem_append_cons_self
  | source => exact hv.2.1
  | inRound => exact Stmt.allPlacesIn_iff.mp hv.2.2.2 _ List.mem_append_cons_self
  | inProgram => exact Stmt.allPlacesIn_iff.mp hv.2 _ List.mem_append_cons_self

/-- An error of a node that is entered is one of the node around it. -/
theorem Enters.outcome_eq_error (h : v.Enters v') (hknown : e.location.isKnown = true)
    (he : v'.outcome = .error e w) : ∃ w', v.outcome = .error e w' := by
  cases h with
  | lhs => exact ⟨w, Run.locating_of_error hknown _ (bind_apply_of_error he)⟩
  | rhs hlhs =>
      refine ⟨w, Run.locating_of_error hknown _ ?_⟩
      rw [bind_apply_of_ok hlhs]
      exact bind_apply_of_error he
  | operand => exact ⟨w, Run.locating_of_error hknown _ (bind_apply_of_error he)⟩
  | assigned => exact ⟨w, Run.locating_of_error hknown _ (bind_apply_of_error he)⟩
  | argument h =>
      exact ⟨w, Run.locating_of_error hknown _ (bind_apply_of_error (h.evalAll_eq_error he))⟩
  | inBlock hbefore =>
      obtain ⟨w', hframe⟩ := Run.inFrame_of_error (Stmt.evalAll_of_error hbefore he _)
      exact ⟨w', Run.locating_of_error hknown _ (bind_apply_of_error hframe)⟩
  | source => exact ⟨w, Run.locating_of_error hknown _ (bind_apply_of_error he)⟩
  | @inRound l opened item source before after s done more v _ _ _ _ hsource hrounds hbefore =>
      obtain ⟨_, w₁, hannounce, hdone⟩ := bind_apply_eq_ok.mp hrounds
      obtain ⟨_, w₂, hname, hbefore⟩ := bind_apply_eq_ok.mp hbefore
      obtain ⟨w', hround⟩ := Stmt.round_of_error hname (Stmt.evalAll_of_error hbefore he after)
      refine ⟨w', Stmt.eval_forLoop_of_error hknown l opened hsource hannounce ?_⟩
      rw [forM_append_apply hdone]
      exact bind_apply_of_error hround
  | inProgram hbefore htrace =>
      refine ⟨w, Run.locating_of_error hknown _ (bind_apply_of_error ?_)⟩
      rw [Program.run, Program.runAll_eq_forM]
      rw [Program.runAll_eq_forM] at hbefore
      rw [forM_append_apply hbefore]
      exact bind_apply_of_error ((bind_apply_of_ok htrace).trans (Stmt.perform_of_error he))

/-- **No node changes the error of a node in it.** -/
theorem outcome_of_reaches (hv : v.node.AllPlaces (·.isKnown = true))
    (hreach : Relation.ReflTransGen Enters v v') (he : v'.outcome = .error e w) :
    ∃ w', v.outcome = .error e w' := by
  induction hreach using Relation.ReflTransGen.head_induction_on with
  | refl => exact ⟨w, he⟩
  | head henters _ ih =>
      obtain ⟨w', hw'⟩ := ih (henters.allPlaces hv)
      have hknown := Run.blames_node (fun _ h => h) _ (henters.allPlaces hv) _ e w' hw'
      exact henters.outcome_eq_error hknown hw'

end Visit

/-! ## Where an error comes from -/

namespace Node

/-- Where a node starts. -/
def location : Node → Location
  | .statement s => s.location
  | .program p => p.location

/-- The places that a node blames its own errors on: mostly its place, for an
    argument of the wrong type that of the argument, and for a value that is
    no sequence that of the expression it comes from. -/
inductive Owns : Node → Location → Prop
  | place (n : Node) : Owns n n.location
  | argument {l m : Location} {f : Builtin} {slots : List Slot} {value : Expr}
      (hmem : Slot.given m value ∈ slots) : Owns (.statement (.expr (.call l f slots))) m
  | source {l opened : Location} {item : String} {source : Expr} {body : List Stmt} :
      Owns (.statement (.forLoop l item source opened body)) source.location

end Node

namespace Run

variable {α : Type} {x : Run α} {w w' : World} {e : Error} {l : Location}

/-- What fails within a place fails by itself, and may get the place. -/
theorem exists_of_locating_eq_error (h : locating l x w = .error e w') :
    ∃ e', x w = .error e' w' ∧ e = e'.locate l := by
  rw [locating] at h
  cases hx : x w with
  | ok a u =>
      rw [hx] at h
      cases h
  | error e' u =>
      rw [hx] at h
      cases h
      exact ⟨e', rfl, rfl⟩

/-- What fails in a frame fails by itself. -/
theorem exists_of_inFrame_eq_error (h : inFrame x w = .error e w') :
    ∃ u, x { w with scopes := w.scopes.push } = .error e u := by
  rw [inFrame] at h
  cases hx : x { w with scopes := w.scopes.push } with
  | ok a u =>
      rw [hx] at h
      cases h
  | error e' u =>
      rw [hx] at h
      cases h
      exact ⟨u, rfl⟩

end Run

/-- An error that has no place gets one. -/
theorem Error.location_locate (e : Error) (l : Location) (h : e.location = .unknown) :
    (e.locate l).location = l := by
  rw [Error.locate, h]
  rfl

namespace Visit

variable {v : Visit} {e : Error} {w : World}

/-- Nothing that the visit leads to fails. -/
def Undisturbed (v : Visit) : Prop := ∀ v' e w, v.Enters v' → v'.outcome ≠ .error e w

/-- If no node that an expression enters fails, an error is at a place of the
    expression itself. -/
theorem owns_expr {x : Expr} {u : World} (hx : x.AllPlaces (·.isKnown = true))
    (hin : (expr x u).Undisturbed) (h : x.eval u = .error e w) :
    Node.Owns (.statement (.expr x)) e.location := by
  -- the place of the node itself, for an error that has none
  have hplace : ∀ e' : Error, e'.location = .unknown ∨ False → e = e'.locate x.location →
      Node.Owns (.statement (.expr x)) e.location := by
    intro e' hopen he
    rw [he, Error.location_locate e' _ (hopen.resolve_right id)]
    exact .place _
  cases x with
  | number l q => cases h
  | string l text => cases h
  | identifier l name =>
      obtain ⟨e', h, he⟩ := Run.exists_of_locating_eq_error h
      exact hplace e' (Run.mayBlame_lookup (P := fun _ => False) name u e' w h) he
  | binary l op lhs rhs =>
      obtain ⟨e', h, he⟩ := Run.exists_of_locating_eq_error h
      rcases error_of_bind_apply h with hlhs | ⟨a, u₁, hlhs, h⟩
      · exact absurd hlhs (hin _ _ _ .lhs)
      rcases error_of_bind_apply h with hrhs | ⟨b, u₂, hrhs, h⟩
      · exact absurd hrhs (hin _ _ _ (.rhs hlhs))
      exact hplace e' (Run.mayBlame_ofExcept (P := fun _ => False) _ u₂ e' w h) he
  | unary l op operand =>
      obtain ⟨e', h, he⟩ := Run.exists_of_locating_eq_error h
      rcases error_of_bind_apply h with hoperand | ⟨a, u₁, hoperand, h⟩
      · exact absurd hoperand (hin _ _ _ .operand)
      exact hplace e' (Run.mayBlame_ofExcept (P := fun _ => False) _ u₁ e' w h) he
  | assign l name value =>
      obtain ⟨e', h, he⟩ := Run.exists_of_locating_eq_error h
      rcases error_of_bind_apply h with hvalue | ⟨a, u₁, hvalue, h⟩
      · exact absurd hvalue (hin _ _ _ .assigned)
      · cases h
  | call l f slots =>
      obtain ⟨e', h, he⟩ := Run.exists_of_locating_eq_error h
      rcases error_of_bind_apply h with hslots | ⟨args, u₁, hslots, h⟩
      · rcases Slot.exists_of_evalAll_eq_error hslots with
          ⟨value, u₁, hgets, hvalue⟩ | ⟨m, value, hmem, hm⟩
        · exact absurd hvalue (hin _ _ _ (.argument hgets))
        · have hknown : m.isKnown = true := (Slot.allPlacesIn_iff.mp hx.2 _ hmem).1
          rw [← hm] at hknown
          rw [he, Error.locate_of_isKnown hknown, hm]
          exact .argument hmem
      · exact hplace e' (Run.mayBlame_machining (P := fun _ => False) _ _ e' w h) he

/-- If no node that a statement enters fails, an error is at a place of the
    statement itself. -/
theorem owns_stmt {s : Stmt} {u : World} (hs : s.AllPlaces (·.isKnown = true))
    (hin : (stmt s u).Undisturbed) (h : s.eval u = .error e w) :
    Node.Owns (.statement s) e.location := by
  cases s with
  | expr x =>
      rw [Stmt.eval] at h
      exact owns_expr hs hin h
  | block l body =>
      rw [Stmt.eval] at h
      obtain ⟨e', h, -⟩ := Run.exists_of_locating_eq_error h
      rcases error_of_bind_apply h with hbody | ⟨_, _, _, h⟩
      · obtain ⟨w', hbody⟩ := Run.exists_of_inFrame_eq_error hbody
        obtain ⟨before, s, after, u₁, rfl, hbefore, hs⟩ := Stmt.exists_of_evalAll_eq_error hbody
        exact absurd hs (hin _ _ _ (.inBlock hbefore))
      · cases h
  | forLoop l item source opened body =>
      rw [Stmt.eval] at h
      obtain ⟨e', h, he⟩ := Run.exists_of_locating_eq_error h
      rcases error_of_bind_apply h with hsource | ⟨items, u₁, hsource, h⟩
      · exact absurd hsource (hin _ _ _ .source)
      have hthrow : ∀ fault, e' = ⟨fault, source.location⟩ →
          Node.Owns (.statement (.forLoop l item source opened body)) e.location := by
        rintro fault rfl
        rw [he, Error.locate_of_isKnown hs.2.1.location]
        exact .source
      cases items with
      | sequence items =>
          rcases error_of_bind_apply h with hannounce | ⟨_, u₂, hannounce, h⟩
          · cases hannounce
          rcases error_of_bind_apply h with hrounds | ⟨_, _, _, h⟩
          · obtain ⟨done, v, more, u₃, rfl, hdone, hround⟩ := exists_of_forM_eq_error hrounds
            obtain ⟨w', hround⟩ := Run.exists_of_inFrame_eq_error hround
            rcases error_of_bind_apply hround with hname | ⟨_, u₄, hname, hbody⟩
            · cases hname
            obtain ⟨before, s, after, u₅, rfl, hbefore, hs⟩ := Stmt.exists_of_evalAll_eq_error hbody
            have hrounds : (do
                Stmt.announce item (done ++ v :: more)
                done.forM (Stmt.round item (before ++ s :: after)) : Run Unit) u₁ = .ok () u₃ :=
              (bind_apply_of_ok hannounce).trans hdone
            exact absurd hs (hin _ _ _
              (.inRound hsource hrounds ((bind_apply_of_ok hname).trans hbefore)))
          · cases h
      | none =>
          cases h
          exact hthrow _ rfl
      | number q =>
          cases h
          exact hthrow _ rfl
      | string text =>
          cases h
          exact hthrow _ rfl

/-- An error of a visit that leads to no failure is the node's own. -/
theorem Undisturbed.owns (hin : v.Undisturbed) (hv : v.node.AllPlaces (·.isKnown = true))
    (h : v.outcome = .error e w) : v.node.Owns e.location := by
  obtain ⟨n, u⟩ := v
  cases n with
  | statement s => exact owns_stmt hv hin h
  | program p =>
      obtain ⟨e', h, -⟩ := Run.exists_of_locating_eq_error h
      rcases error_of_bind_apply h with hrun | ⟨_, _, _, h⟩
      · rw [Program.run, Program.runAll_eq_forM] at hrun
        obtain ⟨before, s, after, u₁, hp, hbefore, hs⟩ := exists_of_forM_eq_error hrun
        rw [← Program.runAll_eq_forM] at hbefore
        rcases error_of_bind_apply hs with htrace | ⟨_, u₂, htrace, hs⟩
        · cases htrace
        obtain ⟨l, statements⟩ := p
        cases hp
        exact absurd (Stmt.eval_of_perform_eq_error hs) (hin _ _ _ (.inProgram hbefore htrace))
      · cases h

theorem sizeOf_lt_append_cons (before after : List Stmt) (s : Stmt) :
    sizeOf s < sizeOf (before ++ s :: after) :=
  List.sizeOf_lt_of_mem List.mem_append_cons_self

/-- Nodes lead to smaller ones. -/
theorem Enters.sizeOf_lt {v v' : Visit} (h : v.Enters v') : sizeOf v'.node < sizeOf v.node := by
  cases h with
  | lhs =>
      simp only [Node.statement.sizeOf_spec, Stmt.expr.sizeOf_spec, Expr.binary.sizeOf_spec]
      omega
  | rhs =>
      simp only [Node.statement.sizeOf_spec, Stmt.expr.sizeOf_spec, Expr.binary.sizeOf_spec]
      omega
  | operand =>
      simp only [Node.statement.sizeOf_spec, Stmt.expr.sizeOf_spec, Expr.unary.sizeOf_spec]
      omega
  | assigned =>
      simp only [Node.statement.sizeOf_spec, Stmt.expr.sizeOf_spec, Expr.assign.sizeOf_spec]
      omega
  | argument h =>
      obtain ⟨m, hmem⟩ := h.exists_mem
      have hslot := List.sizeOf_lt_of_mem hmem
      rw [Slot.given.sizeOf_spec] at hslot
      simp only [Node.statement.sizeOf_spec, Stmt.expr.sizeOf_spec, Expr.call.sizeOf_spec]
      omega
  | @inBlock l before after s =>
      have hs := sizeOf_lt_append_cons before after s
      simp only [Node.statement.sizeOf_spec, Stmt.block.sizeOf_spec]
      omega
  | @source l =>
      -- the loop is larger by its place
      have hl : 0 < sizeOf l := by
        cases l
        rw [Location.mk.sizeOf_spec]
        omega
      simp only [Node.statement.sizeOf_spec, Stmt.expr.sizeOf_spec, Stmt.forLoop.sizeOf_spec]
      omega
  | @inRound l opened item source before after s =>
      have hs := sizeOf_lt_append_cons before after s
      simp only [Node.statement.sizeOf_spec, Stmt.forLoop.sizeOf_spec]
      omega
  | @inProgram l before after s =>
      have hs := sizeOf_lt_append_cons before after s
      simp only [Node.statement.sizeOf_spec, Node.program.sizeOf_spec, Program.mk.sizeOf_spec]
      omega

/-- **Every error comes from an innermost node**, whose own it is, and in
    which nothing fails. -/
theorem exists_innermost {v : Visit} (hv : v.node.AllPlaces (·.isKnown = true)) {w : World}
    (h : v.outcome = .error e w) :
    ∃ v' w', Relation.ReflTransGen Enters v v' ∧ v'.outcome = .error e w'
      ∧ v'.node.Owns e.location ∧ v'.Undisturbed := by
  by_cases hfails : ∃ v₁ e₁ w₁, v.Enters v₁ ∧ v₁.outcome = .error e₁ w₁
  · obtain ⟨v₁, e₁, w₁, henters, hv₁⟩ := hfails
    have hplaces := henters.allPlaces hv
    have hknown := Run.blames_node (fun _ h => h) _ hplaces _ e₁ w₁ hv₁
    obtain ⟨w₂, hw₂⟩ := henters.outcome_eq_error hknown hv₁
    have he : e = e₁ := by
      rw [h] at hw₂
      injection hw₂
    rw [← he] at hv₁
    obtain ⟨v', w', hreach, hv', howns, hin⟩ := exists_innermost hplaces hv₁
    exact ⟨v', w', .head henters hreach, hv', howns, hin⟩
  · have hin : v.Undisturbed := fun v₁ e₁ w₁ henters hv₁ => hfails ⟨v₁, e₁, w₁, henters, hv₁⟩
    exact ⟨v, w, .refl, h, hin.owns hv h, hin⟩
termination_by sizeOf v.node
decreasing_by exact henters.sizeOf_lt

end Visit

end MillScript
