import MillScript.Proofs.Evaluation.Frames
import MillScript.Proofs.Machining.Recorded
import MillScript.Proofs.Program.Literals
import MillScript.Proofs.Session.Calls

/-! # Real numbers in scripts

    The numbers of a script come from its literals, from arithmetic and from
    what calls give back.  The first two are real.  So as long as every call
    gives back real numbers, all variables hold real numbers, every call is
    given real arguments, and the job stays paced. -/

namespace MillScript

namespace Run

variable {α β : Type}

/-- If variables are real, and so is what the calls give back, work that gets
    through has a result with the property, leaves real variables, and has
    given real arguments to the calls. -/
def Real (calls : World → List Performed) (Q : α → Prop) (x : Run α) : Prop :=
  ∀ w a w', x w = .ok a w' → AllReal w.scopes.lookup →
    (∀ c ∈ calls w, c.value.isFinite = true) →
    Q a ∧ AllReal w'.scopes.lookup ∧ ∀ c ∈ calls w, AllReal (List.lookup · c.arguments)

theorem real_pure {Q : α → Prop} {a : α} (ha : Q a) :
    Real (fun _ => []) Q (pure a : Run α) := by
  intro w b w' h hw _
  injection h with hb hw'
  rw [← hb, ← hw']
  exact ⟨ha, hw, fun _ hc => absurd hc List.not_mem_nil⟩

theorem real_value {v : Value} (hv : v.isFinite = true) :
    Real (fun _ => []) (fun v => v.isFinite = true) (pure v : Run Value) := real_pure hv

theorem real_throw (Q : α → Prop) (e : Error) : Real (fun _ => []) Q (throw e : Run α) := by
  intro w a w' h
  cases h

/-- A result with a property, if it has one at all. -/
theorem real_ofExcept {Q : α → Prop} {r : Except Fault α} (h : ∀ a, r = .ok a → Q a) :
    Real (fun _ => []) Q (ofExcept r) := by
  cases r with
  | error f => exact real_throw Q { fault := f }
  | ok a => exact real_pure (h a rfl)

/-- Variables are real where all of them are. -/
theorem real_lookup (name : String) :
    Real (fun _ => []) (fun v => v.isFinite = true) (lookup name) := by
  intro w v w' h hw _
  obtain ⟨hv, rfl⟩ := lookup_eq_ok h
  exact ⟨hw name v hv, hw, fun _ hc => absurd hc List.not_mem_nil⟩

/-- What a call gives back is real because it is in the list. -/
theorem real_call (line : Int) {args : Arguments} (hargs : AllReal (List.lookup · args))
    (f : Builtin) :
    Real (fun w => Performed.ofCall f args (w.job.atLine line)) (fun v => v.isFinite = true)
      (call line args f) := by
  intro w v w' h hw hcalls
  obtain ⟨happly, hscopes⟩ := call_eq_ok h
  change ∀ c ∈ Performed.ofCall f args (w.job.atLine line), _ at hcalls
  show _ ∧ _ ∧ ∀ c ∈ Performed.ofCall f args (w.job.atLine line), _
  rw [ofCall_eq happly] at hcalls ⊢
  rw [hscopes]
  refine ⟨hcalls _ List.mem_cons_self, hw, ?_⟩
  intro c hc
  rw [List.mem_singleton.mp hc]
  exact hargs

variable {x : Run α} {calls : World → List Performed} {Q : α → Prop} {Q' : β → Prop}

/-- Real values go from one part of the work to the next. -/
theorem Real.bind (hx : Real calls Q x) {f : α → Run β} {next : α → World → List Performed}
    (hf : ∀ a, Q a → Real (next a) Q' (f a)) :
    Real (fun w => calls w ++ callsAfter (x w) next) Q' (x >>= f) := by
  intro w b w' h hw hcalls
  obtain ⟨a, u, ha, hb⟩ := bind_apply_eq_ok.mp h
  change ∀ c ∈ calls w ++ callsAfter (x w) next, _ at hcalls
  show _ ∧ _ ∧ ∀ c ∈ calls w ++ callsAfter (x w) next, _
  rw [ha] at hcalls ⊢
  change ∀ c ∈ calls w ++ next a u, _ at hcalls
  show _ ∧ _ ∧ ∀ c ∈ calls w ++ next a u, _
  rw [List.forall_mem_append] at hcalls ⊢
  obtain ⟨hQ, hu, hfirst⟩ := hx w a u ha hw hcalls.1
  obtain ⟨hQ', hw', hrest⟩ := hf a hQ u b w' hb hu hcalls.2
  exact ⟨hQ', hw', hfirst, hrest⟩

/-- Work after which nothing more is called. -/
theorem Real.bindQuiet (hx : Real calls Q x) {f : α → Run β}
    (hf : ∀ a, Q a → Real (fun _ => []) Q' (f a)) : Real calls Q' (x >>= f) := by
  intro w b w' h hw hcalls
  obtain ⟨a, u, ha, hb⟩ := bind_apply_eq_ok.mp h
  obtain ⟨hQ, hu, hargs⟩ := hx w a u ha hw hcalls
  obtain ⟨hQ', hw', -⟩ := hf a hQ u b w' hb hu fun _ hc => absurd hc List.not_mem_nil
  exact ⟨hQ', hw', hargs⟩

theorem Real.locating (hx : Real calls Q x) (l : Location) : Real calls Q (locating l x) :=
  fun w a w' h => hx w a w' (locating_eq_ok h)

/-- The frames around the work are put back, whatever it did in its own. -/
theorem Real.inFrame (hx : Real calls Q x) (hscripted : Scripted x) :
    Real (fun w => calls { w with scopes := w.scopes.push }) Q (inFrame x) := by
  intro w a w' h hw hcalls
  have hscopes := hscripted.scopes_inFrame w
  rw [h] at hscopes
  obtain ⟨v, hv, -⟩ := inFrame_eq_ok h
  -- what the work left in its own frame is not needed
  obtain ⟨hQ, -, hargs⟩ := hx _ a v hv hw.push hcalls
  refine ⟨hQ, ?_, hargs⟩
  rw [show w'.scopes = w.scopes from hscopes]
  exact hw

/-- A real value may be bound. -/
theorem Real.afterBindName (hx : Real calls Q x) (name : String) {v : Value}
    (hv : v.isFinite = true) :
    Real (fun w => calls { w with scopes := w.scopes.bind name v }) Q
      (do bindName name v; x) :=
  fun _ a w' h hw hcalls => hx _ a w' h (hw.bind hv name) hcalls

theorem Real.afterSay (hx : Real calls Q x) (text : World → String) :
    Real (fun w => calls (told text w)) Q (do say text; x) :=
  fun _ a w' h hw hcalls => hx _ a w' h hw hcalls

theorem Real.afterCheck (hx : Real calls Q x) (f : Builtin) (p : Param) (l : Location)
    (v : Value) : Real calls Q (do checkArgument f p l v; x) := by
  intro w a w' h hw hcalls
  obtain ⟨_, u, hcheck, hrest⟩ := bind_apply_eq_ok.mp h
  obtain rfl := checkArgument_eq_ok hcheck
  exact hx u a w' hrest hw hcalls

/-- Rounds of a loop, over real items. -/
theorem Real.forM {work : α → Run PUnit} {each : α → World → List Performed} {items : List α}
    (h : ∀ a ∈ items, Real (each a) (fun _ => True) (work a)) :
    Real (callsEach work each items) (fun _ => True) (items.forM work) := by
  induction items with
  | nil => exact real_pure trivial
  | cons a rest ih =>
      rw [List.forall_mem_cons] at h
      exact h.1.bind fun _ _ => ih h.2

/-! ## Evaluation -/

mutual

/-- **Expressions of real literals have real values** as long as their calls
    do. -/
theorem real_expr {e : Expr} (h : e.LiteralsReal) :
    Real e.calls (fun v => v.isFinite = true) e.eval := by
  match e with
  | .number l q =>
      rw [Expr.LiteralsReal] at h
      exact real_value h
  | .string l s => exact real_value rfl
  | .identifier l name => exact (real_lookup name).locating l
  | .binary l op lhs rhs =>
      rw [Expr.LiteralsReal] at h
      refine Real.locating ((real_expr h.1).bind fun a _ => ?_) l
      exact (real_expr h.2).bindQuiet fun b _ =>
        real_ofExcept fun v hv => Value.isFinite_of_binary hv
  | .unary l op operand =>
      rw [Expr.LiteralsReal] at h
      refine Real.locating ((real_expr h).bindQuiet fun a ha => ?_) l
      exact real_ofExcept fun v hv => Value.isFinite_of_unary ha hv
  | .assign l name value =>
      rw [Expr.LiteralsReal] at h
      refine Real.locating ((real_expr h).bindQuiet fun v hv => ?_) l
      exact (real_value hv).afterBindName name hv
  | .call l f slots =>
      rw [Expr.LiteralsReal] at h
      refine Real.locating ((real_slots f f.params h).bind fun args hargs => ?_) l
      exact real_call l.line hargs f

theorem real_slots (f : Builtin) (params : List Param) {slots : List Slot}
    (h : Slot.AllLiteralsReal slots) :
    Real (Slot.calls f params slots) (fun args => AllReal (List.lookup · args))
      (Slot.evalAll f params slots) := by
  match params, slots with
  | _ :: params, .absent :: slots =>
      rw [Slot.AllLiteralsReal] at h
      rw [Slot.evalAll]
      exact real_slots f params h.2
  | p :: params, .given l value :: slots =>
      rw [Slot.AllLiteralsReal, Slot.LiteralsReal] at h
      rw [Slot.evalAll]
      refine (real_expr h.1).bind fun v hv => Real.afterCheck ?_ f p l v
      exact (real_slots f params h.2).bindQuiet fun args hargs => real_pure (hargs.cons hv p.name)
  | [], [] => exact real_pure AllReal.nil
  | [], _ :: _ => exact real_pure AllReal.nil
  | _ :: _, [] => exact real_pure AllReal.nil

end

mutual

/-- **Statements keep all variables real** as long as their calls give back
    real values. -/
theorem real_stmt {s : Stmt} (h : s.LiteralsReal) :
    Real s.calls (fun v => v.isFinite = true) s.eval := by
  match s with
  | .expr e =>
      rw [Stmt.LiteralsReal] at h
      rw [Stmt.eval]
      exact real_expr h
  | .block l body =>
      rw [Stmt.LiteralsReal] at h
      rw [Stmt.eval]
      have hbody := (real_stmts h).inFrame (scripted_stmts body)
      exact (hbody.bindQuiet fun _ _ => real_value rfl).locating l
  | .forLoop l item source opened body =>
      rw [Stmt.LiteralsReal] at h
      rw [Stmt.eval]
      refine Real.locating ((real_expr h.1).bind fun v hv => ?_) l
      cases v with
      | sequence items =>
          -- the source is real as a whole, so each round binds a real item
          refine Real.afterSay (Real.bindQuiet (Real.forM fun v hmem => ?_) fun _ _ =>
            real_value rfl) _
          refine ((real_stmts h.2).afterBindName item (Value.isFinite_of_mem hv hmem)).inFrame ?_
          exact (Scripted.bindName item v).bind fun _ => scripted_stmts body
      | none => exact real_throw _ _
      | number q => exact real_throw _ _
      | string s => exact real_throw _ _

theorem real_stmts {body : List Stmt} (h : Stmt.AllLiteralsReal body) :
    Real (Stmt.callsAll body) (fun _ => True) (Stmt.evalAll body) := by
  match body with
  | [] =>
      rw [Stmt.evalAll]
      exact real_pure trivial
  | s :: rest =>
      rw [Stmt.AllLiteralsReal] at h
      rw [Stmt.evalAll]
      exact (real_stmt h.1).bind fun _ _ => real_stmts h.2

end

theorem real_runAll {statements : List Stmt} (h : Stmt.AllLiteralsReal statements) :
    Real (Program.callsAll statements) (fun _ => True) (Program.runAll statements) := by
  induction statements with
  | nil => exact real_pure trivial
  | cons s rest ih =>
      rw [Stmt.AllLiteralsReal] at h
      exact ((real_stmt h.1).bind fun _ _ => ih h.2).afterSay _

end Run

end MillScript
