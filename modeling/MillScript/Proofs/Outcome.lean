import Mathlib.Order.Defs.Unbundled

/-! # Computations that may fail

    What a sequence of computations did when it succeeded, and what work on
    a state keeps whether it succeeds or fails half way.  `Within R` says the
    latter for a preorder `R` between the state before and the state after;
    it passes from the steps of a piece of work to the whole. -/

namespace MillScript

/-- Two computations in sequence succeed when both do. -/
theorem bind_eq_ok {ε α β : Type} {x : Except ε α} {f : α → Except ε β} {b : β} :
    (x >>= f) = .ok b ↔ ∃ a, x = .ok a ∧ f a = .ok b := by
  cases x with
  | error e =>
      constructor
      · intro h
        cases h
      · rintro ⟨a, ha, -⟩
        cases ha
  | ok a =>
      constructor
      · intro h
        exact ⟨a, rfl, h⟩
      · rintro ⟨a', ha, h⟩
        rw [Except.ok.inj ha]
        exact h

/-- Two computations in sequence fail when the first does, or the second after
    it. -/
theorem bind_eq_error {ε α β : Type} {x : Except ε α} {f : α → Except ε β} {e : ε} :
    (x >>= f) = .error e ↔ x = .error e ∨ ∃ a, x = .ok a ∧ f a = .error e := by
  cases x with
  | error e' =>
      constructor
      · intro h
        cases h
        exact .inl rfl
      · rintro (h | ⟨a, ha, -⟩)
        · cases h
          rfl
        · cases ha
  | ok a =>
      constructor
      · intro h
        exact .inr ⟨a, rfl, h⟩
      · rintro (h | ⟨a', ha, h⟩)
        · cases h
        · rw [Except.ok.inj ha]
          exact h

/-! ## Work on a state -/

variable {ε σ α β : Type}

/-- Work in sequence, by the outcome of its first part. -/
theorem bind_apply (x : EStateM ε σ α) (f : α → EStateM ε σ β) (s : σ) :
    (x >>= f) s = match x s with
      | .ok a t => f a t
      | .error e t => .error e t := rfl

/-- Two pieces of work in sequence succeed when both do. -/
theorem bind_apply_eq_ok {x : EStateM ε σ α} {f : α → EStateM ε σ β} {s t : σ} {b : β} :
    (x >>= f) s = .ok b t ↔ ∃ a u, x s = .ok a u ∧ f a u = .ok b t := by
  rw [bind_apply]
  cases hx : x s with
  | error e u =>
      constructor
      · intro h
        cases h
      · rintro ⟨a, u, ha, -⟩
        cases ha
  | ok a u =>
      constructor
      · intro h
        exact ⟨a, u, rfl, h⟩
      · rintro ⟨a', u', ha, h⟩
        injection ha with ha hu
        rw [ha, hu]
        exact h

/-- The state that work ends in, whether it succeeds or fails. -/
def endState : EStateM.Result ε σ α → σ
  | .ok _ s => s
  | .error _ s => s

/-- What is given back after work has no part in the state it ends in. -/
theorem endState_andReturn (x : EStateM ε σ α) (b : β) (s : σ) :
    endState ((do let _ ← x; return b : EStateM ε σ β) s) = endState (x s) := by
  rw [bind_apply]
  cases x s with
  | ok a t => rfl
  | error e t => rfl

/-- Whether it succeeds or fails, work relates the state before it to the
    state after it. -/
def Within (R : σ → σ → Prop) (x : EStateM ε σ α) : Prop := ∀ s, R s (endState (x s))

section Within

variable {R : σ → σ → Prop}

theorem Within.ite {c : Prop} [Decidable c] {x y : EStateM ε σ α} (hx : Within R x)
    (hy : Within R y) : Within R (if c then x else y) := by
  by_cases hc : c
  · rw [if_pos hc]
    exact hx
  · rw [if_neg hc]
    exact hy

variable [IsPreorder σ R]

theorem within_pure (a : α) : Within R (pure a : EStateM ε σ α) := fun s => refl_of R s

theorem within_get : Within R (get : EStateM ε σ σ) := fun s => refl_of R s

/-- One change after the other is a change, as the relation is transitive. -/
theorem Within.bind {x : EStateM ε σ α} {f : α → EStateM ε σ β} (hx : Within R x)
    (hf : ∀ a, Within R (f a)) : Within R (x >>= f) := by
  intro s
  have hs := hx s
  rw [bind_apply]
  cases hxs : x s with
  | error e t =>
      rw [hxs] at hs
      exact hs
  | ok a t =>
      rw [hxs] at hs
      exact trans_of R hs (hf a t)

theorem Within.forM {f : α → EStateM ε σ PUnit} (hf : ∀ a, Within R (f a)) (items : List α) :
    Within R (items.forM f) := by
  induction items with
  | nil => exact within_pure _
  | cons a rest ih => exact (hf a).bind fun _ => ih

/-- What holds before holds after. -/
def Keeps (I : σ → Prop) (s t : σ) : Prop := I s → I t

instance (I : σ → Prop) : IsPreorder σ (Keeps I) where
  refl _ := id
  trans _ _ _ h h' := h' ∘ h

end Within

/-! ## What work fails for -/

/-- If work fails, it is for a fault of the class `D`. -/
def FailsWith (D : ε → Prop) (x : EStateM ε σ α) : Prop := ∀ s e t, x s = .error e t → D e

section FailsWith

variable {D : ε → Prop}

theorem failsWith_pure (a : α) : FailsWith D (pure a : EStateM ε σ α) := by
  intro s e t h
  cases h

theorem failsWith_get : FailsWith D (get : EStateM ε σ σ) := by
  intro s e t h
  cases h

theorem FailsWith.ite {c : Prop} [Decidable c] {x y : EStateM ε σ α} (hx : FailsWith D x)
    (hy : FailsWith D y) : FailsWith D (if c then x else y) := by
  by_cases hc : c
  · rw [if_pos hc]
    exact hx
  · rw [if_neg hc]
    exact hy

/-- Work in two parts fails as one of them does. -/
theorem FailsWith.bind {x : EStateM ε σ α} {f : α → EStateM ε σ β} (hx : FailsWith D x)
    (hf : ∀ a, FailsWith D (f a)) : FailsWith D (x >>= f) := by
  intro s e t h
  rw [bind_apply] at h
  cases hxs : x s with
  | error e' u =>
      rw [hxs] at h
      injection h with he _
      rw [← he]
      exact hx s e' u hxs
  | ok a u =>
      rw [hxs] at h
      exact hf a u e t h

/-- A loop fails as one of its rounds does. -/
theorem FailsWith.forM {f : α → EStateM ε σ PUnit} (hf : ∀ a, FailsWith D (f a))
    (items : List α) : FailsWith D (items.forM f) := by
  induction items with
  | nil => exact failsWith_pure _
  | cons a rest ih => exact (hf a).bind fun _ => ih

end FailsWith

/-! ## Two runs side by side -/

/-- Two outcomes are alike if they are the same success or the same failure,
    in states that are related. -/
inductive Alike (R : σ → σ → Prop) : EStateM.Result ε σ α → EStateM.Result ε σ α → Prop
  | ok {s t : σ} (a : α) (h : R s t) : Alike R (.ok a s) (.ok a t)
  | error {s t : σ} (e : ε) (h : R s t) : Alike R (.error e s) (.error e t)

/-- Work that goes on alike from one value stays alike. -/
theorem Alike.bind {R : σ → σ → Prop} {x : EStateM ε σ α} {f : α → EStateM ε σ β} {s t : σ}
    (hx : Alike R (x s) (x t)) (hf : ∀ a u v, R u v → Alike R (f a u) (f a v)) :
    Alike R ((x >>= f) s) ((x >>= f) t) := by
  rw [bind_apply, bind_apply]
  generalize x s = r, x t = r' at hx
  cases hx with
  | ok a h => exact hf a _ _ h
  | error e h => exact .error e h

/-- A success goes with a success, of states that are related. -/
theorem Alike.exists_ok {R : σ → σ → Prop} {r : EStateM.Result ε σ α} {a : α} {s : σ}
    (h : Alike R (.ok a s) r) : ∃ t, r = .ok a t ∧ R s t := by
  cases h with
  | ok _ h => exact ⟨_, rfl, h⟩

/-- Two outcomes match if they are the same success or failures that are
    related, in states that are related. -/
inductive Matched (E : ε → ε → Prop) (R : σ → σ → Prop) :
    EStateM.Result ε σ α → EStateM.Result ε σ α → Prop
  | ok {s t : σ} (a : α) (h : R s t) : Matched E R (.ok a s) (.ok a t)
  | error {e e' : ε} {s t : σ} (he : E e e') (h : R s t) : Matched E R (.error e s) (.error e' t)

/-- Work that goes on in the same way from one value stays matched. -/
theorem Matched.bind {E : ε → ε → Prop} {R : σ → σ → Prop} {x y : EStateM ε σ α}
    {f g : α → EStateM ε σ β} {s t : σ} (hx : Matched E R (x s) (y t))
    (hf : ∀ a u v, R u v → Matched E R (f a u) (g a v)) :
    Matched E R ((x >>= f) s) ((y >>= g) t) := by
  rw [bind_apply, bind_apply]
  generalize x s = r, y t = r' at hx
  cases hx with
  | ok a h => exact hf a _ _ h
  | error he h => exact .error he h

section Matched

variable {E : ε → ε → Prop} {R : σ → σ → Prop} {r : EStateM.Result ε σ α} {a : α}

/-- What is matched with a success is one. -/
theorem Matched.exists_ok {s : σ} (h : Matched E R (.ok a s) r) : ∃ t, r = .ok a t ∧ R s t := by
  cases h with
  | ok _ h => exact ⟨_, rfl, h⟩

theorem Matched.exists_ok_left {t : σ} (h : Matched E R r (.ok a t)) :
    ∃ s, r = .ok a s ∧ R s t := by
  cases h with
  | ok _ h => exact ⟨_, rfl, h⟩

end Matched

/-- Two outcomes are comparable if they are successes that are related or one
    and the same failure.  Either may also be a failure of the class `D`,
    which says nothing about the other. -/
inductive Comparable {τ : Type} (D : ε → Prop) (R : α → σ → β → τ → Prop) :
    EStateM.Result ε σ α → EStateM.Result ε τ β → Prop
  | ok {a : α} {s : σ} {b : β} {t : τ} (h : R a s b t) : Comparable D R (.ok a s) (.ok b t)
  | error (e : ε) {s : σ} {t : τ} : Comparable D R (.error e s) (.error e t)
  | left {e : ε} {s : σ} {r : EStateM.Result ε τ β} (h : D e) : Comparable D R (.error e s) r
  | right {r : EStateM.Result ε σ α} {e : ε} {t : τ} (h : D e) : Comparable D R r (.error e t)

section Comparable

variable {τ α' β' : Type} {D : ε → Prop} {R : α → σ → β → τ → Prop}
  {R' : α' → σ → β' → τ → Prop}

/-- Work that goes on from comparable ends stays comparable. -/
theorem Comparable.bind {x : EStateM ε σ α} {y : EStateM ε τ β} {f : α → EStateM ε σ α'}
    {g : β → EStateM ε τ β'} {s : σ} {t : τ} (h : Comparable D R (x s) (y t))
    (hf : ∀ a u b v, R a u b v → Comparable D R' (f a u) (g b v)) :
    Comparable D R' ((x >>= f) s) ((y >>= g) t) := by
  rw [bind_apply, bind_apply]
  generalize x s = r, y t = r' at h
  cases h with
  | ok h => exact hf _ _ _ _ h
  | error e => exact .error e
  | left h => exact .left h
  | right h => exact .right h

/-- Work that fails for faults of the class only is comparable as soon as
    its successes are related. -/
theorem FailsWith.comparable {x : EStateM ε σ α} {y : EStateM ε τ β} (hx : FailsWith D x)
    (hy : FailsWith D y) {s : σ} {t : τ}
    (h : ∀ a u b v, x s = .ok a u → y t = .ok b v → R a u b v) :
    Comparable D R (x s) (y t) := by
  cases hxs : x s with
  | error e u => exact .left (hx s e u hxs)
  | ok a u =>
      cases hyt : y t with
      | error e v => exact .right (hy t e v hyt)
      | ok b v => exact .ok (h a u b v hxs hyt)

end Comparable

end MillScript
