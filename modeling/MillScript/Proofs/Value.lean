import MillScript.Proofs.Decimal.Exact
import MillScript.Scopes

/-! # Real values

    A value is real if all numbers in it are.  Arithmetic gives real numbers
    or fails: sums, products, quotients and powers are checked, a factorial
    is refused where it would not fit, and a real number stays one when its
    sign changes. -/

namespace MillScript

namespace Value

mutual

/-- Whether all numbers in a value are real. -/
def isFinite : Value → Bool
  | .number q => q.value.isFinite
  | .sequence items => allFinite items
  | .none => true
  | .string _ => true

/-- Whether all numbers in values are real. -/
def allFinite : List Value → Bool
  | [] => true
  | v :: vs => v.isFinite && allFinite vs

end

theorem isFinite_of_mem {v : Value} {vs : List Value} (h : allFinite vs = true) (hv : v ∈ vs) :
    v.isFinite = true := by
  induction vs with
  | nil => cases hv
  | cons u us ih =>
      rw [allFinite, Bool.and_eq_true] at h
      rcases List.mem_cons.mp hv with rfl | hmem
      · exact h.1
      · exact ih h.2 hmem

end Value

/-! ## Arithmetic -/

namespace Quantity

section Operations

variable {a b q : Quantity}

/-- What passes the check is real. -/
theorem isFinite_of_checked {op : BinaryOp} {result : Quantity}
    (h : checked op a b result = .ok q) : q.value.isFinite = true := by
  rw [checked] at h
  split at h
  · rename_i hfinite
    rw [← Except.ok.inj h]
    exact hfinite
  · cases h

/-- Sums and differences are real. -/
theorem isFinite_of_additive {op : BinaryOp} {sign : Float}
    (h : additive op sign a b = .ok q) : q.value.isFinite = true := by
  rw [additive] at h
  split at h
  · cases h
  · split at h
    · exact isFinite_of_checked h
    · exact isFinite_of_checked h

/-- What an operator gives is real, whatever it is given. -/
theorem isFinite_of_binary {op : BinaryOp} (h : binary op a b = .ok q) :
    q.value.isFinite = true := by
  cases op with
  | add => exact isFinite_of_additive h
  | subtract => exact isFinite_of_additive h
  | multiply =>
      rw [binary, multiply] at h
      split at h
      · cases h
      · exact isFinite_of_checked h
  | divide =>
      rw [binary, divide] at h
      split at h
      · cases h
      · split at h
        · cases h
        · exact isFinite_of_checked h
  | power =>
      rw [binary, power] at h
      split at h
      · cases h
      · exact isFinite_of_checked h

end Operations

/-- A product is real only if it was real all along. -/
theorem isFinite_of_foldl {factors : List Nat} {product : Float}
    (h : (factors.foldl (fun product k => product * Float.ofNat k) product).isFinite = true) :
    product.isFinite = true := by
  induction factors generalizing product with
  | nil => exact h
  | cons k rest ih => exact Decimal.isFinite_of_mul (ih h)

/-- The factors of a smaller factorial are the first ones of a greater one. -/
theorem isFinite_factorialProduct {n : Nat} (h : n ≤ 170) :
    (factorialProduct n).isFinite = true := by
  have hgreatest : ((List.range' 2 169).foldl (fun product k => product * Float.ofNat k)
      (1 : Float)).isFinite = true := by decide +kernel
  have hsplit : ∀ m, n - 1 ≤ m →
      List.range' 2 m = List.range' 2 (n - 1) ++ List.range' (2 + (n - 1)) (m - (n - 1)) := by
    intro m hm
    rw [List.range'_append_1, Nat.add_sub_of_le hm]
  rw [hsplit 169 (by omega), List.foldl_append] at hgreatest
  exact isFinite_of_foldl hgreatest

theorem unpack_maxFactorial :
    ∃ hm, maxFactorial.toModel.unpack = .finite .positive (170 * Nat.pow 2 45) (-45) hm :=
  ⟨by decide, rfl⟩

/-- Factorials are real up to the largest that is allowed. -/
theorem isFinite_of_factorial {a q : Quantity} (h : a.factorial = .ok q) :
    q.value.isFinite = true := by
  rw [factorial] at h
  split at h
  · cases h
  · split at h
    · cases h
    · split at h
      · cases h
      · rename_i hbound
        obtain ⟨hm, hmax⟩ := unpack_maxFactorial
        have hfloor : Decimal.floor a.value ≤ 170 :=
          Decimal.floor_le_of_not_lt hmax (by decide) hbound
        rw [← Except.ok.inj h]
        exact isFinite_factorialProduct hfloor

/-- The negative of a real number is real. -/
theorem isFinite_of_unary {op : UnaryOp} {a q : Quantity} (ha : a.value.isFinite = true)
    (h : unary op a = .ok q) : q.value.isFinite = true := by
  cases op with
  | negate =>
      rw [← Except.ok.inj h]
      exact Decimal.isFinite_neg ha
  | factorial => exact isFinite_of_factorial h

end Quantity

namespace Value

/-- Operators on values give real values. -/
theorem isFinite_of_binary {op : BinaryOp} {a b v : Value} (h : binary op a b = .ok v) :
    v.isFinite = true := by
  rw [binary.eq_def] at h
  split at h
  · rename_i p q
    cases hq : Quantity.binary op p q with
    | error f =>
        rw [hq] at h
        cases h
    | ok r =>
        rw [hq] at h
        rw [← Except.ok.inj h]
        exact Quantity.isFinite_of_binary hq
  · cases h

/-- Signs and factorials make real values of real ones. -/
theorem isFinite_of_unary {op : UnaryOp} {a v : Value} (ha : a.isFinite = true)
    (h : unary op a = .ok v) : v.isFinite = true := by
  rw [unary.eq_def] at h
  split at h
  · rename_i p
    cases hq : Quantity.unary op p with
    | error f =>
        rw [hq] at h
        cases h
    | ok r =>
        rw [hq] at h
        rw [← Except.ok.inj h]
        exact Quantity.isFinite_of_unary ha hq
  · cases h

end Value

/-! ## Variables and arguments -/

/-- Variables, or arguments, whose values are real. -/
def AllReal (look : String → Option Value) : Prop :=
  ∀ name v, look name = some v → v.isFinite = true

namespace AllReal

theorem empty : AllReal ({} : Scopes).lookup := by
  intro name v hv
  rw [Scopes.lookup_eq] at hv
  cases hv

theorem push {s : Scopes} (h : AllReal s.lookup) : AllReal s.push.lookup := by
  intro name v hv
  rw [Scopes.lookup_push] at hv
  exact h name v hv

theorem bind {s : Scopes} (h : AllReal s.lookup) {v : Value} (hv : v.isFinite = true)
    (name : String) : AllReal (s.bind name v).lookup := by
  intro other u hu
  by_cases hname : other = name
  · rw [hname, Scopes.lookup_bind_self] at hu
    rw [← Option.some.inj hu]
    exact hv
  · rw [Scopes.lookup_bind_of_ne _ hname] at hu
    exact h other u hu

theorem nil : AllReal (List.lookup · ([] : Arguments)) := by
  intro name v hv
  cases hv

theorem cons {args : Arguments} (h : AllReal (List.lookup · args)) {v : Value}
    (hv : v.isFinite = true) (name : String) :
    AllReal (List.lookup · ((name, v) :: args)) := by
  intro other u hu
  change List.lookup other _ = some u at hu
  rw [List.lookup_cons] at hu
  cases hname : other == name with
  | true =>
      rw [hname] at hu
      rw [← Option.some.inj hu]
      exact hv
  | false =>
      rw [hname] at hu
      exact h other u hu

/-- A number that is asked for is real; one that was not given is zero. -/
theorem number {args : Arguments} (h : AllReal (List.lookup · args)) (name : String) :
    (args.number name).isFinite = true := by
  rw [Arguments.number, Arguments.quantity]
  split
  · rename_i q hq
    exact h name (.number q) hq
  · rfl

end AllReal

end MillScript
