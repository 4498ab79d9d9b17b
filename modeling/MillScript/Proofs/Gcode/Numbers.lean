import Mathlib.Algebra.Group.Int.Even
import Mathlib.Algebra.Order.Group.Abs
import Mathlib.Tactic.Ring
import MillScript.Gcode.Line
import MillScript.Proofs.Decimal.Numerals

/-! # The numbers of a program

    A number in a program is a real double, rounded exactly to so many
    decimals and written plainly.  So its text is the only plain one of the
    rounded number, and two numbers have the same text just when they are
    rounded to the same number: comparing texts, as the emitter does, is
    comparing what the machine is told. -/

namespace MillScript.Decimal

/-! ## Rounding to decimals -/

/-- `r` is `q` rounded to a number of decimals: a multiple of the last place
    that is at most half of it away, and if it is just half, an even one. -/
def RoundedTo (places : Nat) (q r : ℚ) : Prop :=
  ∃ n : ℤ, r = n / 10 ^ places ∧ |q * 10 ^ places - n| ≤ 1 / 2
    ∧ (|q * 10 ^ places - n| = 1 / 2 → Even n)

namespace RoundedTo

variable {places : Nat} {q r r' : ℚ}

/-- A number is rounded to one number only. -/
theorem unique (h : RoundedTo places q r) (h' : RoundedTo places q r') : r = r' := by
  obtain ⟨n, rfl, hnear, heven⟩ := h
  obtain ⟨k, rfl, hnear', heven'⟩ := h'
  by_contra hne
  have hdifferent : n ≠ k := fun hnk => hne (by rw [hnk])
  -- two multiples are at least one apart, so both are just half away
  have hapart : (1 : ℚ) ≤ |(n : ℚ) - k| := by
    exact_mod_cast Int.one_le_abs (sub_ne_zero.mpr hdifferent)
  have htriangle : |(n : ℚ) - k| ≤ |q * 10 ^ places - k| + |q * 10 ^ places - n| := by
    have hsum := abs_sub_le (n : ℚ) (q * 10 ^ places) k
    rw [abs_sub_comm (n : ℚ) (q * 10 ^ places)] at hsum
    linarith
  obtain ⟨i, hi⟩ := heven (by linarith)
  obtain ⟨j, hj⟩ := heven' (by linarith)
  have hclose : |(n : ℚ) - k| ≤ 1 := by linarith
  have hclose' : |n - k| ≤ 1 := by exact_mod_cast hclose
  have hbounds := abs_le.mp hclose'
  omega

/-- Rounding does not hang on the sign. -/
theorem neg (h : RoundedTo places q r) : RoundedTo places (-q) (-r) := by
  obtain ⟨n, rfl, hnear, heven⟩ := h
  have hmirror : |-q * 10 ^ places - (-n : ℤ)| = |q * 10 ^ places - n| := by
    rw [← abs_neg (q * 10 ^ places - n)]
    congr 1
    push_cast
    ring
  refine ⟨-n, ?_, ?_, ?_⟩
  · push_cast
    ring
  · rw [hmirror]
    exact hnear
  · rw [hmirror]
    exact fun htie => (heven htie).neg

end RoundedTo

/-- The nearest whole number, a tie going to the even one. -/
theorem roundDiv_near (num : Nat) {den : Nat} (h : 0 < den) :
    |(num : ℚ) / den - roundDiv num den| ≤ 1 / 2
      ∧ (|(num : ℚ) / den - roundDiv num den| = 1 / 2 → Even (roundDiv num den)) := by
  have hden : (0 : ℚ) < den := by exact_mod_cast h
  -- the quotient is its whole part and a part below one
  obtain ⟨t, ht⟩ : ∃ t : ℚ, t = (num % den : ℕ) / den := ⟨_, rfl⟩
  have hsplit : (num : ℚ) / den = (num / den : ℕ) + t := by
    have hnum : (num : ℚ) = den * (num / den : ℕ) + (num % den : ℕ) := by
      exact_mod_cast (Nat.div_add_mod num den).symm
    rw [ht, hnum]
    field_simp
  have hrest : (num % den : ℕ) = t * den := by
    rw [ht]
    field_simp
  rw [hsplit, roundDiv]
  split
  · rename_i hbelow
    have hbelow' : (2 : ℚ) * (num % den : ℕ) < den := by exact_mod_cast hbelow
    have htpos : 0 ≤ t := by
      rw [ht]
      positivity
    have hthalf : t < 1 / 2 := by nlinarith
    rw [add_sub_cancel_left, abs_of_nonneg htpos]
    exact ⟨hthalf.le, fun htie => absurd htie hthalf.ne⟩
  · split
    · rename_i habove
      have habove' : (den : ℚ) < 2 * (num % den : ℕ) := by exact_mod_cast habove
      have hlt : ((num % den : ℕ) : ℚ) < den := by exact_mod_cast Nat.mod_lt num h
      have hthalf : 1 / 2 < t := by nlinarith
      have htone : t < 1 := by nlinarith
      have hdifference : ((num / den : ℕ) : ℚ) + t - (num / den + 1 : ℕ) = -(1 - t) := by
        push_cast
        ring
      rw [hdifference, abs_neg, abs_of_pos (by linarith)]
      exact ⟨by linarith, fun htie => absurd htie (by linarith)⟩
    · -- a tie, which the parity of the whole part decides
      have htie : 2 * (num % den) = den := by omega
      have htie' : (2 : ℚ) * (num % den : ℕ) = den := by exact_mod_cast htie
      have hthalf : t = 1 / 2 := by nlinarith
      refine ⟨?_, fun _ => Nat.even_iff.mpr (by omega)⟩
      rcases Nat.mod_two_eq_zero_or_one (num / den) with hparity | hparity
      · rw [hparity, hthalf, Nat.add_zero, add_sub_cancel_left, abs_of_pos (by norm_num)]
      · rw [hparity, hthalf, abs_le]
        push_cast
        constructor
        · linarith
        · linarith

/-- A magnitude in units of the last place, rounded. -/
theorem roundedTo_scaled (places : Nat) (m : Magnitude) :
    RoundedTo places (m.mantissa * 2 ^ m.exponent) (scaled places m / 10 ^ places) := by
  have hnear := roundDiv_near (m.num * Nat.pow 10 places) m.den_pos
  have hunits : (m.mantissa * 2 ^ m.exponent : ℚ) * 10 ^ places
      = (m.num * Nat.pow 10 places : ℕ) / m.den := by
    rw [m.number_eq, div_mul_eq_mul_div, Nat.cast_mul]
    congr 2
    exact_mod_cast rfl
  refine ⟨scaled places m, by rw [Int.cast_natCast], ?_, ?_⟩
  · rw [hunits, Int.cast_natCast]
    exact hnear.1
  · rw [hunits, Int.cast_natCast, Int.even_coe_nat]
    exact hnear.2

/-- What is read of a double is its value. -/
theorem value_of_read {x : Float} {negative : Bool} {m : Magnitude}
    (h : read x = .finite negative m) :
    value x = if negative then -((m.mantissa : ℚ) * 2 ^ m.exponent)
      else (m.mantissa : ℚ) * 2 ^ m.exponent := by
  rw [read] at h
  rw [value]
  cases hx : x.toModel.unpack with
  | notANumber =>
      rw [hx] at h
      cases h
  | infinity s =>
      rw [hx] at h
      cases h
  | zero s =>
      rw [hx] at h
      injection h with _ hm
      rw [← hm]
      simp
  | finite s k e hk =>
      rw [hx] at h
      injection h with hs hm
      rw [← hm, number_finite]
      cases s with
      | negative =>
          have hnegative : negative = true := hs.symm
          rw [if_pos hnegative, factor, neg_one_mul]
      | positive =>
          have hpositive : negative = false := hs.symm
          rw [hpositive, if_neg Bool.false_ne_true, factor, one_mul]

/-- A finite double is read as a sign and a magnitude. -/
theorem read_of_isFinite {x : Float} (h : x.isFinite = true) :
    ∃ negative m, read x = .finite negative m := by
  rcases unpack_of_isFinite h with ⟨s, hx⟩ | ⟨s, k, e, hk, hx⟩
  · exact ⟨s == .negative, ⟨0, 0⟩, by rw [read, hx]⟩
  · exact ⟨s == .negative, ⟨k, e⟩, by rw [read, hx]⟩

/-! ## Plain texts -/

/-- A text is the plain decimal one of a number. -/
def PlainText (text : String) (r : ℚ) : Prop :=
  ∃ n : Numeral, n.Plain ∧ n.value = r ∧ text = String.ofList n.chars

namespace PlainText

variable {text text' : String} {r r' : ℚ}

/-- A number has one plain text only. -/
theorem unique (h : PlainText text r) (h' : PlainText text' r) : text = text' := by
  obtain ⟨n, hn, hvalue, rfl⟩ := h
  obtain ⟨k, hk, hvalue', rfl⟩ := h'
  rw [hn.eq_of_value_eq hk (hvalue.trans hvalue'.symm)]

/-- A plain text is that of one number only. -/
theorem value_unique (h : PlainText text r) (h' : PlainText text r') : r = r' := by
  obtain ⟨n, hn, rfl, rfl⟩ := h
  obtain ⟨k, hk, rfl, htext⟩ := h'
  rw [hn.eq_of_chars_eq hk (String.ofList_inj.mp htext)]

end PlainText

namespace Numeral

/-- The plain numeral of zero. -/
def zero : Numeral := ⟨false, ['0'], []⟩

theorem plain_zero : zero.Plain where
  whole := by
    refine ⟨List.cons_ne_nil _ _, fun c hc => ?_⟩
    rw [List.mem_singleton.mp hc]
    decide
  fraction := fun c hc => absurd hc List.not_mem_nil
  leading := fun _ => rfl
  trailing := by decide
  sign := by
    intro h
    cases h

theorem value_zero : zero.value = 0 := by
  rw [value, if_neg (by decide), magnitude, zero, List.append_nil, digitsValue_singleton]
  simp

end Numeral

open Numeral

theorem plainText_zero : PlainText "0" 0 := ⟨zero, plain_zero, value_zero, rfl⟩

/-- A numeral with a point is a decimal fraction. -/
theorem value_pointedNumeral (negative : Bool) (n places : Nat) :
    (pointedNumeral negative n places).value
      = if negative then -((n : ℚ) / 10 ^ places) else (n : ℚ) / 10 ^ places := by
  rw [Numeral.value, magnitude_pointedNumeral]
  rfl

/-- Just a zero is written for what is rounded to zero. -/
theorem fixed_eq_zero_iff (places : Nat) (m : Magnitude) :
    fixed places m = ['0'] ↔ scaled places m = 0 := by
  have hplain : (pointedNumeral false (scaled places m) places).Plain :=
    plain_pointedNumeral places fun h => by cases h
  have hvalue : (pointedNumeral false (scaled places m) places).value
      = scaled places m / 10 ^ places := value_pointedNumeral false _ _
  rw [fixed_eq_unsigned false]
  constructor
  · intro hchars
    rw [hplain.eq_of_chars_eq plain_zero hchars, value_zero] at hvalue
    simpa using hvalue.symm
  · intro hzero
    rw [hzero, Nat.cast_zero, zero_div] at hvalue
    rw [hzero] at hplain
    rw [hzero, hplain.eq_of_value_eq plain_zero (hvalue.trans value_zero.symm)]
    rfl

end MillScript.Decimal

namespace MillScript.Gcode

open Decimal

/-! ## Numbers as they are written -/

/-- The sign is left out where the digits are just a zero. -/
theorem numberText_eq (precision : Int) (negative : Bool) (m : Magnitude) :
    numberText precision negative m
      = String.ofList (pointedNumeral (negative && scaled (places precision) m != 0)
          (scaled (places precision) m) (places precision)).chars := by
  rw [numberText, Numeral.chars, ← fixed_eq_unsigned]
  have hsign : (fixed (places precision) m != ['0']) = (scaled (places precision) m != 0) := by
    rw [Bool.eq_iff_iff, bne_iff_ne, bne_iff_ne, ne_eq, ne_eq, fixed_eq_zero_iff]
  rw [hsign]
  rfl

/-- The text of a real number is the plain one of the rounded number. -/
theorem exists_rounded (precision : Int) {x : Float} {negative : Bool} {m : Magnitude}
    (h : Decimal.read x = .finite negative m) :
    ∃ r, RoundedTo (places precision) (value x) r
      ∧ PlainText (numberText precision negative m) r := by
  have hrounded := roundedTo_scaled (places precision) m
  refine ⟨_, ?_, _, plain_pointedNumeral (places precision) ?_, rfl, numberText_eq _ _ _⟩
  · rw [value_of_read h, value_pointedNumeral]
    cases negative with
    | false => exact hrounded
    | true =>
        rw [Bool.true_and, if_pos rfl]
        split
        · exact hrounded.neg
        · -- zero is its own negative
          rename_i hzero
          have hzero : scaled (places precision) m = 0 := by simpa using hzero
          have hneg := hrounded.neg
          rw [hzero, Nat.cast_zero, zero_div] at hneg ⊢
          rwa [neg_zero] at hneg
  · intro hsign
    exact bne_iff_ne.mp ((Bool.and_eq_true _ _).mp hsign).2

/-- A finite number is written, rounded to its places. -/
theorem number_of_isFinite {x : Float} (h : x.isFinite = true) (precision : Int) :
    ∃ r text, RoundedTo (places precision) (value x) r ∧ number precision x = .ok text
      ∧ PlainText text r := by
  obtain ⟨negative, m, hread⟩ := read_of_isFinite h
  obtain ⟨r, hrounded, htext⟩ := exists_rounded precision hread
  refine ⟨r, numberText precision negative m, hrounded, ?_, htext⟩
  rw [number, hread]

/-- A number that is not finite is refused. -/
theorem number_of_not_isFinite {x : Float} (h : x.isFinite = false) (precision : Int) :
    number precision x = .error RuntimeFault.nonFiniteNumber := by
  have hreal : x.toModel.unpack.isFinite = false := h
  rw [number, Decimal.read]
  cases hx : x.toModel.unpack with
  | notANumber => rfl
  | infinity s => rfl
  | zero s =>
      rw [hx] at hreal
      cases hreal
  | finite s k e hk =>
      rw [hx] at hreal
      cases hreal

/-- **Numbers are written exactly and in one way.**  A real double is rounded
    to the decimals asked for, six if their number is negative, ties to even,
    and its text is the only plain one of the result, which is just a zero for
    zero.  So two real doubles have the same text if and only if they are
    rounded to the same number.  What is not real is not written. -/
theorem number_exact (precision : Int) (x : Float) :
    (places precision = if precision < 0 then 6 else precision.toNat)
      ∧ (x.isFinite = true → ∃ r text, RoundedTo (places precision) (value x) r
        ∧ (∀ r', RoundedTo (places precision) (value x) r' → r' = r)
        ∧ number precision x = .ok text ∧ PlainText text r
        ∧ (∀ text', PlainText text' r → text' = text) ∧ (r = 0 → text = "0"))
      ∧ (∀ y : Float, x.isFinite = true → y.isFinite = true →
        (number precision x = number precision y
          ↔ ∃ r, RoundedTo (places precision) (value x) r
            ∧ RoundedTo (places precision) (value y) r))
      ∧ (x.isFinite = false → number precision x = .error RuntimeFault.nonFiniteNumber) := by
  refine ⟨rfl, fun hx => ?_, fun y hx hy => ?_, fun hx => number_of_not_isFinite hx precision⟩
  · obtain ⟨r, text, hrounded, hnumber, htext⟩ := number_of_isFinite hx precision
    refine ⟨r, text, hrounded, fun r' h' => h'.unique hrounded, hnumber, htext,
      fun text' h' => h'.unique htext, ?_⟩
    rintro rfl
    exact htext.unique plainText_zero
  · obtain ⟨r, text, hrounded, hnumber, htext⟩ := number_of_isFinite hx precision
    obtain ⟨r', text', hrounded', hnumber', htext'⟩ := number_of_isFinite hy precision
    rw [hnumber, hnumber', Except.ok.injEq]
    constructor
    · intro hsame
      rw [← hsame] at htext'
      rw [← htext.value_unique htext'] at hrounded'
      exact ⟨r, hrounded, hrounded'⟩
    · rintro ⟨q, hq, hq'⟩
      rw [hrounded.unique hq] at htext
      rw [hrounded'.unique hq'] at htext'
      exact htext.unique htext'

example : number 2 0.125 = .ok "0.12" := by rfl

example : number 2 (-0.004) = .ok "0" := by rfl

end MillScript.Gcode
