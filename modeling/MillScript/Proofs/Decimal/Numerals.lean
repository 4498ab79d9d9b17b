import Mathlib.Data.List.TakeWhile
import MillScript.Decimal.Write
import MillScript.Proofs.Decimal.Value

/-! # Decimal numerals

    A numeral is a sign, digits, and digits after a point if there are any.
    A plain one has nothing superfluous: no zero in front of other digits, no
    zero at the end of a fraction, no sign on zero.

    * Plain numerals that stand for the same number are the same
      (`Numeral.Plain.eq_of_value_eq`), and a numeral is known by its
      characters (`Numeral.Plain.eq_of_chars_eq`).
    * The digits of a whole number with a point some places from the end,
      and without the zeros that then end them, are a plain numeral
      (`plain_pointedNumeral`) of the number divided by that power of ten
      (`magnitude_pointedNumeral`). -/

namespace MillScript.Decimal

/-! ## Digits -/

theorem toNat_of_isDigit {c : Char} (h : c.isDigit = true) : 48 ≤ c.toNat ∧ c.toNat ≤ 57 := by
  obtain ⟨hlow, hhigh⟩ := (Bool.and_eq_true _ _).mp h
  exact ⟨of_decide_eq_true hlow, of_decide_eq_true hhigh⟩

/-- A digit is the character of its own value. -/
theorem digitChar_of_isDigit {c : Char} (h : c.isDigit = true) :
    Nat.digitChar (c.toNat - '0'.toNat) = c := by
  have hzero : '0'.toNat = 48 := rfl
  have hbounds := toNat_of_isDigit h
  refine Char.toNat_inj.mp ?_
  rw [hzero, Nat.toNat_digitChar_of_lt_ten (by omega)]
  omega

/-- The number that digits stand for. -/
def digitsValue (ds : List Char) : Nat := Nat.ofDigitChars 10 ds 0

/-- Digits further left count by a power of ten more. -/
theorem digitsValue_append (ds es : List Char) :
    digitsValue (ds ++ es) = 10 ^ es.length * digitsValue ds + digitsValue es := by
  rw [digitsValue, Nat.ofDigitChars_append, Nat.ofDigitChars_eq_ofDigitChars_zero]
  rfl

theorem digitsValue_singleton (c : Char) : digitsValue [c] = c.toNat - '0'.toNat := by
  rw [digitsValue, Nat.ofDigitChars_cons, Nat.ofDigitChars_nil, Nat.mul_zero, Nat.zero_add]

theorem digitsValue_concat (ds : List Char) (c : Char) :
    digitsValue (ds ++ [c]) = 10 * digitsValue ds + (c.toNat - '0'.toNat) := by
  rw [digitsValue_append, digitsValue_singleton, List.length_singleton, pow_one]

theorem digitsValue_replicate_zero (k : Nat) : digitsValue (List.replicate k '0') = 0 := by
  rw [digitsValue, Nat.ofDigitChars_replicate_zero, Nat.mul_zero]

/-- A number is the value of its digits. -/
theorem digitsValue_digits (n : Nat) : digitsValue (digits n) = n :=
  Nat.ofDigitChars_toDigits (by decide) (by decide)

/-- A value has no more digits than are written. -/
theorem digitsValue_lt {ds : List Char} (h : ∀ c ∈ ds, c.isDigit = true) :
    digitsValue ds < 10 ^ ds.length := by
  induction ds using List.reverseRecOn with
  | nil => exact Nat.one_pos
  | append_singleton ds c ih =>
      have hds := ih fun d hd => h d (List.mem_append_left _ hd)
      have hc := toNat_of_isDigit (h c (List.mem_append_right _ List.mem_cons_self))
      have hzero : '0'.toNat = 48 := rfl
      rw [digitsValue_concat, List.length_append, List.length_singleton, pow_succ]
      omega

/-- As many digits of the same number are the same digits. -/
theorem eq_of_digitsValue_eq {ds es : List Char} (hds : ∀ c ∈ ds, c.isDigit = true)
    (hes : ∀ c ∈ es, c.isDigit = true) (hlength : ds.length = es.length)
    (h : digitsValue ds = digitsValue es) : ds = es := by
  induction ds using List.reverseRecOn generalizing es with
  | nil => exact (List.length_eq_zero_iff.mp hlength.symm).symm
  | append_singleton ds c ih =>
      rcases List.eq_nil_or_concat' es with rfl | ⟨es, d, rfl⟩
      · rw [List.length_append] at hlength
        cases hlength
      · have hc := hds c (List.mem_append_right _ List.mem_cons_self)
        have hd := hes d (List.mem_append_right _ List.mem_cons_self)
        have hcbounds := toNat_of_isDigit hc
        have hdbounds := toNat_of_isDigit hd
        have hzero : '0'.toNat = 48 := rfl
        rw [digitsValue_concat, digitsValue_concat] at h
        -- the last digits are the remainders by ten
        have hfront : digitsValue ds = digitsValue es := by omega
        have hlast : c.toNat - '0'.toNat = d.toNat - '0'.toNat := by omega
        rw [List.length_append, List.length_append] at hlength
        rw [ih (fun c' h' => hds c' (List.mem_append_left _ h'))
            (fun d' h' => hes d' (List.mem_append_left _ h')) (Nat.add_right_cancel hlength) hfront,
          ← digitChar_of_isDigit hc, ← digitChar_of_isDigit hd, hlast]

/-! ## Zeros in front -/

/-- Digits with no zero in front of another digit. -/
def NoLeadingZero (ds : List Char) : Prop := ds.head? = some '0' → ds = ['0']

/-- Digits with no superfluous zero are the digits of the number that they
    stand for. -/
theorem digits_digitsValue {ds : List Char} (hne : ds ≠ []) (h : ∀ c ∈ ds, c.isDigit = true)
    (hlead : NoLeadingZero ds) : digits (digitsValue ds) = ds := by
  induction ds using List.reverseRecOn with
  | nil => exact absurd rfl hne
  | append_singleton ds c ih =>
      have hc := h c (List.mem_append_right _ List.mem_cons_self)
      have hbounds := toNat_of_isDigit hc
      have hzero : '0'.toNat = 48 := rfl
      rw [digitsValue_concat, digits]
      by_cases hnil : ds = []
      · rw [hnil, List.nil_append, digitsValue, Nat.ofDigitChars_nil, Nat.mul_zero, Nat.zero_add,
          Nat.toDigits_of_lt_base (by omega), digitChar_of_isDigit hc]
      · -- the front starts with the same digit, and that is not zero
        have hhead : ds.head? ≠ some '0' := by
          intro hds
          have hall := hlead (by rw [List.head?_append_of_ne_nil _ hnil, hds])
          rcases List.append_eq_singleton_iff.mp hall with ⟨hds', -⟩ | ⟨-, hc'⟩
          · exact hnil hds'
          · cases hc'
        have hfront := ih hnil (fun d hd => h d (List.mem_append_left _ hd))
          fun hds => absurd hds hhead
        have hpos : digitsValue ds ≠ 0 := by
          intro hvalue
          rw [hvalue] at hfront
          rw [← hfront] at hhead
          exact hhead rfl
        rw [Nat.toDigits_of_base_le (by decide) (by omega)]
        have hquotient : (10 * digitsValue ds + (c.toNat - '0'.toNat)) / 10 = digitsValue ds := by
          omega
        have hremainder : (10 * digitsValue ds + (c.toNat - '0'.toNat)) % 10
            = c.toNat - '0'.toNat := by omega
        rw [hquotient, hremainder, digitChar_of_isDigit hc]
        exact congrArg (· ++ [c]) hfront

/-- A number that is not zero does not start with a zero. -/
theorem head?_digits_ne_zero {n : Nat} (h : n ≠ 0) : (digits n).head? ≠ some '0' := by
  induction n using Nat.strongRecOn with
  | ind n ih =>
      rw [digits]
      by_cases hsmall : n < 10
      · rw [Nat.toDigits_of_lt_base hsmall, List.head?_cons]
        intro hzero
        exact h (Nat.digitChar_eq_zero.mp (Option.some.inj hzero))
      · rw [Nat.toDigits_of_base_le (by decide) (by omega),
          List.head?_append_of_ne_nil _ Nat.toDigits_ne_nil]
        exact ih (n / 10) (by omega) (by omega)

/-! ## Numerals -/

/-- A number as it is written. -/
@[ext] structure Numeral where
  negative : Bool
  whole : List Char
  /-- The digits after the point; without any there is no point. -/
  fraction : List Char

namespace Numeral

/-- The characters of a numeral after its sign. -/
def unsigned (n : Numeral) : List Char :=
  n.whole ++ (if n.fraction = [] then [] else '.' :: n.fraction)

/-- The characters of a numeral. -/
def chars (n : Numeral) : List Char :=
  if n.negative then '-' :: n.unsigned else n.unsigned

/-- The number that a numeral stands for, without its sign. -/
def magnitude (n : Numeral) : ℚ := digitsValue (n.whole ++ n.fraction) / 10 ^ n.fraction.length

/-- The number that a numeral stands for. -/
def value (n : Numeral) : ℚ := if n.negative then -n.magnitude else n.magnitude

/-- Without its sign a numeral is not negative. -/
theorem magnitude_nonneg (n : Numeral) : 0 ≤ n.magnitude := by
  rw [magnitude]
  positivity

/-- A numeral with nothing superfluous. -/
structure Plain (n : Numeral) : Prop where
  whole : n.whole ≠ [] ∧ ∀ c ∈ n.whole, c.isDigit = true
  fraction : ∀ c ∈ n.fraction, c.isDigit = true
  leading : NoLeadingZero n.whole
  trailing : n.fraction.getLast? ≠ some '0'
  sign : n.negative = true → n.value < 0

namespace Plain

variable {a b : Numeral}

/-- The sign is that of the number. -/
theorem negative_eq (ha : a.Plain) (hb : b.Plain) (h : a.value = b.value) :
    a.negative = b.negative := by
  have hsign : ∀ {n : Numeral}, n.Plain → (n.negative = true ↔ n.value < 0) := by
    intro n hn
    refine ⟨hn.sign, fun hneg => ?_⟩
    by_contra hpos
    rw [value, if_neg hpos] at hneg
    exact absurd n.magnitude_nonneg (not_le.mpr hneg)
  rw [Bool.eq_iff_iff, hsign ha, hsign hb, h]

/-- A last digit after the point cannot be left out. -/
theorem length_fraction_le (hb : b.Plain) (h : a.magnitude = b.magnitude) :
    b.fraction.length ≤ a.fraction.length := by
  by_contra hlt
  obtain ⟨k, hk⟩ := Nat.exists_eq_add_of_lt (Nat.lt_of_not_le hlt)
  -- the digits of `b` are those of `a` with zeros at the end
  have hdigits : digitsValue (b.whole ++ b.fraction)
      = digitsValue (a.whole ++ a.fraction) * 10 ^ (k + 1) := by
    rw [magnitude, magnitude, hk, div_eq_div_iff (by positivity) (by positivity), Nat.add_assoc,
      pow_add, ← mul_assoc, mul_right_comm] at h
    have hcancel := mul_right_cancel₀ (by positivity) h
    exact_mod_cast hcancel.symm
  rcases List.eq_nil_or_concat' b.fraction with hnil | ⟨front, c, hfraction⟩
  · rw [hnil] at hk
    cases hk
  · have hc : c.isDigit = true := by
      refine hb.fraction c ?_
      rw [hfraction]
      exact List.mem_append_right _ List.mem_cons_self
    have hbounds := toNat_of_isDigit hc
    have hzero : '0'.toNat = 48 := rfl
    rw [hfraction, ← List.append_assoc, digitsValue_concat, pow_succ, ← Nat.mul_assoc] at hdigits
    refine hb.trailing ?_
    rw [hfraction, List.getLast?_concat, ← digitChar_of_isDigit hc,
      show c.toNat - '0'.toNat = 0 by omega]
    rfl

/-- **Plain numerals of the same number are the same.** -/
theorem eq_of_value_eq (ha : a.Plain) (hb : b.Plain) (h : a.value = b.value) : a = b := by
  have hnegative := ha.negative_eq hb h
  have hmagnitude : a.magnitude = b.magnitude := by
    rw [value, value, hnegative] at h
    split at h
    · exact neg_injective h
    · exact h
  have hlength : a.fraction.length = b.fraction.length :=
    Nat.le_antisymm (ha.length_fraction_le hmagnitude.symm) (hb.length_fraction_le hmagnitude)
  have hdigits : digitsValue (a.whole ++ a.fraction) = digitsValue (b.whole ++ b.fraction) := by
    rw [magnitude, magnitude, hlength] at hmagnitude
    have hcancel := (div_left_inj' (by positivity)).mp hmagnitude
    exact_mod_cast hcancel
  -- quotient and remainder by the power of ten are the two parts
  rw [digitsValue_append, digitsValue_append, hlength] at hdigits
  have hsmall := digitsValue_lt ha.fraction
  have hsmall' := digitsValue_lt hb.fraction
  rw [hlength] at hsmall
  have hquotient := congrArg (· / 10 ^ b.fraction.length) hdigits
  have hremainder := congrArg (· % 10 ^ b.fraction.length) hdigits
  simp only [Nat.mul_add_div (Nat.pow_pos (by decide : 0 < 10)), Nat.div_eq_of_lt hsmall,
    Nat.div_eq_of_lt hsmall', Nat.add_zero] at hquotient
  simp only [Nat.mul_add_mod, Nat.mod_eq_of_lt hsmall, Nat.mod_eq_of_lt hsmall'] at hremainder
  have hwhole : a.whole = b.whole := by
    rw [← digits_digitsValue ha.whole.1 ha.whole.2 ha.leading, hquotient,
      digits_digitsValue hb.whole.1 hb.whole.2 hb.leading]
  exact Numeral.ext hnegative hwhole
    (eq_of_digitsValue_eq ha.fraction hb.fraction hlength hremainder)

/-! ## From characters back to numerals -/

/-- A plain numeral starts with a sign just if it is negative. -/
theorem head?_chars (h : a.Plain) : a.chars.head? = some '-' ↔ a.negative = true := by
  rw [chars]
  split
  · exact iff_of_true rfl ‹_›
  · refine iff_of_false ?_ ‹_›
    rw [unsigned, List.head?_append_of_ne_nil _ h.whole.1]
    intro hhead
    exact absurd (h.whole.2 '-' (List.mem_of_head? hhead)) (by decide)

/-- The point, if there is one, ends the digits before it. -/
theorem takeWhile_unsigned (h : a.Plain) :
    a.unsigned.takeWhile Char.isDigit = a.whole
      ∧ a.unsigned.dropWhile Char.isDigit
        = if a.fraction = [] then [] else '.' :: a.fraction := by
  rw [unsigned, List.takeWhile_append_of_pos h.whole.2, List.dropWhile_append_of_pos h.whole.2]
  split
  · exact ⟨List.append_nil _, rfl⟩
  · have hpoint : '.'.isDigit = false := by decide
    rw [List.takeWhile_cons_of_neg (by simp [hpoint]),
      List.dropWhile_cons_of_neg (by simp [hpoint])]
    exact ⟨List.append_nil _, rfl⟩

/-- **A plain numeral is known by its characters.** -/
theorem eq_of_chars_eq (ha : a.Plain) (hb : b.Plain) (h : a.chars = b.chars) : a = b := by
  have hnegative : a.negative = b.negative := by
    rw [Bool.eq_iff_iff, ← ha.head?_chars, ← hb.head?_chars, h]
  have hunsigned : a.unsigned = b.unsigned := by
    rw [chars, chars, hnegative] at h
    split at h
    · exact (List.cons.inj h).2
    · exact h
  obtain ⟨hwhole, hrest⟩ := ha.takeWhile_unsigned
  obtain ⟨hwhole', hrest'⟩ := hb.takeWhile_unsigned
  rw [hunsigned] at hwhole hrest
  refine Numeral.ext hnegative (hwhole.symm.trans hwhole') ?_
  have hpoint := hrest.symm.trans hrest'
  split at hpoint
  · rename_i hnil
    split at hpoint
    · rename_i hnil'
      rw [hnil, hnil']
    · cases hpoint
  · split at hpoint
    · cases hpoint
    · exact (List.cons.inj hpoint).2

end Plain

end Numeral

/-! ## Whole numbers with a point -/

section Pointed

variable (n places : Nat)

/-- Padding fills up to a width and cuts nothing off. -/
theorem length_paddedDigits : (paddedDigits places n).length = max places (digits n).length := by
  rw [paddedDigits, List.length_append, List.length_replicate]
  omega

/-- Padding does not change the value. -/
theorem digitsValue_paddedDigits : digitsValue (paddedDigits places n) = n := by
  rw [paddedDigits, digitsValue_append, digitsValue_replicate_zero, digitsValue_digits,
    Nat.mul_zero, Nat.zero_add]

/-- The point only divides the digits. -/
theorem pointed_append :
    (pointed n places).1 ++ (pointed n places).2 = paddedDigits (places + 1) n := by
  rw [pointed, List.splitAt_eq]
  exact List.take_append_drop _ _

/-- Behind the point there are as many digits as there are places. -/
theorem length_pointed_fraction : (pointed n places).2.length = places := by
  have hlength := length_paddedDigits n (places + 1)
  rw [pointed, List.splitAt_eq, List.length_drop]
  omega

/-- Before the point there is at least one. -/
theorem length_pointed_whole :
    (pointed n places).1.length = max 1 ((digits n).length - places) := by
  have hlength := congrArg List.length (pointed_append n places)
  rw [List.length_append, length_pointed_fraction, length_paddedDigits] at hlength
  omega

/-- Zeros are put in front only as far as the first place before the point. -/
theorem noLeadingZero_pointed : NoLeadingZero (pointed n places).1 := by
  intro hhead
  have hlength := length_pointed_whole n places
  by_cases hshort : (digits n).length ≤ places + 1
  · obtain ⟨c, hc⟩ := List.length_eq_one_iff.mp (hlength.trans (by omega))
    rw [hc] at hhead ⊢
    rw [Option.some.inj hhead]
  · -- all digits are those of the number
    have hdigits := pointed_append n places
    rw [paddedDigits, Nat.sub_eq_zero_of_le (by omega), List.replicate_zero, List.nil_append]
      at hdigits
    have hne : (pointed n places).1 ≠ [] := by
      intro hnil
      rw [hnil] at hhead
      cases hhead
    rw [← List.head?_append_of_ne_nil _ hne, hdigits] at hhead
    refine absurd hhead (head?_digits_ne_zero ?_)
    rintro rfl
    exact hshort (Nat.le_add_left 1 places)

end Pointed

/-- What is cut off a fraction is zeros. -/
theorem exists_trimFraction (fraction : List Char) :
    ∃ k, fraction = trimFraction fraction ++ List.replicate k '0' := by
  refine ⟨(fraction.reverse.takeWhile (· == '0')).length, ?_⟩
  have hzeros : (fraction.reverse.takeWhile (· == '0')).reverse
      = List.replicate (fraction.reverse.takeWhile (· == '0')).length '0' := by
    rw [← List.length_reverse]
    refine List.eq_replicate_of_mem fun c hc => ?_
    have hzero := List.mem_takeWhile_imp (List.mem_reverse.mp hc)
    exact eq_of_beq hzero
  rw [← hzeros, trimFraction, ← List.reverse_append, List.takeWhile_append_dropWhile,
    List.reverse_reverse]

/-- No zero is left at the end of a fraction. -/
theorem getLast?_trimFraction (fraction : List Char) :
    (trimFraction fraction).getLast? ≠ some '0' := by
  rw [trimFraction, List.getLast?_reverse]
  intro hzero
  have hstop := List.head?_dropWhile_not (· == '0') fraction.reverse
  rw [hzero] at hstop
  cases hstop

/-- What is cut off does not count. -/
theorem magnitude_trimFraction (negative : Bool) (whole fraction : List Char) :
    (Numeral.mk negative whole (trimFraction fraction)).magnitude
      = digitsValue (whole ++ fraction) / 10 ^ fraction.length := by
  obtain ⟨k, hk⟩ := exists_trimFraction fraction
  rw [Numeral.magnitude]
  dsimp only
  generalize trimFraction fraction = kept at hk ⊢
  have hdigits : digitsValue (whole ++ fraction) = 10 ^ k * digitsValue (whole ++ kept) := by
    rw [hk, ← List.append_assoc, digitsValue_append, digitsValue_replicate_zero, Nat.add_zero,
      List.length_replicate]
  have hlength : fraction.length = k + kept.length := by
    rw [hk, List.length_append, List.length_replicate, Nat.add_comm]
  rw [hdigits, hlength, pow_add, Nat.cast_mul, Nat.cast_pow]
  exact (mul_div_mul_left _ _ (by positivity)).symm

/-- The numeral of `n / 10 ^ places`, with or without a sign. -/
def pointedNumeral (negative : Bool) (n places : Nat) : Numeral :=
  ⟨negative, (pointed n places).1, trimFraction (pointed n places).2⟩

/-- The point divides the value by a power of ten. -/
theorem magnitude_pointedNumeral (negative : Bool) (n places : Nat) :
    (pointedNumeral negative n places).magnitude = n / 10 ^ places := by
  rw [pointedNumeral, magnitude_trimFraction, pointed_append, digitsValue_paddedDigits,
    length_pointed_fraction]

/-- **Only what is needed is written.** -/
theorem plain_pointedNumeral {negative : Bool} {n : Nat} (places : Nat)
    (h : negative = true → n ≠ 0) : (pointedNumeral negative n places).Plain where
  whole := by
    constructor
    · intro hnil
      have hlength := length_pointed_whole n places
      rw [show (pointed n places).1 = [] from hnil, List.length_nil] at hlength
      omega
    · intro c hc
      have hmem : c ∈ paddedDigits (places + 1) n := by
        rw [← pointed_append]
        exact List.mem_append_left _ hc
      exact isDigit_of_mem_paddedDigits hmem
  fraction := by
    intro c hc
    obtain ⟨k, hk⟩ := exists_trimFraction (pointed n places).2
    have hmem : c ∈ paddedDigits (places + 1) n := by
      rw [← pointed_append, hk]
      exact List.mem_append_right _ (List.mem_append_left _ hc)
    exact isDigit_of_mem_paddedDigits hmem
  leading := noLeadingZero_pointed n places
  trailing := getLast?_trimFraction _
  sign := by
    intro hnegative
    have hn : (0 : ℚ) < n := by exact_mod_cast Nat.pos_of_ne_zero (h hnegative)
    rw [Numeral.value, if_pos hnegative, magnitude_pointedNumeral, neg_lt_zero]
    positivity

/-- A number with fixed places is the numeral of its scaled value. -/
theorem fixed_eq_unsigned (negative : Bool) (places : Nat) (m : Magnitude) :
    fixed places m = (pointedNumeral negative (scaled places m) places).unsigned := by
  rw [fixed, Numeral.unsigned, pointedNumeral]
  dsimp only
  cases trimFraction (pointed (scaled places m) places).2 with
  | nil => rw [joinPoint, if_pos rfl, List.append_nil]
  | cons c rest =>
      rw [joinPoint, if_neg (List.cons_ne_nil c rest)]
      exact List.cons_ne_nil c rest

end MillScript.Decimal
