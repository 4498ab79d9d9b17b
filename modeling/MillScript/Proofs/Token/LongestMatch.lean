import MillScript.Proofs.Token.Gaps

/-! # The longest lexeme

    What the scanner takes from the front of a text, said without the scanner.

    * `Lexeme.WellFormed` says which lexemes a script can have: the shapes of
      names and of numbers.
    * `Lexeme.GoesOn` says which text makes the scanner go on with a lexeme.
    * `Lexeme.readFrom_iff` joins the two: the scanner takes a lexeme exactly
      where a well-formed one is spelled and does not go on. -/

namespace MillScript

/-! ## Well-formed lexemes -/

/-- The shape of a name, which is not a keyword. -/
def IsIdentifier (name : String) : Prop :=
  name.toList.head?.any isNameStart = true ∧ name.toList.all isNameChar = true
    ∧ name ≠ "for" ∧ name ≠ "in"

instance (name : String) : Decidable (IsIdentifier name) := inferInstanceAs (Decidable (_ ∧ _))

/-- One digit or more. -/
def IsDigits (text : List Char) : Prop := text ≠ [] ∧ text.all Char.isDigit = true

instance (text : List Char) : Decidable (IsDigits text) := inferInstanceAs (Decidable (_ ∧ _))

/-- The shape of a lexeme.  Strings may say anything. -/
def Lexeme.WellFormed : Lexeme → Prop
  | .identifier name => IsIdentifier name
  | .integer digits _ => IsDigits digits.toList
  | .decimal digits _ =>
    ∃ whole fraction, IsDigits whole ∧ IsDigits fraction
      ∧ digits.toList = whole ++ '.' :: fraction
  | _ => True

/-! ## Classes of characters -/

/-- Letters come after the digits. -/
theorem not_isDigit_of_isAlpha {c : Char} (h : c.isAlpha = true) : c.isDigit = false := by
  have hletter : 'A'.val ≤ c.val := by
    rcases (Bool.or_eq_true _ _).mp h with hupper | hlower
    · exact (of_decide_eq_true hupper).1
    · have hlower : 'a'.val ≤ c.val := of_decide_eq_true ((Bool.and_eq_true _ _).mp hlower).1
      exact UInt32.le_trans (by decide) hlower
  cases hdigit : c.isDigit with
  | false => rfl
  | true =>
      have hdigit : c.val ≤ '9'.val := of_decide_eq_true ((Bool.and_eq_true _ _).mp hdigit).2
      exact absurd (UInt32.le_trans hletter hdigit) (by decide)

/-- What starts a name is no digit, and no other sign that matters. -/
theorem not_part_of_isNameStart {c : Char} (h : isNameStart c = true) :
    c.isDigit = false ∧ c ≠ '\'' ∧ c ≠ '/' ∧ c ≠ '.' := by
  refine ⟨?_, ?_, ?_, ?_⟩
  · rcases (Bool.or_eq_true _ _).mp h with halpha | hunderscore
    · exact not_isDigit_of_isAlpha halpha
    · rw [eq_of_beq hunderscore]
      decide
  all_goals
    rintro rfl
    exact absurd h (by decide)

/-- Blanks and line ends go on no lexeme but a string. -/
theorem not_part_of_isGap {g : Char} (hg : isGap g = true) :
    isNameStart g = false ∧ isNameChar g = false ∧ g.isDigit = false ∧ g ≠ '\'' ∧ g ≠ '.'
      ∧ g ≠ '/' := by
  have hmem := mem_of_isGap hg
  simp only [List.mem_cons, List.not_mem_nil, or_false] at hmem
  rcases hmem with rfl | rfl | rfl | rfl <;> decide

/-- No name starts with a gap. -/
theorem not_isGap_of_isNameStart {c : Char} (h : isNameStart c = true) : ¬ isGap c = true := by
  intro hgap
  rw [(not_part_of_isGap hgap).1] at h
  cases h

/-- A name goes on with what may start one, and with digits. -/
theorem isNameChar_iff {c : Char} :
    isNameChar c = true ↔ isNameStart c = true ∨ c.isDigit = true := by
  rw [isNameChar, isNameStart, Char.isAlphanum, Bool.or_eq_true, Bool.or_eq_true, Bool.or_eq_true]
  exact or_right_comm

/-- What is not in names neither starts one nor is a digit. -/
theorem not_isNameChar {c : Char} (h : isNameChar c = false) :
    isNameStart c = false ∧ c.isDigit = false := by
  have hneither := mt isNameChar_iff.mpr (Bool.eq_false_iff.mp h)
  exact ⟨Bool.eq_false_iff.mpr fun hstart => hneither (.inl hstart),
    Bool.eq_false_iff.mpr fun hdigit => hneither (.inr hdigit)⟩

/-! ## Runs of characters -/

section Runs

variable {p : Char → Bool}

theorem exists_cons_of_head {cs : List Char} (h : cs.head?.any p = true) :
    ∃ c rest, cs = c :: rest ∧ p c = true := by
  cases cs with
  | nil => cases h
  | cons c rest => exact ⟨c, rest, rfl, h⟩

/-- A run of characters that ends with them is taken whole. -/
theorem takeWhile_run {run rest : List Char} (hrun : run.all p = true)
    (hrest : rest.head?.any p = false) :
    (run ++ rest).takeWhile p = run ∧ (run ++ rest).dropWhile p = rest := by
  have hall : ∀ c ∈ run, p c = true := List.all_eq_true.mp hrun
  rw [List.takeWhile_append_of_pos hall, List.dropWhile_append_of_pos hall]
  cases rest with
  | nil => exact ⟨List.append_nil run, rfl⟩
  | cons c rest =>
      replace hrest : p c = false := hrest
      simp [hrest]

/-- A run ends where the next character is none of it. -/
theorem head?_dropWhile_any (p : Char → Bool) (cs : List Char) :
    (cs.dropWhile p).head?.any p = false := by
  have hhead := List.head?_dropWhile_not p cs
  cases hdrop : (cs.dropWhile p).head? with
  | none => rfl
  | some c =>
      rw [hdrop] at hhead
      exact hhead

/-- A class of characters that has less in it ends no later. -/
theorem any_of_imp {q : Char → Bool} (h : ∀ c, p c = false → q c = false) {c? : Option Char}
    (hp : c?.any p = false) : c?.any q = false := by
  cases c? with
  | none => rfl
  | some c => exact h c hp

end Runs

theorem isDigits_takeWhile {c : Char} (hc : c.isDigit = true) (cs : List Char) :
    IsDigits ((c :: cs).takeWhile Char.isDigit) := by
  refine ⟨?_, List.all_takeWhile⟩
  rw [List.takeWhile_cons_of_pos hc]
  exact List.cons_ne_nil _ _

theorem IsDigits.head {digits : List Char} (h : IsDigits digits) (rest : List Char) :
    (digits ++ rest).head?.any Char.isDigit = true := by
  have hdigits := List.all_eq_true.mp h.2
  cases digits with
  | nil => exact absurd rfl h.1
  | cons c cs => exact hdigits c List.mem_cons_self

/-! ## Lexemes that go on -/

/-- The text goes on with a point and a digit. -/
def HasDecimals (rest : List Char) : Prop :=
  rest.head? = some '.' ∧ rest.tail.head?.any Char.isDigit = true

namespace Lexeme

/-- A number without a unit and without decimals. -/
def isWhole : Lexeme → Bool
  | .integer _ none => true
  | _ => false

/-- The characters that a lexeme goes on with: a string with a second quote, a
    slash with a second one to a comment, and names, numbers and units with
    what may stand in a name. -/
def goesOnWith : Lexeme → Char → Bool
  | .string _, c => c == '\''
  | .symbol s, c => s == .slash && c == '/'
  | _, c => isNameChar c

/-- The scanner would go on with the lexeme into the text. -/
def GoesOn (x : Lexeme) (rest : List Char) : Prop :=
  rest.head?.any x.goesOnWith = true ∨ x.isWhole = true ∧ HasDecimals rest

/-- Nothing goes on at the end of a text. -/
theorem not_goesOn_nil (x : Lexeme) : ¬ x.GoesOn [] := by
  rintro (h | ⟨-, h, -⟩) <;> cases h

/-- What is put after the text does not matter. -/
theorem GoesOn.append {x : Lexeme} {front : List Char} (h : x.GoesOn front) (back : List Char) :
    x.GoesOn (front ++ back) := by
  rcases front with _ | ⟨c, _ | ⟨d, front⟩⟩
  · exact absurd h x.not_goesOn_nil
  · rcases h with h | ⟨-, -, h⟩
    · exact .inl h
    · cases h
  · exact h

/-- No lexeme goes on with a gap. -/
theorem not_goesOnWith_of_isGap (x : Lexeme) {g : Char} (hg : isGap g = true) :
    x.goesOnWith g = false := by
  obtain ⟨-, hname, -, hquote, -, hslash⟩ := not_part_of_isGap hg
  cases x with
  | string text => exact beq_eq_false_iff_ne.mpr hquote
  | symbol s =>
      show (s == .slash && g == '/') = false
      rw [beq_eq_false_iff_ne.mpr hslash, Bool.and_false]
  | _ => exact hname

/-- No lexeme goes on past a blank or a line end. -/
theorem GoesOn.of_append {x : Lexeme} {rest ds : List Char} {g : Char} (hg : isGap g = true)
    (h : x.GoesOn (rest ++ g :: ds)) : x.GoesOn rest := by
  obtain ⟨-, -, hdigit, -, hpoint, -⟩ := not_part_of_isGap hg
  rcases rest with _ | ⟨c, _ | ⟨d, rest⟩⟩
  · rcases h with hnext | ⟨-, hnext, -⟩
    · exact absurd hnext (by simp [not_goesOnWith_of_isGap x hg])
    · exact absurd (Option.some.inj hnext) hpoint
  · rcases h with hnext | ⟨-, -, hnext⟩
    · exact .inl hnext
    · exact absurd hnext (by simp [hdigit])
  · exact h

/-! ## Reading what is spelled -/

/-- The scanner takes the lexeme from the front of the text, which is no gap,
    and leaves the rest. -/
def ReadFrom (x : Lexeme) (text rest : List Char) : Prop :=
  ∃ c cs, text = c :: cs ∧ ¬ isGap c = true ∧ ¬ (c = '/' ∧ cs.head? = some '/')
    ∧ read c cs = .ok (x, rest)

section Spelled

variable {rest : List Char}

/-- A word is read up to the first character that is in no name. -/
theorem readFrom_word {word : String} (hstart : word.toList.head?.any isNameStart = true)
    (hall : word.toList.all isNameChar = true) (hrest : rest.head?.any isNameChar = false) :
    (ofWord word).ReadFrom (word.toList ++ rest) rest := by
  have hread : readWord (word.toList ++ rest) = (ofWord word, rest) := by
    obtain ⟨htake, hdrop⟩ := takeWhile_run hall hrest
    rw [readWord, htake, hdrop, String.ofList_toList]
  obtain ⟨c, cs, hword, hc⟩ := exists_cons_of_head hstart
  obtain ⟨hdigit, hquote, hslash, -⟩ := not_part_of_isNameStart hc
  rw [hword, List.cons_append] at hread ⊢
  refine ⟨c, cs ++ rest, rfl, not_isGap_of_isNameStart hc, fun h => hslash h.1, ?_⟩
  rw [read, if_neg (by simp [hdigit]), if_neg hquote, if_pos hc, hread]

/-- The text of a string is read up to where it ends. -/
theorem readQuoted_doubleQuotes (text rest : List Char) :
    readQuoted (doubleQuotes text ++ rest)
      = (readQuoted rest).map fun (more, rest') => (text ++ more, rest') := by
  induction text with
  | nil => cases h : readQuoted rest <;> simp [doubleQuotes, h]
  | cons c text ih =>
      by_cases hc : c = '\''
      · subst hc
        rw [doubleQuotes, List.cons_append, List.cons_append, readQuoted, ih, Option.map_map]
        rfl
      · rw [doubleQuotes.eq_3 _ _ hc, List.cons_append, readQuoted.eq_4 _ _ ?_ hc, ih,
          Option.map_map]
        · rfl
        · intro more hc' _
          exact absurd hc' hc

/-- A quote that no quote follows ends the string. -/
theorem readQuoted_quote (hrest : rest.head? ≠ some '\'') :
    readQuoted ('\'' :: rest) = some ([], rest) := by
  rw [readQuoted]
  rintro more rfl
  exact hrest rfl

/-- The digits before a text that goes on neither with digits nor to decimals. -/
theorem readDigits_integer {digits : List Char} (h : IsDigits digits)
    (hdigit : rest.head?.any Char.isDigit = false) (hdecimals : ¬ HasDecimals rest) :
    readDigits (digits ++ rest) = (digits, false, rest) := by
  obtain ⟨htake, hdrop⟩ := takeWhile_run h.2 hdigit
  rw [readDigits, htake, hdrop]
  split
  · rename_i d more
    rw [if_neg]
    intro hd
    exact hdecimals ⟨rfl, hd⟩
  · rfl

/-- Digits around a point are read as one number. -/
theorem readDigits_decimal {whole fraction : List Char} (hwhole : IsDigits whole)
    (hfraction : IsDigits fraction) (hdigit : rest.head?.any Char.isDigit = false) :
    readDigits (whole ++ '.' :: fraction ++ rest) = (whole ++ '.' :: fraction, true, rest) := by
  obtain ⟨htake, hdrop⟩ := takeWhile_run hfraction.2 hdigit
  have hpoint : ('.' :: (fraction ++ rest)).head?.any Char.isDigit = false := rfl
  obtain ⟨htake', hdrop'⟩ := takeWhile_run hwhole.2 hpoint
  obtain ⟨d, more, hmore, hd⟩ := exists_cons_of_head (hfraction.head rest)
  rw [hmore] at htake hdrop
  rw [List.append_assoc, List.cons_append, readDigits, htake', hdrop', hmore]
  split
  · rename_i heq
    cases heq
    rw [if_pos hd, htake, hdrop]
  · rename_i hother
    exact absurd rfl (hother d more)

/-- A unit goes on neither the digits nor to decimals. -/
theorem head_unitName (u : LengthUnit) (rest : List Char) :
    ((Quantity.unitName (some u)).toList ++ rest).head?.any Char.isDigit = false
      ∧ ¬ HasDecimals ((Quantity.unitName (some u)).toList ++ rest) := by
  cases u <;> simp [Quantity.unitName, LengthUnit.name, HasDecimals]

/-- A word right after a number is a unit or a fault. -/
theorem readUnit_word {word : List Char} (hstart : word.head?.any isNameStart = true)
    (hall : word.all isNameChar = true) (hrest : rest.head?.any isNameChar = false) :
    readUnit (word ++ rest)
      = (LengthUnit.ofName? (String.ofList word)).elim
          (.error (.unknownUnitSuffix (String.ofList word))) fun u => .ok (some u, rest) := by
  obtain ⟨htake, hdrop⟩ := takeWhile_run hall hrest
  obtain ⟨c, cs, rfl, hc⟩ := exists_cons_of_head hstart
  rw [List.cons_append] at htake hdrop ⊢
  rw [readUnit, if_pos hc]
  dsimp only
  rw [htake, hdrop]
  cases LengthUnit.ofName? (String.ofList (c :: cs)) <;> rfl

/-- A unit is read up to the first character that is in no name. -/
theorem readUnit_unitName (unit : Option LengthUnit) (hrest : rest.head?.any isNameChar = false) :
    readUnit ((Quantity.unitName unit).toList ++ rest) = .ok (unit, rest) := by
  cases unit with
  | none =>
      cases rest with
      | nil => rfl
      | cons c rest =>
          show readUnit (c :: rest) = _
          rw [readUnit, if_neg (by simp [(not_isNameChar hrest).1])]
  | some u =>
      have hstart : u.name.toList.head?.any isNameStart = true := by cases u <;> decide
      have hall : u.name.toList.all isNameChar = true := by cases u <;> decide
      show readUnit (u.name.toList ++ rest) = _
      rw [readUnit_word hstart hall hrest, String.ofList_toList, LengthUnit.ofName?_name]
      rfl

/-- At a digit, which starts no gap, the scanner reads a number. -/
theorem read_of_isDigit {c : Char} (hc : c.isDigit = true) (cs : List Char) :
    ¬ isGap c = true ∧ ¬ (c = '/' ∧ cs.head? = some '/') ∧ read c cs = readNumber (c :: cs) := by
  refine ⟨?_, ?_, if_pos hc⟩
  · intro hgap
    rw [(not_part_of_isGap hgap).2.2.1] at hc
    cases hc
  · rintro ⟨rfl, -⟩
    exact absurd hc (by decide)

/-- A number is read from its digits and its unit. -/
theorem readFrom_number {digits : List Char} {decimals : Bool} {unit : Option LengthUnit}
    (hdigits : digits.head?.any Char.isDigit = true)
    (h : readDigits (digits ++ ((Quantity.unitName unit).toList ++ rest))
      = (digits, decimals, (Quantity.unitName unit).toList ++ rest))
    (hrest : rest.head?.any isNameChar = false) :
    (if decimals then decimal (String.ofList digits) unit
      else integer (String.ofList digits) unit).ReadFrom
        (digits ++ ((Quantity.unitName unit).toList ++ rest)) rest := by
  have hread : readNumber (digits ++ ((Quantity.unitName unit).toList ++ rest))
      = .ok (if decimals then decimal (String.ofList digits) unit
          else integer (String.ofList digits) unit, rest) := by
    rw [readNumber, h]
    dsimp only
    rw [readUnit_unitName unit hrest]
  obtain ⟨c, cs, rfl, hc⟩ := exists_cons_of_head hdigits
  obtain ⟨hblank, hcomment, hnumber⟩ :=
    read_of_isDigit hc (cs ++ ((Quantity.unitName unit).toList ++ rest))
  exact ⟨c, _, rfl, hblank, hcomment, hnumber.trans hread⟩

/-- What does not go on a number does not go on its digits. -/
theorem unit_ends_digits {digits : String} {unit : Option LengthUnit}
    (h : ¬ (integer digits unit).GoesOn rest) :
    ((Quantity.unitName unit).toList ++ rest).head?.any Char.isDigit = false
      ∧ ¬ HasDecimals ((Quantity.unitName unit).toList ++ rest) := by
  obtain ⟨hname, hdecimals⟩ := not_or.mp h
  cases unit with
  | some u => exact head_unitName u rest
  | none =>
      refine ⟨any_of_imp (fun c hc => (not_isNameChar hc).2) (Bool.eq_false_iff.mpr hname), ?_⟩
      intro hpoint
      exact hdecimals ⟨rfl, hpoint⟩

/-- **A lexeme that does not go on is read from its spelling.** -/
theorem readFrom_spelling {x : Lexeme} (h : x.WellFormed) (hrest : ¬ x.GoesOn rest) :
    x.ReadFrom (x.spelling ++ rest) rest := by
  have hnext := Bool.eq_false_iff.mpr (not_or.mp hrest).1
  cases x with
  | identifier name =>
      obtain ⟨hstart, hall, hfor, hin⟩ := h
      have hword := readFrom_word hstart hall hnext
      rw [← spelling_ofWord] at hword
      rwa [ofWord, if_neg hfor, if_neg hin] at hword
  | forKeyword => exact @readFrom_word rest "for" (by decide) (by decide) hnext
  | inKeyword => exact @readFrom_word rest "in" (by decide) (by decide) hnext
  | integer digits unit =>
      obtain ⟨hdigit, hdecimals⟩ := unit_ends_digits hrest
      have hhead := h.head []
      rw [List.append_nil] at hhead
      have hnumber := readFrom_number hhead (readDigits_integer h hdigit hdecimals) hnext
      rwa [String.ofList_toList, ← List.append_assoc] at hnumber
  | decimal digits unit =>
      obtain ⟨whole, fraction, hwhole, hfraction, hdigits⟩ := h
      have hdigit : ((Quantity.unitName unit).toList ++ rest).head?.any Char.isDigit = false := by
        cases unit with
        | none => exact any_of_imp (fun c hc => (not_isNameChar hc).2) hnext
        | some u => exact (head_unitName u rest).1
      have hnumber := readFrom_number (hwhole.head _)
        (readDigits_decimal hwhole hfraction hdigit) hnext
      rwa [← hdigits, String.ofList_toList, ← List.append_assoc] at hnumber
  | string text =>
      have hquote : rest.head? ≠ some '\'' := by
        intro hquote
        rw [hquote] at hnext
        cases hnext
      have hread : readQuoted (doubleQuotes text.toList ++ '\'' :: rest)
          = some (text.toList, rest) := by
        rw [readQuoted_doubleQuotes, readQuoted_quote hquote]
        simp
      refine ⟨'\'', doubleQuotes text.toList ++ '\'' :: rest, ?_, by decide, by simp, ?_⟩
      · simp [spelling]
      · rw [read, if_neg (by decide), if_pos rfl, hread]
        dsimp only
        rw [String.ofList_toList]
  | symbol s =>
      refine ⟨s.char, rest, ?_, ?_, ?_, ?_⟩
      · cases s <;> rfl
      · cases s <;> decide
      · rintro ⟨hslash, hhead⟩
        have hs : Symbol.ofChar? s.char = some .slash := by
          rw [hslash]
          rfl
        rw [Symbol.ofChar?_char, Option.some.injEq] at hs
        rw [hs, hhead] at hnext
        cases hnext
      · cases s <;> rfl

end Spelled

/-! ## Lexemes that are read -/

/-- What is read: a number, a string, a word or a sign. -/
theorem read_cases {c : Char} {cs rest : List Char} {x : Lexeme} (h : read c cs = .ok (x, rest)) :
    (c.isDigit = true ∧ readNumber (c :: cs) = .ok (x, rest))
      ∨ (∃ text, readQuoted cs = some (text, rest) ∧ x = .string (String.ofList text))
      ∨ (isNameStart c = true ∧ x = ofWord (String.ofList ((c :: cs).takeWhile isNameChar))
        ∧ rest = (c :: cs).dropWhile isNameChar)
      ∨ ∃ s, s.char = c ∧ x = .symbol s ∧ rest = cs := by
  rw [read] at h
  split at h
  · rename_i hdigit
    exact .inl ⟨hdigit, h⟩
  split at h
  · split at h
    · rename_i text rest' hquoted
      cases h
      exact .inr (.inl ⟨text, hquoted, rfl⟩)
    · cases h
  split at h
  · rename_i hstart
    cases h
    exact .inr (.inr (.inl ⟨hstart, rfl, rfl⟩))
  split at h
  · rename_i s hs
    cases h
    exact .inr (.inr (.inr ⟨s, Symbol.char_of_ofChar? hs, rfl, rfl⟩))
  · cases h

/-- Words are names, or the two keywords. -/
theorem wellFormed_ofWord {word : String} (hstart : word.toList.head?.any isNameStart = true)
    (hall : word.toList.all isNameChar = true) : (ofWord word).WellFormed := by
  rw [ofWord]
  split
  · trivial
  · rename_i hfor
    split
    · trivial
    · rename_i hin
      exact ⟨hstart, hall, hfor, hin⟩

/-- Digits are read with a fraction exactly when the number is a decimal. -/
theorem wellFormed_readDigits {c : Char} (hc : c.isDigit = true) (cs : List Char)
    (unit : Option LengthUnit) :
    (if (readDigits (c :: cs)).2.1 then decimal (String.ofList (readDigits (c :: cs)).1) unit
      else integer (String.ofList (readDigits (c :: cs)).1) unit).WellFormed := by
  have hwhole := isDigits_takeWhile hc cs
  have hinteger : (integer (String.ofList ((c :: cs).takeWhile Char.isDigit)) unit).WellFormed := by
    show IsDigits (String.ofList _).toList
    rw [String.toList_ofList]
    exact hwhole
  rw [readDigits]
  split
  · rename_i d more hrest
    by_cases hd : d.isDigit = true
    · rw [if_pos hd]
      exact ⟨_, _, hwhole, isDigits_takeWhile hd more, String.toList_ofList⟩
    · rw [if_neg hd]
      exact hinteger
  · exact hinteger

/-- A number that is read has digits, and a unit if any. -/
theorem wellFormed_of_readNumber {c : Char} (hc : c.isDigit = true) {cs rest : List Char}
    {x : Lexeme} (h : readNumber (c :: cs) = .ok (x, rest)) : x.WellFormed := by
  rw [readNumber] at h
  dsimp only at h
  split at h
  · rename_i unit rest' hunit
    rw [← (Prod.mk.inj (Except.ok.inj h)).1]
    exact wellFormed_readDigits hc cs unit
  · cases h

/-- Whatever is read is well formed. -/
theorem wellFormed_of_read {c : Char} {cs rest : List Char} {x : Lexeme}
    (h : read c cs = .ok (x, rest)) : x.WellFormed := by
  rcases read_cases h with ⟨hdigit, hnumber⟩ | ⟨text, -, rfl⟩ | ⟨hstart, rfl, -⟩ | ⟨s, -, rfl, -⟩
  · exact wellFormed_of_readNumber hdigit hnumber
  · trivial
  · have hchar := isNameChar_iff.mpr (.inl hstart)
    refine wellFormed_ofWord ?_ ?_
    · rw [String.toList_ofList, List.takeWhile_cons_of_pos hchar]
      exact hstart
    · rw [String.toList_ofList]
      exact List.all_takeWhile
  · trivial

/-- Digits are read to their end, and decimals are not left over. -/
theorem readDigits_ends (cs : List Char) :
    (readDigits cs).2.2.head?.any Char.isDigit = false
      ∧ ((readDigits cs).2.1 = false → ¬ HasDecimals (readDigits cs).2.2) := by
  have hend := head?_dropWhile_any Char.isDigit cs
  rw [readDigits]
  split
  · rename_i d more hrest
    by_cases hd : d.isDigit = true
    · rw [if_pos hd]
      exact ⟨head?_dropWhile_any Char.isDigit (d :: more), fun h => Bool.noConfusion h⟩
    · rw [if_neg hd]
      refine ⟨hend, fun _ hdecimals => hd ?_⟩
      rw [hrest] at hdecimals
      exact hdecimals.2
  · rename_i hrest
    refine ⟨hend, ?_⟩
    rintro - ⟨hpoint, hdigit⟩
    rcases hdrop : cs.dropWhile Char.isDigit with _ | ⟨point, _ | ⟨d, more⟩⟩
    all_goals rw [hdrop] at hpoint hdigit
    · cases hpoint
    · cases hdigit
    · exact hrest d more (by rw [hdrop, Option.some.inj hpoint])

/-- What is left after the unit goes on neither it nor the digits before it. -/
theorem readUnit_ends {cs rest : List Char} {unit : Option LengthUnit}
    (h : readUnit cs = .ok (unit, rest)) (hcs : cs.head?.any Char.isDigit = false) :
    rest.head?.any isNameChar = false ∧ (unit = none → rest = cs) := by
  cases cs with
  | nil =>
      cases h
      exact ⟨rfl, fun _ => rfl⟩
  | cons c more =>
      rw [readUnit] at h
      split at h
      · dsimp only at h
        split at h
        · cases h
          exact ⟨head?_dropWhile_any isNameChar (c :: more), fun h => absurd h (by simp)⟩
        · cases h
      · rename_i hstart
        cases h
        refine ⟨Bool.eq_false_iff.mpr ?_, fun _ => rfl⟩
        intro hchar
        rcases isNameChar_iff.mp hchar with hstart' | hdigit
        · exact hstart hstart'
        · exact absurd hdigit (Bool.eq_false_iff.mp hcs)

/-- No digit, point or letter is left over that would have belonged to it. -/
theorem not_goesOn_of_readNumber {cs rest : List Char} {x : Lexeme}
    (h : readNumber cs = .ok (x, rest)) : ¬ x.GoesOn rest := by
  obtain ⟨hdigit, hdecimals⟩ := readDigits_ends cs
  rw [readNumber] at h
  dsimp only at h
  split at h
  · rename_i unit rest' hunit
    obtain ⟨hname, hnone⟩ := readUnit_ends hunit hdigit
    cases hd : (readDigits cs).2.1 with
    | true =>
        rw [hd] at h
        cases h
        rintro (hnext | ⟨hwhole, -⟩)
        · exact absurd hnext (Bool.eq_false_iff.mp hname)
        · cases hwhole
    | false =>
        rw [hd] at h
        cases h
        rintro (hnext | ⟨hwhole, hpoint⟩)
        · exact absurd hnext (Bool.eq_false_iff.mp hname)
        · cases unit with
          | none => exact hdecimals hd (hnone rfl ▸ hpoint)
          | some u => cases hwhole
  · cases h

/-- What is left of a string starts with no quote. -/
theorem readQuoted_ends {cs text rest : List Char} (h : readQuoted cs = some (text, rest)) :
    rest.head? ≠ some '\'' := by
  fun_induction readQuoted cs generalizing text rest with
  | case1 => cases h
  | case2 cs ih =>
      obtain ⟨⟨t, r⟩, hr, he⟩ := Option.map_eq_some_iff.mp h
      cases he
      exact ih hr
  | case3 cs hcs =>
      cases h
      intro hquote
      obtain ⟨more, rfl⟩ := List.head?_eq_some_iff.mp hquote
      exact hcs more rfl
  | case4 c cs _ _ ih =>
      obtain ⟨⟨t, r⟩, hr, he⟩ := Option.map_eq_some_iff.mp h
      cases he
      exact ih hr

/-- A word ends where names do. -/
theorem not_goesOn_ofWord (word : String) {rest : List Char}
    (hrest : rest.head?.any isNameChar = false) : ¬ (ofWord word).GoesOn rest := by
  have hwith : (ofWord word).goesOnWith = isNameChar ∧ (ofWord word).isWhole = false := by
    rw [ofWord]
    split
    · exact ⟨rfl, rfl⟩
    · split <;> exact ⟨rfl, rfl⟩
  rw [GoesOn, hwith.1, hwith.2]
  simp [hrest]

/-- Whatever is read does not go on. -/
theorem not_goesOn_of_read {c : Char} {cs rest : List Char} {x : Lexeme}
    (hcomment : ¬ (c = '/' ∧ cs.head? = some '/')) (h : read c cs = .ok (x, rest)) :
    ¬ x.GoesOn rest := by
  rcases read_cases h with ⟨-, hnumber⟩ | ⟨text, hquoted, rfl⟩ | ⟨-, rfl, rfl⟩ | ⟨s, hs, rfl, rfl⟩
  · exact not_goesOn_of_readNumber hnumber
  · rintro (hnext | ⟨hwhole, -⟩)
    · obtain ⟨d, hhead, hd⟩ := (Option.any_eq_true _ _).mp hnext
      exact readQuoted_ends hquoted (by rw [hhead, eq_of_beq hd])
    · cases hwhole
  · exact not_goesOn_ofWord _ (head?_dropWhile_any isNameChar (c :: cs))
  · rintro (hnext | ⟨hwhole, -⟩)
    · obtain ⟨d, hhead, hd⟩ := (Option.any_eq_true _ _).mp hnext
      obtain ⟨hslash, hd⟩ := (Bool.and_eq_true _ _).mp hd
      refine hcomment ⟨?_, by rw [hhead, eq_of_beq hd]⟩
      rw [← hs, eq_of_beq hslash]
      rfl
    · cases hwhole

/-- **The scanner takes the longest lexeme.**  It takes a lexeme exactly where a
    well-formed one is spelled and does not go on. -/
theorem readFrom_iff {x : Lexeme} {text rest : List Char} :
    x.ReadFrom text rest ↔ text = x.spelling ++ rest ∧ x.WellFormed ∧ ¬ x.GoesOn rest := by
  constructor
  · rintro ⟨c, cs, rfl, -, hcomment, hread⟩
    exact ⟨read_eq hread, wellFormed_of_read hread, not_goesOn_of_read hcomment hread⟩
  · rintro ⟨rfl, hx, hrest⟩
    exact readFrom_spelling hx hrest

/-- No lexeme is spelled as nothing. -/
theorem WellFormed.spelling_ne_nil {x : Lexeme} (h : x.WellFormed) : x.spelling ≠ [] := by
  obtain ⟨c, cs, htext, -⟩ := readFrom_spelling h x.not_goesOn_nil
  rw [List.append_nil] at htext
  rw [htext]
  exact List.cons_ne_nil c cs

/-- No lexeme can be taken from the front of the text, which is no gap. -/
def Unreadable (text : List Char) (failure : ScanFailure) : Prop :=
  ∃ c cs, text = c :: cs ∧ ¬ isGap c = true ∧ ¬ (c = '/' ∧ cs.head? = some '/')
    ∧ read c cs = .error failure

end Lexeme

end MillScript
