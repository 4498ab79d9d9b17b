import MillScript.Proofs.Token.Layout

/-! # Where scanning breaks

    A script that cannot be scanned has a place where it breaks.  Up to there
    it is read as tokens, each the longest there is, and what comes next can be
    none.

    * `Breaks` says what that is, without the scanner: a character that nothing
      starts with, a string that is never closed, or a word right after a
      number that is not a unit.
    * `Lexeme.unreadable_iff` shows that these are all the texts from which no
      lexeme can be read, and which fault each of them gives.
    * `scan_eq_error_iff` says where errors are: at the break, whose line and
      column the text before it counts to.  That text is scanned by itself, and
      its tokens do not depend on what was cut off. -/

namespace MillScript

/-! ## What can be no token -/

/-- The digits of a number: whole, or with decimals. -/
def IsNumeral (digits : List Char) : Prop :=
  IsDigits digits ∨ ∃ whole fraction, IsDigits whole ∧ IsDigits fraction
    ∧ digits = whole ++ '.' :: fraction

/-- No token starts with the character, and neither does a blank, a line end
    or a comment. -/
def BeginsNothing (c : Char) : Prop :=
  (∀ x : Lexeme, x.WellFormed → x.spelling.head? ≠ some c) ∧ ∀ text, ¬ LastGap (c :: text)

/-- A word, up to its last character, that is not a unit. -/
structure IsWrongUnit (word rest : List Char) : Prop where
  start : word.head?.any isNameStart = true
  chars : word.all isNameChar = true
  stop : rest.head?.any isNameChar = false
  unknown : ∀ u : LengthUnit, u.name.toList ≠ word

/-- A text after the digits of a number, or after none, where reading breaks,
    and the fault that is found there. -/
inductive Breaks : List Char → List Char → SyntaxFault → Prop
  | character {c : Char} {rest : List Char} (hc : BeginsNothing c) :
      Breaks [] (c :: rest) (.unexpectedCharacter c)
  /-- Every quote after the first is doubled, up to the end of the script. -/
  | quote {text : List Char} : Breaks [] ('\'' :: Lexeme.doubleQuotes text) .unterminatedString
  | unit {digits word rest : List Char} (hdigits : IsNumeral digits)
      (hword : IsWrongUnit word rest) :
      Breaks digits (word ++ rest) (.unknownUnitSuffix (String.ofList word))

theorem Breaks.ne_nil {digits back : List Char} {fault : SyntaxFault}
    (h : Breaks digits back fault) : back ≠ [] := by
  cases h with
  | character _ => exact List.cons_ne_nil _ _
  | quote => exact List.cons_ne_nil _ _
  | unit _ hword =>
      obtain ⟨c, more, rfl, -⟩ := exists_cons_of_head hword.start
      exact List.cons_ne_nil _ _

/-- A number without a unit is spelled by its digits. -/
theorem IsNumeral.exists_lexeme {digits : List Char} (h : IsNumeral digits) :
    ∃ x : Lexeme, x.WellFormed ∧ x.spelling = digits := by
  rcases h with h | ⟨whole, fraction, hwhole, hfraction, rfl⟩
  · refine ⟨.integer (String.ofList digits) none, ?_, ?_⟩
    · show IsDigits (String.ofList digits).toList
      rwa [String.toList_ofList]
    · simp [Lexeme.spelling, Lexeme.text, Lexeme.unitName, Quantity.unitName]
  · refine ⟨.decimal (String.ofList (whole ++ '.' :: fraction)) none, ?_, ?_⟩
    · exact ⟨whole, fraction, hwhole, hfraction, String.toList_ofList⟩
    · simp [Lexeme.spelling, Lexeme.text, Lexeme.unitName, Quantity.unitName]

/-- Numerals start with a digit. -/
theorem IsNumeral.head {digits : List Char} (h : IsNumeral digits) :
    digits.head?.any Char.isDigit = true := by
  rcases h with h | ⟨whole, fraction, hwhole, -, rfl⟩
  · have hhead := h.head []
    rwa [List.append_nil] at hhead
  · exact hwhole.head ('.' :: fraction)

/-- The word goes on neither the digits nor to decimals. -/
theorem IsWrongUnit.ends_digits {word rest : List Char} (h : IsWrongUnit word rest) :
    (word ++ rest).head?.any Char.isDigit = false ∧ ¬ HasDecimals (word ++ rest) := by
  obtain ⟨c, more, rfl, hc⟩ := exists_cons_of_head h.start
  obtain ⟨hdigit, -, -, hpoint⟩ := not_part_of_isNameStart hc
  refine ⟨hdigit, ?_⟩
  rintro ⟨hhead, -⟩
  exact hpoint (Option.some.inj hhead)

/-! ## Where no lexeme can be read -/

/-- A word is no unit if it is none of their names. -/
theorem LengthUnit.ofName?_eq_none_iff {word : List Char} :
    ofName? (String.ofList word) = none ↔ ∀ u : LengthUnit, u.name.toList ≠ word := by
  constructor
  · rintro hnone u rfl
    rw [String.ofList_toList, ofName?_name] at hnone
    cases hnone
  · intro hnames
    cases hunit : ofName? (String.ofList word) with
    | none => rfl
    | some u =>
        have hname := congrArg String.toList (name_of_ofName? hunit)
        rw [String.toList_ofList] at hname
        exact absurd hname (hnames u)

/-- Gaps start with a gap or a slash. -/
theorem Gap.head {gap : List Char} (h : Gap gap) : ∀ c ∈ gap.head?, isGap c = true ∨ c = '/' := by
  intro c hc
  cases h with
  | nil => cases hc
  | blank hblank _ =>
      rw [← Option.some.inj hc]
      exact .inl (isGap_of_mem hblank)
  | comment _ _ => exact .inr (Option.some.inj hc).symm

theorem LastGap.head {gap : List Char} (h : LastGap gap) :
    ∀ c ∈ gap.head?, isGap c = true ∨ c = '/' := by
  cases h with
  | gap h => exact h.head
  | @comment gap text h _ =>
      intro c hc
      cases gap with
      | nil => exact .inr (Option.some.inj hc).symm
      | cons d gap => exact h.head c hc

/-- The classes of characters that the scanner tells apart. -/
theorem beginsNothing_iff {c : Char} :
    BeginsNothing c ↔ ¬ isGap c = true ∧ ¬ c.isDigit = true ∧ c ≠ '\'' ∧ ¬ isNameStart c = true
      ∧ Symbol.ofChar? c = none := by
  constructor
  · rintro ⟨hlexeme, hgap⟩
    refine ⟨?_, ?_, ?_, ?_, ?_⟩
    · intro hblank
      exact hgap [] (.gap (.blank (mem_of_isGap hblank) .nil))
    · intro hdigit
      have hnumeral : IsNumeral [c] := .inl ⟨List.cons_ne_nil _ _, by simp [hdigit]⟩
      obtain ⟨x, hx, hspelling⟩ := hnumeral.exists_lexeme
      exact hlexeme x hx (by rw [hspelling]; rfl)
    · rintro rfl
      exact hlexeme (.string "") trivial rfl
    · intro hstart
      refine hlexeme (.ofWord (String.ofList [c])) (Lexeme.wellFormed_ofWord ?_ ?_) ?_
      · rw [String.toList_ofList]
        exact hstart
      · simp [isNameChar_iff.mpr (.inl hstart)]
      · rw [Lexeme.spelling_ofWord, String.toList_ofList]
        rfl
    · cases hs : Symbol.ofChar? c with
      | none => rfl
      | some s =>
          refine absurd ?_ (hlexeme (.symbol s) trivial)
          rw [← Symbol.char_of_ofChar? hs]
          cases s <;> rfl
  · rintro ⟨hblank, hdigit, hquote, hname, hsymbol⟩
    refine ⟨?_, ?_⟩
    · -- a lexeme would be read where none can
      intro x hx hhead
      obtain ⟨d, cs, hspelling, -, -, hread⟩ := Lexeme.readFrom_spelling hx x.not_goesOn_nil
      rw [List.append_nil] at hspelling
      rw [hspelling] at hhead
      obtain rfl := Option.some.inj hhead
      rw [Lexeme.read, if_neg hdigit, if_neg hquote, if_neg hname, hsymbol] at hread
      cases hread
    · intro text hlast
      rcases hlast.head c rfl with hc | rfl
      · exact hblank hc
      · cases hsymbol

namespace Lexeme

/-- A string is never closed exactly when all that follows is text. -/
theorem readQuoted_eq_none_iff {cs : List Char} :
    readQuoted cs = none ↔ ∃ text, cs = doubleQuotes text := by
  constructor
  · intro h
    fun_induction readQuoted cs with
    | case1 => exact ⟨[], rfl⟩
    | case2 cs ih =>
        obtain ⟨text, rfl⟩ := ih (Option.map_eq_none_iff.mp h)
        exact ⟨'\'' :: text, rfl⟩
    | case3 cs _ => cases h
    | case4 c cs _ hc ih =>
        obtain ⟨text, rfl⟩ := ih (Option.map_eq_none_iff.mp h)
        exact ⟨c :: text, (doubleQuotes.eq_3 c text hc).symm⟩
  · rintro ⟨text, rfl⟩
    have hread := readQuoted_doubleQuotes text []
    rwa [List.append_nil] at hread

/-- A unit is refused just if letters follow that are no unit. -/
theorem readUnit_eq_error_iff {cs : List Char} {fault : SyntaxFault} :
    readUnit cs = .error fault ↔ ∃ word rest, cs = word ++ rest ∧ IsWrongUnit word rest
      ∧ fault = .unknownUnitSuffix (String.ofList word) := by
  constructor
  · intro h
    cases cs with
    | nil => cases h
    | cons c more =>
        rw [readUnit] at h
        split at h
        · rename_i hstart
          dsimp only at h
          split at h
          · cases h
          · rename_i hnone
            cases h
            refine ⟨(c :: more).takeWhile isNameChar, (c :: more).dropWhile isNameChar,
              List.takeWhile_append_dropWhile.symm, ⟨?_, List.all_takeWhile,
                head?_dropWhile_any isNameChar (c :: more),
                LengthUnit.ofName?_eq_none_iff.mp hnone⟩, rfl⟩
            rw [List.takeWhile_cons_of_pos (isNameChar_iff.mpr (.inl hstart))]
            exact hstart
        · cases h
  · rintro ⟨word, rest, rfl, hword, rfl⟩
    rw [readUnit_word hword.start hword.chars hword.stop,
      LengthUnit.ofName?_eq_none_iff.mpr hword.unknown]
    rfl

/-- What is read of digits is a numeral. -/
theorem isNumeral_readDigits {c : Char} (hc : c.isDigit = true) (cs : List Char) :
    IsNumeral (readDigits (c :: cs)).1 := by
  have hnumber := wellFormed_readDigits hc cs none
  cases hdecimals : (readDigits (c :: cs)).2.1 with
  | true =>
      rw [hdecimals] at hnumber
      obtain ⟨whole, fraction, hwhole, hfraction, hdigits⟩ := hnumber
      rw [String.toList_ofList] at hdigits
      exact .inr ⟨whole, fraction, hwhole, hfraction, hdigits⟩
  | false =>
      rw [hdecimals] at hnumber
      replace hnumber : IsDigits (String.ofList (readDigits (c :: cs)).1).toList := hnumber
      rw [String.toList_ofList] at hnumber
      exact .inl hnumber

/-- The digits before a wrong unit are read, and then the unit is refused. -/
theorem readNumber_wrongUnit {digits word rest : List Char} (hdigits : IsNumeral digits)
    (hword : IsWrongUnit word rest) :
    readNumber (digits ++ (word ++ rest))
      = .error ⟨digits, .unknownUnitSuffix (String.ofList word)⟩ := by
  obtain ⟨hdigit, hdecimals⟩ := hword.ends_digits
  have hread : ∃ decimals,
      readDigits (digits ++ (word ++ rest)) = (digits, decimals, word ++ rest) := by
    rcases hdigits with h | ⟨whole, fraction, hwhole, hfraction, rfl⟩
    · exact ⟨false, readDigits_integer h hdigit hdecimals⟩
    · exact ⟨true, readDigits_decimal hwhole hfraction hdigit⟩
  obtain ⟨decimals, hread⟩ := hread
  have hunit := readUnit_eq_error_iff.mpr ⟨word, rest, rfl, hword, rfl⟩
  rw [readNumber, hread]
  dsimp only
  rw [hunit]

/-- **Where no lexeme can be read, reading breaks**, at once or after the digits
    of a number. -/
theorem unreadable_iff {text digits : List Char} {fault : SyntaxFault} :
    Unreadable text ⟨digits, fault⟩ ↔ ∃ back, text = digits ++ back ∧ Breaks digits back fault := by
  constructor
  · rintro ⟨c, cs, rfl, hblank, -, hread⟩
    rw [read] at hread
    split at hread
    · rename_i hdigit
      have hsplit := readDigits_eq (c :: cs)
      rw [readNumber] at hread
      dsimp only at hread
      split at hread
      · cases hread
      · rename_i hunit
        cases hread
        obtain ⟨word, rest, hrest, hword, rfl⟩ := readUnit_eq_error_iff.mp hunit
        rw [hrest] at hsplit
        exact ⟨word ++ rest, hsplit, .unit (isNumeral_readDigits hdigit cs) hword⟩
    rename_i hdigit
    split at hread
    · rename_i hquote
      split at hread
      · cases hread
      · rename_i hnone
        cases hread
        obtain ⟨text, rfl⟩ := readQuoted_eq_none_iff.mp hnone
        rw [hquote]
        exact ⟨_, rfl, .quote⟩
    rename_i hquote
    split at hread
    · cases hread
    rename_i hname
    split at hread
    · cases hread
    · rename_i hsymbol
      cases hread
      have hc := beginsNothing_iff.mpr ⟨hblank, hdigit, hquote, hname, hsymbol⟩
      exact ⟨c :: cs, rfl, .character hc⟩
  · rintro ⟨back, rfl, hbreaks⟩
    cases hbreaks with
    | @character c rest hc =>
        obtain ⟨hblank, hdigit, hquote, hname, hsymbol⟩ := beginsNothing_iff.mp hc
        refine ⟨c, rest, rfl, hblank, ?_, ?_⟩
        · rintro ⟨rfl, -⟩
          cases hsymbol
        · rw [read, if_neg hdigit, if_neg hquote, if_neg hname, hsymbol]
    | @quote text =>
        refine ⟨'\'', doubleQuotes text, rfl, by decide, by simp, ?_⟩
        rw [read, if_neg (by decide), if_pos rfl, readQuoted_eq_none_iff.mpr ⟨text, rfl⟩]
    | @unit _ word rest hdigits hword =>
        have hread := readNumber_wrongUnit hdigits hword
        obtain ⟨c, more, rfl, hc⟩ := exists_cons_of_head hdigits.head
        obtain ⟨hblank, hcomment, hnumber⟩ := read_of_isDigit hc (more ++ (word ++ rest))
        exact ⟨c, _, rfl, hblank, hcomment, hnumber.trans hread⟩

end Lexeme

/-! ## Whole scripts -/

/-- **The scanner fails exactly where reading breaks**, wherever the text stands. -/
theorem scanFrom_eq_error_iff {l : Location} {cs : List Char} {e : Error} :
    scanFrom l cs = .error e ↔ ∃ front digits back tokens fault,
      cs = front ++ (digits ++ back) ∧ ReadUpTo l front (digits ++ back) tokens
        ∧ Breaks digits back fault ∧ e = ⟨fault, l.advance (front ++ digits)⟩ := by
  constructor
  · intro h
    obtain ⟨front, back, tokens, rfl, hfront, hlast | ⟨⟨digits, fault⟩, hfailure⟩⟩ :=
      ReadUpTo.exists_stop l cs
    · rw [hfront.scanFrom_eq, scanFrom_lastGap hlast] at h
      cases h
    · rw [hfront.scanFrom_eq, scanFrom_of_unreadable hfailure] at h
      obtain ⟨back, rfl, hbreaks⟩ := Lexeme.unreadable_iff.mp hfailure
      refine ⟨front, digits, back, tokens, fault, rfl, hfront, hbreaks, ?_⟩
      rw [Location.advance_append]
      exact (Except.error.inj h).symm
  · rintro ⟨front, digits, back, tokens, fault, rfl, hfront, hbreaks, rfl⟩
    have hfailure := Lexeme.unreadable_iff.mpr ⟨back, rfl, hbreaks⟩
    rw [hfront.scanFrom_eq, scanFrom_of_unreadable hfailure, Location.advance_append]
    rfl

/-- What was read of a number before the break is a number by itself. -/
theorem Breaks.scanFrom_digits {digits back : List Char} {fault : SyntaxFault}
    (h : Breaks digits back fault) (l : Location) : ∃ s, scanFrom l digits = .ok s := by
  cases h with
  | character _ => exact ⟨⟨[], l⟩, by rw [scanFrom]⟩
  | quote => exact ⟨⟨[], l⟩, by rw [scanFrom]⟩
  | unit hdigits _ =>
      obtain ⟨x, hx, rfl⟩ := hdigits.exists_lexeme
      have hread := Lexeme.readFrom_spelling hx x.not_goesOn_nil
      rw [List.append_nil] at hread
      rw [scanFrom_of_readFrom hread, scanFrom]
      exact ⟨_, rfl⟩

/-- What comes before the break is scanned by itself, and no token before the
    number that it may end in is read in another way. -/
theorem ReadUpTo.scanFrom_front {l : Location} {front digits back : List Char} {tokens : List Token}
    {fault : SyntaxFault} (h : ReadUpTo l front (digits ++ back) tokens)
    (hbreaks : Breaks digits back fault) :
    ∃ s, scanFrom l (front ++ digits) = .ok s ∧ tokens <+: s.tokens := by
  have hcut : ReadUpTo l front digits tokens := by
    refine h.replace_back fun x rest hx => ?_
    rw [← List.append_assoc]
    exact hx.append back
  obtain ⟨s, hs⟩ := hbreaks.scanFrom_digits (l.advance front)
  refine ⟨⟨tokens ++ s.tokens, s.stop⟩, ?_, List.prefix_append tokens s.tokens⟩
  rw [hcut.scanFrom_eq, hs]
  rfl

/-- **Errors are where reading breaks.**  A script is not scanned exactly when
    it breaks at an offset inside it.  The text before that offset is scanned,
    with the tokens that were read in the whole script, and ends within no
    comment.  The error is a fault of grammar, it says what is at the break, and
    its place is the line and column that the text before the break counts to. -/
theorem scan_eq_error_iff (source : String) (e : Error) :
    scan source = .error e ↔
      ∃ p < source.toList.length, ∃ s front digits tokens fault,
        scan (String.ofList (source.toList.take p)) = .ok s
          ∧ source.toList.take p = front ++ digits ∧ tokens <+: s.tokens
          ∧ ReadUpTo .start front (digits ++ source.toList.drop p) tokens
          ∧ Breaks digits (source.toList.drop p) fault
          ∧ e = ⟨.grammar fault, Location.after (source.toList.take p)⟩ := by
  rw [scan, scanFrom_eq_error_iff]
  constructor
  · rintro ⟨front, digits, back, tokens, fault, hsource, hfront, hbreaks, rfl⟩
    rw [← List.append_assoc] at hsource
    have htake : source.toList.take (front ++ digits).length = front ++ digits := by
      rw [hsource, List.take_left]
    have hdrop : source.toList.drop (front ++ digits).length = back := by
      rw [hsource, List.drop_left]
    have hlength := congrArg List.length hsource
    have hback := List.length_pos_iff.mpr hbreaks.ne_nil
    rw [List.length_append] at hlength
    obtain ⟨s, hs, htokens⟩ := hfront.scanFrom_front hbreaks
    refine ⟨(front ++ digits).length, by omega, s, front, digits, tokens, fault, ?_⟩
    rw [htake, hdrop, scan, String.toList_ofList, ← Location.start_advance]
    exact ⟨hs, rfl, htokens, hfront, hbreaks, rfl⟩
  · rintro ⟨p, -, s, front, digits, tokens, fault, -, htake, -, hfront, hbreaks, rfl⟩
    refine ⟨front, digits, source.toList.drop p, tokens, fault, ?_, hfront, hbreaks, ?_⟩
    · rw [← List.append_assoc, ← htake, List.take_append_drop]
    · rw [htake, Location.start_advance]

example : scan "a = 'x'; // 'b' #\n2.5mm'it''s // \n"
    = .error ⟨.grammar .unterminatedString, ⟨2, 6⟩⟩ := by decide +kernel

example : scan "1 /2.50_mm" = .error ⟨.grammar (.unknownUnitSuffix "_mm"), ⟨1, 8⟩⟩ := by
  decide +kernel

example : scan "'#'\n1.#" = .error ⟨.grammar (.unexpectedCharacter '.'), ⟨2, 2⟩⟩ := by
  decide +kernel

end MillScript
