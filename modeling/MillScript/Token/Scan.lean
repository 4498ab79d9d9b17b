import MillScript.Token

/-! # Scanning

    A script is a sequence of lexemes with gaps between them: blanks, line
    ends and comments.  `Lexeme.read` takes the longest lexeme at the front
    of a text; `scan` repeats it over a whole script and notes where each
    lexeme stands.  `Lexeme.read_eq` says that nothing is lost: what `read`
    consumes is the spelling of what it returns. -/

namespace MillScript

/-- Blanks and line ends. -/
def isGap (c : Char) : Bool :=
  c == ' ' || c == '\t' || c == '\r' || c == '\n'

/-- Characters that may start a name. -/
def isNameStart (c : Char) : Bool := c.isAlpha || c == '_'

/-- Characters that may go on a name. -/
def isNameChar (c : Char) : Bool := c.isAlphanum || c == '_'

/-- Why no lexeme can be read, and the text before the place to blame. -/
structure ScanFailure where
  before : List Char
  fault : SyntaxFault
deriving DecidableEq

namespace Lexeme

/-- The lexeme that a word is. -/
def ofWord (word : String) : Lexeme :=
  if word = "for" then .forKeyword
  else if word = "in" then .inKeyword
  else .identifier word

/-- A name or a keyword. -/
def readWord (cs : List Char) : Lexeme × List Char :=
  (ofWord (String.ofList (cs.takeWhile isNameChar)), cs.dropWhile isNameChar)

/-- The rest of a string after its opening quote.  Two quotes in a row are
    one quote of the text. -/
def readQuoted : List Char → Option (List Char × List Char)
  | [] => none
  | '\'' :: '\'' :: cs => (readQuoted cs).map fun (text, rest) => ('\'' :: text, rest)
  | '\'' :: cs => some ([], cs)
  | c :: cs => (readQuoted cs).map fun (text, rest) => (c :: text, rest)

/-- The digits of a number and whether it has decimals.  A point counts
    only if a digit follows it. -/
def readDigits (cs : List Char) : List Char × Bool × List Char :=
  let whole := cs.takeWhile Char.isDigit
  let rest := cs.dropWhile Char.isDigit
  match rest with
  | '.' :: d :: more =>
    if d.isDigit then
      (whole ++ '.' :: (d :: more).takeWhile Char.isDigit, true,
        (d :: more).dropWhile Char.isDigit)
    else (whole, false, rest)
  | _ => (whole, false, rest)

/-- The unit glued to a number: a word right after it has to be one. -/
def readUnit (cs : List Char) : Except SyntaxFault (Option LengthUnit × List Char) :=
  match cs with
  | c :: _ =>
    if isNameStart c then
      let word := String.ofList (cs.takeWhile isNameChar)
      match LengthUnit.ofName? word with
      | some unit => .ok (some unit, cs.dropWhile isNameChar)
      | none => .error (.unknownUnitSuffix word)
    else .ok (none, cs)
  | [] => .ok (none, cs)

/-- A number with its unit. -/
def readNumber (cs : List Char) : Except ScanFailure (Lexeme × List Char) :=
  let (digits, hasDecimals, rest) := readDigits cs
  match readUnit rest with
  | .ok (unit, rest') =>
    let text := String.ofList digits
    .ok (if hasDecimals then .decimal text unit else .integer text unit, rest')
  | .error fault => .error ⟨digits, fault⟩

/-- The lexeme at the front of a text that starts with `c`, and what
    follows it. -/
def read (c : Char) (cs : List Char) : Except ScanFailure (Lexeme × List Char) :=
  if c.isDigit then readNumber (c :: cs)
  else if c = '\'' then
    match readQuoted cs with
    | some (text, rest) => .ok (.string (String.ofList text), rest)
    | none => .error ⟨[], .unterminatedString⟩
  else if isNameStart c then .ok (readWord (c :: cs))
  else
    match Symbol.ofChar? c with
    | some s => .ok (.symbol s, cs)
    | none => .error ⟨[], .unexpectedCharacter c⟩

/-! ## Nothing is lost -/

theorem text_ofWord (word : String) : (ofWord word).text = word := by
  unfold ofWord
  split
  · rename_i h; exact h.symm
  · split
    · rename_i h; exact h.symm
    · rfl

theorem spelling_ofWord (word : String) : (ofWord word).spelling = word.toList := by
  have ht := text_ofWord word
  unfold ofWord at ht ⊢
  split
  · rename_i h; subst h; rfl
  · rename_i h
    rw [if_neg h] at ht
    split
    · rename_i h'; subst h'; rfl
    · show word.toList ++ "".toList = word.toList
      simp

theorem readQuoted_eq {cs text rest : List Char} (h : readQuoted cs = some (text, rest)) :
    cs = doubleQuotes text ++ '\'' :: rest := by
  fun_induction readQuoted cs generalizing text rest with
  | case1 => simp at h
  | case2 cs ih =>
    obtain ⟨⟨t, r⟩, hr, he⟩ := Option.map_eq_some_iff.1 h
    simp only [Prod.mk.injEq] at he
    obtain ⟨rfl, rfl⟩ := he
    rw [ih hr]
    rfl
  | case3 cs _ =>
    simp only [Option.some.injEq, Prod.mk.injEq] at h
    obtain ⟨rfl, rfl⟩ := h
    rfl
  | case4 c cs _ hc ih =>
    obtain ⟨⟨t, r⟩, hr, he⟩ := Option.map_eq_some_iff.1 h
    simp only [Prod.mk.injEq] at he
    obtain ⟨rfl, rfl⟩ := he
    have hq : ∀ d : List Char, doubleQuotes (c :: d) = c :: doubleQuotes d := by
      intro d
      rw [doubleQuotes]
      intro hc'
      exact hc hc'
    rw [ih hr, hq]
    rfl

theorem readDigits_eq (cs : List Char) :
    cs = (readDigits cs).1 ++ (readDigits cs).2.2 := by
  unfold readDigits
  have hsplit := List.takeWhile_append_dropWhile (p := Char.isDigit) (l := cs)
  dsimp only
  split
  · rename_i d more hrest
    split
    · rename_i hd
      show cs = (_ ++ '.' :: _) ++ _
      rw [List.append_assoc, List.cons_append, List.takeWhile_append_dropWhile, ← hrest, hsplit]
    · exact hsplit.symm
  · exact hsplit.symm

theorem readUnit_eq {cs rest : List Char} {unit : Option LengthUnit}
    (h : readUnit cs = .ok (unit, rest)) :
    cs = (Quantity.unitName unit).toList ++ rest := by
  unfold readUnit at h
  split at h
  · rename_i c more
    split at h
    · dsimp only at h
      split at h
      · rename_i u hu
        simp only [Except.ok.injEq, Prod.mk.injEq] at h
        obtain ⟨rfl, rfl⟩ := h
        have hname := LengthUnit.name_of_ofName? hu
        show c :: more = u.name.toList ++ _
        rw [hname, String.toList_ofList, List.takeWhile_append_dropWhile]
      · simp at h
    · simp only [Except.ok.injEq, Prod.mk.injEq] at h
      obtain ⟨rfl, rfl⟩ := h
      simp [Quantity.unitName]
  · simp only [Except.ok.injEq, Prod.mk.injEq] at h
    obtain ⟨rfl, rfl⟩ := h
    simp [Quantity.unitName]

theorem readNumber_eq {cs rest : List Char} {lexeme : Lexeme}
    (h : readNumber cs = .ok (lexeme, rest)) : cs = lexeme.spelling ++ rest := by
  have hdigits := readDigits_eq cs
  unfold readNumber at h
  dsimp only at h
  split at h
  · rename_i unit rest' hu
    simp only [Except.ok.injEq, Prod.mk.injEq] at h
    obtain ⟨rfl, rfl⟩ := h
    have hunit := readUnit_eq hu
    have hspelling : ∀ (b : Bool) (t : String),
        (if b then Lexeme.decimal t unit else Lexeme.integer t unit).spelling
          = t.toList ++ (Quantity.unitName unit).toList := by
      intro b t
      cases b <;> rfl
    rw [hspelling, String.toList_ofList, List.append_assoc, ← hunit]
    exact hdigits
  · simp at h

/-- What is consumed is the spelling of what is returned. -/
theorem read_eq {c : Char} {cs rest : List Char} {lexeme : Lexeme}
    (h : read c cs = .ok (lexeme, rest)) : c :: cs = lexeme.spelling ++ rest := by
  unfold read at h
  split at h
  · exact readNumber_eq h
  · split at h
    · rename_i hc
      subst hc
      split at h
      · rename_i text rest' hq
        simp only [Except.ok.injEq, Prod.mk.injEq] at h
        obtain ⟨rfl, rfl⟩ := h
        rw [readQuoted_eq hq]
        show _ = ('\'' :: doubleQuotes (String.ofList text).toList ++ ['\'']) ++ rest'
        rw [String.toList_ofList]
        simp
      · simp at h
    · split at h
      · simp only [readWord, Except.ok.injEq, Prod.mk.injEq] at h
        obtain ⟨rfl, rfl⟩ := h
        rw [spelling_ofWord, String.toList_ofList, List.takeWhile_append_dropWhile]
      · split at h
        · rename_i s hs
          simp only [Except.ok.injEq, Prod.mk.injEq] at h
          obtain ⟨rfl, rfl⟩ := h
          rw [← Symbol.char_of_ofChar? hs]
          cases s <;> rfl
        · simp at h

theorem readDigits_ne_nil {c : Char} (hc : c.isDigit = true) (cs : List Char) :
    (readDigits (c :: cs)).1 ≠ [] := by
  unfold readDigits
  rw [List.takeWhile_cons_of_pos hc]
  dsimp only
  split
  · split <;> simp
  · simp

/-- Every lexeme takes at least one character. -/
theorem length_of_read {c : Char} {cs rest : List Char} {lexeme : Lexeme}
    (h : read c cs = .ok (lexeme, rest)) : rest.length ≤ cs.length := by
  have hlen := congrArg List.length (read_eq h)
  rw [List.length_cons, List.length_append] at hlen
  suffices 0 < lexeme.spelling.length by omega
  apply List.length_pos_iff.2
  unfold read at h
  split at h
  · rename_i hc
    have hdigits := readDigits_ne_nil hc cs
    unfold readNumber at h
    dsimp only at h
    split at h
    · rename_i unit rest' _
      simp only [Except.ok.injEq, Prod.mk.injEq] at h
      obtain ⟨rfl, _⟩ := h
      intro hnil
      apply hdigits
      split at hnil
      · exact (List.append_eq_nil_iff.1 hnil).1 ▸ String.toList_ofList.symm
      · exact (List.append_eq_nil_iff.1 hnil).1 ▸ String.toList_ofList.symm
    · simp at h
  · split at h
    · split at h
      · simp only [Except.ok.injEq, Prod.mk.injEq] at h
        obtain ⟨rfl, _⟩ := h
        simp [spelling]
      · simp at h
    · split at h
      · rename_i hname
        simp only [readWord, Except.ok.injEq, Prod.mk.injEq] at h
        obtain ⟨rfl, _⟩ := h
        have hc : isNameChar c = true := by
          simp only [isNameStart, isNameChar, Char.isAlphanum, Bool.or_eq_true] at hname ⊢
          exact hname.imp_left Or.inl
        rw [spelling_ofWord, String.toList_ofList, List.takeWhile_cons_of_pos hc]
        simp
      · split at h
        · simp only [Except.ok.injEq, Prod.mk.injEq] at h
          obtain ⟨rfl, _⟩ := h
          simp [spelling, text]
        · simp at h

end Lexeme

/-! ## Whole scripts -/

/-- The tokens of a text that stands at a given place. -/
def scanFrom (l : Location) (cs : List Char) : Except Error TokenStream :=
  match cs with
  | [] => .ok ⟨[], l⟩
  | c :: rest =>
    if isGap c then scanFrom (l.next c) rest
    else if c = '/' ∧ rest.head? = some '/' then
      scanFrom (l.advance (c :: rest.takeWhile (· != '\n'))) (rest.dropWhile (· != '\n'))
    else
      match h : Lexeme.read c rest with
      | .ok (lexeme, rest') =>
        have := Lexeme.length_of_read h
        match scanFrom (l.advance lexeme.spelling) rest' with
        | .ok stream => .ok { stream with tokens := ⟨lexeme, l⟩ :: stream.tokens }
        | .error e => .error e
      | .error failure => .error ⟨failure.fault, l.advance failure.before⟩
termination_by cs.length
decreasing_by
  · simp
  · have := (List.dropWhile_sublist (p := fun c : Char => c != '\n') (l := rest)).length_le
    simp
    omega
  · simp
    omega

/-- The tokens of a script. -/
def scan (source : String) : Except Error TokenStream :=
  scanFrom .start source.toList

end MillScript
