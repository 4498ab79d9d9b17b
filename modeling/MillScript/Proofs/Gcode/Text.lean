import MillScript.Gcode.Emit

/-! # Programs as text

    What a reader of an emitted program has to go by is its text: lines ended
    by line feeds, words divided by blanks.  This file shows that nothing in
    a program gets in the way of taking it apart again:

    * the text of a number holds digits, a point and a sign only, so a word
      never holds a blank or a line feed (`mem_number`);
    * a comment is cut at its line feeds before it is written, so none of its
      lines holds one (`legible_of_mem_commentLines`);
    * splitting the text of legible lines at its line feeds, and a line of
      words at its blanks, gives them back (`splitOn_render`,
      `splitOn_render_code`). -/

namespace MillScript.Gcode

/-! ## Characters of numbers -/

/-- The characters that numbers are written with. -/
def IsNumberChar (c : Char) : Prop := c.isDigit ∨ c = '.' ∨ c = '-'

theorem mem_of_mem_trimFraction {c : Char} {fraction : List Char}
    (h : c ∈ Decimal.trimFraction fraction) : c ∈ fraction := by
  rw [Decimal.trimFraction, List.mem_reverse] at h
  exact List.mem_reverse.mp ((List.dropWhile_suffix _).mem h)

theorem mem_joinPoint {c : Char} {whole fraction : List Char}
    (h : c ∈ Decimal.joinPoint whole fraction) : c ∈ whole ∨ c = '.' ∨ c ∈ fraction := by
  cases fraction with
  | nil => exact Or.inl h
  | cons d ds =>
      rw [Decimal.joinPoint, List.mem_append, List.mem_cons] at h
      · exact h
      · exact List.cons_ne_nil d ds

/-- Numbers are written with digits and a point. -/
theorem isNumberChar_of_mem_fixed {places : Nat} {m : Decimal.Magnitude} {c : Char}
    (h : c ∈ Decimal.fixed places m) : IsNumberChar c := by
  -- both halves of the split digits come from the padded digits
  have hparts : ∀ d, d ∈ (Decimal.pointed (Decimal.scaled places m) places).1
      ∨ d ∈ (Decimal.pointed (Decimal.scaled places m) places).2 → IsNumberChar d := by
    intro d hd
    rw [Decimal.pointed, List.splitAt_eq] at hd
    rcases hd with hd | hd
    · exact Or.inl (Decimal.isDigit_of_mem_paddedDigits (List.mem_of_mem_take hd))
    · exact Or.inl (Decimal.isDigit_of_mem_paddedDigits (List.mem_of_mem_drop hd))
  rcases mem_joinPoint h with hw | hp | hf
  · exact hparts c (Or.inl hw)
  · exact Or.inr (Or.inl hp)
  · exact hparts c (Or.inr (mem_of_mem_trimFraction hf))

/-- A number is written with digits, a point and a sign. -/
theorem mem_number {precision : Int} {x : Float} {text : String}
    (h : number precision x = .ok text) : ∀ c ∈ text.toList, IsNumberChar c := by
  intro c hc
  rw [number] at h
  split at h
  · rename_i negative m hread
    have htext := Except.ok.inj h
    rw [← htext, numberText, String.toList_ofList] at hc
    split at hc
    · rcases List.mem_cons.mp hc with hsign | hdigits
      · exact Or.inr (Or.inr hsign)
      · exact isNumberChar_of_mem_fixed hdigits
    · exact isNumberChar_of_mem_fixed hc
  · exact absurd h (by simp)

/-! ## Legible lines -/

/-- A word that ends where the next blank or the line ends, and that no
    reader takes for a comment. -/
structure Word.Legible (w : Word) : Prop where
  letter : w.letter ≠ ' ' ∧ w.letter ≠ '\n' ∧ w.letter ≠ ';'
  blank : ' ' ∉ w.text.toList
  lineFeed : '\n' ∉ w.text.toList

/-- A line that can be taken apart again. -/
def Line.Legible : Line → Prop
  | .code words => words ≠ [] ∧ ∀ w ∈ words, w.Legible
  | .comment text => '\n' ∉ text.toList

instance (w : Word) : Decidable w.Legible :=
  decidable_of_iff
    ((w.letter ≠ ' ' ∧ w.letter ≠ '\n' ∧ w.letter ≠ ';')
      ∧ ' ' ∉ w.text.toList ∧ '\n' ∉ w.text.toList)
    ⟨fun h => ⟨h.1, h.2.1, h.2.2⟩, fun h => ⟨h.letter, h.blank, h.lineFeed⟩⟩

theorem legible_single {w : Word} (h : w.Legible) : (Line.code [w]).Legible := by
  refine ⟨List.cons_ne_nil _ _, ?_⟩
  intro w' hw'
  rw [List.mem_singleton.mp hw']
  exact h

theorem legible_pair {v w : Word} (hv : v.Legible) (hw : w.Legible) :
    (Line.code [v, w]).Legible := by
  refine ⟨List.cons_ne_nil _ _, ?_⟩
  intro w' hw'
  rw [List.mem_cons, List.mem_singleton] at hw'
  rcases hw' with rfl | rfl
  · exact hv
  · exact hw

/-- The letters that numbers are written after. -/
def numberLetters : List Char := ['X', 'Y', 'Z', 'I', 'J', 'F', 'P', 'S']

/-- A number after its letter is legible. -/
theorem legible_number {precision : Int} {x : Float} {letter : Char} {text : String}
    (hletter : letter ∈ numberLetters) (h : number precision x = .ok text) :
    (Word.mk letter text).Legible := by
  have hchars := mem_number h
  refine ⟨?_, fun hb => ?_, fun hf => ?_⟩
  · have hall : numberLetters.all (fun l => l != ' ' && l != '\n' && l != ';') := by decide
    simpa [and_assoc] using List.all_eq_true.mp hall letter hletter
  · have := hchars ' ' hb
    simp [IsNumberChar] at this
  · have := hchars '\n' hf
    simp [IsNumberChar] at this

/-- A word with a number can be read back. -/
theorem legible_of_mem_wordUnless {precision : Int} {x : Float} {known : Option String}
    {letter : Char} {text : String} {w : Word} (hletter : letter ∈ numberLetters)
    (h : number precision x = .ok text) (hw : w ∈ wordUnless known letter text) :
    w.Legible := by
  rw [wordUnless] at hw
  split at hw
  · exact absurd hw List.not_mem_nil
  · rw [List.mem_singleton] at hw
    rw [hw]
    exact legible_number hletter h

/-! ## Comments -/

/-- Cutting a text at its line feeds leaves none of them. -/
theorem lineFeed_not_mem_textLines {text line : List Char} (h : line ∈ textLines text) :
    '\n' ∉ line := by
  induction text using textLines.induct generalizing line with
  | case1 => exact absurd h List.not_mem_nil
  | case2 cs ih =>
      rw [textLines, List.mem_cons] at h
      rcases h with rfl | h
      · exact List.not_mem_nil
      · exact ih h
  | case3 c cs hc hnil ih =>
      rw [textLines, hnil, List.mem_singleton] at h
      · rw [h, List.mem_singleton]
        exact fun heq => hc heq.symm
      · exact hc
  | case4 c cs hc first rest hcons ih =>
      rw [textLines, hcons, List.mem_cons] at h
      · rcases h with rfl | h
        · rw [List.mem_cons, not_or]
          exact ⟨fun heq => hc heq.symm, ih (by rw [hcons]; exact List.mem_cons_self)⟩
        · exact ih (by rw [hcons]; exact List.mem_cons_of_mem first h)
      · exact hc

/-- To drop a carriage return adds nothing. -/
theorem mem_of_mem_dropReturn {c : Char} {line : List Char} (h : c ∈ dropReturn line) :
    c ∈ line := by
  rw [dropReturn] at h
  split at h
  · exact List.dropLast_subset line h
  · exact h

/-- A comment has no line breaks left in its lines. -/
theorem legible_of_mem_commentLines {text : String} {l : Line} (h : l ∈ commentLines text) :
    l.Legible := by
  rw [commentLines] at h
  split at h
  · rw [List.mem_singleton] at h
    rw [h]
    exact List.not_mem_nil
  · obtain ⟨line, hline, rfl⟩ := List.mem_map.mp h
    show '\n' ∉ (String.ofList (dropReturn line)).toList
    rw [String.toList_ofList]
    exact fun hmem => lineFeed_not_mem_textLines hline (mem_of_mem_dropReturn hmem)

/-! ## Taking a text apart -/

@[simp] theorem toList_render_word (w : Word) :
    w.render.toList = w.letter :: w.text.toList := by
  simp [Word.render]

/-- The characters of a line of words: the words with blanks in between. -/
theorem toList_render_code (words : List Word) :
    (Line.code words).render.toList
      = [' '].intercalate (words.map fun w => w.letter :: w.text.toList) := by
  show (" ".intercalate (words.map Word.render)).toList = _
  rw [String.toList_intercalate, List.map_map]
  congr 1
  exact List.map_congr_left fun w _ => toList_render_word w

/-- A line of words starts with the letter of its first word. -/
theorem exists_toList_render_code (w : Word) (rest : List Word) :
    ∃ tail, (Line.code (w :: rest)).render.toList = w.letter :: tail := by
  rw [toList_render_code]
  cases rest with
  | nil => exact ⟨w.text.toList, by simp⟩
  | cons next rest =>
      rw [List.map_cons, List.map_cons, List.intercalate_cons_cons]
      exact ⟨_, rfl⟩

/-- A comment starts with a semicolon. -/
theorem exists_toList_render_comment (text : String) :
    ∃ tail, (Line.comment text).render.toList = ';' :: tail := by
  show ∃ tail, (if text.isEmpty then ";" else "; " ++ text).toList = ';' :: tail
  split
  · exact ⟨[], rfl⟩
  · exact ⟨' ' :: text.toList, by simp⟩

/-- A character of joined parts is a divider or in one of the parts. -/
theorem mem_intercalate {c divider : Char} {parts : List (List Char)}
    (h : c ∈ [divider].intercalate parts) : c = divider ∨ ∃ part ∈ parts, c ∈ part := by
  induction parts with
  | nil => exact absurd h List.not_mem_nil
  | cons part parts ih =>
      cases parts with
      | nil => exact Or.inr ⟨part, List.mem_cons_self, by simpa using h⟩
      | cons next rest =>
          rw [List.intercalate_cons_cons, List.append_assoc, List.mem_append,
            List.singleton_append, List.mem_cons] at h
          rcases h with hpart | hdivider | hrest
          · exact Or.inr ⟨part, List.mem_cons_self, hpart⟩
          · exact Or.inl hdivider
          · rcases ih hrest with hd | ⟨p, hp, hc⟩
            · exact Or.inl hd
            · exact Or.inr ⟨p, List.mem_cons_of_mem part hp, hc⟩

/-- A legible line holds no line feed. -/
theorem Line.Legible.lineFeed_not_mem {l : Line} (h : l.Legible) : '\n' ∉ l.render.toList := by
  cases l with
  | code words =>
      rw [toList_render_code]
      intro hmem
      rcases mem_intercalate hmem with hblank | ⟨part, hpart, hc⟩
      · exact absurd hblank (by decide)
      · obtain ⟨w, hw, rfl⟩ := List.mem_map.mp hpart
        have hlegible := h.2 w hw
        rcases List.mem_cons.mp hc with hletter | htext
        · exact hlegible.letter.2.1 hletter.symm
        · exact hlegible.lineFeed htext
  | comment text =>
      show '\n' ∉ (if text.isEmpty then ";" else "; " ++ text).toList
      have htext : '\n' ∉ text.toList := h
      split
      · decide
      · simp [htext]

/-- The characters of a program: those of its lines, each with a line feed. -/
theorem toList_render (ls : List Line) :
    (render ls).toList = ls.flatMap fun l => l.render.toList ++ ['\n'] := by
  have hfold : ∀ (rest : List Line) (written : String),
      (rest.foldl (fun text line => text ++ line.render ++ "\n") written).toList
        = written.toList ++ rest.flatMap fun l => l.render.toList ++ ['\n'] := by
    intro rest
    induction rest with
    | nil => intro written; simp
    | cons l rest ih =>
        intro written
        rw [List.foldl_cons, ih, List.flatMap_cons]
        simp
  rw [render, hfold]
  simp

/-- Splitting the text of a program at its line feeds gives its lines, and
    the empty rest after the last line feed. -/
theorem splitOn_render {ls : List Line} (h : ∀ l ∈ ls, l.Legible) :
    (render ls).toList.splitOn '\n' = ls.map (fun l => l.render.toList) ++ [[]] := by
  rw [toList_render]
  induction ls with
  | nil => rfl
  | cons l ls ih =>
      have hl := (h l List.mem_cons_self).lineFeed_not_mem
      rw [List.flatMap_cons, List.append_assoc, List.singleton_append,
        List.splitOn_append_cons_self_of_not_mem hl,
        ih fun l' hl' => h l' (List.mem_cons_of_mem l hl'), List.map_cons, List.cons_append]

/-- Splitting a line of legible words at its blanks gives its words. -/
theorem splitOn_render_code {words : List Word} (hne : words ≠ [])
    (h : ∀ w ∈ words, w.Legible) :
    (Line.code words).render.toList.splitOn ' ' = words.map fun w => w.letter :: w.text.toList := by
  rw [toList_render_code]
  refine List.splitOn_intercalate ' ' ?_ (by simpa using hne)
  intro part hpart
  obtain ⟨w, hw, rfl⟩ := List.mem_map.mp hpart
  rw [List.mem_cons, not_or]
  exact ⟨fun heq => (h w hw).letter.1 heq.symm, (h w hw).blank⟩

end MillScript.Gcode
