import Mathlib.Data.List.TakeWhile
import MillScript.Token.Scan

/-! # Gaps between tokens

    `Gap` and `LastGap` are what may stand between tokens, said without the
    scanner: blanks, line ends, and comments up to the end of their line.  A
    text opens with a gap (`opening`), which the scanner skips, and then it
    reads a lexeme or fails.  These are all the steps that it takes. -/

namespace MillScript

/-! ## Gaps -/

/-- What stands before a token: blanks, line ends, and comments, each with
    the line feed it runs to. -/
inductive Gap : List Char → Prop
  | nil : Gap []
  | blank {c : Char} {rest : List Char} (hc : c ∈ [' ', '\t', '\r', '\n']) (h : Gap rest) :
      Gap (c :: rest)
  | comment {text rest : List Char} (htext : '\n' ∉ text) (h : Gap rest) :
      Gap ('/' :: '/' :: text ++ '\n' :: rest)

/-- What stands after the last token: a gap, or one that goes on in a comment
    up to the end of the script. -/
inductive LastGap : List Char → Prop
  | gap {gap : List Char} (h : Gap gap) : LastGap gap
  | comment {gap text : List Char} (h : Gap gap) (htext : '\n' ∉ text) :
      LastGap (gap ++ '/' :: '/' :: text)

/-- Gaps after gaps are gaps. -/
theorem Gap.append {g h : List Char} (hg : Gap g) (hh : Gap h) : Gap (g ++ h) := by
  induction hg with
  | nil => exact hh
  | blank hc _ ih => exact .blank hc ih
  | comment htext _ ih =>
      rw [List.append_assoc]
      exact .comment htext ih

theorem LastGap.prepend {g h : List Char} (hg : Gap g) (hh : LastGap h) : LastGap (g ++ h) := by
  cases hh with
  | gap hh => exact .gap (hg.append hh)
  | comment hh htext =>
      rw [← List.append_assoc]
      exact .comment (hg.append hh) htext

theorem mem_of_isGap {c : Char} (h : isGap c = true) : c ∈ [' ', '\t', '\r', '\n'] := by
  simpa [isGap, or_assoc] using h

theorem isGap_of_mem {c : Char} (h : c ∈ [' ', '\t', '\r', '\n']) : isGap c = true := by
  simpa [isGap, or_assoc] using h

theorem lineFeed_not_mem_takeWhile (cs : List Char) : '\n' ∉ cs.takeWhile (· != '\n') := by
  intro hmem
  have hne := List.mem_takeWhile_imp hmem
  simp at hne

/-- A line ends at a line feed or with the text. -/
theorem dropWhile_lineFeed (cs : List Char) :
    cs.dropWhile (· != '\n') = [] ∨ ∃ more, cs.dropWhile (· != '\n') = '\n' :: more := by
  have hhead := List.head?_dropWhile_not (· != '\n') cs
  cases hdrop : cs.dropWhile (· != '\n') with
  | nil => exact .inl rfl
  | cons c more =>
      rw [hdrop] at hhead
      have hc : c = '\n' := by simpa using hhead
      exact .inr ⟨more, by rw [hc]⟩

/-- How a text opens: with a gap up to its end, or with a gap and then a
    character that goes on no gap. -/
inductive Opening : List Char → Prop
  | last {gap : List Char} (hlast : LastGap gap) : Opening gap
  | start {gap rest : List Char} {c : Char} (hgap : Gap gap) (hblank : ¬ isGap c = true)
      (hcomment : ¬ (c = '/' ∧ rest.head? = some '/')) : Opening (gap ++ c :: rest)

/-- A gap more in front of a text is skipped like the rest. -/
theorem Opening.prepend {gap cs : List Char} (hgap : Gap gap) (h : Opening cs) :
    Opening (gap ++ cs) := by
  cases h with
  | last hlast => exact .last (hlast.prepend hgap)
  | start hgap' hblank hcomment =>
      rw [← List.append_assoc]
      exact .start (hgap.append hgap') hblank hcomment

/-- Every text opens in one of the two ways. -/
theorem opening (cs : List Char) : Opening cs := by
  induction hn : cs.length using Nat.strongRecOn generalizing cs with
  | ind n ih =>
  cases cs with
  | nil => exact .last (.gap .nil)
  | cons c rest =>
      rw [List.length_cons] at hn
      by_cases hblank : isGap c = true
      · exact (ih rest.length (by omega) rest rfl).prepend (.blank (mem_of_isGap hblank) .nil)
      by_cases hcomment : c = '/' ∧ rest.head? = some '/'
      · obtain ⟨rfl, hslash⟩ := hcomment
        obtain ⟨tail, rfl⟩ := List.head?_eq_some_iff.mp hslash
        have htext := lineFeed_not_mem_takeWhile tail
        have hsplit := List.takeWhile_append_dropWhile (p := (· != '\n')) (l := tail)
        rcases dropWhile_lineFeed tail with hend | ⟨more, hmore⟩
        · -- the text ends in the comment
          rw [hend, List.append_nil] at hsplit
          rw [hsplit] at htext
          exact .last (.comment .nil htext)
        · -- the line feed after the comment belongs to the gap
          rw [hmore] at hsplit
          have hlength := congrArg List.length hsplit
          rw [List.length_append, List.length_cons] at hlength
          rw [List.length_cons] at hn
          have hopening := (ih more.length (by omega) more rfl).prepend (.comment htext .nil)
          rwa [List.append_assoc, List.cons_append, List.cons_append, List.cons_append,
            List.nil_append, hsplit] at hopening
      · exact .start .nil hblank hcomment

/-! ## One step of the scanner -/

/-- What follows the tokens of a stream. -/
def TokenStream.append (s t : TokenStream) : TokenStream := ⟨s.tokens ++ t.tokens, t.stop⟩

section Step

variable {l : Location} {c : Char} {rest : List Char}

/-- The scanner at a lexeme. -/
theorem scanFrom_of_read {x : Lexeme} {rest' : List Char} (hgap : ¬ isGap c = true)
    (hcomment : ¬ (c = '/' ∧ rest.head? = some '/')) (hread : Lexeme.read c rest = .ok (x, rest')) :
    scanFrom l (c :: rest)
      = (scanFrom (l.advance x.spelling) rest').map (TokenStream.append ⟨[⟨x, l⟩], l⟩) := by
  rw [scanFrom, if_neg hgap, if_neg hcomment]
  split
  · rename_i hread'
    rw [hread] at hread'
    cases hread'
    cases scanFrom (l.advance x.spelling) rest' with
    | ok s => rfl
    | error e => rfl
  · rename_i hread'
    rw [hread] at hread'
    cases hread'

/-- The scanner where no lexeme can be read. -/
theorem scanFrom_of_read_eq_error {failure : ScanFailure} (hgap : ¬ isGap c = true)
    (hcomment : ¬ (c = '/' ∧ rest.head? = some '/')) (hread : Lexeme.read c rest = .error failure) :
    scanFrom l (c :: rest) = .error ⟨failure.fault, l.advance failure.before⟩ := by
  rw [scanFrom, if_neg hgap, if_neg hcomment]
  split
  · rename_i hread'
    rw [hread] at hread'
    cases hread'
  · rename_i hread'
    rw [hread] at hread'
    cases hread'
    rfl

/-- The scanner at a comment. -/
theorem scanFrom_comment {text : List Char} (htext : '\n' ∉ text)
    (hrest : rest = [] ∨ ∃ more, rest = '\n' :: more) :
    scanFrom l ('/' :: '/' :: text ++ rest)
      = scanFrom (l.advance ('/' :: '/' :: text)) rest := by
  have hall : ∀ c ∈ '/' :: text, (c != '\n') = true := by
    intro c hc
    rcases List.mem_cons.mp hc with rfl | hc
    · rfl
    · rw [bne_iff_ne]
      rintro rfl
      exact htext hc
  have hline : ('/' :: text ++ rest).takeWhile (· != '\n') = '/' :: text
      ∧ ('/' :: text ++ rest).dropWhile (· != '\n') = rest := by
    rw [List.takeWhile_append_of_pos hall, List.dropWhile_append_of_pos hall]
    rcases hrest with rfl | ⟨more, rfl⟩ <;> simp
  rw [List.cons_append, scanFrom, if_neg (by decide), if_pos ⟨rfl, rfl⟩, hline.1, hline.2]

end Step

/-- The scanner skips gaps. -/
theorem scanFrom_gap {gap : List Char} (h : Gap gap) (l : Location) (cs : List Char) :
    scanFrom l (gap ++ cs) = scanFrom (l.advance gap) cs := by
  induction h generalizing l with
  | nil => rfl
  | @blank c rest hc _ ih =>
      rw [List.cons_append, scanFrom, if_pos (isGap_of_mem hc), ih]
      rfl
  | @comment text rest htext _ ih =>
      have hsplit : '/' :: '/' :: text ++ '\n' :: rest ++ cs
          = '/' :: '/' :: text ++ '\n' :: (rest ++ cs) := List.append_assoc _ _ _
      rw [hsplit, scanFrom_comment htext (.inr ⟨rest ++ cs, rfl⟩), scanFrom, if_pos (by decide), ih,
        Location.advance_append l]
      rfl

/-- The scanner gets through a last gap without a token. -/
theorem scanFrom_lastGap {gap : List Char} (h : LastGap gap) (l : Location) :
    scanFrom l gap = .ok ⟨[], l.advance gap⟩ := by
  cases h with
  | gap h =>
      have hskip := scanFrom_gap h l []
      rwa [List.append_nil, scanFrom] at hskip
  | @comment gap text h htext =>
      have hskip := scanFrom_comment (l := l.advance gap) htext (.inl rfl)
      rw [List.append_nil, scanFrom] at hskip
      rw [scanFrom_gap h, hskip, Location.advance_append l]

end MillScript
