import Mathlib.Data.List.Induction
import MillScript.Proofs.Token.LongestMatch

/-! # Scanning loses nothing

    A script that can be scanned is its tokens as they are spelled, with gaps
    between them, and every token stands at the line and column that the
    text before it leads to.

    * `ReadUpTo` follows the scanner lexeme by lexeme, each the longest with
      what comes next.  Every text is read so up to its end or to where no
      lexeme can be read (`ReadUpTo.exists_stop`).
    * `LaidOut` follows the tokens through a text from a place on; it is what
      such reading keeps (`ReadUpTo.laidOut`).
    * `scan_lossless` reads it off for whole scripts, with the places counted
      from the start of the script. -/

namespace MillScript

/-! ## Places -/

namespace Location

/-- The place after a text from the start of a script: one more than the line
    feeds in it, and one more than the characters after the last of them. -/
def after (text : List Char) : Location :=
  ⟨1 + text.count '\n', 1 + (text.reverse.takeWhile (· != '\n')).length⟩

/-- Reading order of places. -/
def Before (l m : Location) : Prop :=
  l.line < m.line ∨ l.line = m.line ∧ l.column < m.column

instance (l m : Location) : Decidable (l.Before m) := inferInstanceAs (Decidable (_ ∨ _))

theorem Before.trans {l m n : Location} (h : l.Before m) (h' : m.Before n) : l.Before n := by
  unfold Before at *
  omega

/-- Each character leads to a later place. -/
theorem before_next (l : Location) (c : Char) : l.Before (l.next c) := by
  rw [next]
  by_cases hc : c = '\n'
  · rw [if_pos hc]
    exact .inl (Int.lt_succ l.line)
  · rw [if_neg hc]
    exact .inr ⟨rfl, Int.lt_succ l.column⟩

/-- Text that is not empty leads on. -/
theorem before_advance {text : List Char} (h : text ≠ []) (l : Location) :
    l.Before (l.advance text) := by
  induction text generalizing l with
  | nil => exact absurd rfl h
  | cons c rest ih =>
      rw [advance_cons]
      by_cases hrest : rest = []
      · rw [hrest, advance_nil]
        exact l.before_next c
      · exact (l.before_next c).trans (ih hrest _)

/-- Any text but the empty one leads to a later place. -/
theorem eq_or_before_advance (l : Location) (text : List Char) :
    l = l.advance text ∨ l.Before (l.advance text) := by
  by_cases htext : text = []
  · rw [htext]
    exact .inl rfl
  · exact .inr (before_advance htext l)

/-- Counting along a text leads to the place counted over the whole of it. -/
theorem start_advance (text : List Char) : start.advance text = after text := by
  induction text using List.reverseRecOn with
  | nil => rfl
  | append_singleton text c ih =>
      rw [advance_append, ih, advance_cons, advance_nil, next, after, after, List.count_append,
        List.count_singleton, List.reverse_append, List.reverse_singleton, List.singleton_append]
      by_cases hc : c = '\n'
      · subst hc
        simp [Int.add_assoc]
      · rw [if_neg hc, List.takeWhile_cons_of_pos (by simp [hc])]
        simp [hc, Int.add_assoc]

end Location

/-! ## Lexeme by lexeme -/

/-- A lexeme that can be read from a text is the first token of it. -/
theorem scanFrom_of_readFrom {x : Lexeme} {text rest : List Char} (h : x.ReadFrom text rest)
    (l : Location) :
    scanFrom l text
      = (scanFrom (l.advance x.spelling) rest).map (TokenStream.append ⟨[⟨x, l⟩], l⟩) := by
  obtain ⟨c, cs, rfl, hblank, hcomment, hread⟩ := h
  exact scanFrom_of_read hblank hcomment hread

/-- Where no lexeme can be read, scanning fails. -/
theorem scanFrom_of_unreadable {text : List Char} {failure : ScanFailure}
    (h : Lexeme.Unreadable text failure) (l : Location) :
    scanFrom l text = .error ⟨failure.fault, l.advance failure.before⟩ := by
  obtain ⟨c, cs, rfl, hblank, hcomment, hread⟩ := h
  exact scanFrom_of_read_eq_error hblank hcomment hread

/-- With `back` after it, a text at a place is read as tokens: each is well
    formed and goes on into nothing that comes next, and no comment is open
    where `back` starts. -/
inductive ReadUpTo : Location → List Char → List Char → List Token → Prop
  | gap {l : Location} {gap back : List Char} (hgap : Gap gap) : ReadUpTo l gap back []
  | token {l : Location} {gap front back : List Char} {x : Lexeme} {tokens : List Token}
      (hgap : Gap gap) (hx : x.WellFormed) (hlongest : ¬ x.GoesOn (front ++ back))
      (hfront : ReadUpTo ((l.advance gap).advance x.spelling) front back tokens) :
      ReadUpTo l (gap ++ x.spelling ++ front) back (⟨x, l.advance gap⟩ :: tokens)

namespace ReadUpTo

variable {l : Location} {front back : List Char} {tokens : List Token}

/-- The scanner reads these tokens and goes on where they end. -/
theorem scanFrom_eq (h : ReadUpTo l front back tokens) :
    scanFrom l (front ++ back)
      = (scanFrom (l.advance front) back).map (TokenStream.append ⟨tokens, l⟩) := by
  induction h with
  | gap hgap =>
      rw [scanFrom_gap hgap]
      cases scanFrom (Location.advance _ _) _ <;> rfl
  | @token l gap front back x tokens hgap hx hlongest _ ih =>
      have hread := Lexeme.readFrom_spelling hx hlongest
      rw [List.append_assoc, List.append_assoc, scanFrom_gap hgap, scanFrom_of_readFrom hread, ih,
        Location.advance_append l, Location.advance_append l]
      cases scanFrom (Location.advance _ front) back <;> rfl

/-- Another text may come next if it goes on no lexeme that the first does not
    go on. -/
theorem replace_back {back' : List Char} (h : ReadUpTo l front back tokens)
    (hback : ∀ (x : Lexeme) rest, x.GoesOn (rest ++ back') → x.GoesOn (rest ++ back)) :
    ReadUpTo l front back' tokens := by
  induction h with
  | gap hgap => exact .gap hgap
  | token hgap hx hlongest _ ih => exact .token hgap hx (mt (hback _ _) hlongest) (ih hback)

/-- Every text is read up to a last gap, or to where no lexeme can be read. -/
theorem exists_stop (l : Location) (cs : List Char) :
    ∃ front back tokens, cs = front ++ back ∧ ReadUpTo l front back tokens
      ∧ (LastGap back ∨ ∃ failure, Lexeme.Unreadable back failure) := by
  induction hn : cs.length using Nat.strongRecOn generalizing l cs with
  | ind n ih =>
  cases opening cs with
  | last hlast => exact ⟨[], cs, [], rfl, .gap .nil, .inl hlast⟩
  | @start gap rest c hgap hblank hcomment =>
      cases hread : Lexeme.read c rest with
      | error failure =>
          exact ⟨gap, c :: rest, [], rfl, .gap hgap,
            .inr ⟨failure, c, rest, rfl, hblank, hcomment, hread⟩⟩
      | ok result =>
          obtain ⟨x, rest'⟩ := result
          have hfrom : x.ReadFrom (c :: rest) rest' := ⟨c, rest, rfl, hblank, hcomment, hread⟩
          obtain ⟨htext, hx, hlongest⟩ := Lexeme.readFrom_iff.mp hfrom
          have hlength := Lexeme.length_of_read hread
          rw [List.length_append, List.length_cons] at hn
          obtain ⟨front, back, tokens, rfl, hfront, hback⟩ :=
            ih rest'.length (by omega) ((l.advance gap).advance x.spelling) rest' rfl
          refine ⟨gap ++ x.spelling ++ front, back, _, ?_, .token hgap hx hlongest hfront, hback⟩
          rw [htext, List.append_assoc, List.append_assoc]

end ReadUpTo

/-! ## Tokens in a text -/

/-- The tokens stand in a text that starts at a place, each where the text
    before it leads, and the text ends where the last gap leads. -/
inductive LaidOut : Location → List Char → TokenStream → Prop
  | stop {l : Location} {gap : List Char} (hgap : LastGap gap) :
      LaidOut l gap ⟨[], l.advance gap⟩
  | token {l stop : Location} {gap rest : List Char} {x : Lexeme} {tokens : List Token}
      (hgap : Gap gap) (hx : x.spelling ≠ [])
      (hrest : LaidOut ((l.advance gap).advance x.spelling) rest ⟨tokens, stop⟩) :
      LaidOut l (gap ++ x.spelling ++ rest) ⟨⟨x, l.advance gap⟩ :: tokens, stop⟩

/-- Tokens that are read up to a last gap are laid out. -/
theorem ReadUpTo.laidOut {l : Location} {front back : List Char} {tokens : List Token}
    (h : ReadUpTo l front back tokens) (hback : LastGap back) :
    LaidOut l (front ++ back) ⟨tokens, l.advance (front ++ back)⟩ := by
  induction h with
  | gap hgap => exact .stop (hback.prepend hgap)
  | @token l gap front back x tokens hgap hx _ _ ih =>
      have hlaid := LaidOut.token hgap hx.spelling_ne_nil (ih hback)
      rwa [← Location.advance_append l, ← Location.advance_append l, ← List.append_assoc] at hlaid

/-- **The scanner lays its tokens out over the text.** -/
theorem laidOut_scanFrom {l : Location} {cs : List Char} {s : TokenStream}
    (h : scanFrom l cs = .ok s) : LaidOut l cs s := by
  obtain ⟨front, back, tokens, rfl, hfront, hlast | ⟨failure, hfailure⟩⟩ :=
    ReadUpTo.exists_stop l cs
  · rw [hfront.scanFrom_eq, scanFrom_lastGap hlast] at h
    have hstream : s = ⟨tokens, l.advance (front ++ back)⟩ := by
      rw [← Except.ok.inj h, Location.advance_append]
      simp [TokenStream.append]
    rw [hstream]
    exact hfront.laidOut hlast
  · rw [hfront.scanFrom_eq, scanFrom_of_unreadable hfailure] at h
    cases h

/-! ## Whole scripts -/

/-- The text of tokens, each after the gap before it. -/
def written (pieces : List (List Char × Token)) : List Char :=
  pieces.flatMap fun p => p.1 ++ p.2.lexeme.spelling

theorem written_cons (p : List Char × Token) (pieces : List (List Char × Token)) :
    written (p :: pieces) = p.1 ++ p.2.lexeme.spelling ++ written pieces := rfl

/-- The tokens of a text, with the gaps before them. -/
theorem LaidOut.exists_pieces {l : Location} {cs : List Char} {s : TokenStream}
    (h : LaidOut l cs s) :
    ∃ pieces last, pieces.map Prod.snd = s.tokens
      ∧ (∀ p ∈ pieces, Gap p.1) ∧ LastGap last
      ∧ cs = written pieces ++ last
      ∧ ∀ front p back, pieces = front ++ p :: back →
          p.2.location = l.advance (written front ++ p.1) := by
  induction h with
  | @stop l gap hgap =>
      refine ⟨[], gap, rfl, ?_, hgap, rfl, ?_⟩
      · intro p hp
        cases hp
      · intro front p back hpieces
        cases front <;> cases hpieces
  | @token l stop gap rest x tokens hgap hx _ ih =>
      obtain ⟨pieces, last, htokens, hgaps, hlast, hrest, hplaces⟩ := ih
      refine ⟨(gap, ⟨x, l.advance gap⟩) :: pieces, last, ?_, ?_, hlast, ?_, ?_⟩
      · rw [List.map_cons, htokens]
      · intro p hp
        rcases List.mem_cons.mp hp with rfl | hp
        · exact hgap
        · exact hgaps p hp
      · rw [hrest, written_cons, List.append_assoc (gap ++ x.spelling)]
      · intro front p back hpieces
        cases front with
        | nil =>
            rw [List.nil_append, List.cons.injEq] at hpieces
            rw [← hpieces.1]
            rfl
        | cons q front =>
            rw [List.cons_append, List.cons.injEq] at hpieces
            rw [hplaces front p back hpieces.2, ← hpieces.1, written_cons, List.append_assoc,
              Location.advance_append l, Location.advance_append l]

/-- The text ends where it leads. -/
theorem LaidOut.stop_eq {l : Location} {cs : List Char} {s : TokenStream} (h : LaidOut l cs s) :
    s.stop = l.advance cs := by
  induction h with
  | stop _ => rfl
  | token _ _ _ ih =>
      rw [ih, Location.advance_append, Location.advance_append]

/-- Every token stands before those after it and before the end, and none
    before the start. -/
theorem LaidOut.pairwise {l : Location} {cs : List Char} {s : TokenStream} (h : LaidOut l cs s) :
    (s.tokens.map Token.location ++ [s.stop]).Pairwise Location.Before
      ∧ ∀ m ∈ s.tokens.map Token.location ++ [s.stop], l = m ∨ l.Before m := by
  induction h with
  | @stop l gap _ =>
      refine ⟨List.pairwise_singleton _ _, ?_⟩
      intro m hm
      rw [List.mem_singleton.mp hm]
      exact l.eq_or_before_advance gap
  | @token l stop gap rest x tokens _ hx _ ih =>
      obtain ⟨hordered, hstart⟩ := ih
      have hlater : ∀ m ∈ tokens.map Token.location ++ [stop], (l.advance gap).Before m := by
        intro m hm
        have hpast := (l.advance gap).before_advance hx
        rcases hstart m hm with rfl | hm
        · exact hpast
        · exact hpast.trans hm
      refine ⟨List.pairwise_cons.mpr ⟨hlater, hordered⟩, ?_⟩
      intro m hm
      have hgap := l.eq_or_before_advance gap
      rcases List.mem_cons.mp hm with rfl | hm
      · exact hgap
      · rcases hgap with hhere | hgap
        · rw [hhere]
          exact .inr (hlater m hm)
        · exact .inr (hgap.trans (hlater m hm))

/-- **Scanning loses nothing.**  A script that is scanned is the spellings of
    its tokens with gaps between them.  Every token stands at the line and
    column that the text before it counts to, and so does the end, so that
    places come in reading order. -/
theorem scan_lossless {source : String} {s : TokenStream} (h : scan source = .ok s) :
    ∃ pieces last, pieces.map Prod.snd = s.tokens
      ∧ (∀ p ∈ pieces, Gap p.1) ∧ LastGap last
      ∧ source.toList = written pieces ++ last
      ∧ (∀ front p back, pieces = front ++ p :: back →
          p.2.location = Location.after (written front ++ p.1))
      ∧ s.stop = Location.after source.toList
      ∧ (s.tokens.map Token.location ++ [s.stop]).Pairwise Location.Before := by
  have hlaid := laidOut_scanFrom h
  obtain ⟨pieces, last, htokens, hgaps, hlast, hsource, hplaces⟩ := hlaid.exists_pieces
  refine ⟨pieces, last, htokens, hgaps, hlast, hsource, ?_, ?_, hlaid.pairwise.1⟩
  · intro front p back hpieces
    rw [hplaces front p back hpieces, Location.start_advance]
  · rw [hlaid.stop_eq, Location.start_advance]

/-- A string over two lines with a quote in it, a comment that ends at a line
    feed, a number with its unit right before an operator, and a comment that
    the script ends in. -/
def remarks : String := "s='it''s\nhere'; // 'no' text\r\n\t2.5mm/4 // done"

/-- Its tokens. -/
def remarksTokens : TokenStream where
  tokens :=
    [⟨.identifier "s", ⟨1, 1⟩⟩, ⟨.symbol .assign, ⟨1, 2⟩⟩, ⟨.string "it's\nhere", ⟨1, 3⟩⟩,
      ⟨.symbol .semicolon, ⟨2, 6⟩⟩, ⟨.decimal "2.5" (some .mm), ⟨3, 2⟩⟩,
      ⟨.symbol .slash, ⟨3, 7⟩⟩, ⟨.integer "4" none, ⟨3, 8⟩⟩]
  stop := ⟨3, 17⟩

theorem scan_lossless_remarks :
    scan remarks = .ok remarksTokens
      ∧ ∃ pieces last, pieces.map Prod.snd = remarksTokens.tokens
        ∧ (∀ p ∈ pieces, Gap p.1) ∧ LastGap last
        ∧ remarks.toList = written pieces ++ last
        ∧ (∀ front p back, pieces = front ++ p :: back →
            p.2.location = Location.after (written front ++ p.1))
        ∧ remarksTokens.stop = Location.after remarks.toList
        ∧ (remarksTokens.tokens.map Token.location ++ [remarksTokens.stop]).Pairwise
            Location.Before := by
  have hscan : scan remarks = .ok remarksTokens := by decide +kernel
  exact ⟨hscan, scan_lossless hscan⟩

end MillScript
