import MillScript.Proofs.Relocation.Parsing
import MillScript.Proofs.Token.Layout

/-! # Scanning one script after another

    A line feed ends whatever a script may end in: a number, a word, an
    operator or a comment.  So the tokens of a script, a line feed and a
    second script are those of the first, where they stand, and then those of
    the second, as many lines further down as the first script has.  Only a
    string goes on over a line feed, and a script that ends within one is not
    scanned. -/

namespace MillScript

/-! ## Lines further down -/

namespace Location

/-- The place a number of lines further down. -/
def down (k : Int) (l : Location) : Location := ⟨l.line + k, l.column⟩

theorem next_down (k : Int) (l : Location) (c : Char) : (l.down k).next c = (l.next c).down k := by
  rw [next, next]
  by_cases hc : c = '\n'
  · rw [if_pos hc, if_pos hc, down, down, Int.add_right_comm]
  · rw [if_neg hc, if_neg hc, down, down]

theorem advance_down (k : Int) (l : Location) (text : List Char) :
    (l.down k).advance text = (l.advance text).down k := by
  induction text generalizing l with
  | nil => rfl
  | cons c rest ih => rw [advance_cons, advance_cons, next_down, ih]

/-- A line feed after a text leads to the start, as many lines down as there
    are line feeds. -/
theorem start_advance_lineFeed (text : List Char) :
    (start.advance text).next '\n' = start.down (text.count '\n' + 1) := by
  rw [start_advance, next, if_pos rfl, after, down, start]
  simp only [Int.add_assoc]

end Location

open Location in
/-- The scanner counts lines and does not look at their number. -/
theorem scanFrom_down (k : Int) (l : Location) (cs : List Char) :
    scanFrom (l.down k) cs
      = relocated (down k) (TokenStream.relocate (down k)) (scanFrom l cs) := by
  induction l, cs using scanFrom.induct with
  | case1 l =>
      rw [scanFrom, scanFrom]
      rfl
  | case2 l c rest hgap ih =>
      rw [scanFrom, scanFrom, if_pos hgap, if_pos hgap, next_down, ih]
  | case3 l c rest hgap hcomment ih =>
      rw [scanFrom, scanFrom, if_neg hgap, if_neg hgap, if_pos hcomment, if_pos hcomment,
        advance_down, ih]
  | case4 l c rest hgap hcomment x rest' hread _ s hs ih =>
      rw [scanFrom_of_read hgap hcomment hread, scanFrom_of_read hgap hcomment hread,
        advance_down, ih, hs]
      rfl
  | case5 l c rest hgap hcomment x rest' hread _ e he ih =>
      rw [scanFrom_of_read hgap hcomment hread, scanFrom_of_read hgap hcomment hread,
        advance_down, ih, he]
      rfl
  | case6 l c rest hgap hcomment failure hread =>
      rw [scanFrom_of_read_eq_error hgap hcomment hread,
        scanFrom_of_read_eq_error hgap hcomment hread, advance_down]
      rfl

/-! ## Up to a line feed -/

/-- A line feed ends a gap, and the comment that it may end in. -/
theorem LastGap.lineFeed {gap : List Char} (h : LastGap gap) : Gap (gap ++ ['\n']) := by
  cases h with
  | gap h => exact h.append (.blank (by decide) .nil)
  | comment h htext =>
      rw [List.append_assoc]
      exact h.append (.comment htext .nil)

/-- **A line feed between two texts keeps their tokens apart.** -/
theorem scanFrom_append (ds : List Char) {l : Location} {cs : List Char} {s : TokenStream}
    (h : scanFrom l cs = .ok s) :
    scanFrom l (cs ++ '\n' :: ds) = (scanFrom ((l.advance cs).next '\n') ds).map s.append := by
  obtain ⟨front, back, tokens, rfl, hfront, hlast | ⟨failure, hfailure⟩⟩ :=
    ReadUpTo.exists_stop l cs
  · have hfeed : ReadUpTo l front (back ++ '\n' :: ds) tokens := by
      -- no lexeme is longer for the line feed
      refine hfront.replace_back fun x rest hx => ?_
      rw [← List.append_assoc] at hx
      exact hx.of_append (by decide)
    rw [hfront.scanFrom_eq, scanFrom_lastGap hlast] at h
    have hplace : (l.advance front).advance (back ++ ['\n'])
        = (l.advance (front ++ back)).next '\n' := by
      rw [Location.advance_append, Location.advance_append]
      rfl
    rw [← Except.ok.inj h, List.append_assoc, hfeed.scanFrom_eq, List.append_cons back,
      scanFrom_gap hlast.lineFeed, hplace]
    cases scanFrom ((l.advance (front ++ back)).next '\n') ds with
    | error e => rfl
    | ok t => simp [Except.map, TokenStream.append]
  · rw [hfront.scanFrom_eq, scanFrom_of_unreadable hfailure] at h
    cases h

/-- The tokens of two scripts with a line feed between them. -/
theorem scan_append {a b : String} {x y : TokenStream} (ha : scan a = .ok x) (hb : scan b = .ok y) :
    scan (a ++ "\n" ++ b)
      = .ok (x.append (y.relocate (Location.down (a.toList.count '\n' + 1)))) := by
  have htext : (a ++ "\n" ++ b).toList = a.toList ++ '\n' :: b.toList := by
    rw [String.toList_append, String.toList_append, List.append_assoc]
    rfl
  rw [scan, htext, scanFrom_append b.toList ha, Location.start_advance_lineFeed, scanFrom_down]
  rw [scan] at hb
  rw [hb]
  rfl

end MillScript
