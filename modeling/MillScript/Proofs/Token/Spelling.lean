import MillScript.Proofs.Token.Layout

/-! # Scanning what is spelled

    Each well-formed lexeme is read back from its spelling, and since a blank
    ends it, so is a list of them with blanks between (`scanFrom_spaced`).  No
    other lexeme is ever read (`wellFormed_of_scanFrom`), so they are the
    lexemes for which scanning undoes spelling (`scan_spaced_iff`). -/

namespace MillScript

/-! ## Lexemes of a script -/

theorem ReadUpTo.wellFormed {l : Location} {front back : List Char} {tokens : List Token}
    (h : ReadUpTo l front back tokens) : ∀ t ∈ tokens, t.lexeme.WellFormed := by
  induction h with
  | gap _ =>
      intro t ht
      cases ht
  | token _ hx _ _ ih =>
      intro t ht
      rcases List.mem_cons.mp ht with rfl | ht
      · exact hx
      · exact ih t ht

/-- Every lexeme of a script is well formed. -/
theorem wellFormed_of_scanFrom {l : Location} {cs : List Char} {s : TokenStream}
    (h : scanFrom l cs = .ok s) : ∀ t ∈ s.tokens, t.lexeme.WellFormed := by
  obtain ⟨front, back, tokens, rfl, hfront, hlast | ⟨failure, hfailure⟩⟩ :=
    ReadUpTo.exists_stop l cs
  · rw [hfront.scanFrom_eq, scanFrom_lastGap hlast] at h
    rw [← Except.ok.inj h]
    simpa [TokenStream.append] using hfront.wellFormed
  · rw [hfront.scanFrom_eq, scanFrom_of_unreadable hfailure] at h
    cases h

/-! ## Lexemes with blanks between -/

/-- The spellings of lexemes with one blank between. -/
def spaced (xs : List Lexeme) : List Char := [' '].intercalate (xs.map Lexeme.spelling)

/-- Well-formed lexemes with blanks between are scanned, wherever they stand. -/
theorem scanFrom_spaced {xs : List Lexeme} (h : ∀ x ∈ xs, x.WellFormed) (l : Location) :
    ∃ s, scanFrom l (spaced xs) = .ok s ∧ s.tokens.map Token.lexeme = xs := by
  induction xs generalizing l with
  | nil =>
      refine ⟨⟨[], l⟩, ?_, rfl⟩
      rw [spaced, List.map_nil, List.intercalate_nil, scanFrom]
  | cons x xs ih =>
      have hx := h x List.mem_cons_self
      cases xs with
      | nil =>
          refine ⟨⟨[⟨x, l⟩], l.advance x.spelling⟩, ?_, rfl⟩
          have hread := Lexeme.readFrom_spelling hx x.not_goesOn_nil
          rw [List.append_nil] at hread
          rw [spaced, List.map_singleton, List.intercalate_singleton, scanFrom_of_readFrom hread,
            scanFrom]
          rfl
      | cons y xs =>
          -- the blank ends the lexeme and is skipped
          have hblank : isGap ' ' = true := by decide
          have hrest : ¬ x.GoesOn (' ' :: spaced (y :: xs)) := by
            intro hon
            exact x.not_goesOn_nil (hon.of_append hblank)
          obtain ⟨s, hs, hlexemes⟩ :=
            ih (fun z hz => h z (List.mem_cons_of_mem x hz)) ((l.advance x.spelling).next ' ')
          refine ⟨⟨⟨x, l⟩ :: s.tokens, s.stop⟩, ?_, ?_⟩
          · have htext : spaced (x :: y :: xs) = x.spelling ++ ' ' :: spaced (y :: xs) := by
              rw [spaced, List.map_cons, List.map_cons, List.intercalate_cons_cons]
              simp [spaced]
            rw [htext, scanFrom_of_readFrom (Lexeme.readFrom_spelling hx hrest), scanFrom,
              if_pos hblank, hs]
            rfl
          · rw [List.map_cons, hlexemes]

/-- **Scanning undoes spelling.**  Lexemes are scanned from their spellings
    with blanks between, as they are and with the end of the script where the
    text ends, exactly when all of them are well formed. -/
theorem scan_spaced_iff (xs : List Lexeme) :
    (∃ s, scan (String.ofList (spaced xs)) = .ok s ∧ s.tokens.map Token.lexeme = xs
        ∧ s.stop = Location.after (spaced xs))
      ↔ ∀ x ∈ xs, x.WellFormed := by
  rw [scan, String.toList_ofList]
  constructor
  · rintro ⟨s, hs, rfl, -⟩ x hx
    obtain ⟨t, ht, rfl⟩ := List.mem_map.mp hx
    exact wellFormed_of_scanFrom hs t ht
  · intro h
    obtain ⟨s, hs, hlexemes⟩ := scanFrom_spaced h .start
    refine ⟨s, hs, hlexemes, ?_⟩
    rw [(laidOut_scanFrom hs).stop_eq, Location.start_advance]

example : String.ofList (spaced
      [.identifier "form", .symbol .assign, .integer "007" (some .inch), .symbol .slash,
        .symbol .slash, .decimal "2.50" none, .string "'\nit'", .inKeyword])
    = "form = 007in / / 2.50 '''\nit''' in" := by decide

end MillScript
