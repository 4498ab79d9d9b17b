import MillScript.Proofs.Gcode.Text
import MillScript.Proofs.Outcome

/-! # The lines of an emitted program

    What the emitter can do with a move, said once (`Modal.move_cases`), and
    from it that every line of a program can be taken apart again
    (`legible_of_step`). -/

namespace MillScript.Gcode

namespace Modal

/-- The emitter once it has dealt with the target of a move. -/
def arrived (m : Modal) (x y z : String) (target : Vec3) : Modal :=
  { m with x := some x, y := some y, z := some z, position := some target }

/-- The words that change the kind of motion. -/
def codeWords (m : Modal) (kind : Move) : List Word :=
  if motionCode kind = m.mode then [] else [⟨'G', (motionCode kind).repr⟩]

/-- All that the emitter can do with a move: the target is written in any
    case; without a word left there is no line, a rapid has no feed. -/
theorem move_cases {precision : Int} {m m' : Modal} {kind : Move} {target : Vec3} {feed : Float}
    {ls : List Line} (h : m.move precision kind target feed = .ok (ls, m')) :
    ∃ offset x y z, m.offsetWords precision kind = .ok offset
      ∧ number precision target.x = .ok x ∧ number precision target.y = .ok y
      ∧ number precision target.z = .ok z
      ∧ ((m.targetWords kind x y z ++ offset = [] ∧ ls = [] ∧ m' = m.arrived x y z target)
        ∨ (m.targetWords kind x y z ++ offset ≠ [] ∧ motionCode kind = 0
          ∧ ls = [.code (m.codeWords kind ++ (m.targetWords kind x y z ++ offset))]
          ∧ m' = { m.arrived x y z target with mode := motionCode kind })
        ∨ (m.targetWords kind x y z ++ offset ≠ [] ∧ motionCode kind ≠ 0
          ∧ ∃ f, number precision feed = .ok f
          ∧ ls = [.code (m.codeWords kind
              ++ (m.targetWords kind x y z ++ offset ++ wordUnless m.feed 'F' f))]
          ∧ m' = { m.arrived x y z target with mode := motionCode kind, feed := some f })) := by
  rw [move, bind_eq_ok] at h
  obtain ⟨offset, hoffset, h⟩ := h
  rw [bind_eq_ok] at h
  obtain ⟨x, hx, h⟩ := h
  rw [bind_eq_ok] at h
  obtain ⟨y, hy, h⟩ := h
  rw [bind_eq_ok] at h
  obtain ⟨z, hz, h⟩ := h
  refine ⟨offset, x, y, z, hoffset, hx, hy, hz, ?_⟩
  dsimp only at h
  split at h
  · rename_i hempty
    obtain ⟨hls, hm⟩ := Prod.mk.inj (Except.ok.inj h)
    exact Or.inl ⟨List.isEmpty_iff.mp hempty, hls.symm, hm.symm⟩
  · rename_i hempty
    have hne : m.targetWords kind x y z ++ offset ≠ [] :=
      fun hnil => hempty (List.isEmpty_iff.mpr hnil)
    split at h
    · rename_i hcode
      obtain ⟨hls, hm⟩ := Prod.mk.inj (Except.ok.inj h)
      exact Or.inr (Or.inl ⟨hne, hcode, hls.symm, hm.symm⟩)
    · rename_i hcode
      rw [bind_eq_ok] at h
      obtain ⟨f, hf, h⟩ := h
      obtain ⟨hls, hm⟩ := Prod.mk.inj (Except.ok.inj h)
      refine Or.inr (Or.inr ⟨hne, hcode, f, hf, ?_, hm.symm⟩)
      rw [← hls]
      exact congrArg (fun words => [Line.code words]) (List.append_assoc _ _ _)

end Modal

/-- The offsets of an arc lead from the exact end of the last move to its
    centre. -/
theorem offsetWords_arc {precision : Int} {m : Modal} {center : Vec2} {offset : List Word}
    (h : m.offsetWords precision (.arc center) = .ok offset) :
    ∃ p i j, m.position = some p ∧ number precision (center.x - p.x) = .ok i
      ∧ number precision (center.y - p.y) = .ok j ∧ offset = [⟨'I', i⟩, ⟨'J', j⟩] := by
  rw [Modal.offsetWords.eq_def] at h
  cases hposition : m.position with
  | none =>
      rw [hposition] at h
      cases h
  | some p =>
      rw [hposition] at h
      obtain ⟨i, hi, h⟩ := bind_eq_ok.mp h
      obtain ⟨j, hj, h⟩ := bind_eq_ok.mp h
      exact ⟨p, i, j, rfl, hi, hj, (Except.ok.inj h).symm⟩

/-! ## Every line of a program is legible -/

theorem legible_of_mem_codeWords {m : Modal} {kind : Move} {w : Word}
    (h : w ∈ m.codeWords kind) : w.Legible := by
  rw [Modal.codeWords] at h
  split at h
  · exact absurd h List.not_mem_nil
  · rw [List.mem_singleton] at h
    rw [h]
    cases kind with
    | rapid => decide
    | linear => decide
    | arc center =>
        show (Word.mk 'G' (Nat.repr 3)).Legible
        decide

/-- The words of a target can be read back. -/
theorem legible_of_mem_targetWords {precision : Int} {m : Modal} {kind : Move} {target : Vec3}
    {x y z : String} {w : Word} (hx : number precision target.x = .ok x)
    (hy : number precision target.y = .ok y) (hz : number precision target.z = .ok z)
    (h : w ∈ m.targetWords kind x y z) : w.Legible := by
  rw [Modal.targetWords.eq_def] at h
  split at h
  · rw [List.mem_append, List.mem_cons, List.mem_singleton] at h
    rcases h with (rfl | rfl) | h
    · exact legible_number (by decide) hx
    · exact legible_number (by decide) hy
    · exact legible_of_mem_wordUnless (by decide) hz h
  · rw [List.mem_append, List.mem_append] at h
    rcases h with (h | h) | h
    · exact legible_of_mem_wordUnless (by decide) hx h
    · exact legible_of_mem_wordUnless (by decide) hy h
    · exact legible_of_mem_wordUnless (by decide) hz h

theorem legible_of_mem_offsetWords {precision : Int} {m : Modal} {kind : Move}
    {offset : List Word} {w : Word} (hoffset : m.offsetWords precision kind = .ok offset)
    (h : w ∈ offset) : w.Legible := by
  cases kind with
  | arc center =>
      obtain ⟨p, i, j, -, hi, hj, rfl⟩ := offsetWords_arc hoffset
      rw [List.mem_cons, List.mem_singleton] at h
      rcases h with rfl | rfl
      · exact legible_number (by decide) hi
      · exact legible_number (by decide) hj
  | rapid =>
      rw [← Except.ok.inj hoffset] at h
      exact absurd h List.not_mem_nil
  | linear =>
      rw [← Except.ok.inj hoffset] at h
      exact absurd h List.not_mem_nil

/-- All that a move is written as can be read back. -/
theorem legible_of_move {precision : Int} {m m' : Modal} {kind : Move} {target : Vec3}
    {feed : Float} {ls : List Line} (h : m.move precision kind target feed = .ok (ls, m')) :
    ∀ l ∈ ls, l.Legible := by
  obtain ⟨offset, x, y, z, hoffset, hx, hy, hz, hcases⟩ := Modal.move_cases h
  have hwords : ∀ w ∈ m.codeWords kind ++ (m.targetWords kind x y z ++ offset), w.Legible := by
    intro w hw
    rw [List.mem_append, List.mem_append] at hw
    rcases hw with hw | hw | hw
    · exact legible_of_mem_codeWords hw
    · exact legible_of_mem_targetWords hx hy hz hw
    · exact legible_of_mem_offsetWords hoffset hw
  intro l hl
  rcases hcases with ⟨-, rfl, -⟩ | ⟨hne, -, rfl, -⟩ | ⟨hne, -, f, hf, rfl, -⟩
  · exact absurd hl List.not_mem_nil
  · rw [List.mem_singleton.mp hl]
    exact ⟨List.append_ne_nil_of_right_ne_nil _ hne, hwords⟩
  · rw [List.mem_singleton.mp hl, ← List.append_assoc]
    refine ⟨List.append_ne_nil_of_left_ne_nil (List.append_ne_nil_of_right_ne_nil _ hne) _, ?_⟩
    intro w hw
    rcases List.mem_append.mp hw with hw | hw
    · exact hwords w hw
    · exact legible_of_mem_wordUnless (by decide) hf hw

theorem legible_spindleOff : spindleOff.Legible := legible_single (by decide)

/-- Every line that a step gives can be taken apart again. -/
theorem legible_of_step {precision : Int} {m m' : Modal} {a : Action} {ls : List Line}
    (h : step precision m a = .ok (ls, m')) : ∀ l ∈ ls, l.Legible := by
  cases a with
  | move kind target feed => exact legible_of_move h
  | dwell seconds =>
      obtain ⟨p, hp, h⟩ := bind_eq_ok.mp h
      obtain ⟨rfl, -⟩ := Prod.mk.inj (Except.ok.inj h)
      intro l hl
      rw [List.mem_singleton.mp hl]
      exact legible_pair (by decide) (legible_number (by decide) hp)
  | spindle rpm =>
      intro l hl
      by_cases hpos : 0 < rpm
      · rw [step, if_pos hpos] at h
        obtain ⟨s, hs, h⟩ := bind_eq_ok.mp h
        obtain ⟨rfl, -⟩ := Prod.mk.inj (Except.ok.inj h)
        rw [List.mem_singleton.mp hl]
        exact legible_pair (by decide) (legible_number (by decide) hs)
      · rw [step, if_neg hpos] at h
        obtain ⟨rfl, -⟩ := Prod.mk.inj (Except.ok.inj h)
        rw [List.mem_singleton.mp hl]
        exact legible_spindleOff
  | comment text =>
      obtain ⟨rfl, -⟩ := Prod.mk.inj (Except.ok.inj h)
      exact fun l hl => legible_of_mem_commentLines hl
  | toolChange text =>
      obtain ⟨rfl, -⟩ := Prod.mk.inj (Except.ok.inj h)
      exact fun l hl => legible_of_mem_commentLines hl

/-- The text of a program is that of its lines. -/
theorem emit_eq_ok {precision : Int} {safeHeight : Float} {path : Toolpath} {text : String} :
    emit precision safeHeight path = .ok text
      ↔ ∃ program, lines precision safeHeight path.segments = .ok program
          ∧ render program = text := by
  rw [emit]
  cases lines precision safeHeight path.segments with
  | error f => simp [Except.map]
  | ok program => simp [Except.map]

end MillScript.Gcode
