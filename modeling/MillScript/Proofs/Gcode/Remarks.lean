import Mathlib.Data.List.Forall2
import MillScript.Proofs.Gcode.ModalSuppression

/-! # Remarks never become commands

    Comments and tool changes carry texts that anyone may have written, with
    line feeds and whatever else in them.  Each line of such a text is
    written behind a semicolon, and the emitter remembers nothing of it, so
    a program with its comment lines deleted is the program of the toolpath
    without its remarks (`emit_withoutRemarks`).

    The argument is about lines first: a remark gives comments only and
    leaves the controller's memory alone, every other step gives lines of
    words only (`GivenBy`).  That a line of the text is a comment exactly
    when the line was written as one (`isCommentLine_render`) carries it over
    to texts. -/

namespace MillScript

/-- The steps that only tell a reader something. -/
def Action.isRemark : Action → Bool
  | .comment _ => true
  | .toolChange _ => true
  | _ => false

/-- The toolpath without the steps that only tell a reader something. -/
def Toolpath.withoutRemarks (p : Toolpath) : Toolpath :=
  { p with recorded := p.recorded.filter fun s => !s.action.isRemark }

theorem Toolpath.segments_withoutRemarks (p : Toolpath) :
    p.withoutRemarks.segments = p.segments.filter fun s => !s.action.isRemark :=
  List.filter_reverse.symm

namespace Gcode

/-! ## Comment lines of a text -/

/-- Whether a line of a text is a comment. -/
def isCommentLine (line : List Char) : Bool := line.head? == some ';'

/-- A text without its comment lines.  Lines end at line feeds. -/
def deleteComments (text : String) : String :=
  String.ofList
    (['\n'].intercalate ((text.toList.splitOn '\n').filter fun line => !isCommentLine line))

/-- Whether a line is a comment. -/
def Line.isComment : Line → Bool
  | .code _ => false
  | .comment _ => true

/-- A line reads as a comment exactly when it was written as one. -/
theorem isCommentLine_render {l : Line} (h : l.Legible) :
    isCommentLine l.render.toList = l.isComment := by
  cases l with
  | code words =>
      obtain ⟨hne, hwords⟩ := h
      obtain ⟨w, rest, rfl⟩ := List.exists_cons_of_ne_nil hne
      obtain ⟨tail, htail⟩ := exists_toList_render_code w rest
      have hletter := (hwords w List.mem_cons_self).letter.2.2
      simpa [isCommentLine, htail, Line.isComment] using hletter
  | comment text =>
      obtain ⟨tail, htail⟩ := exists_toList_render_comment text
      rw [isCommentLine, htail]
      rfl

/-- Deleting the comment lines of a program's text deletes its comments. -/
theorem deleteComments_render {ls : List Line} (h : ∀ l ∈ ls, l.Legible) :
    deleteComments (render ls) = render (ls.filter fun l => !l.isComment) := by
  have hkept : ∀ l ∈ ls.filter fun l => !l.isComment, l.Legible :=
    fun l hl => h l (List.mem_of_mem_filter hl)
  have hlines : ((render ls).toList.splitOn '\n').filter (fun line => !isCommentLine line)
      = (render (ls.filter fun l => !l.isComment)).toList.splitOn '\n' := by
    rw [splitOn_render h, splitOn_render hkept, List.filter_append, List.filter_map]
    congr 2
    refine List.filter_congr fun l hl => ?_
    exact congrArg (!·) (isCommentLine_render (h l hl))
  rw [deleteComments, hlines, List.intercalate_splitOn, String.ofList_toList]

/-- No comment line is left. -/
theorem isCommentLine_deleteComments {ls : List Line} (h : ∀ l ∈ ls, l.Legible) :
    ∀ line ∈ (deleteComments (render ls)).toList.splitOn '\n', isCommentLine line = false := by
  have hkept : ∀ l ∈ ls.filter fun l => !l.isComment, l.Legible :=
    fun l hl => h l (List.mem_of_mem_filter hl)
  intro line hline
  rw [deleteComments_render h, splitOn_render hkept, List.mem_append, List.mem_singleton] at hline
  rcases hline with hline | rfl
  · obtain ⟨l, hl, rfl⟩ := List.mem_map.mp hline
    rw [isCommentLine_render (hkept l hl)]
    simpa using (List.mem_filter.mp hl).2
  · rfl

/-! ## What one step gives -/

/-- A remark can always be written; it gives a line at least, and the
    controller knows as much as before. -/
theorem step_of_isRemark {a : Action} (h : a.isRemark = true) (precision : Int) (m : Modal) :
    ∃ ls, ls ≠ [] ∧ step precision m a = .ok (ls, m) := by
  have hne : ∀ text, commentLines text ≠ [] := by
    intro text
    rw [commentLines]
    split
    · exact List.cons_ne_nil _ _
    · rename_i hlines
      exact fun hnil => hlines (List.map_eq_nil_iff.mp hnil)
  cases a with
  | comment text => exact ⟨_, hne text, rfl⟩
  | toolChange text => exact ⟨_, hne ("tool: " ++ text), rfl⟩
  | move kind target feed => cases h
  | dwell seconds => cases h
  | spindle rpm => cases h

/-- Remarks give comments and the other steps give words. -/
theorem isComment_of_step {precision : Int} {m m' : Modal} {a : Action} {ls : List Line}
    (h : step precision m a = .ok (ls, m')) : ∀ l ∈ ls, l.isComment = a.isRemark := by
  have hsingle : ∀ words : List Word, ∀ l ∈ [Line.code words], l.isComment = false := by
    intro words l hl
    rw [List.mem_singleton.mp hl]
    rfl
  have hremark : ∀ text, ∀ l ∈ commentLines text, l.isComment = true := by
    intro text l hl
    obtain ⟨remark, rfl⟩ := comment_of_mem_commentLines hl
    rfl
  cases a with
  | move kind target feed =>
      obtain ⟨offset, x, y, z, -, -, -, -, hcases⟩ := Modal.move_cases h
      rcases hcases with ⟨-, rfl, -⟩ | ⟨-, -, rfl, -⟩ | ⟨-, -, f, -, rfl, -⟩
      · exact fun l hl => absurd hl List.not_mem_nil
      · exact hsingle _
      · exact hsingle _
  | dwell seconds =>
      obtain ⟨p, -, h⟩ := bind_eq_ok.mp h
      obtain ⟨rfl, -⟩ := Prod.mk.inj (Except.ok.inj h)
      exact hsingle _
  | spindle rpm =>
      by_cases hpos : 0 < rpm
      · rw [step, if_pos hpos] at h
        obtain ⟨s, -, h⟩ := bind_eq_ok.mp h
        obtain ⟨rfl, -⟩ := Prod.mk.inj (Except.ok.inj h)
        exact hsingle _
      · rw [step, if_neg hpos] at h
        obtain ⟨rfl, -⟩ := Prod.mk.inj (Except.ok.inj h)
        exact hsingle _
  | comment text =>
      obtain ⟨rfl, -⟩ := Prod.mk.inj (Except.ok.inj h)
      exact hremark _
  | toolChange text =>
      obtain ⟨rfl, -⟩ := Prod.mk.inj (Except.ok.inj h)
      exact hremark _

/-- Lines that a step may give. -/
structure GivenBy (s : Segment) (block : List Line) : Prop where
  legible : ∀ l ∈ block, l.Legible
  isComment : ∀ l ∈ block, l.isComment = s.action.isRemark
  ne_nil : s.action.isRemark = true → block ≠ []

/-- What a step is written as belongs to it. -/
theorem givenBy_of_step {precision : Int} {m m' : Modal} {s : Segment} {ls : List Line}
    (h : step precision m s.action = .ok (ls, m')) : GivenBy s ls where
  legible := legible_of_step h
  isComment := isComment_of_step h
  ne_nil := by
    intro hremark
    obtain ⟨ls', hne, hstep⟩ := step_of_isRemark hremark precision m
    rw [hstep] at h
    rw [← (Prod.mk.inj (Except.ok.inj h)).1]
    exact hne

/-! ## What all steps give -/

/-- The lines of a run come in blocks, one for each step. -/
theorem blocks_of_steps {precision : Int} {m : Modal} {written all : List Line}
    {segments : List Segment} (h : steps precision m written segments = .ok all) :
    ∃ blocks, all = blocks.flatten.reverse ++ written
      ∧ List.Forall₂ GivenBy segments blocks := by
  induction segments generalizing m written with
  | nil => exact ⟨[], (Except.ok.inj h).symm, .nil⟩
  | cons s rest ih =>
      rw [steps] at h
      obtain ⟨⟨block, m'⟩, hstep, h⟩ := bind_eq_ok.mp h
      obtain ⟨blocks, hall, hblocks⟩ := ih h
      refine ⟨block :: blocks, ?_, .cons (givenBy_of_step hstep) hblocks⟩
      rw [hall, List.flatten_cons, List.reverse_append, List.append_assoc]

/-- A program is an opening, one block for each step, and a closing. -/
theorem blocks_of_lines {precision : Int} {safeHeight : Float} {segments : List Segment}
    {program : List Line} (h : lines precision safeHeight segments = .ok program) :
    ∃ z blocks, number precision safeHeight = .ok z
      ∧ program = opening z ++ blocks.flatten ++ closing
      ∧ List.Forall₂ GivenBy segments blocks := by
  obtain ⟨z, hz, h⟩ := bind_eq_ok.mp h
  obtain ⟨written, hsteps, hprogram⟩ := bind_eq_ok.mp h
  obtain ⟨blocks, hwritten, hblocks⟩ := blocks_of_steps hsteps
  refine ⟨z, blocks, hz, ?_, hblocks⟩
  rw [← Except.ok.inj hprogram, hwritten, List.append_nil, List.reverse_reverse]

/-- All lines of blocks can be read back. -/
theorem legible_of_blocks {segments : List Segment} {blocks : List (List Line)}
    (h : List.Forall₂ GivenBy segments blocks) : ∀ l ∈ blocks.flatten, l.Legible := by
  induction h with
  | nil => exact fun l hl => absurd hl List.not_mem_nil
  | cons hblock _ ih =>
      intro l hl
      rw [List.flatten_cons, List.mem_append] at hl
      rcases hl with hl | hl
      · exact hblock.legible l hl
      · exact ih l hl

/-- All lines of a program can be read back. -/
theorem legible_of_lines {precision : Int} {safeHeight : Float} {segments : List Segment}
    {program : List Line} (h : lines precision safeHeight segments = .ok program) :
    ∀ l ∈ program, l.Legible := by
  obtain ⟨z, blocks, hz, rfl, hblocks⟩ := blocks_of_lines h
  intro l hl
  rw [List.mem_append, List.mem_append] at hl
  rcases hl with (hl | hl) | hl
  · exact legible_opening hz l hl
  · exact legible_of_blocks hblocks l hl
  · exact legible_closing l hl

/-- The opening and the closing hold no comment. -/
theorem isCommentLine_frame {precision : Int} {safeHeight : Float} {z : String}
    (hz : number precision safeHeight = .ok z) :
    ∀ line ∈ (opening z ++ closing).map fun l => l.render.toList, isCommentLine line = false := by
  intro line hline
  obtain ⟨l, hl, rfl⟩ := List.mem_map.mp hline
  have hlegible : l.Legible := by
    rcases List.mem_append.mp hl with hl | hl
    · exact legible_opening hz l hl
    · exact legible_closing l hl
  have hcode : (opening z ++ closing).all (fun l => !l.isComment) = true := rfl
  rw [isCommentLine_render hlegible]
  simpa using List.all_eq_true.mp hcode l hl

/-! ## Running without the remarks -/

/-- All steps but the remarks write the lines that are no comments, and fail
    where all steps fail. -/
theorem steps_withoutRemarks (precision : Int) (m : Modal) (written : List Line)
    (segments : List Segment) :
    steps precision m (written.filter fun l => !l.isComment)
        (segments.filter fun s => !s.action.isRemark)
      = (steps precision m written segments).map (List.filter fun l => !l.isComment) := by
  induction segments generalizing m written with
  | nil => rfl
  | cons s rest ih =>
      by_cases hremark : s.action.isRemark = true
      · -- the comments go, and with them all that the step did
        obtain ⟨ls, -, hstep⟩ := step_of_isRemark hremark precision m
        have hnone : ls.reverse.filter (fun l => !l.isComment) = [] := by
          rw [List.filter_eq_nil_iff]
          intro l hl
          rw [isComment_of_step hstep l (List.mem_reverse.mp hl), hremark]
          exact Bool.noConfusion
        have hwritten : (ls.reverse ++ written).filter (fun l => !l.isComment)
            = written.filter fun l => !l.isComment := by
          rw [List.filter_append, hnone, List.nil_append]
        have hskip : steps precision m written (s :: rest)
            = steps precision m (ls.reverse ++ written) rest := by
          rw [steps, hstep]
          rfl
        rw [hskip, ← ih m (ls.reverse ++ written), hwritten,
          List.filter_cons_of_neg (by simp [hremark])]
      · rw [List.filter_cons_of_pos (by simpa using hremark), steps, steps]
        cases hstep : step precision m s.action with
        | error f => rfl
        | ok given =>
            obtain ⟨ls, m'⟩ := given
            have hall : ls.reverse.filter (fun l => !l.isComment) = ls.reverse := by
              rw [List.filter_eq_self]
              intro l hl
              rw [isComment_of_step hstep l (List.mem_reverse.mp hl)]
              simpa using hremark
            show steps precision m' (ls.reverse ++ written.filter fun l => !l.isComment) _
              = (steps precision m' (ls.reverse ++ written) rest).map _
            rw [← ih m' (ls.reverse ++ written), List.filter_append, hall]

/-- To leave out remarks is to leave out their lines. -/
theorem lines_withoutRemarks (precision : Int) (safeHeight : Float) (segments : List Segment) :
    lines precision safeHeight (segments.filter fun s => !s.action.isRemark)
      = (lines precision safeHeight segments).map (List.filter fun l => !l.isComment) := by
  rw [lines, lines]
  cases number precision safeHeight with
  | error f => rfl
  | ok z =>
      have hsteps := steps_withoutRemarks precision { mode := 0, z := some z } [] segments
      rw [List.filter_nil] at hsteps
      show (steps precision { mode := 0, z := some z } [] _ >>= _)
        = (steps precision { mode := 0, z := some z } [] segments >>= _).map _
      rw [hsteps]
      cases steps precision { mode := 0, z := some z } [] segments with
      | error f => rfl
      | ok written =>
          refine congrArg Except.ok ?_
          rw [List.filter_append, List.filter_append, List.filter_reverse]
          rfl

/-- Lines of a text that a step may give: a remark gives comment lines only,
    one at least, and any other step gives no comment line. -/
def WrittenFor (s : Segment) (block : List (List Char)) : Prop :=
  (∀ line ∈ block, isCommentLine line = s.action.isRemark)
    ∧ (s.action.isRemark = true → block ≠ [])

theorem GivenBy.writtenFor {s : Segment} {block : List Line} (h : GivenBy s block) :
    WrittenFor s (block.map fun l => l.render.toList) := by
  refine ⟨?_, fun hremark hnil => h.ne_nil hremark (List.map_eq_nil_iff.mp hnil)⟩
  intro line hline
  obtain ⟨l, hl, rfl⟩ := List.mem_map.mp hline
  rw [isCommentLine_render (h.legible l hl), h.isComment l hl]

/-- **Remarks never become commands.**  Whatever texts the comments and tool
    changes of a toolpath hold, its program with the comment lines deleted is
    the program of the toolpath without them, and one fails as the other
    does.  The latter has no comment line; each line of the former that is
    not of the opening or the closing is of one step, and those of a remark
    are comment lines. -/
theorem emit_withoutRemarks (precision : Int) (safeHeight : Float) (path : Toolpath) :
    emit precision safeHeight path.withoutRemarks
        = (emit precision safeHeight path).map deleteComments
      ∧ ∀ text, emit precision safeHeight path = .ok text →
          (∀ line ∈ (deleteComments text).toList.splitOn '\n', isCommentLine line = false)
          ∧ ∃ before blocks after,
              text.toList.splitOn '\n' = before ++ blocks.flatten ++ after
              ∧ List.Forall₂ WrittenFor path.segments blocks
              ∧ ∀ line ∈ before ++ after, isCommentLine line = false := by
  refine ⟨?_, ?_⟩
  · rw [emit, emit, Toolpath.segments_withoutRemarks, lines_withoutRemarks]
    cases hlines : lines precision safeHeight path.segments with
    | error f => rfl
    | ok program => exact congrArg Except.ok (deleteComments_render (legible_of_lines hlines)).symm
  · intro text htext
    obtain ⟨program, hlines, rfl⟩ := emit_eq_ok.mp htext
    obtain ⟨z, blocks, hz, hprogram, hblocks⟩ := blocks_of_lines hlines
    have hlegible := legible_of_lines hlines
    refine ⟨isCommentLine_deleteComments hlegible,
      (opening z).map (fun l => l.render.toList),
      blocks.map (List.map fun l => l.render.toList),
      closing.map (fun l => l.render.toList) ++ [[]], ?_, ?_, ?_⟩
    · rw [splitOn_render hlegible, hprogram, List.map_append, List.map_append, List.map_flatten,
        List.append_assoc]
    · rw [List.forall₂_map_right_iff]
      exact hblocks.imp fun _ _ h => h.writtenFor
    · intro line hline
      rw [← List.append_assoc, ← List.map_append, List.mem_append, List.mem_singleton] at hline
      rcases hline with hline | rfl
      · exact isCommentLine_frame hz line hline
      · rfl

example : emit 3 5 { recorded := [⟨.comment "off\n\nM03 S9000\r\n", 1⟩] }
    = .ok "G90\nG21\nG0 Z5\nM05\n; off\n;\n; M03 S9000\nM05\nM02\n" := by rfl

end Gcode

end MillScript
