import MillScript.Proofs.Gcode.Controller
import MillScript.Proofs.Gcode.Lines

/-! # Modal suppression loses nothing

    An emitted program leaves out what the controller knows already.  The
    claim of this file is that nothing is lost by it: a controller that reads
    the text carries out exactly what the toolpath means.

    * `intended` is the meaning of a toolpath, said without any words: one
      event for a move unless it leads where the tool stands as written, the
      centre of an arc from the exact end of the move before it, one event for
      a dwell and for a change of the spindle, none for a remark.
    * `Modal.controller` is the controller that an emitter's state stands
      for; a step of the emitter is one step of that controller
      (`obey_step`), whatever the order of the steps.
    * `execute_emit` puts both together with the reading of the text. -/

namespace MillScript.Gcode

/-! ## What a toolpath means -/

/-- How far a toolpath has led: the coordinates of its last move as written,
    and the exact end of that move, whether it was carried out or not. -/
structure Reached where
  coordinates : Coordinates
  position : Option Vec3 := none

/-- What a move means.  A straight move to where the tool stands means
    nothing, an arc is always carried out. -/
def intendedMove (precision : Int) (r : Reached) (kind : Move) (goal : Coordinates)
    (feed : Float) : Except Fault (List Event) :=
  match kind with
  | .rapid => .ok (if r.coordinates = goal then [] else [.rapid goal])
  | .linear =>
    if r.coordinates = goal then .ok []
    else do
      let f ← number precision feed
      return [.linear goal f]
  | .arc center =>
    match r.position with
    | none => .error RuntimeFault.arcWithoutStart
    | some p => do
      let i ← number precision (center.x - p.x)
      let j ← number precision (center.y - p.y)
      let f ← number precision feed
      return [.arc goal i j f]

/-- What a step of a toolpath means, and how far it leads. -/
def intendedStep (precision : Int) (r : Reached) : Action → Except Fault (List Event × Reached)
  | .move kind target feed => do
    let x ← number precision target.x
    let y ← number precision target.y
    let z ← number precision target.z
    let goal : Coordinates := ⟨some x, some y, some z⟩
    let events ← intendedMove precision r kind goal feed
    return (events, ⟨goal, some target⟩)
  | .dwell seconds => do
    let p ← number precision seconds
    return ([.dwell p], r)
  | .spindle rpm =>
    if 0 < rpm then do
      let s ← number precision rpm
      return ([.spindleOn s], r)
    else .ok ([.spindleOff], r)
  | .comment _ => .ok ([], r)
  | .toolChange _ => .ok ([], r)

/-- What the steps of a toolpath mean, one after the other. -/
def intendedSteps (precision : Int) (r : Reached) :
    List Segment → Except Fault (List Event × Reached)
  | [] => .ok ([], r)
  | s :: rest => do
    let (events, r') ← intendedStep precision r s.action
    let (more, last) ← intendedSteps precision r' rest
    return (events ++ more, last)

/-- What a whole program means: up to the safe height with the spindle off,
    the steps, and the spindle off again at the end. -/
def intended (precision : Int) (safeHeight : Float) (segments : List Segment) :
    Except Fault (List Event × Reached) := do
  let z ← number precision safeHeight
  let (events, last) ← intendedSteps precision ⟨⟨none, none, some z⟩, none⟩ segments
  return ([.rapid ⟨none, none, some z⟩, .spindleOff] ++ events ++ [.spindleOff, .stop], last)

/-! ## The controller that an emitter has in mind -/

/-- The kind of motion that a code stands for. -/
def Mode.ofCode? : Nat → Option Mode
  | 0 => some .rapid
  | 1 => some .linear
  | 3 => some .arc
  | _ => none

/-- The kind of motion of a move. -/
def Mode.ofMove : Move → Mode
  | .rapid => .rapid
  | .linear => .linear
  | .arc _ => .arc

/-- The code of a motion is read back as its mode. -/
@[simp] theorem Mode.ofCode?_motionCode (kind : Move) :
    Mode.ofCode? (motionCode kind) = some (Mode.ofMove kind) := by
  cases kind <;> rfl

namespace Modal

/-- The controller that has been told what an emitter has written. -/
def controller (m : Modal) : Controller := ⟨Mode.ofCode? m.mode, ⟨m.x, m.y, m.z⟩, m.feed⟩

/-- How far the toolpath of an emitter has led. -/
def reached (m : Modal) : Reached := ⟨⟨m.x, m.y, m.z⟩, m.position⟩

end Modal

/-! ## How the controller takes the words of a move -/

/-- The last word of a letter counts. -/
theorem value?_append (letter : Char) (before after : List Word) :
    value? letter (before ++ after) = (value? letter after).or (value? letter before) := by
  induction before with
  | nil => rw [List.nil_append, value?, Option.or_none]
  | cons w before ih => rw [List.cons_append, value?, ih, value?, Option.or_assoc]

/-- A letter that is not there has no value. -/
theorem value?_eq_none {letter : Char} {words : List Word} (h : ∀ w ∈ words, w.letter ≠ letter) :
    value? letter words = none := by
  induction words with
  | nil => rfl
  | cons w words ih =>
      rw [value?, if_neg (h w List.mem_cons_self),
        ih fun w' hw' => h w' (List.mem_cons_of_mem w hw'), Option.or_none]

/-- Words of other letters after a word do not hide it. -/
theorem value?_append_of_after {letter : Char} {after : List Word}
    (h : ∀ w ∈ after, w.letter ≠ letter) (before : List Word) :
    value? letter (before ++ after) = value? letter before := by
  rw [value?_append, value?_eq_none h, Option.none_or]

/-- Words of other letters before a word do not matter. -/
theorem value?_append_of_before {letter : Char} {before : List Word}
    (h : ∀ w ∈ before, w.letter ≠ letter) (after : List Word) :
    value? letter (before ++ after) = value? letter after := by
  rw [value?_append, value?_eq_none h, Option.or_none]

/-- A word is left out just if its value is known already. -/
theorem value?_wordUnless (letter letter' : Char) (known : Option String) (text : String) :
    value? letter (wordUnless known letter' text)
      = if letter' = letter ∧ known ≠ some text then some text else none := by
  rw [wordUnless]
  by_cases hknown : known = some text
  · rw [if_pos hknown, if_neg fun h => h.2 hknown]
    rfl
  · rw [if_neg hknown]
    by_cases hletter : letter' = letter
    · rw [if_pos ⟨hletter, hknown⟩]
      simp [value?, hletter]
    · rw [if_neg fun h => hletter h.1]
      simp [value?, hletter]

/-- A word left out because its value is known leaves that value in force. -/
theorem or_known (known : Option String) (text : String) :
    (if known ≠ some text then some text else none : Option String).or known = some text := by
  by_cases hknown : known = some text
  · rw [if_neg fun h => h hknown, Option.none_or, hknown]
  · rw [if_pos hknown, Option.some_or]

/-- Nothing is written for what is known. -/
theorem wordUnless_eq_nil_iff (known : Option String) (letter : Char) (text : String) :
    wordUnless known letter text = [] ↔ known = some text := by
  rw [wordUnless]
  split
  case isTrue hknown => exact iff_of_true rfl hknown
  case isFalse hknown => exact iff_of_false (List.cons_ne_nil _ _) hknown

theorem letter_of_mem_wordUnless {known : Option String} {letter : Char} {text : String}
    {w : Word} (h : w ∈ wordUnless known letter text) : w.letter = letter := by
  rw [wordUnless] at h
  split at h
  · exact absurd h List.not_mem_nil
  · rw [List.mem_singleton.mp h]

/-- The code of a motion is a word in `G`. -/
theorem letter_of_mem_codeWords {m : Modal} {kind : Move} {w : Word} (h : w ∈ m.codeWords kind) :
    w.letter = 'G' := by
  rw [Modal.codeWords] at h
  split at h
  · exact absurd h List.not_mem_nil
  · rw [List.mem_singleton.mp h]

theorem command?_motionCode (kind : Move) :
    (Word.mk 'G' (motionCode kind).repr).command? = some (.motion (Mode.ofMove kind)) := by
  cases kind with
  | rapid => decide
  | linear => decide
  | arc center =>
      show (Word.mk 'G' (Nat.repr 3)).command? = some (.motion .arc)
      decide

/-- The letters of the words for the target of a move. -/
def targetLetters : List Char := ['X', 'Y', 'Z']

/-- The letters of the words that may follow the target on the line. -/
def tailLetters : List Char := ['I', 'J', 'F']

/-- Words from some letters have no other letter. -/
theorem ne_of_letters {letters : List Char} {words : List Word} {letter : Char}
    (h : ∀ w ∈ words, w.letter ∈ letters) (hletter : letter ∉ letters) :
    ∀ w ∈ words, w.letter ≠ letter :=
  fun w hw heq => hletter (heq ▸ h w hw)

/-- The word for the kind of motion is not part of where the move leads. -/
theorem move_codeWords_append (c : Controller) (m : Modal) (kind : Move) (rest : List Word) :
    c.move (m.codeWords kind ++ rest) = c.move rest := by
  have hany : (m.codeWords kind ++ rest).any
        (fun w => Controller.moveLetters.contains w.letter)
      = rest.any fun w => Controller.moveLetters.contains w.letter := by
    rw [List.any_append, Modal.codeWords]
    split <;> rfl
  have hvalue {letter : Char} (h : letter ≠ 'G') :
      value? letter (m.codeWords kind ++ rest) = value? letter rest :=
    value?_append_of_before (fun _ hw heq => h (heq.symm.trans (letter_of_mem_codeWords hw))) rest
  have htold : c.told (m.codeWords kind ++ rest) = c.told rest := by
    rw [Controller.told, hvalue (by decide), hvalue (by decide), hvalue (by decide),
      hvalue (by decide)]
    rfl
  have hmoved : (c.told rest).moved (m.codeWords kind ++ rest) = (c.told rest).moved rest := by
    rw [Controller.moved, hvalue (by decide), hvalue (by decide)]
    rfl
  rw [Controller.move, hany, htold, hmoved]
  rfl

/-- The controller takes up the kind of motion, written or left out, and then
    the other words of the move. -/
theorem line_codeWords_append (m : Modal) (kind : Move) {rest : List Word}
    (hrest : ∀ w ∈ rest, w.letter ∈ targetLetters ++ tailLetters) :
    m.controller.line (m.codeWords kind ++ rest)
      = { m.controller with mode := some (Mode.ofMove kind) }.move rest := by
  have hknown : rest.all (fun w => Controller.letters.contains w.letter) = true := by
    have hall : (targetLetters ++ tailLetters).all Controller.letters.contains := by decide
    exact List.all_eq_true.mpr fun w hw => List.all_eq_true.mp hall w.letter (hrest w hw)
  have hvalues : rest.filter Word.isCommand = [] := by
    have hall : (targetLetters ++ tailLetters).all fun l => !(l == 'G' || l == 'M') := by decide
    refine List.filter_eq_nil_iff.mpr fun w hw => ?_
    simpa [Word.isCommand] using List.all_eq_true.mp hall w.letter (hrest w hw)
  have hmove := move_codeWords_append { m.controller with mode := some (Mode.ofMove kind) } m
    kind rest
  rw [← hmove]
  by_cases hcode : motionCode kind = m.mode
  · -- the kind is left out: it is in force already
    have hwords : m.codeWords kind = [] := if_pos hcode
    have hmode : m.controller.mode = some (Mode.ofMove kind) := by
      show Mode.ofCode? m.mode = _
      rw [← hcode, Mode.ofCode?_motionCode]
    rw [hwords, List.nil_append, Controller.line, if_pos hknown, hvalues, ← hmode]
  · have hwords : m.codeWords kind = [⟨'G', (motionCode kind).repr⟩] := if_neg hcode
    have hall : (m.codeWords kind ++ rest).all
        (fun w => Controller.letters.contains w.letter) = true := by
      rw [hwords, List.all_append, hknown]
      rfl
    have hfilter : (m.codeWords kind ++ rest).filter Word.isCommand
        = [⟨'G', (motionCode kind).repr⟩] := by
      rw [hwords, List.filter_append, hvalues]
      rfl
    rw [Controller.line, if_pos hall, hfilter]
    dsimp only
    rw [command?_motionCode]

/-- The words of a target are those of the axes. -/
theorem letter_of_mem_targetWords {m : Modal} {kind : Move} {x y z : String} {w : Word}
    (h : w ∈ m.targetWords kind x y z) : w.letter ∈ targetLetters := by
  have hx : 'X' ∈ targetLetters := by decide
  have hy : 'Y' ∈ targetLetters := by decide
  have hz : 'Z' ∈ targetLetters := by decide
  rw [Modal.targetWords.eq_def] at h
  split at h
  · rw [List.mem_append, List.mem_cons, List.mem_singleton] at h
    rcases h with (rfl | rfl) | h
    · exact hx
    · exact hy
    · exact letter_of_mem_wordUnless h ▸ hz
  · rw [List.mem_append, List.mem_append] at h
    rcases h with (h | h) | h
    · exact letter_of_mem_wordUnless h ▸ hx
    · exact letter_of_mem_wordUnless h ▸ hy
    · exact letter_of_mem_wordUnless h ▸ hz

/-- Written or left out, the words for the target of a move put its
    coordinates in force. -/
theorem value?_targetWords (m : Modal) (kind : Move) (x y z : String) :
    (value? 'X' (m.targetWords kind x y z)).or m.x = some x
      ∧ (value? 'Y' (m.targetWords kind x y z)).or m.y = some y
      ∧ (value? 'Z' (m.targetWords kind x y z)).or m.z = some z := by
  have hx := or_known m.x x
  have hy := or_known m.y y
  have hz := or_known m.z z
  rw [Modal.targetWords.eq_def]
  split
  · simp only [value?_append, value?_wordUnless]
    simp_all [value?]
  · simp only [value?_append, value?_wordUnless]
    simp_all

/-- The controller that has been told the target of a move and a tail. -/
theorem told_targetWords_append (m : Modal) (kind : Move) (x y z : String) {tail : List Word}
    (htail : ∀ w ∈ tail, w.letter ∈ tailLetters) :
    Controller.told { m.controller with mode := some (Mode.ofMove kind) }
        (m.targetWords kind x y z ++ tail)
      = ⟨some (Mode.ofMove kind), ⟨some x, some y, some z⟩, (value? 'F' tail).or m.feed⟩ := by
  have hcoordinate {letter : Char} (h : letter ∉ tailLetters) :
      value? letter (m.targetWords kind x y z ++ tail) = value? letter (m.targetWords kind x y z) :=
    value?_append_of_after (ne_of_letters htail h) _
  have hfeed : value? 'F' (m.targetWords kind x y z ++ tail) = value? 'F' tail :=
    value?_append_of_before (ne_of_letters (fun _ => letter_of_mem_targetWords) (by decide)) _
  obtain ⟨hx, hy, hz⟩ := value?_targetWords m kind x y z
  rw [Controller.told, hcoordinate (by decide), hcoordinate (by decide), hcoordinate (by decide),
    hfeed, ← hx, ← hy, ← hz]
  rfl

/-- The line of a move whose target is not left out whole: the controller
    carries out one move of its kind to its target, with the offsets and the
    feed that follow the target on the line. -/
theorem line_move (m : Modal) (kind : Move) (x y z : String) {tail : List Word}
    (hne : m.targetWords kind x y z ≠ []) (htail : ∀ w ∈ tail, w.letter ∈ tailLetters) :
    m.controller.line (m.codeWords kind ++ (m.targetWords kind x y z ++ tail))
      = (Controller.moved ⟨some (Mode.ofMove kind), ⟨some x, some y, some z⟩,
          (value? 'F' tail).or m.feed⟩ tail).map fun event =>
        (⟨some (Mode.ofMove kind), ⟨some x, some y, some z⟩, (value? 'F' tail).or m.feed⟩,
          [event]) := by
  have hletters : ∀ w ∈ m.targetWords kind x y z ++ tail,
      w.letter ∈ targetLetters ++ tailLetters := by
    intro w hw
    rcases List.mem_append.mp hw with hw | hw
    · exact List.mem_append_left _ (letter_of_mem_targetWords hw)
    · exact List.mem_append_right _ (htail w hw)
  have hmoves : (m.targetWords kind x y z ++ tail).any
      (fun w => Controller.moveLetters.contains w.letter) = true := by
    have hall : targetLetters.all Controller.moveLetters.contains := by decide
    obtain ⟨w, hw⟩ := List.exists_mem_of_ne_nil _ hne
    refine List.any_eq_true.mpr ⟨w, List.mem_append_left tail hw, ?_⟩
    exact List.all_eq_true.mp hall w.letter (letter_of_mem_targetWords hw)
  have hoffset {letter : Char} (h : letter ∉ targetLetters) :
      value? letter (m.targetWords kind x y z ++ tail) = value? letter tail :=
    value?_append_of_before (ne_of_letters (fun _ => letter_of_mem_targetWords) h) tail
  rw [line_codeWords_append m kind hletters, Controller.move, if_pos hmoves,
    told_targetWords_append m kind x y z htail, Controller.moved, hoffset (by decide),
    hoffset (by decide)]
  rfl

/-- The words for a straight target are left out whole exactly when the tool
    stands there as written. -/
theorem targetWords_eq_nil_iff (m : Modal) (kind : Move) (hkind : Mode.ofMove kind ≠ .arc)
    (x y z : String) :
    m.targetWords kind x y z = [] ↔ m.reached.coordinates = ⟨some x, some y, some z⟩ := by
  have hwords : m.targetWords kind x y z
      = wordUnless m.x 'X' x ++ wordUnless m.y 'Y' y ++ wordUnless m.z 'Z' z := by
    cases kind with
    | arc center => exact absurd rfl hkind
    | rapid => rfl
    | linear => rfl
  rw [hwords, List.append_eq_nil_iff, List.append_eq_nil_iff, wordUnless_eq_nil_iff,
    wordUnless_eq_nil_iff, wordUnless_eq_nil_iff]
  show _ ↔ Coordinates.mk m.x m.y m.z = _
  rw [Coordinates.mk.injEq, and_assoc]

/-- The feed of a line, written or left out, is the one asked for. -/
theorem value?_feedWords (before : List Word) (hbefore : value? 'F' before = none)
    (known : Option String) (f : String) :
    (value? 'F' (before ++ wordUnless known 'F' f)).or known = some f := by
  rw [value?_append, hbefore, Option.or_none, value?_wordUnless]
  simpa using or_known known f

theorem letter_of_mem_feedWords (known : Option String) (f : String) :
    ∀ w ∈ wordUnless known 'F' f, w.letter ∈ tailLetters := by
  intro w hw
  rw [letter_of_mem_wordUnless hw]
  decide

/-- A line with a rapid brings the controller to its target, with the words
    that were left out filled in from what it knows. -/
theorem line_rapid (m : Modal) (x y z : String) (hne : m.targetWords .rapid x y z ≠ []) :
    m.controller.line (m.codeWords .rapid ++ m.targetWords .rapid x y z)
      = some (⟨some .rapid, ⟨some x, some y, some z⟩, m.feed⟩,
          [.rapid ⟨some x, some y, some z⟩]) := by
  have hline := line_move m .rapid x y z hne (fun _ hw => absurd hw List.not_mem_nil)
  rw [List.append_nil] at hline
  exact hline

/-- A line with a straight move does so at its feed. -/
theorem line_linear (m : Modal) (x y z f : String) (hne : m.targetWords .linear x y z ≠ []) :
    m.controller.line
        (m.codeWords .linear ++ (m.targetWords .linear x y z ++ wordUnless m.feed 'F' f))
      = some (⟨some .linear, ⟨some x, some y, some z⟩, some f⟩,
          [.linear ⟨some x, some y, some z⟩ f]) := by
  have hline := line_move m .linear x y z hne (letter_of_mem_feedWords m.feed f)
  have hfeed := value?_feedWords [] rfl m.feed f
  rw [List.nil_append] at hfeed
  rw [hfeed] at hline
  exact hline

/-- A line with an arc does so about its centre, even if it leads back to where
    it starts. -/
theorem line_arc (m : Modal) (center : Vec2) (x y z i j f : String) :
    m.controller.line (m.codeWords (.arc center) ++ (m.targetWords (.arc center) x y z
        ++ ([⟨'I', i⟩, ⟨'J', j⟩] ++ wordUnless m.feed 'F' f)))
      = some (⟨some .arc, ⟨some x, some y, some z⟩, some f⟩,
          [.arc ⟨some x, some y, some z⟩ i j f]) := by
  have htail : ∀ w ∈ [⟨'I', i⟩, ⟨'J', j⟩] ++ wordUnless m.feed 'F' f,
      w.letter ∈ tailLetters := by
    intro w hw
    rw [List.mem_append, List.mem_cons, List.mem_singleton] at hw
    rcases hw with (rfl | rfl) | hw
    · show 'I' ∈ tailLetters
      decide
    · show 'J' ∈ tailLetters
      decide
    · exact letter_of_mem_feedWords m.feed f w hw
  have hi : value? 'I' ([⟨'I', i⟩, ⟨'J', j⟩] ++ wordUnless m.feed 'F' f) = some i := by
    rw [value?_append, value?_wordUnless]
    simp [value?]
  have hj : value? 'J' ([⟨'I', i⟩, ⟨'J', j⟩] ++ wordUnless m.feed 'F' f) = some j := by
    rw [value?_append, value?_wordUnless]
    simp [value?]
  rw [line_move m (.arc center) x y z (List.cons_ne_nil _ _) htail,
    value?_feedWords _ rfl m.feed f]
  show (((value? 'I' _).bind _).map _ : Option (Controller × List Event)) = _
  rw [hi]
  show (((value? 'J' _).bind _).map _ : Option (Controller × List Event)) = _
  rw [hj]
  rfl

/-! ## One step of the emitter is one step of the controller -/

/-- A dwell changes nothing that is remembered. -/
theorem line_dwell (c : Controller) (p : String) :
    c.line [⟨'G', "4"⟩, ⟨'P', p⟩] = some (c, [.dwell p]) := by
  have hcommand : (Word.mk 'G' "4").command? = some .dwell := by decide
  simp [Controller.line, Controller.letters, Word.isCommand, hcommand, value?]

theorem line_spindleOn (c : Controller) (s : String) :
    c.line [⟨'M', "03"⟩, ⟨'S', s⟩] = some (c, [.spindleOn s]) := by
  have hcommand : (Word.mk 'M' "03").command? = some .spindleOn := by decide
  simp [Controller.line, Controller.letters, Word.isCommand, hcommand, value?]

theorem line_spindleOff (c : Controller) :
    c.obeyLine spindleOff = some (c, [.spindleOff]) := by
  have hcommand : (Word.mk 'M' "05").command? = some .spindleOff := by decide
  simp [Controller.obeyLine, spindleOff, Controller.line, Controller.letters, Word.isCommand,
    hcommand]

/-- One line alone. -/
theorem obey_single {c c' : Controller} {l : Line} {es : List Event}
    (h : c.obeyLine l = some (c', es)) : c.obey [l] = some (c', es) := by
  rw [Controller.obey, h]
  show some (c', es ++ []) = _
  rw [List.append_nil]

/-- Remarks mean nothing to the controller. -/
theorem obey_of_comments {ls : List Line} (h : ∀ l ∈ ls, ∃ text, l = .comment text)
    (c : Controller) : c.obey ls = some (c, []) := by
  induction ls with
  | nil => rfl
  | cons l ls ih =>
      obtain ⟨text, rfl⟩ := h l List.mem_cons_self
      rw [Controller.obey]
      show (c.obey ls).bind _ = _
      rw [ih fun l' hl' => h l' (List.mem_cons_of_mem _ hl')]
      rfl

/-- A comment of several lines is several comments. -/
theorem comment_of_mem_commentLines {text : String} {l : Line} (h : l ∈ commentLines text) :
    ∃ remark, l = .comment remark := by
  rw [commentLines] at h
  split at h
  · exact ⟨"", List.mem_singleton.mp h⟩
  · obtain ⟨line, -, rfl⟩ := List.mem_map.mp h
    exact ⟨_, rfl⟩

/-- What a move means, once its target is written. -/
theorem intendedStep_move {precision : Int} {r : Reached} {kind : Move} {target : Vec3}
    {feed : Float} {x y z : String} {events : List Event}
    (hx : number precision target.x = .ok x) (hy : number precision target.y = .ok y)
    (hz : number precision target.z = .ok z)
    (h : intendedMove precision r kind ⟨some x, some y, some z⟩ feed = .ok events) :
    intendedStep precision r (.move kind target feed)
      = .ok (events, ⟨⟨some x, some y, some z⟩, some target⟩) := by
  rw [intendedStep, hx, hy, hz]
  show (intendedMove precision r kind _ feed >>= _) = _
  rw [h]
  rfl

/-- A move to where the tool stands leaves the controller as it is. -/
theorem controller_arrived {m : Modal} {x y z : String} (target : Vec3)
    (h : m.reached.coordinates = ⟨some x, some y, some z⟩) :
    (m.arrived x y z target).controller = m.controller := by
  show Controller.mk _ ⟨some x, some y, some z⟩ _ = _
  rw [← h]
  rfl

/-- A move of the emitter writes what the move means. -/
theorem obey_move {precision : Int} {m m' : Modal} {kind : Move} {target : Vec3} {feed : Float}
    {ls : List Line} (h : m.move precision kind target feed = .ok (ls, m')) :
    ∃ events, intendedStep precision m.reached (.move kind target feed)
        = .ok (events, m'.reached)
      ∧ m.controller.obey ls = some (m'.controller, events) := by
  obtain ⟨offset, x, y, z, hoffset, hx, hy, hz, hcases⟩ := Modal.move_cases h
  cases kind with
  | rapid =>
      obtain rfl : offset = [] := (Except.ok.inj hoffset).symm
      rw [List.append_nil] at hcases
      have hnil := targetWords_eq_nil_iff m .rapid (by decide) x y z
      rcases hcases with ⟨hempty, rfl, rfl⟩ | ⟨hne, -, rfl, rfl⟩ | ⟨-, hcode, -⟩
      · have hstands := hnil.mp hempty
        refine ⟨[], intendedStep_move hx hy hz ?_, ?_⟩
        · rw [intendedMove, if_pos hstands]
        · rw [controller_arrived target hstands, Controller.obey]
      · refine ⟨_, intendedStep_move hx hy hz ?_, obey_single (line_rapid m x y z hne)⟩
        rw [intendedMove, if_neg fun hstands => hne (hnil.mpr hstands)]
      · exact absurd rfl hcode
  | linear =>
      obtain rfl : offset = [] := (Except.ok.inj hoffset).symm
      rw [List.append_nil] at hcases
      have hnil := targetWords_eq_nil_iff m .linear (by decide) x y z
      rcases hcases with ⟨hempty, rfl, rfl⟩ | ⟨-, hcode, -⟩ | ⟨hne, -, f, hf, rfl, rfl⟩
      · have hstands := hnil.mp hempty
        refine ⟨[], intendedStep_move hx hy hz ?_, ?_⟩
        · rw [intendedMove, if_pos hstands]
        · rw [controller_arrived target hstands, Controller.obey]
      · cases hcode
      · refine ⟨_, intendedStep_move hx hy hz ?_, obey_single (line_linear m x y z f hne)⟩
        rw [intendedMove, if_neg fun hstands => hne (hnil.mpr hstands), hf]
        rfl
  | arc center =>
      obtain ⟨p, i, j, hposition, hi, hj, rfl⟩ := offsetWords_arc hoffset
      have hne : m.targetWords (.arc center) x y z ≠ [] := List.cons_ne_nil _ _
      rcases hcases with ⟨hempty, -⟩ | ⟨-, hcode, -⟩ | ⟨-, -, f, hf, rfl, rfl⟩
      · exact absurd (List.append_eq_nil_iff.mp hempty).1 hne
      · cases hcode
      · rw [List.append_assoc (m.targetWords _ x y z)]
        refine ⟨_, intendedStep_move hx hy hz ?_, obey_single (line_arc m center x y z i j f)⟩
        rw [intendedMove]
        show (match m.position with
          | none => _
          | some p => _) = _
        rw [hposition]
        dsimp only
        rw [hi, hj, hf]
        rfl

/-- A step of the emitter writes lines from which the controller takes what
    the step means, and both are in step again after it. -/
theorem obey_step {precision : Int} {m m' : Modal} {a : Action} {ls : List Line}
    (h : step precision m a = .ok (ls, m')) :
    ∃ events, intendedStep precision m.reached a = .ok (events, m'.reached)
      ∧ m.controller.obey ls = some (m'.controller, events) := by
  cases a with
  | move kind target feed => exact obey_move h
  | dwell seconds =>
      obtain ⟨p, hp, h⟩ := bind_eq_ok.mp h
      obtain ⟨rfl, rfl⟩ := Prod.mk.inj (Except.ok.inj h)
      refine ⟨[.dwell p], ?_, obey_single (line_dwell _ p)⟩
      rw [intendedStep, hp]
      rfl
  | spindle rpm =>
      by_cases hpos : 0 < rpm
      · rw [step, if_pos hpos] at h
        obtain ⟨s, hs, h⟩ := bind_eq_ok.mp h
        obtain ⟨rfl, rfl⟩ := Prod.mk.inj (Except.ok.inj h)
        refine ⟨[.spindleOn s], ?_, obey_single (line_spindleOn _ s)⟩
        rw [intendedStep, if_pos hpos, hs]
        rfl
      · rw [step, if_neg hpos] at h
        obtain ⟨rfl, rfl⟩ := Prod.mk.inj (Except.ok.inj h)
        refine ⟨[.spindleOff], ?_, obey_single (line_spindleOff _)⟩
        rw [intendedStep, if_neg hpos]
  | comment text =>
      obtain ⟨rfl, rfl⟩ := Prod.mk.inj (Except.ok.inj h)
      exact ⟨[], rfl, obey_of_comments (fun _ => comment_of_mem_commentLines) _⟩
  | toolChange text =>
      obtain ⟨rfl, rfl⟩ := Prod.mk.inj (Except.ok.inj h)
      exact ⟨[], rfl, obey_of_comments (fun _ => comment_of_mem_commentLines) _⟩

/-- All steps of the emitter, after the lines written so far. -/
theorem obey_steps {precision : Int} {m : Modal} {written all : List Line}
    {segments : List Segment} (h : steps precision m written segments = .ok all) :
    ∃ (ls : List Line) (m' : Modal) (events : List Event), all = ls.reverse ++ written
      ∧ intendedSteps precision m.reached segments = .ok (events, m'.reached)
      ∧ m.controller.obey ls = some (m'.controller, events) ∧ ∀ l ∈ ls, l.Legible := by
  induction segments generalizing m written with
  | nil =>
      exact ⟨[], m, [], (Except.ok.inj h).symm, rfl, rfl, fun l hl => absurd hl List.not_mem_nil⟩
  | cons s rest ih =>
      rw [steps] at h
      obtain ⟨⟨ls₁, m₁⟩, hstep, h⟩ := bind_eq_ok.mp h
      obtain ⟨es₁, hmeans₁, hobey₁⟩ := obey_step hstep
      obtain ⟨ls₂, m₂, es₂, hall, hmeans₂, hobey₂, hlegible₂⟩ := ih h
      refine ⟨ls₁ ++ ls₂, m₂, es₁ ++ es₂, ?_, ?_, Controller.obey_append hobey₁ hobey₂, ?_⟩
      · rw [hall, List.reverse_append, List.append_assoc]
      · rw [intendedSteps, hmeans₁]
        show (intendedSteps precision m₁.reached rest >>= _) = _
        rw [hmeans₂]
        rfl
      · intro l hl
        rcases List.mem_append.mp hl with hl | hl
        · exact legible_of_step hstep l hl
        · exact hlegible₂ l hl

/-! ## Whole programs -/

/-- After the first lines the controller knows the safe height and nothing
    of the plane. -/
theorem obey_opening (z : String) :
    ({} : Controller).obey (opening z)
      = some (({ mode := 0, z := some z } : Modal).controller,
          [.rapid ⟨none, none, some z⟩, .spindleOff]) := rfl

/-- The end of a program stops the spindle and then the controller. -/
theorem obey_closing (c : Controller) : c.obey closing = some (c, [.spindleOff, .stop]) := rfl

/-- The lines before the first step can be read back. -/
theorem legible_opening {precision : Int} {safeHeight : Float} {z : String}
    (h : number precision safeHeight = .ok z) : ∀ l ∈ opening z, l.Legible := by
  intro l hl
  rw [opening, List.mem_cons, List.mem_cons, List.mem_cons, List.mem_singleton] at hl
  rcases hl with rfl | rfl | rfl | rfl
  · exact legible_single (by decide)
  · exact legible_single (by decide)
  · exact legible_pair (by decide) (legible_number (by decide) h)
  · exact legible_spindleOff

theorem legible_closing : ∀ l ∈ closing, l.Legible := by
  intro l hl
  rw [closing, List.mem_cons, List.mem_singleton] at hl
  rcases hl with rfl | rfl
  · exact legible_spindleOff
  · exact legible_single (by decide)

/-- **Modal suppression loses nothing.**  Whatever the toolpath, a controller
    that reads the text of its program carries out exactly what the toolpath
    means, and its coordinates in the end are those of the last move. -/
theorem execute_emit {precision : Int} {safeHeight : Float} {path : Toolpath} {text : String}
    (h : emit precision safeHeight path = .ok text) :
    ∃ events last c, intended precision safeHeight path.segments = .ok (events, last)
      ∧ Controller.execute text = some (c, events) ∧ c.coordinates = last.coordinates := by
  obtain ⟨program, hlines, rfl⟩ : ∃ program,
      lines precision safeHeight path.segments = .ok program ∧ render program = text := by
    cases hlines : lines precision safeHeight path.segments with
    | error f =>
        rw [emit, hlines] at h
        cases h
    | ok program =>
        rw [emit, hlines] at h
        exact ⟨program, rfl, Except.ok.inj h⟩
  rw [lines, bind_eq_ok] at hlines
  obtain ⟨z, hz, hlines⟩ := hlines
  rw [bind_eq_ok] at hlines
  obtain ⟨written, hsteps, hprogram⟩ := hlines
  obtain ⟨ls, m', events, hwritten, hmeans, hobey, hlegible⟩ := obey_steps hsteps
  have hlist : program = opening z ++ ls ++ closing := by
    rw [← Except.ok.inj hprogram, hwritten, List.append_nil, List.reverse_reverse]
  refine ⟨[.rapid ⟨none, none, some z⟩, .spindleOff] ++ events ++ [.spindleOff, .stop],
    m'.reached, m'.controller, ?_, ?_, rfl⟩
  · rw [intended, hz]
    show (intendedSteps precision (Modal.reached { mode := 0, z := some z }) path.segments
      >>= _) = _
    rw [hmeans]
    rfl
  · have hall : ∀ l ∈ program, l.Legible := by
      intro l hl
      rw [hlist, List.mem_append, List.mem_append] at hl
      rcases hl with (hl | hl) | hl
      · exact legible_opening hz l hl
      · exact hlegible l hl
      · exact legible_closing l hl
    rw [Controller.execute, Controller.readLines_render _ hall, hlist]
    exact Controller.obey_append (Controller.obey_append (obey_opening z) hobey) (obey_closing _)

/-- A toolpath with a cut that is left out whole, whose feed would have been
    another, right before an arc at the old feed. -/
def hiddenFeed : Toolpath :=
  { recorded :=
      [⟨.spindle 0, 5⟩, ⟨.comment "hello\nworld", 4⟩, ⟨.dwell 0.5, 4⟩,
        ⟨.move (.arc ⟨10, 10⟩) ⟨8, 10, -1⟩ 600, 3⟩, ⟨.move .linear ⟨12.0001, 10, -1⟩ 900, 2⟩,
        ⟨.move .linear ⟨12, 10, -1⟩ 600, 2⟩, ⟨.move .linear ⟨10, 10, -1⟩ 200, 1⟩,
        ⟨.move .rapid ⟨10, 10, 0.25⟩ 0, 1⟩, ⟨.move .rapid ⟨10, 10, 5⟩ 0, 1⟩] }

/-- The text of its program. -/
def hiddenFeedText : String :=
  "G90\nG21\nG0 Z5\nM05\nX10 Y10\nZ0.25\nG1 Z-1 F200\nX12 F600\nG3 X8 Y10 I-2 J0\n"
    ++ "G4 P0.5\n; hello\n; world\nM05\nM05\nM02\n"

theorem execute_emit_hiddenFeed :
    emit 3 5 hiddenFeed = .ok hiddenFeedText
      ∧ ∃ events last c, intended 3 5 hiddenFeed.segments = .ok (events, last)
        ∧ Controller.execute hiddenFeedText = some (c, events)
        ∧ c.coordinates = last.coordinates := by
  have hemit : emit 3 5 hiddenFeed = .ok hiddenFeedText := by rfl
  exact ⟨hemit, execute_emit hemit⟩

end MillScript.Gcode
