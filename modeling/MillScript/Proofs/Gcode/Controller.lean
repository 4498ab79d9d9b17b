import MillScript.Proofs.Gcode.Text

/-! # A controller

    The machine at the other end of an emitted program.  It reads the text
    line by line; a line that starts with a semicolon is a comment.  What it
    was told last stays in force: the kind of motion, each coordinate and the
    feed, all of them as written.  Nothing is known before the first word.

    `execute` is what the controller does with a text.  Words that it does not
    know, two commands on one line, a move without a kind, a cut without a
    feed or an arc without a centre make it refuse the program.  `obey` is the
    same for lines that have been read already, and `readLines_render` says
    that writing legible lines and reading them changes nothing. -/

namespace MillScript.Gcode

/-- The coordinates that a controller has been told, as written. -/
structure Coordinates where
  x : Option String := none
  y : Option String := none
  z : Option String := none
deriving DecidableEq

/-- What a controller carries out. -/
inductive Event where
  | rapid (target : Coordinates)
  | linear (target : Coordinates) (feed : String)
  | arc (target : Coordinates) (i j feed : String)
  | dwell (seconds : String)
  | spindleOn (speed : String)
  | spindleOff
  | stop
deriving DecidableEq

/-- The kinds of motion, one of which is in force. -/
inductive Mode where
  | rapid
  | linear
  | arc
deriving DecidableEq

/-- What the word that leads a line asks for. -/
inductive Command where
  | motion (mode : Mode)
  /-- Absolute coordinates, or millimetres; the controller has no others. -/
  | setting
  | dwell
  | spindleOn
  | spindleOff
  | stop
deriving DecidableEq

namespace Word

/-- Whether a word is a command and not the value of something. -/
def isCommand (w : Word) : Bool := w.letter == 'G' || w.letter == 'M'

/-- The command that a word is. -/
def command? (w : Word) : Option Command :=
  [(Word.mk 'G' "0", Command.motion .rapid), (⟨'G', "1"⟩, .motion .linear),
    (⟨'G', "3"⟩, .motion .arc), (⟨'G', "4"⟩, .dwell), (⟨'G', "21"⟩, .setting),
    (⟨'G', "90"⟩, .setting), (⟨'M', "02"⟩, .stop), (⟨'M', "03"⟩, .spindleOn),
    (⟨'M', "05"⟩, .spindleOff)].lookup w

/-- The word that some characters spell. -/
def ofChars? : List Char → Option Word
  | [] => none
  | letter :: text => some ⟨letter, String.ofList text⟩

end Word

/-- The value of a letter on a line; the last one counts. -/
def value? (letter : Char) : List Word → Option String
  | [] => none
  | w :: words => (value? letter words).or (if w.letter = letter then some w.text else none)

/-- What a controller remembers. -/
structure Controller where
  mode : Option Mode := none
  coordinates : Coordinates := {}
  feed : Option String := none
deriving DecidableEq

namespace Controller

/-- The letters that a controller knows. -/
def letters : List Char := ['G', 'M', 'X', 'Y', 'Z', 'I', 'J', 'F', 'P', 'S']

/-- The letters that make a line a move. -/
def moveLetters : List Char := ['X', 'Y', 'Z', 'I', 'J']

/-- The controller once it has taken in the coordinates and the feed of a
    line. -/
def told (c : Controller) (words : List Word) : Controller :=
  { c with
    coordinates :=
      ⟨(value? 'X' words).or c.coordinates.x, (value? 'Y' words).or c.coordinates.y,
        (value? 'Z' words).or c.coordinates.z⟩
    feed := (value? 'F' words).or c.feed }

/-- The move in the mode in force, to the coordinates in force. -/
def moved (c : Controller) (words : List Word) : Option Event :=
  match c.mode with
  | none => none
  | some .rapid => some (.rapid c.coordinates)
  | some .linear => do
    let feed ← c.feed
    return .linear c.coordinates feed
  | some .arc => do
    let i ← value? 'I' words
    let j ← value? 'J' words
    let feed ← c.feed
    return .arc c.coordinates i j feed

/-- A line of coordinates, offsets and a feed. -/
def move (c : Controller) (words : List Word) : Option (Controller × List Event) :=
  if words.any fun w => moveLetters.contains w.letter then
    ((c.told words).moved words).map fun event => (c.told words, [event])
  else some (c.told words, [])

/-- A line of words: what is carried out, and what is remembered after it. -/
def line (c : Controller) (words : List Word) : Option (Controller × List Event) :=
  if words.all fun w => letters.contains w.letter then
    match words.filter Word.isCommand with
    | [] => c.move words
    | [w] =>
      match w.command? with
      | some (.motion mode) => { c with mode := some mode }.move words
      | some .setting => some (c, [])
      | some .dwell => (value? 'P' words).map fun p => (c, [.dwell p])
      | some .spindleOn => (value? 'S' words).map fun s => (c, [.spindleOn s])
      | some .spindleOff => some (c, [.spindleOff])
      | some .stop => some (c, [.stop])
      | none => none
    | _ => none
  else none

/-- A line as it stands in the text. -/
def readLine (c : Controller) : List Char → Option (Controller × List Event)
  | [] => some (c, [])
  | ';' :: _ => some (c, [])
  | chars => ((chars.splitOn ' ').mapM Word.ofChars?).bind c.line

/-- Lines of a text one after the other. -/
def readLines (c : Controller) : List (List Char) → Option (Controller × List Event)
  | [] => some (c, [])
  | l :: ls => do
    let (c', events) ← c.readLine l
    let (last, rest) ← readLines c' ls
    return (last, events ++ rest)

/-- What a controller that knows nothing yet does with a text, and what it
    knows in the end. -/
def execute (text : String) : Option (Controller × List Event) :=
  ({} : Controller).readLines (text.toList.splitOn '\n')

/-! ## Lines that have been read already -/

/-- A line of a program. -/
def obeyLine (c : Controller) : Line → Option (Controller × List Event)
  | .code words => c.line words
  | .comment _ => some (c, [])

/-- Lines of a program one after the other. -/
def obey (c : Controller) : List Line → Option (Controller × List Event)
  | [] => some (c, [])
  | l :: ls => do
    let (c', events) ← c.obeyLine l
    let (last, rest) ← obey c' ls
    return (last, events ++ rest)

/-- Reading the characters of legible words gives the words. -/
theorem mapM_ofChars? (words : List Word) :
    (words.map fun w => w.letter :: w.text.toList).mapM Word.ofChars? = some words := by
  induction words with
  | nil => rfl
  | cons w words ih =>
      rw [List.map_cons, List.mapM_cons, ih]
      simp [Word.ofChars?, String.ofList_toList]

/-- Reading the text of a legible line is obeying the line. -/
theorem readLine_render (c : Controller) {l : Line} (h : l.Legible) :
    c.readLine l.render.toList = c.obeyLine l := by
  cases l with
  | code words =>
      obtain ⟨hne, hwords⟩ := h
      obtain ⟨w, rest, rfl⟩ := List.exists_cons_of_ne_nil hne
      obtain ⟨tail, htail⟩ := exists_toList_render_code w rest
      have hread : c.readLine (Line.code (w :: rest)).render.toList
          = (((Line.code (w :: rest)).render.toList.splitOn ' ').mapM Word.ofChars?).bind
              c.line := by
        rw [htail, readLine]
        · exact List.cons_ne_nil _ _
        · intro more hmore
          exact (hwords w List.mem_cons_self).letter.2.2 (List.cons.inj hmore).1
      rw [hread, splitOn_render_code hne hwords, mapM_ofChars?]
      rfl
  | comment text =>
      obtain ⟨tail, htail⟩ := exists_toList_render_comment text
      rw [htail]
      rfl

/-- Reading the text of a legible program is obeying its lines. -/
theorem readLines_render (c : Controller) {ls : List Line} (h : ∀ l ∈ ls, l.Legible) :
    c.readLines ((render ls).toList.splitOn '\n') = c.obey ls := by
  rw [splitOn_render h]
  induction ls generalizing c with
  | nil => rfl
  | cons l ls ih =>
      rw [List.map_cons, List.cons_append, readLines, obey,
        readLine_render c (h l List.mem_cons_self)]
      congr 1
      funext step
      obtain ⟨c', events⟩ := step
      show (c'.readLines _).bind _ = (c'.obey ls).bind _
      rw [ih c' fun l' hl' => h l' (List.mem_cons_of_mem l hl')]

/-- Obeying two programs one after the other. -/
theorem obey_append {c c' last : Controller} {before after : List Line} {es es' : List Event}
    (h : c.obey before = some (c', es)) (h' : c'.obey after = some (last, es')) :
    c.obey (before ++ after) = some (last, es ++ es') := by
  induction before generalizing c es with
  | nil =>
      obtain ⟨rfl, rfl⟩ := Prod.mk.inj (Option.some.inj h)
      exact h'
  | cons l before ih =>
      rw [obey] at h
      obtain ⟨⟨c₁, es₁⟩, hline, h⟩ := Option.bind_eq_some_iff.mp h
      obtain ⟨⟨c₂, es₂⟩, hrest, h⟩ := Option.bind_eq_some_iff.mp h
      obtain ⟨rfl, rfl⟩ := Prod.mk.inj (Option.some.inj h)
      rw [List.cons_append, obey, hline]
      show (c₁.obey (before ++ after)).bind _ = _
      rw [ih hrest, List.append_assoc]
      rfl

end Controller

end MillScript.Gcode
