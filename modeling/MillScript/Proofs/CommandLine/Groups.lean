import Mathlib.Data.List.Induction
import MillScript.CommandLine
import MillScript.Proofs.Outcome

/-! # Command lines by what they say

    The arguments of a command line are words that belong together in groups
    of one or two: a flag, an option with its value, or a word by itself.
    What is asked for depends only on what is said about each option, and of
    that on the last of it (`described`).  Reading the arguments from the left
    comes to the same (`ofArgs_eq_ok_iff`): the value of an option is never
    taken for a word of its own, whatever it looks like, and the first mistake
    ends the reading.  A word that is empty is no input; it may stand before
    the input but not after it. -/

namespace MillScript.CommandLine

/-! ## Groups -/

/-- What an argument is about. -/
inductive Topic where
  | verbosity
  | setting (s : Setting)
  | input
deriving DecidableEq

/-- Arguments that belong together. -/
inductive Group where
  | flag (name : String) (h : name = "-v" ∨ name = "--verbose")
  | option (s : Setting) (name value : String) (h : Setting.ofName? name = some s)
  | word (text : String) (h : text.toList.head? ≠ some '-')

namespace Group

/-- The words of a group as they stand on the command line. -/
def words : Group → List String
  | flag name _ => [name]
  | option _ name value _ => [name, value]
  | word text _ => [text]

/-- What a group is about. -/
def topic : Group → Topic
  | flag _ _ => .verbosity
  | option s _ _ _ => .setting s
  | word _ _ => .input

/-- What is said about the topic. -/
def value : Group → String
  | flag name _ => name
  | option _ _ value _ => value
  | word text _ => text

end Group

/-- The arguments of groups. -/
def words (gs : List Group) : List String := gs.flatMap Group.words

/-- What is said about a topic, in order. -/
def about (t : Topic) (gs : List Group) : List String :=
  (gs.filter (·.topic = t)).map Group.value

/-- Command lines that say the same about every topic. -/
def SameByTopic (gs gs' : List Group) : Prop := ∀ t, about t gs' = about t gs

/-- A value that an option can have. -/
def Setting.takes (value : String) : Setting → Bool
  | .output | .materials => true
  | .safeHeight | .clearance | .peck => (length? value).isSome
  | .precision => (precision? value).isSome

/-- Groups without a mistake: values that the options can have, and no word
    after the input. -/
structure Readable (gs : List Group) : Prop where
  values : ∀ s, ∀ value ∈ about (.setting s) gs, s.takes value = true
  input : ∀ front text back, about .input gs = front ++ text :: back → text ≠ "" → back = []

/-- A length that is set by the last value of an option. -/
def lengthBy (s : Setting) (default : Float) (gs : List Group) : Float :=
  ((about (.setting s) gs).getLast?.bind length?).getD default

/-- What groups ask for: the last value of each option, or else the
    default. -/
def described (gs : List Group) : Options where
  input := (about .input gs).getLastD ""
  output := (about (.setting .output) gs).getLastD ""
  profile := (about (.setting .materials) gs).getLastD ""
  verbose := !(about .verbosity gs).isEmpty
  config :=
    { safeHeight := lengthBy .safeHeight ({} : Config).safeHeight gs
      clearance := lengthBy .clearance ({} : Config).clearance gs
      peckDepth := lengthBy .peck ({} : Config).peckDepth gs
      precision := match (about (.setting .precision) gs).getLast?.bind precision? with
        | some n => n
        | none => ({} : Config).precision }

/-- Groups that a script is run for. -/
structure Complete (gs : List Group) : Prop extends Readable gs where
  hasInput : (described gs).input ≠ ""
  hasOutput : (described gs).output ≠ ""

/-- What is asked for depends only on what is said about each thing. -/
theorem SameByTopic.described_eq {gs gs' : List Group} (h : SameByTopic gs gs') :
    described gs' = described gs := by
  simp only [described, lengthBy, h _]

/-- Whether groups can be read hangs on their settings and on the words by
    themselves. -/
theorem readable_congr {gs gs' : List Group}
    (hvalues : ∀ s, about (.setting s) gs' = about (.setting s) gs)
    (hinput : about .input gs' = about .input gs) : Readable gs' ↔ Readable gs := by
  constructor
  · rintro ⟨hvalues', hinput'⟩
    exact ⟨fun s => hvalues s ▸ hvalues' s, hinput ▸ hinput'⟩
  · rintro ⟨hvalues', hinput'⟩
    exact ⟨fun s => (hvalues s).symm ▸ hvalues' s, hinput.symm ▸ hinput'⟩

/-- Whether groups are complete hangs only on what is said about each thing. -/
theorem SameByTopic.complete {gs gs' : List Group} (h : SameByTopic gs gs') (hgs : Complete gs) :
    Complete gs' := by
  have hreadable := (readable_congr (fun s => h (.setting s)) (h .input)).mpr hgs.toReadable
  refine ⟨hreadable, ?_, ?_⟩
  · rw [h.described_eq]
    exact hgs.hasInput
  · rw [h.described_eq]
    exact hgs.hasOutput

/-! ## One group more -/

theorem words_cons (g : Group) (gs : List Group) : words (g :: gs) = g.words ++ words gs := rfl

/-- A group more is the last one about its topic. -/
theorem about_concat (t : Topic) (gs : List Group) (g : Group) :
    about t (gs ++ [g]) = if g.topic = t then about t gs ++ [g.value] else about t gs := by
  by_cases h : g.topic = t <;> simp [about, h]

/-- The options after one group more. -/
def Options.take (o : Options) : Group → Except Refusal Options
  | .flag _ _ => .ok { o with verbose := true }
  | .option s name value _ => o.set name value s
  | .word text _ => o.addInput text

/-- An option is taken with a value that it can have, and with any other it is
    a mistake. -/
theorem Options.set_cases (o : Options) (name value : String) (s : Setting) :
    (s.takes value = true ∧ ∃ o', o.set name value s = .ok o')
      ∨ (s.takes value = false ∧ ∃ r, r ≠ .help ∧ o.set name value s = .error r) := by
  cases s with
  | output | materials => exact .inl ⟨rfl, _, rfl⟩
  | safeHeight | clearance | peck =>
      delta set
      rw [Setting.takes]
      cases length? value with
      | none => exact .inr ⟨rfl, _, Refusal.noConfusion, rfl⟩
      | some x => exact .inl ⟨rfl, _, rfl⟩
  | precision =>
      delta set
      rw [Setting.takes]
      cases precision? value with
      | none => exact .inr ⟨rfl, _, Refusal.noConfusion, rfl⟩
      | some n => exact .inl ⟨rfl, _, rfl⟩

/-- Whether a setting takes a value does not hang on what was set before. -/
theorem Options.exists_set_iff (o : Options) (name value : String) (s : Setting) :
    (∃ o', o.set name value s = .ok o') ↔ s.takes value = true := by
  rcases o.set_cases name value s with ⟨htakes, hset⟩ | ⟨htakes, r, -, hset⟩
  · exact ⟨fun _ => htakes, fun _ => hset⟩
  · rw [htakes, hset]
    constructor
    · rintro ⟨o', ho⟩
      cases ho
    · intro h
      cases h

/-- A word is taken for the input as long as there is none. -/
theorem Options.exists_addInput_iff (o : Options) {text : String}
    (h : text.toList.head? ≠ some '-') :
    (∃ o', o.addInput text = .ok o') ↔ o.input = "" := by
  rw [addInput, if_neg h]
  split <;> simp_all

/-- What one group more asks for. -/
theorem described_concat {gs : List Group} {g : Group} {o : Options}
    (h : (described gs).take g = .ok o) : o = described (gs ++ [g]) := by
  cases g with
  | flag name hname =>
      cases h
      simp [described, lengthBy, about_concat, Group.topic]
  | word text hword =>
      rw [Options.take, Options.addInput, if_neg hword] at h
      split at h
      · cases h
        simp [described, lengthBy, about_concat, Group.topic, Group.value]
      · cases h
  | option s name value hname =>
      -- Only the field of the option differs, and it differs by the last value.
      cases s with
      | output | materials =>
          cases h
          simp [described, lengthBy, about_concat, Group.topic, Group.value]
      | safeHeight | clearance | peck =>
          rw [Options.take] at h
          delta Options.set at h
          dsimp only at h
          split at h
          · rename_i x hx
            cases h
            simp [described, lengthBy, about_concat, Group.topic, Group.value, hx]
          · cases h
      | precision =>
          rw [Options.take] at h
          delta Options.set at h
          dsimp only at h
          split at h
          · rename_i n hn
            cases h
            simp [described, lengthBy, about_concat, Group.topic, Group.value, hn]
          · cases h

section Readable

variable {gs : List Group}

/-- A flag can always be added. -/
theorem readable_concat_flag {name : String} (h : name = "-v" ∨ name = "--verbose") :
    Readable (gs ++ [.flag name h]) ↔ Readable gs := by
  apply readable_congr
  · intro s
    simp [about_concat, Group.topic]
  · simp [about_concat, Group.topic]

/-- An option can be added if its value can be read. -/
theorem readable_concat_option {s : Setting} {name value : String}
    (h : Setting.ofName? name = some s) :
    Readable (gs ++ [.option s name value h]) ↔ Readable gs ∧ s.takes value = true := by
  have hinput : about .input (gs ++ [.option s name value h]) = about .input gs := by
    simp [about_concat, Group.topic]
  have hself : about (.setting s) (gs ++ [.option s name value h])
      = about (.setting s) gs ++ [value] := by
    simp [about_concat, Group.topic, Group.value]
  constructor
  · rintro ⟨hvalues, hlast⟩
    refine ⟨⟨fun s' v hv => hvalues s' v ?_, hinput ▸ hlast⟩, ?_⟩
    · rw [about_concat]
      split
      · exact List.mem_append_left _ hv
      · exact hv
    · exact hvalues s value (by rw [hself]; exact List.mem_append_right _ List.mem_cons_self)
  · rintro ⟨⟨hvalues, hlast⟩, htakes⟩
    refine ⟨fun s' v hv => ?_, hinput.symm ▸ hlast⟩
    by_cases hs : s = s'
    · subst hs
      rw [hself, List.mem_append, List.mem_singleton] at hv
      rcases hv with hv | rfl
      · exact hvalues s v hv
      · exact htakes
    · have hother : (Group.option s name value h).topic ≠ .setting s' :=
        fun ht => hs (Topic.setting.inj ht)
      rw [about_concat, if_neg hother] at hv
      exact hvalues s' v hv

/-- Words without a mistake are empty, but for the last. -/
theorem input_eq_empty_iff (h : Readable gs) :
    (described gs).input = "" ↔ ∀ text ∈ about .input gs, text = "" := by
  show (about .input gs).getLastD "" = "" ↔ _
  constructor
  · intro hlast text htext
    by_contra hne
    obtain ⟨front, back, hsplit⟩ := List.append_of_mem htext
    have hback := h.input front text back hsplit hne
    rw [hsplit, hback, List.getLastD_concat] at hlast
    exact hne hlast
  · intro hall
    cases hwords : (about .input gs).getLast? with
    | none => rw [List.getLastD_eq_getLast?, hwords, Option.getD_none]
    | some text =>
        rw [List.getLastD_eq_getLast?, hwords, Option.getD_some]
        exact hall text (List.mem_of_getLast? hwords)

/-- A word can be added if there is no input yet. -/
theorem readable_concat_word {text : String} (h : text.toList.head? ≠ some '-') :
    Readable (gs ++ [.word text h]) ↔ Readable gs ∧ (described gs).input = "" := by
  have hvalues (s : Setting) :
      about (.setting s) (gs ++ [.word text h]) = about (.setting s) gs := by
    simp [about_concat, Group.topic]
  have hwords : about .input (gs ++ [.word text h]) = about .input gs ++ [text] := by
    simp [about_concat, Group.topic, Group.value]
  constructor
  · rintro ⟨hvalues', hlast⟩
    have hempty : ∀ word ∈ about .input gs, word = "" := by
      intro word hword
      by_contra hne
      obtain ⟨front, back, hsplit⟩ := List.append_of_mem hword
      have hback := hlast front word (back ++ [text]) (by rw [hwords, hsplit]; simp) hne
      exact List.append_ne_nil_of_right_ne_nil _ (List.cons_ne_nil _ _) hback
    have hreadable : Readable gs := by
      refine ⟨fun s => hvalues s ▸ hvalues' s, ?_⟩
      intro front word back hsplit hne
      exact absurd (hempty word (hsplit ▸ List.mem_append_right _ List.mem_cons_self)) hne
    exact ⟨hreadable, (input_eq_empty_iff hreadable).mpr hempty⟩
  · rintro ⟨hreadable, hinput⟩
    have hempty := (input_eq_empty_iff hreadable).mp hinput
    refine ⟨fun s => (hvalues s).symm ▸ hreadable.values s, ?_⟩
    intro front word back hsplit hne
    rcases List.eq_nil_or_concat back with rfl | ⟨back', last, rfl⟩
    · rfl
    · rw [hwords, List.concat_eq_append, ← List.cons_append, ← List.append_assoc] at hsplit
      have hgs := (List.append_inj' hsplit rfl).1
      exact absurd (hempty word (hgs ▸ List.mem_append_right _ List.mem_cons_self)) hne

/-- A group is taken if it is no mistake after those before it. -/
theorem exists_take_iff (h : Readable gs) (g : Group) :
    (∃ o, (described gs).take g = .ok o) ↔ Readable (gs ++ [g]) := by
  cases g with
  | flag name hname =>
      rw [readable_concat_flag]
      exact ⟨fun _ => h, fun _ => ⟨_, rfl⟩⟩
  | option s name value hname =>
      rw [readable_concat_option, ← (described gs).exists_set_iff name value s]
      exact ⟨fun htaken => ⟨h, htaken⟩, And.right⟩
  | word text hword =>
      rw [readable_concat_word, ← (described gs).exists_addInput_iff hword]
      exact ⟨fun htaken => ⟨h, htaken⟩, And.right⟩

/-- What can be read with a group more can be read without it. -/
theorem Readable.of_concat {g : Group} (h : Readable (gs ++ [g])) : Readable gs := by
  cases g with
  | flag name hname => exact (readable_concat_flag hname).mp h
  | option s name value hname => exact ((readable_concat_option hname).mp h).1
  | word text hword => exact ((readable_concat_word hword).mp h).1

end Readable

/-! ## Reading from the left -/

/-- The options after groups, one after the other. -/
def Options.takeAll (o : Options) (gs : List Group) : Except Refusal Options :=
  gs.foldlM Options.take o

/-- Taking groups one after the other comes to what they ask for together. -/
theorem takeAll_eq_ok_iff {gs : List Group} {o : Options} :
    Options.takeAll {} gs = .ok o ↔ Readable gs ∧ o = described gs := by
  -- From the right, as it is the last group that counts.
  induction gs using List.reverseRecOn generalizing o with
  | nil =>
      have hreadable : Readable [] :=
        ⟨fun s value hvalue => absurd hvalue List.not_mem_nil,
          fun front text back hsplit => by simp [about] at hsplit⟩
      constructor
      · intro h
        cases h
        exact ⟨hreadable, rfl⟩
      · rintro ⟨-, rfl⟩
        rfl
  | append_singleton gs g ih =>
      have hstep : Options.takeAll {} (gs ++ [g]) = Options.takeAll {} gs >>= (·.take g) := by
        simp [Options.takeAll, List.foldlM_append]
      rw [hstep, bind_eq_ok]
      constructor
      · rintro ⟨before, hbefore, htake⟩
        obtain ⟨hreadable, rfl⟩ := ih.mp hbefore
        exact ⟨(exists_take_iff hreadable g).mp ⟨o, htake⟩, described_concat htake⟩
      · rintro ⟨hreadable, rfl⟩
        have hbefore := hreadable.of_concat
        obtain ⟨o, htake⟩ := (exists_take_iff hbefore g).mpr hreadable
        exact ⟨described gs, ih.mpr ⟨hbefore, rfl⟩, htake.trans (by rw [described_concat htake])⟩

/-- Names of options start with a dash. -/
theorem Setting.head_of_ofName? {name : String} {s : Setting} (h : ofName? name = some s) :
    name.toList.head? = some '-' := by
  rw [ofName?.eq_def] at h
  split at h
  case h_9 => cases h
  all_goals rfl

/-- A call for help. -/
def IsHelp (arg : String) : Prop := arg = "-h" ∨ arg = "--help"

namespace Options

/-- A call for help is answered whatever comes after it. -/
theorem readArgs_help (o : Options) {arg : String} (h : IsHelp arg) (rest : List String) :
    o.readArgs (arg :: rest) = .error .help := by
  rcases h with rfl | rfl
  · rw [readArgs, if_neg (by decide), if_pos (by decide)]
  · rw [readArgs, if_neg (by decide), if_pos (by decide)]

/-- Arguments are read group by group. -/
theorem readArgs_group (o : Options) (g : Group) (rest : List String) :
    o.readArgs (g.words ++ rest) = o.take g >>= fun o' => o'.readArgs rest := by
  cases g with
  | flag name hname =>
      show o.readArgs (name :: rest) = _
      rw [readArgs, if_pos hname]
      rfl
  | option s name value hname =>
      have hflag : ¬ (name = "-v" ∨ name = "--verbose") := by
        rintro (rfl | rfl) <;> cases hname
      have hhelp : ¬ (name = "-h" ∨ name = "--help") := by
        rintro (rfl | rfl) <;> cases hname
      show o.readArgs (name :: value :: rest) = o.set name value s >>= _
      rw [readArgs, if_neg hflag, if_neg hhelp, hname]
      dsimp only
      cases o.set name value s <;> rfl
  | word text hword =>
      have hflag : ¬ (text = "-v" ∨ text = "--verbose") := by
        rintro (rfl | rfl) <;> exact hword rfl
      have hhelp : ¬ (text = "-h" ∨ text = "--help") := by
        rintro (rfl | rfl) <;> exact hword rfl
      have hname : Setting.ofName? text = none := by
        cases hs : Setting.ofName? text with
        | none => rfl
        | some s => exact absurd (Setting.head_of_ofName? hs) hword
      show o.readArgs (text :: rest) = o.addInput text >>= _
      rw [readArgs, if_neg hflag, if_neg hhelp, hname]
      dsimp only
      cases o.addInput text <;> rfl

/-- The words of groups are read group by group. -/
theorem readArgs_words (o : Options) (gs : List Group) (rest : List String) :
    o.readArgs (words gs ++ rest) = o.takeAll gs >>= fun o' => o'.readArgs rest := by
  induction gs generalizing o with
  | nil => rfl
  | cons g gs ih =>
      rw [words_cons, List.append_assoc, readArgs_group]
      cases htake : o.take g with
      | error r => simp [takeAll, htake, bind, Except.bind]
      | ok o' =>
          have hcons : o.takeAll (g :: gs) = o'.takeAll gs := by
            rw [takeAll, List.foldlM_cons, htake, takeAll]
            rfl
          rw [hcons]
          exact ih o'

/-- How reading ends, with the options read so far and the arguments that are
    left. -/
inductive Stops (o : Options) : List String → Except Refusal Options → Prop
  | complete (hinput : o.input ≠ "") (houtput : o.output ≠ "") : Stops o [] (.ok o)
  | incomplete (h : o.input = "" ∨ o.output = "") : Stops o [] (.error .incomplete)
  | help {arg : String} {rest : List String} (h : IsHelp arg) :
      Stops o (arg :: rest) (.error .help)
  | mistake {arg : String} {rest : List String} {r : Refusal} (h : r ≠ .help) :
      Stops o (arg :: rest) (.error r)

/-- Groups are read until reading ends. -/
def ReadsTo (o : Options) (args : List String) (r : Except Refusal Options) : Prop :=
  ∃ gs o' tail, args = words gs ++ tail ∧ o.takeAll gs = .ok o' ∧ Stops o' tail r

/-- Reading may stop before the first group. -/
theorem Stops.readsTo {o : Options} {args : List String} {r : Except Refusal Options}
    (h : Stops o args r) : ReadsTo o args r :=
  ⟨[], o, args, rfl, rfl, h⟩

/-- Reading goes on after a group that is taken. -/
theorem ReadsTo.group {o o' : Options} {g : Group} {args : List String}
    {r : Except Refusal Options} (htake : o.take g = .ok o') (h : ReadsTo o' args r) :
    ReadsTo o (g.words ++ args) r := by
  obtain ⟨gs, o'', tail, rfl, htakes, hstops⟩ := h
  refine ⟨g :: gs, o'', tail, ?_, ?_, hstops⟩
  · rw [words_cons, List.append_assoc]
  · rw [takeAll, List.foldlM_cons, htake]
    exact htakes

/-- A value that is refused is no call for help. -/
theorem ne_help_of_set {o : Options} {name value : String} {s : Setting} {r : Refusal}
    (h : o.set name value s = .error r) : r ≠ .help := by
  rcases o.set_cases name value s with ⟨-, o', hset⟩ | ⟨-, r', hr', hset⟩
  · rw [hset] at h
    cases h
  · rw [hset] at h
    cases h
    exact hr'

theorem ne_help_of_addInput {o : Options} {arg : String} {r : Refusal}
    (h : o.addInput arg = .error r) : r ≠ .help := by
  rw [addInput] at h
  split at h
  · cases h
    exact Refusal.noConfusion
  · split at h <;> cases h
    exact Refusal.noConfusion

/-- What is taken for the input does not look like an option. -/
theorem head_of_addInput {o o' : Options} {arg : String} (h : o.addInput arg = .ok o') :
    arg.toList.head? ≠ some '-' := by
  intro hdash
  rw [addInput, if_pos hdash] at h
  cases h

/-- Arguments are read as groups up to where reading stops. -/
theorem readsTo_readArgs (o : Options) (args : List String) :
    ReadsTo o args (o.readArgs args) := by
  fun_induction readArgs o args with
  | case1 o h => exact (Stops.incomplete h).readsTo
  | case2 o h => exact (Stops.complete (fun hi => h (.inl hi)) fun ho => h (.inr ho)).readsTo
  | case3 o arg rest hflag ih => exact ReadsTo.group (g := .flag arg hflag) rfl ih
  | case4 o arg rest _ hhelp => exact (Stops.help hhelp).readsTo
  | case5 o arg rest _ _ _ o' hadd ih =>
      exact ReadsTo.group (g := .word arg (head_of_addInput hadd)) hadd ih
  | case6 o arg rest _ _ _ r hadd => exact (Stops.mistake (ne_help_of_addInput hadd)).readsTo
  | case7 o arg _ _ s _ => exact (Stops.mistake Refusal.noConfusion).readsTo
  | case8 o arg _ _ s hs value rest o' hset ih =>
      exact ReadsTo.group (g := .option s arg value hs) hset ih
  | case9 o arg _ _ s _ value rest r hset => exact (Stops.mistake (ne_help_of_set hset)).readsTo

/-- **Arguments are read as their groups describe them**, if they are groups
    without a mistake that name an input and an output. -/
theorem ofArgs_eq_ok_iff {args : List String} {o : Options} :
    ofArgs args = .ok o ↔ ∃ gs, args = words gs ∧ Complete gs ∧ o = described gs := by
  constructor
  · intro h
    have hreads := readsTo_readArgs {} args
    rw [← ofArgs, h] at hreads
    obtain ⟨gs, o', tail, rfl, htakes, hstops⟩ := hreads
    cases hstops with
    | complete hinput houtput =>
        obtain ⟨hreadable, rfl⟩ := takeAll_eq_ok_iff.mp htakes
        exact ⟨gs, List.append_nil _, ⟨hreadable, hinput, houtput⟩, rfl⟩
  · rintro ⟨gs, rfl, hgs, rfl⟩
    have hend : ¬ ((described gs).input = "" ∨ (described gs).output = "") :=
      not_or.mpr ⟨hgs.hasInput, hgs.hasOutput⟩
    have htakes := takeAll_eq_ok_iff.mpr ⟨hgs.toReadable, rfl⟩
    rw [ofArgs, ← List.append_nil (words gs), readArgs_words, htakes]
    show (described gs).readArgs [] = _
    rw [readArgs, if_neg hend]

/-- Help is called for after groups without a mistake. -/
def AsksForHelp (args : List String) : Prop :=
  ∃ gs arg rest, args = words gs ++ arg :: rest ∧ IsHelp arg ∧ Readable gs

/-- **Help is shown just if it is asked for** before anything is refused. -/
theorem ofArgs_eq_help_iff {args : List String} :
    ofArgs args = .error .help ↔ AsksForHelp args := by
  constructor
  · intro h
    have hreads := readsTo_readArgs {} args
    rw [← ofArgs, h] at hreads
    obtain ⟨gs, o', tail, rfl, htakes, hstops⟩ := hreads
    cases hstops with
    | help hhelp => exact ⟨gs, _, _, rfl, hhelp, (takeAll_eq_ok_iff.mp htakes).1⟩
    | mistake hne => exact absurd rfl hne
  · rintro ⟨gs, arg, rest, rfl, hhelp, hgs⟩
    rw [ofArgs, readArgs_words, takeAll_eq_ok_iff.mpr ⟨hgs, rfl⟩]
    exact (described gs).readArgs_help hhelp rest

end Options

end MillScript.CommandLine
