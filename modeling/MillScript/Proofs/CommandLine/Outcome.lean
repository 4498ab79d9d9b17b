import MillScript.Proofs.CommandLine.Groups

/-! # What the program leaves behind

    A command line is refused for itself, whatever files there are, or its
    scripts are run.  A text is made if each script can be read, runs through
    in the session that those before it left, and the session can be written
    out in the end (`Makes`).  Only then is a file written, and it is the only
    one: the output, with that text. -/

namespace MillScript.CommandLine

variable {files : FileSystem} {o : Options}

/-- Files that are read and run one after the other. -/
inductive RunsFiles (files : FileSystem) : List String → Session → Session → Prop
  | nil {s : Session} : RunsFiles files [] s s
  | cons {name source : String} {names : List String} {s t u : Session}
      (hread : files.read name = some source) (hrun : Session.run name source s = .ok () t)
      (hrest : RunsFiles files names t u) : RunsFiles files (name :: names) s u

/-- The text that a session comes to which runs the profile, if one is named,
    and then the input. -/
def Makes (files : FileSystem) (o : Options) (text : String) : Prop :=
  ∃ s t, Session.ofConfig o.config o.verbose = .ok s
    ∧ RunsFiles files ((if o.profile = "" then [] else [o.profile]) ++ [o.input]) s t
    ∧ t.output = .ok text

/-! ## Scripts -/

/-- A file runs through if it can be read and its script does. -/
theorem runFile_eq_ok {name : String} {s t : Session} :
    runFile files.read name s = .ok () t
      ↔ ∃ source, files.read name = some source ∧ Session.run name source s = .ok () t := by
  rw [runFile]
  cases hread : files.read name with
  | none =>
      constructor
      · intro h
        cases h
      · rintro ⟨source, hsource, -⟩
        cases hsource
  | some source =>
      dsimp only
      constructor
      · intro h
        split at h
        · rename_i hrun
          cases h
          exact ⟨source, rfl, hrun⟩
        · cases h
      · rintro ⟨source', hsource, hrun⟩
        cases hsource
        rw [hrun]

/-- Files run through one after the other, each in the session that the last
    one left. -/
theorem forM_runFile_eq_ok {names : List String} {s t : Session} :
    names.forM (runFile files.read) s = .ok () t ↔ RunsFiles files names s t := by
  induction names generalizing s with
  | nil =>
      constructor
      · intro h
        cases h
        exact .nil
      · intro h
        cases h
        rfl
  | cons name names ih =>
      constructor
      · intro h
        obtain ⟨_, s', hfile, hrest⟩ := bind_apply_eq_ok.mp h
        obtain ⟨source, hread, hrun⟩ := runFile_eq_ok.mp hfile
        exact .cons hread hrun (ih.mp hrest)
      · intro h
        cases h with
        | cons hread hrun hrest =>
            exact bind_apply_eq_ok.mpr ⟨(), _, runFile_eq_ok.mpr ⟨_, hread, hrun⟩, ih.mpr hrest⟩

/-- The scripts of options are the profile, if one is named, and the input. -/
theorem scripts_eq (o : Options) :
    o.scripts = (if o.profile = "" then [] else [o.profile]) ++ [o.input] := by
  rw [Options.scripts]
  split <;> rfl

/-- The build has the text that the options make. -/
theorem build_eq_ok_iff {text : String} :
    (build files.read o).result = .ok text ↔ Makes files o text := by
  rw [build, scripts_eq]
  constructor
  · intro h
    split at h
    · cases h
    · rename_i s hs
      split at h
      · cases h
      · rename_i t ht
        split at h
        · rename_i text' htext
          cases h
          exact ⟨s, t, hs, forM_runFile_eq_ok.mp ht, htext⟩
        · cases h
  · rintro ⟨s, t, hs, ht, htext⟩
    rw [hs]
    dsimp only
    rw [forM_runFile_eq_ok.mpr ht]
    dsimp only
    rw [htext]

/-! ## The end of the program -/

/-- The scripts ran through and there is a place for what they made. -/
def Succeeds (files : FileSystem) (o : Options) : Prop :=
  (∃ text, Makes files o text) ∧ files.writable o.output = true

/-- A text that is made is written if there is a place for it. -/
theorem conclude_of_makes {text : String} (h : Makes files o text)
    (hwritable : files.writable o.output = true) :
    (conclude o (build files.read o) (files.writable o.output)).exitCode = 0
      ∧ (conclude o (build files.read o) (files.writable o.output)).written
        = some (o.output, text) := by
  rw [conclude, build_eq_ok_iff.mpr h, hwritable]
  exact ⟨rfl, rfl⟩

/-- If no text is made or there is no place for it, nothing is written. -/
theorem conclude_of_not_succeeds (h : ¬ Succeeds files o) :
    (conclude o (build files.read o) (files.writable o.output)).exitCode = 1
      ∧ (conclude o (build files.read o) (files.writable o.output)).written = none := by
  rw [conclude]
  split
  · exact ⟨rfl, rfl⟩
  · rename_i text htext
    have hwritable : ¬ files.writable o.output = true :=
      fun hw => h ⟨⟨text, build_eq_ok_iff.mp htext⟩, hw⟩
    rw [if_neg hwritable]
    exact ⟨rfl, rfl⟩

/-- Complete groups come to what they describe. -/
theorem run_words {gs : List Group} (h : Complete gs) :
    run files (words gs)
      = conclude (described gs) (build files.read (described gs))
          (files.writable (described gs).output) := by
  rw [run, Options.ofArgs_eq_ok_iff.mpr ⟨gs, rfl, h, rfl⟩]

/-- What is refused for its arguments needs no files. -/
theorem run_of_refusal {args : List String} {r : Refusal} (h : Options.ofArgs args = .error r)
    (files : FileSystem) : run files args = { exitCode := r.exitCode, stderr := r.text } := by
  rw [run, h]

theorem exitCode_of_ne_help {r : Refusal} (h : r ≠ .help) : r.exitCode = 2 := by
  cases r with
  | help => exact absurd rfl h
  | _ => rfl

/-- **What the program does, by its arguments and the files.**  Arguments that
    are not complete are refused without a look at any file; the exit code is 0
    for help and 2 otherwise.  For complete ones the exit code is 0 or 1.  It
    is 0 if the scripts made a text and the output can be written; then that
    text is written there, and otherwise nothing is.  All of it depends only on
    what is said about each thing, so groups about different things can be
    exchanged; words by themselves are about one thing, the input. -/
theorem outcome_exact (files : FileSystem) :
    (∀ args, (¬ ∃ gs, args = words gs ∧ Complete gs) →
        (∀ files', run files' args = run files args)
          ∧ (run files args).written = none
          ∧ (Options.AsksForHelp args ∧ (run files args).exitCode = 0
            ∨ ¬ Options.AsksForHelp args ∧ (run files args).exitCode = 2))
      ∧ ∀ gs, Complete gs →
        ((∃ text, Makes files (described gs) text
            ∧ files.writable (described gs).output = true
            ∧ (run files (words gs)).exitCode = 0
            ∧ (run files (words gs)).written = some ((described gs).output, text))
          ∨ ¬ Succeeds files (described gs)
            ∧ (run files (words gs)).exitCode = 1 ∧ (run files (words gs)).written = none)
        ∧ ∀ gs', SameByTopic gs gs' → run files (words gs') = run files (words gs) := by
  constructor
  · intro args hargs
    cases hread : Options.ofArgs args with
    | ok o =>
        obtain ⟨gs, hwords, hgs, -⟩ := Options.ofArgs_eq_ok_iff.mp hread
        exact absurd ⟨gs, hwords, hgs⟩ hargs
    | error r =>
        have hrun := run_of_refusal hread
        refine ⟨fun files' => (hrun files').trans (hrun files).symm, ?_, ?_⟩
        · rw [hrun]
        · rw [hrun, ← Options.ofArgs_eq_help_iff, hread]
          by_cases hr : r = .help
          · subst hr
            exact .inl ⟨rfl, rfl⟩
          · exact .inr ⟨fun h => hr (Except.error.inj h), exitCode_of_ne_help hr⟩
  · intro gs hgs
    refine ⟨?_, ?_⟩
    · rw [run_words hgs]
      by_cases h : Succeeds files (described gs)
      · obtain ⟨⟨text, htext⟩, hwritable⟩ := h
        exact .inl ⟨text, htext, hwritable, conclude_of_makes htext hwritable⟩
      · exact .inr ⟨h, conclude_of_not_succeeds h⟩
    · intro gs' hsame
      rw [run_words hgs, run_words (hsame.complete hgs), hsame.described_eq]

/-- A folder with a table of materials and two scripts, one of which needs
    it. -/
def workFolder : Folder :=
  ⟨[("foam", "define_material('foam',0.5,2mm,800,300,12000);"),
    ("plate", "material('foam');drill(1mm,2mm,3mm);"), ("hole", "drill(1mm,2mm,3mm);")]⟩

/-- `-o draft plate --peck 1 -m foam -o -v`, where the last word is a name. -/
def fullLine : List Group :=
  [.option .output "-o" "draft" rfl, .word "plate" (by decide), .option .peck "--peck" "1" rfl,
    .option .materials "-m" "foam" rfl, .option .output "-o" "-v" rfl]

/-- The same in another order. -/
def fullLineMoved : List Group :=
  [.option .materials "-m" "foam" rfl, .option .output "-o" "draft" rfl,
    .option .output "-o" "-v" rfl, .option .peck "--peck" "1" rfl, .word "plate" (by decide)]

/-- What it makes of the plate: three pecks at the speed of foam. -/
def foamPlate : String :=
  "G90\nG21\nG0 Z5\nM05\nX1 Y2\n; tool: 3.175mm cutter, foam\nM03 S12000\nZ0.25\n"
    ++ "G1 Z-1 F300\nG0 Z-0.75\nG1 Z-2\nG0 Z-1.75\nG1 Z-3\nG0 Z5\nM05\nM02\n"

/-- The plate is written to the file named last, in whatever order the options
    stand; an option without its value is refused. -/
theorem outcome_exact_fullLine :
    (run workFolder.fileSystem (words fullLine)).exitCode = 0
      ∧ (run workFolder.fileSystem (words fullLine)).written = some ("-v", foamPlate)
      ∧ Makes workFolder.fileSystem (described fullLine) foamPlate
      ∧ run workFolder.fileSystem (words fullLineMoved)
        = run workFolder.fileSystem (words fullLine)
      ∧ (run workFolder.fileSystem ["-v", "-o"]).exitCode = 2 := by
  obtain ⟨hrefused, hruns⟩ := outcome_exact workFolder.fileSystem
  obtain ⟨o, htakes⟩ : ∃ o, Options.takeAll {} fullLine = .ok o := ⟨_, rfl⟩
  have hcomplete : Complete fullLine :=
    ⟨(takeAll_eq_ok_iff.mp htakes).1, by decide, by decide⟩
  have hsame : SameByTopic fullLine fullLineMoved := by
    intro t
    cases t with
    | setting s => cases s <;> rfl
    | _ => rfl
  have hrun : (run workFolder.fileSystem (words fullLine)).exitCode = 0
      ∧ (run workFolder.fileSystem (words fullLine)).written = some ("-v", foamPlate) := by
    decide +kernel
  have hunread : Options.ofArgs ["-v", "-o"] = .error (.unknownOption "-o") := rfl
  have hincomplete : ¬ ∃ gs, ["-v", "-o"] = words gs ∧ Complete gs := by
    rintro ⟨gs, hwords, hgs⟩
    rw [Options.ofArgs_eq_ok_iff.mpr ⟨gs, hwords, hgs, rfl⟩] at hunread
    cases hunread
  obtain ⟨hend, hmoved⟩ := hruns fullLine hcomplete
  refine ⟨hrun.1, hrun.2, ?_, hmoved fullLineMoved hsame, ?_⟩
  · rcases hend with ⟨text, hmakes, -, -, hwritten⟩ | ⟨-, hexit, -⟩
    · rw [hrun.2] at hwritten
      cases hwritten
      exact hmakes
    · rw [hrun.1] at hexit
      cases hexit
  · rcases (hrefused _ hincomplete).2.2 with ⟨hhelp, -⟩ | ⟨-, hexit⟩
    · rw [Options.ofArgs_eq_help_iff.mpr hhelp] at hunread
      cases hunread
    · exact hexit

/-- `-o drawing '' hole`, with an empty word before the input. -/
def emptyWord : List Group :=
  [.option .output "-o" "drawing" rfl, .word "" (by decide), .word "hole" (by decide)]

/-- The input and an option cannot be exchanged around an empty word, which is
    passed over before the input and one input too many after it. -/
theorem exchange_around_emptyWord :
    Complete emptyWord
      ∧ words emptyWord = ["-o", "drawing", "", "hole"]
      ∧ words emptyWord.reverse = ["hole", "", "-o", "drawing"]
      ∧ (run workFolder.fileSystem (words emptyWord)).exitCode = 0
      ∧ (run workFolder.fileSystem (words emptyWord.reverse)).exitCode = 2 := by
  obtain ⟨o, htakes⟩ : ∃ o, Options.takeAll {} emptyWord = .ok o := ⟨_, rfl⟩
  have hcomplete : Complete emptyWord :=
    ⟨(takeAll_eq_ok_iff.mp htakes).1, by decide, by decide⟩
  exact ⟨hcomplete, rfl, rfl, by decide +kernel, by decide +kernel⟩

end MillScript.CommandLine
