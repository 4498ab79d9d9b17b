import MillScript.Proofs.Relocation.Evaluation
import MillScript.Proofs.Session.Runs
import MillScript.Proofs.Token.Layout

/-! # Layout does not matter

    Two scripts with the same tokens, however these are spread over lines and
    whatever comments stand between them, are the same but for places: their
    tokens become the same ones when all are moved to one place.  So do their
    trees and programs, and what these do is the same but for the lines of
    steps and the places of errors.  G-code has neither. -/

namespace MillScript

/-! ## What a token says -/

namespace Lexeme

/-- The name of its kind, its text and its unit. -/
def view (x : Lexeme) : String × String × String := (x.kindName, x.text, x.unitName)

/-- The lexeme of a view. -/
def ofView? (v : String × String × String) : Option Lexeme :=
  match v with
  | ("identifier", name, _) => some (.identifier name)
  | ("'for'", _, _) => some .forKeyword
  | ("'in'", _, _) => some .inKeyword
  | ("integer", digits, unit) => some (.integer digits (LengthUnit.ofName? unit))
  | ("decimal", digits, unit) => some (.decimal digits (LengthUnit.ofName? unit))
  | ("string", text, _) => some (.string text)
  | (_, sign, _) => (sign.toList.head?.bind Symbol.ofChar?).map .symbol

/-- Kind, text and unit are all that there is to a lexeme. -/
theorem ofView?_view (x : Lexeme) : ofView? x.view = some x := by
  cases x with
  | integer digits unit =>
      show some (integer digits (LengthUnit.ofName? (Quantity.unitName unit))) = _
      rw [Quantity.ofName?_unitName]
  | decimal digits unit =>
      show some (decimal digits (LengthUnit.ofName? (Quantity.unitName unit))) = _
      rw [Quantity.ofName?_unitName]
  | symbol s => cases s <;> rfl
  | identifier name => rfl
  | forKeyword => rfl
  | inKeyword => rfl
  | string text => rfl

end Lexeme

/-- All tokens at one place, and the end as well. -/
def TokenStream.gathered (s : TokenStream) : TokenStream := s.relocate fun _ => .start

/-- Streams that say the same are the same once they are at one place. -/
theorem TokenStream.gathered_eq {s t : TokenStream}
    (h : s.tokens.map (·.lexeme.view) = t.tokens.map (·.lexeme.view)) :
    s.gathered = t.gathered := by
  have hlexemes : s.tokens.map Token.lexeme = t.tokens.map Token.lexeme := by
    have hviews := congrArg (List.filterMap Lexeme.ofView?) h
    simpa only [List.filterMap_map, Function.comp_def, Lexeme.ofView?_view,
      List.filterMap_eq_map'] using hviews
  have hgather : ∀ u : TokenStream,
      u.gathered = ⟨(u.tokens.map Token.lexeme).map (Token.mk · .start), .start⟩ := by
    intro u
    rw [List.map_map]
    rfl
  rw [hgather, hgather, hlexemes]

/-! ## Outcomes that become the same -/

/-- Outcomes that are relocated to the same one are failures for the same
    fault, or successes that are moved to the same. -/
theorem relocated_eq {f : Location → Location} {α β : Type} {move : α → β} {x y : Except Error α}
    (h : relocated f move x = relocated f move y) :
    (∃ e e', x = .error e ∧ y = .error e' ∧ e.fault = e'.fault)
      ∨ ∃ a b, x = .ok a ∧ y = .ok b ∧ move a = move b := by
  cases x with
  | error e =>
      cases y with
      | error e' =>
          injection h with he
          have hfault := congrArg Error.fault he
          exact .inl ⟨e, e', rfl, rfl, hfault⟩
      | ok b => cases h
  | ok a =>
      cases y with
      | error e' => cases h
      | ok b => exact .inr ⟨a, b, rfl, rfl, Except.ok.inj h⟩

/-- Steps that differ in their lines do the same. -/
theorem Relined.actions {g : Int → Int} {base steps steps' : List Segment}
    (h : Relined g base steps steps') : steps.map Segment.action = steps'.map Segment.action := by
  obtain ⟨new, rfl, rfl⟩ := h
  rw [List.map_append, List.map_append, List.map_map]
  rfl

/-! ## Sessions -/

namespace Session

/-- Sessions with the same machine and variables, and steps that do the
    same. -/
structure SameButLines (s t : Session) : Prop where
  machine : s.world.job.machine = t.world.job.machine
  actions : s.world.job.path.segments.map Segment.action
    = t.world.job.path.segments.map Segment.action
  scopes : s.world.scopes = t.world.scopes

end Session

/-- G-code is made of what steps do. -/
theorem Gcode.steps_congr (precision : Int) {segments segments' : List Segment}
    (h : segments.map Segment.action = segments'.map Segment.action) (m : Modal)
    (written : List Line) :
    steps precision m written segments = steps precision m written segments' := by
  induction segments generalizing segments' m written with
  | nil =>
      cases segments' with
      | nil => rfl
      | cons s' rest' => cases h
  | cons s rest ih =>
      cases segments' with
      | nil => cases h
      | cons s' rest' =>
          rw [List.map_cons, List.map_cons, List.cons.injEq] at h
          rw [steps, steps, h.1]
          exact congrArg _ (funext fun _ => ih h.2 _ _)

namespace Session

/-- G-code has no lines of the script in it. -/
theorem SameButLines.output {s t : Session} (h : SameButLines s t) : s.output = t.output := by
  simp only [Session.output, h.machine, Gcode.emit, Gcode.lines, Gcode.steps_congr _ h.actions]

theorem Agree.sameButLines {s t : Session} (h : Agree s t) : SameButLines s t :=
  ⟨h.world.job.machine, by rw [h.world.job.segments], h.world.scopes⟩

/-- Programs that become the same at one place run alike. -/
theorem matched_run {p q : Program} {w w' : World} (hw : w.Agree w')
    (h : p.relocate (fun _ => .start) = q.relocate fun _ => .start) :
    Matched Error.SameFault (fun v v' : World => v.job.machine = v'.job.machine
        ∧ v.job.path.recorded.map Segment.action = v'.job.path.recorded.map Segment.action
        ∧ v.scopes = v'.scopes) (p.run w) (q.run w') := by
  have hstatements : Stmt.relocateAll (fun _ => .start) p.statements
      = Stmt.relocateAll (fun _ => .start) q.statements := congrArg Program.statements h
  -- both do what the program at one place does, from one of the worlds
  have htwin : ∀ statements, Run.Twin (fun _ => 1) w.job.path.recorded
      (Program.runAll statements)
      (Program.runAll (Stmt.relocateAll (fun _ => .start) statements)) :=
    Run.twin_runAll fun _ => rfl
  have hp := htwin p.statements w w ⟨rfl, .refl _ _, rfl⟩
  have hq := htwin q.statements w' w
    ⟨hw.job.machine.symm, hw.job.recorded ▸ .refl _ _, hw.scopes.symm⟩
  rw [← hstatements] at hq
  rw [Program.run, Program.run]
  generalize Program.runAll p.statements w = r, Program.runAll q.statements w' = r',
    Program.runAll (Stmt.relocateAll (fun _ => .start) p.statements) w = common at hp hq
  cases hp with
  | ok a hv =>
      cases hq with
      | ok _ hv' =>
          exact .ok a ⟨hv.machine.trans hv'.machine.symm,
            hv.steps.actions.trans hv'.steps.actions.symm, hv.scopes.trans hv'.scopes.symm⟩
  | error he hv =>
      cases hq with
      | error he' hv' =>
          exact .error (he.trans he'.symm) ⟨hv.machine.trans hv'.machine.symm,
            hv.steps.actions.trans hv'.steps.actions.symm, hv.scopes.trans hv'.scopes.symm⟩

/-- Programs that become the same at one place are carried out or taken back
    alike. -/
theorem matched_carryOut (name : String) {p q : Program} {s t : Session} (hst : Agree s t)
    (h : p.relocate (fun _ => .start) = q.relocate fun _ => .start) :
    Matched Error.SameFault SameButLines (carryOut name p s) (carryOut name q t) := by
  have hrun := matched_run hst.world h
  cases hp : p.run s.world with
  | ok u w =>
      rw [hp] at hrun
      cases hq : q.run t.world with
      | error e w' =>
          rw [hq] at hrun
          cases hrun
      | ok u' w' =>
          rw [hq] at hrun
          obtain ⟨hmachine, hactions, hscopes⟩ : _ ∧ _ ∧ _ := by
            cases hrun with
            | ok _ hw => exact hw
          rw [carryOut, carryOut, hp, hq]
          refine .ok () ⟨hmachine, ?_, hscopes⟩
          show w.job.path.recorded.reverse.map _ = w'.job.path.recorded.reverse.map _
          rw [List.map_reverse, List.map_reverse, hactions]
  | error e w =>
      rw [hp] at hrun
      cases hq : q.run t.world with
      | ok u' w' =>
          rw [hq] at hrun
          cases hrun
      | error e' w' =>
          rw [hq] at hrun
          have hfault : e.fault = e'.fault := by
            cases hrun with
            | error he _ => exact he
          -- both are taken back to where they started
          have hs : carryOut name p s = .error e { s with world := takeBack s.world w } := by
            rw [carryOut, hp]
          have ht : carryOut name q t = .error e' { t with world := takeBack t.world w' } := by
            rw [carryOut, hq]
          have hback := (agree_of_carryOut_eq_error hs).symm.trans
            (hst.trans (agree_of_carryOut_eq_error ht))
          rw [hs, ht]
          exact .error hfault hback.sameButLines

/-- Scripts with the same tokens run alike. -/
theorem matched_run_of_gathered {a b : String} {x y : TokenStream} (ha : scan a = .ok x)
    (hb : scan b = .ok y) (h : x.gathered = y.gathered) (name : String) (s : Session) :
    Matched Error.SameFault SameButLines (run name a s) (run name b s) := by
  have htrees : relocated (fun _ => .start) (Tree.relocate fun _ => .start) (Tree.ofTokens x)
      = relocated (fun _ => .start) (Tree.relocate fun _ => .start) (Tree.ofTokens y) := by
    rw [← Tree.ofTokens_relocate, ← Tree.ofTokens_relocate]
    exact congrArg Tree.ofTokens h
  rw [run_apply, run_apply, Tree.ofSource, Tree.ofSource, ha, hb]
  dsimp only
  rcases relocated_eq htrees with ⟨e, e', he, he', hfault⟩ | ⟨t, u, ht, hu, htu⟩
  · rw [he, he']
    exact .error hfault (Agree.refl s).sameButLines
  · rw [ht, hu]
    dsimp only
    have hagree : Agree (s.traced name t) (s.traced name u) :=
      (agree_say s _).symm.trans (agree_say s _)
    have hprograms : relocated (fun _ => .start) (Program.relocate fun _ => .start) t.toProgram
        = relocated (fun _ => .start) (Program.relocate fun _ => .start) u.toProgram := by
      rw [← Tree.toProgram_relocate, ← Tree.toProgram_relocate, htu]
    rcases relocated_eq hprograms with ⟨e, e', he, he', hfault⟩ | ⟨p, q, hp, hq, hpq⟩
    · rw [he, he']
      exact .error hfault hagree.sameButLines
    · rw [hp, hq]
      exact matched_carryOut name hagree hpq

end Session

/-- **Layout does not matter.**  Two scripts whose tokens say the same, each
    by its kind, text and unit, give the same G-code or fail for the same
    fault, whatever stands between the tokens. -/
theorem compile_of_same_tokens (config : Config) {a b : String} {x y : TokenStream}
    (ha : scan a = .ok x) (hb : scan b = .ok y)
    (h : x.tokens.map (·.lexeme.view) = y.tokens.map (·.lexeme.view)) :
    (∃ text, compile config a = .ok text ∧ compile config b = .ok text)
      ∨ ∃ e e', compile config a = .error e ∧ compile config b = .error e'
        ∧ e.fault = e'.fault := by
  rw [compile, compile]
  cases Session.ofConfig config false with
  | error fault => exact .inr ⟨_, _, rfl, rfl, rfl⟩
  | ok s =>
      dsimp only
      have hrun := Session.matched_run_of_gathered ha hb (TokenStream.gathered_eq h)
        Session.unnamed s
      generalize Session.run Session.unnamed a s = r, Session.run Session.unnamed b s = r' at hrun
      cases hrun with
      | error he _ => exact .inr ⟨_, _, rfl, rfl, he⟩
      | @ok s' t' _ hst =>
          dsimp only
          rw [hst.output]
          cases t'.output with
          | ok text => exact .inl ⟨text, rfl, rfl⟩
          | error fault => exact .inr ⟨_, _, rfl, rfl, rfl⟩

/-- A hole on one line. -/
def plainHole : String := "drill(0mm,2.5mm,1mm);"

/-- The same tokens over several lines, with comments. -/
def spacedHole : String := "// one\r\ndrill ( 0mm , // x\n\t2.5mm,\n1mm )\n; // done"

/-- The tokens of a hole at given places. -/
def holeTokens (places : List Location) (stop : Location) : TokenStream where
  tokens := List.zipWith Token.mk
    [.identifier "drill", .symbol .openParen, .integer "0" (some .mm), .symbol .comma,
      .decimal "2.5" (some .mm), .symbol .comma, .integer "1" (some .mm), .symbol .closeParen,
      .symbol .semicolon] places
  stop := stop

/-- What both come to. -/
def holeGcode : String :=
  "G90\nG21\nG0 Z5\nM05\nX0 Y2.5\n; tool: 3.175mm cutter, default\nM03 S12000\nZ0.25\n"
    ++ "G1 Z-1 F200\nG0 Z5\nM05\nM02\n"

/-- One line without blanks, and five with comments, make the same hole. -/
theorem compile_of_same_tokens_spacedHole :
    let x := holeTokens [⟨1, 1⟩, ⟨1, 6⟩, ⟨1, 7⟩, ⟨1, 10⟩, ⟨1, 11⟩, ⟨1, 16⟩, ⟨1, 17⟩, ⟨1, 20⟩,
      ⟨1, 21⟩] ⟨1, 22⟩
    let y := holeTokens [⟨2, 1⟩, ⟨2, 7⟩, ⟨2, 9⟩, ⟨2, 13⟩, ⟨3, 2⟩, ⟨3, 7⟩, ⟨4, 1⟩, ⟨4, 5⟩,
      ⟨5, 1⟩] ⟨5, 10⟩
    scan plainHole = .ok x ∧ scan spacedHole = .ok y
      ∧ x.tokens.map (·.lexeme.view) = y.tokens.map (·.lexeme.view)
      ∧ compile {} plainHole = .ok holeGcode ∧ compile {} spacedHole = .ok holeGcode := by
  have hplain : compile {} plainHole = .ok holeGcode := by decide +kernel
  intro x y
  have hx : scan plainHole = .ok x := by decide +kernel
  have hy : scan spacedHole = .ok y := by decide +kernel
  have hviews : x.tokens.map (·.lexeme.view) = y.tokens.map (·.lexeme.view) := by decide +kernel
  refine ⟨hx, hy, hviews, hplain, ?_⟩
  rcases compile_of_same_tokens {} hx hy hviews with ⟨text, htext, hspaced⟩ | ⟨e, e', he, -, -⟩
  · rw [hplain] at htext
    rw [Except.ok.inj htext]
    exact hspaced
  · rw [hplain] at he
    cases he

end MillScript
