import MillScript.Proofs.Grammar.Completeness
import MillScript.Proofs.Session.Layout
import MillScript.Proofs.Token.Concatenation

/-! # Two scripts in one

    A session that runs a script and then another does what it does for the
    two as one script, with a line feed between them.  This holds of every
    stage: the tokens are those of the first and then those of the second,
    further down; so are the statements of the tree, and those of the program;
    and to carry them out is to carry out the first and then the second.  Only
    lines tell the two ways apart. -/

namespace MillScript

/-! ## Trees and programs -/

namespace Tree

open Parsing in
/-- The statements of two scripts, one after the other. -/
theorem ofTokens_append {x y : TokenStream} {l m : Location} {first second : List Tree}
    (hx : ofTokens x = .ok (node .program l first))
    (hy : ofTokens y = .ok (node .program m second)) :
    ofTokens (x.append y) = .ok (node .program (x.append y).start (first ++ second)) := by
  obtain ⟨_, hfirst, heq⟩ := derivesProgram_of_ofTokens hx
  cases heq
  obtain ⟨_, hsecond, heq⟩ := derivesProgram_of_ofTokens hy
  cases heq
  have hrun : State.initial.run (x.tokens ++ y.tokens)
      = .ok (.statement (.program (second.reverse ++ (first.reverse ++ [])))) :=
    (run_append _ (hfirst.accepts (.program []))).trans (hsecond.accepts (.program _))
  rw [ofTokens, TokenStream.append, hrun, List.append_nil]
  dsimp only
  rw [State.finish, List.reverse_append, List.reverse_reverse, List.reverse_reverse]

/-- A script that is parsed is scanned, and its tree is that of a program. -/
theorem exists_of_ofSource {source : String} {t : Tree} (h : ofSource source = .ok t) :
    ∃ x l statements, scan source = .ok x ∧ ofTokens x = .ok t
      ∧ t = node .program l statements := by
  rw [ofSource] at h
  split at h
  · rename_i x hx
    obtain ⟨statements, -, ht⟩ := Parsing.derivesProgram_of_ofTokens h
    exact ⟨x, x.start, statements, hx, h, ht⟩
  · cases h

/-- **The tree of two scripts** has the statements of the first and then
    those of the second, further down. -/
theorem ofSource_append {a b : String} {l m : Location} {first second : List Tree}
    (ha : ofSource a = .ok (node .program l first))
    (hb : ofSource b = .ok (node .program m second)) :
    ∃ n, ofSource (a ++ "\n" ++ b) = .ok (node .program n
      (first ++ second.map (relocate (Location.down (a.toList.count '\n' + 1))))) := by
  obtain ⟨x, -, -, hx, hfirst, -⟩ := exists_of_ofSource ha
  obtain ⟨y, -, -, hy, hsecond, -⟩ := exists_of_ofSource hb
  have hmoved := ofTokens_relocate (Location.down (a.toList.count '\n' + 1)) y
  rw [hsecond, relocated, relocate_node] at hmoved
  rw [ofSource, scan_append hx hy]
  exact ⟨_, ofTokens_append hfirst hmoved⟩

/-- Statements after statements are lowered in two parts. -/
theorem lowerStmts_append_eq_ok {ts us : List Tree} {statements : List Stmt} :
    lowerStmts (ts ++ us) = .ok statements ↔
      ∃ p q, lowerStmts ts = .ok p ∧ lowerStmts us = .ok q ∧ statements = p ++ q := by
  induction ts generalizing statements with
  | nil =>
      constructor
      · intro h
        exact ⟨[], statements, rfl, h, rfl⟩
      · rintro ⟨p, q, hp, hq, rfl⟩
        cases hp
        exact hq
  | cons t ts ih =>
      simp only [List.cons_append, lowerStmts, bind_eq_ok, ih]
      constructor
      · rintro ⟨s, hs, rest, ⟨p, q, hp, hq, rfl⟩, heq⟩
        cases heq
        exact ⟨s :: p, q, ⟨s, hs, p, hp, rfl⟩, hq, rfl⟩
      · rintro ⟨_, q, ⟨s, hs, p, hp, heq⟩, hq, rfl⟩
        cases heq
        exact ⟨s, hs, p ++ q, ⟨p, q, hp, hq, rfl⟩, rfl⟩

/-- The statements of two scripts can be made if those of both can. -/
theorem lowerStmts_append_relocate (f : Location → Location) {ts us : List Tree}
    {statements : List Stmt} :
    lowerStmts (ts ++ us.map (relocate f)) = .ok statements ↔
      ∃ p q, lowerStmts ts = .ok p ∧ lowerStmts us = .ok q
        ∧ statements = p ++ Stmt.relocateAll f q := by
  rw [lowerStmts_append_eq_ok, lowerStmts_relocate]
  cases lowerStmts us with
  | error e =>
      constructor
      · rintro ⟨p, q, -, hq, -⟩
        cases hq
      · rintro ⟨p, q, -, hq, -⟩
        cases hq
  | ok q =>
      constructor
      · rintro ⟨p, _, hp, hq, rfl⟩
        cases hq
        exact ⟨p, q, hp, rfl, rfl⟩
      · rintro ⟨p, _, hp, hq, rfl⟩
        cases hq
        exact ⟨p, _, hp, rfl, rfl⟩

end Tree

/-! ## Carrying out both -/

/-- Statements after statements are run in two parts. -/
theorem Program.runAll_append (p q : List Stmt) :
    runAll (p ++ q) = runAll p >>= fun _ => runAll q := by
  induction p with
  | nil => rfl
  | cons s rest ih =>
      rw [List.cons_append, runAll, runAll, ih]
      simp only [bind_assoc]

namespace Run

open Program

variable {f : Location → Location} {g : Int → Int} {w w' m m' : World}

/-- After the first part, the second does the same in both ways but for
    lines. -/
theorem matched_runAll_append (hf : ∀ l, (f l).line = g l.line) {p : List Stmt} (q : List Stmt)
    (hw : w.Agree w') (hp : runAll p w = .ok () m) (hm : m.Agree m') :
    Matched Error.SameFault (World.Relined g m.job.path.recorded) (runAll q m')
      (runAll (p ++ Stmt.relocateAll f q) w') := by
  -- the first part leaves worlds that agree, so the second goes on from the same steps
  have hfirst := (scripted_runAll p).alike hw
  rw [hp] at hfirst
  obtain ⟨n, hn, hmn⟩ := hfirst.exists_ok
  rw [runAll_append, bind_apply, hn]
  refine twin_runAll hf q m' n ⟨?_, ?_, ?_⟩
  · exact hm.job.machine.symm.trans hmn.job.machine
  · rw [← hm.job.recorded, ← hmn.job.recorded]
    exact .refl _ _
  · exact hm.scopes.symm.trans hmn.scopes

/-- Nothing gets through both parts without getting through the first. -/
theorem exists_of_runAll_append {p q : List Stmt} (hw : w.Agree w')
    (h : runAll (p ++ q) w' = .ok () m') : ∃ m, runAll p w = .ok () m := by
  rw [runAll_append, bind_apply_eq_ok] at h
  obtain ⟨_, n, hn, -⟩ := h
  have hfirst := (scripted_runAll p).alike hw.symm
  rw [hn] at hfirst
  obtain ⟨m, hm, -⟩ := hfirst.exists_ok
  exact ⟨m, hm⟩

end Run

/-! ## Sessions -/

namespace Session

/-- A script runs through if its program can be made and carried out. -/
theorem run_eq_ok_iff {name source : String} {l : Location} {statements : List Tree}
    (h : Tree.ofSource source = .ok (.node .program l statements)) {s s' : Session} :
    run name source s = .ok () s' ↔ ∃ p w, Tree.lowerStmts statements = .ok p
      ∧ Program.runAll p (s.traced name (.node .program l statements)).world = .ok () w
      ∧ s' = done name w := by
  have hprogram : (Tree.node .program l statements).toProgram
      = Tree.lowerStmts statements >>= fun p => .ok ⟨l, p⟩ := rfl
  rw [run_apply, h]
  dsimp only
  rw [hprogram]
  constructor
  · intro hrun
    cases hp : Tree.lowerStmts statements with
    | error e =>
        rw [hp] at hrun
        cases hrun
    | ok p =>
        rw [hp] at hrun
        change carryOut name ⟨l, p⟩ _ = _ at hrun
        rw [carryOut, Program.run] at hrun
        split at hrun
        · rename_i w hw
          cases hrun
          exact ⟨p, w, rfl, hw, rfl⟩
        · cases hrun
  · rintro ⟨p, w, hp, hw, rfl⟩
    rw [hp]
    show carryOut name ⟨l, p⟩ _ = _
    rw [carryOut, Program.run, hw]

/-- What is traced makes no difference. -/
theorem agree_traced (s : Session) (x z : String) (t u : Tree) :
    (s.traced x t).world.Agree (s.traced z u).world :=
  ((agree_say s _).symm.trans (agree_say s _)).world

/-- The second script does the same after the first and as a part of the
    whole, but for lines. -/
theorem matched_second (k : Int) (s : Session) {p : List Stmt} (q : List Stmt) {u : World}
    (x y z : String) (t t' t'' : Tree)
    (hu : Program.runAll p (s.traced x t).world = .ok () u) :
    Matched Error.SameFault (World.Relined (· + k) u.job.path.recorded)
      (Program.runAll q ((done x u).traced y t').world)
      (Program.runAll (p ++ Stmt.relocateAll (.down k) q) (s.traced z t'').world) := by
  have hdone : u.Agree ((done x u).traced y t').world := ⟨⟨rfl, rfl⟩, rfl⟩
  exact Run.matched_runAll_append (fun _ => rfl) q (agree_traced s x z t t'') hu hdone

section Append

variable {a b c : String} {l m n : Location} {first second : List Tree} {k : Int}
  (ha : Tree.ofSource a = .ok (.node .program l first))
  (hb : Tree.ofSource b = .ok (.node .program m second))
  (hc : Tree.ofSource c
    = .ok (.node .program n (first ++ second.map (Tree.relocate (Location.down k)))))
  (x y z : String) {s mid v v' : Session}

include ha hb hc

/-- What two scripts did in turn, they do as one. -/
theorem exists_run_append (hfirst : run x a s = .ok () mid) (hsecond : run y b mid = .ok () v) :
    ∃ w, run z c s = .ok () (done z w)
      ∧ World.Relined (· + k) mid.world.job.path.recorded v.world w := by
  obtain ⟨p, w₁, hp, hw₁, rfl⟩ := (run_eq_ok_iff ha).mp hfirst
  obtain ⟨q, w₂, hq, hw₂, rfl⟩ := (run_eq_ok_iff hb).mp hsecond
  have hmatched := matched_second k s q x y z _ (.node .program m second)
    (.node .program n (first ++ second.map (Tree.relocate (Location.down k)))) hw₁
  rw [hw₂] at hmatched
  obtain ⟨w, hw, hrelined⟩ := hmatched.exists_ok
  have hpq := (Tree.lowerStmts_append_relocate (Location.down k)).mpr ⟨p, q, hp, hq, rfl⟩
  refine ⟨w, (run_eq_ok_iff hc).mpr ⟨_, w, hpq, hw, rfl⟩, ?_⟩
  exact ⟨hrelined.machine, hrelined.steps, hrelined.scopes⟩

/-- What two scripts did as one, they do in turn. -/
theorem exists_run_run (h : run z c s = .ok () v') :
    ∃ mid v, run x a s = .ok () mid ∧ run y b mid = .ok () v := by
  obtain ⟨_, w, hpq, hw, -⟩ := (run_eq_ok_iff hc).mp h
  obtain ⟨p, q, hp, hq, rfl⟩ := (Tree.lowerStmts_append_relocate _).mp hpq
  obtain ⟨w₁, hw₁⟩ := Run.exists_of_runAll_append (agree_traced s x z (.node .program l first) _) hw
  have hmatched := matched_second k s q x y z _ (.node .program m second)
    (.node .program n (first ++ second.map (Tree.relocate (Location.down k)))) hw₁
  rw [hw] at hmatched
  obtain ⟨w₂, hw₂, -⟩ := hmatched.exists_ok_left
  exact ⟨done x w₁, done y w₂, (run_eq_ok_iff ha).mpr ⟨p, w₁, hp, hw₁, rfl⟩,
    (run_eq_ok_iff hb).mpr ⟨q, w₂, hq, hw₂, rfl⟩⟩

end Append

/-- **Sessions compose.**  From any session, a script and then another run
    through if and only if the two run through as one script, with a line feed
    between them.  Machine, variables, G-code and steps are then the same,
    except that the steps of the second script come from lines that are
    further down by the line feeds of the first and one. -/
theorem runs_compose {a b : String} {t u : Tree} (ha : Tree.ofSource a = .ok t)
    (hb : Tree.ofSource b = .ok u) (x y z : String) (s : Session) :
    ((∃ mid v, run x a s = .ok () mid ∧ run y b mid = .ok () v)
        ↔ ∃ v, run z (a ++ "\n" ++ b) s = .ok () v)
      ∧ ∀ mid v v', run x a s = .ok () mid → run y b mid = .ok () v →
          run z (a ++ "\n" ++ b) s = .ok () v' →
          v.world.job.machine = v'.world.job.machine
            ∧ v.world.scopes = v'.world.scopes
            ∧ v.output = v'.output
            ∧ ∃ new, v.world.job.path.segments = mid.world.job.path.segments ++ new
              ∧ v'.world.job.path.segments = mid.world.job.path.segments
                ++ new.map (Segment.reline (· + (a.toList.count '\n' + 1))) := by
  obtain ⟨-, l, first, -, -, rfl⟩ := Tree.exists_of_ofSource ha
  obtain ⟨-, m, second, -, -, rfl⟩ := Tree.exists_of_ofSource hb
  obtain ⟨n, hab⟩ := Tree.ofSource_append ha hb
  refine ⟨⟨?_, ?_⟩, ?_⟩
  · rintro ⟨mid, v, hfirst, hsecond⟩
    obtain ⟨w, hw, -⟩ := exists_run_append ha hb hab x y z hfirst hsecond
    exact ⟨done z w, hw⟩
  · rintro ⟨v', hboth⟩
    exact exists_run_run ha hb hab x y z hboth
  · intro mid v v' hfirst hsecond hboth
    obtain ⟨w, hw, hrelined⟩ := exists_run_append ha hb hab x y z hfirst hsecond
    rw [hboth] at hw
    cases hw
    have hactions : v.world.job.path.segments.map Segment.action
        = w.job.path.segments.map Segment.action := by
      rw [Toolpath.segments, Toolpath.segments, List.map_reverse, List.map_reverse,
        hrelined.steps.actions]
    have hsame : SameButLines v (done z w) := ⟨hrelined.machine, hactions, hrelined.scopes⟩
    obtain ⟨new, hnew, hnew'⟩ := hrelined.steps
    refine ⟨hsame.machine, hsame.scopes, hsame.output, new.reverse, ?_, ?_⟩
    · rw [Toolpath.segments, hnew, List.reverse_append]
      rfl
    · show w.job.path.recorded.reverse = _
      rw [hnew', List.reverse_append, ← List.map_reverse]
      rfl

/-- An attempt that succeeds is a run. -/
theorem run_of_attempt {s : Session} {script : Script} (h : (s.attempt script).1 = none) :
    run script.name script.source s = .ok () (s.attempt script).2 := by
  rw [attempt] at h ⊢
  cases hrun : run script.name script.source s with
  | ok u s' => rfl
  | error e s' =>
      rw [hrun] at h
      cases h

/-- A script that runs through is parsed. -/
theorem exists_tree_of_attempt {s : Session} {script : Script} (h : (s.attempt script).1 = none) :
    ∃ t, Tree.ofSource script.source = .ok t := by
  have hrun := run_of_attempt h
  rw [run_apply] at hrun
  cases ht : Tree.ofSource script.source with
  | ok t => exact ⟨t, rfl⟩
  | error e =>
      rw [ht] at hrun
      cases hrun

/-- A script that keeps a depth in a variable, drills a hole on its second
    line and ends in a comment. -/
def firstHole : Script := ⟨"first", "d = 2mm; // deep\ndrill(0mm, 0mm, d); // a hole"⟩

/-- Another hole of that depth. -/
def nextHole : Script := ⟨"next", "drill(4mm, 0mm, d);"⟩

/-- The two as one. -/
def bothHoles : Script := ⟨"both", firstHole.source ++ "\n" ++ nextHole.source⟩

theorem runs_compose_bothHoles :
    let mid := (standard.attempt firstHole).2
    let v := (mid.attempt nextHole).2
    let v' := (standard.attempt bothHoles).2
    (∃ t, Tree.ofSource firstHole.source = .ok t) ∧ (∃ u, Tree.ofSource nextHole.source = .ok u)
      ∧ (standard.attempt firstHole).1 = none ∧ (mid.attempt nextHole).1 = none
      ∧ (standard.attempt bothHoles).1 = none
      ∧ v.world.job.machine = v'.world.job.machine ∧ v.output = v'.output
      ∧ v.world.job.path.segments.map Segment.line = [2, 2, 2, 2, 2, 2, 1, 1, 1, 1]
      ∧ v'.world.job.path.segments.map Segment.line = [2, 2, 2, 2, 2, 2, 3, 3, 3, 3] := by
  intro mid v v'
  have hruns : (standard.attempt firstHole).1 = none ∧ (mid.attempt nextHole).1 = none
      ∧ (standard.attempt bothHoles).1 = none := by decide +kernel
  have hlines : mid.world.job.path.segments.map Segment.line = [2, 2, 2, 2, 2, 2]
      ∧ v.world.job.path.segments.map Segment.line = [2, 2, 2, 2, 2, 2, 1, 1, 1, 1] := by
    decide +kernel
  obtain ⟨t, ht⟩ := exists_tree_of_attempt hruns.1
  obtain ⟨u, hu⟩ := exists_tree_of_attempt hruns.2.1
  obtain ⟨hmachine, -, houtput, new, hv, hv'⟩ := (runs_compose ht hu _ _ bothHoles.name standard).2
    mid v v' (run_of_attempt hruns.1) (run_of_attempt hruns.2.1) (run_of_attempt hruns.2.2)
  refine ⟨⟨t, ht⟩, ⟨u, hu⟩, hruns.1, hruns.2.1, hruns.2.2, hmachine, houtput, hlines.2, ?_⟩
  have hnew : new.map Segment.line = [1, 1, 1, 1] := by
    have hsplit := congrArg (List.map Segment.line) hv
    rw [List.map_append, hlines.1, hlines.2] at hsplit
    simpa using hsplit.symm
  have hcount : firstHole.source.toList.count '\n' = 1 := by decide +kernel
  rw [hv', List.map_append, hlines.1, Segment.lines_reline, hnew, hcount]
  rfl

end Session

end MillScript
