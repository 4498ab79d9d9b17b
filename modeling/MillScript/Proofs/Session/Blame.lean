import MillScript.Proofs.Evaluation.Innermost
import MillScript.Proofs.Session.Runs
import MillScript.Proofs.Token.BreakingPoint

/-! # Every error has its place in the script

    Whatever makes a run fail, the error is blamed on a place in the script: a
    place that one of its offsets leads to, the end included.  The scanner
    counts its places along the text (`Reached`); parsing and lowering make no
    places of their own (`Session.location_of_run_eq_error`).  What makes that
    easy to say is that both commute with relocation: move all other places
    away, and they give the same trees, programs and errors. -/

namespace MillScript

/-! ## Places that the scanner gets to -/

/-- A place that a part of the text leads to from its start on. -/
def Reached (l : Location) (text : List Char) (m : Location) : Prop :=
  ∃ front, front <+: text ∧ m = l.advance front

namespace Reached

variable {l m : Location} {text : List Char}

theorem here (l : Location) (text : List Char) : Reached l text l :=
  ⟨[], List.nil_prefix, rfl⟩

/-- A text in front moves the start. -/
theorem prepend (front : List Char) (h : Reached (l.advance front) text m) :
    Reached l (front ++ text) m := by
  obtain ⟨more, hmore, rfl⟩ := h
  exact ⟨front ++ more, (List.prefix_append_right_inj front).mpr hmore,
    (Location.advance_append l front more).symm⟩

end Reached

/-- The scanner blames the place where reading breaks. -/
theorem reached_of_scanFrom_eq_error {l : Location} {cs : List Char} {e : Error}
    (h : scanFrom l cs = .error e) : Reached l cs e.location := by
  obtain ⟨front, digits, back, tokens, fault, rfl, -, -, rfl⟩ := scanFrom_eq_error_iff.mp h
  exact ⟨front ++ digits, ⟨back, List.append_assoc front digits back⟩, rfl⟩

/-- The tokens of a text stand at places that it leads to. -/
theorem LaidOut.reached {l : Location} {cs : List Char} {s : TokenStream} (h : LaidOut l cs s) :
    ∀ t ∈ s.tokens, Reached l cs t.location := by
  induction h with
  | stop _ =>
      intro t ht
      cases ht
  | @token l stop gap rest x tokens _ _ _ ih =>
      intro t ht
      rw [List.append_assoc]
      rcases List.mem_cons.mp ht with rfl | ht
      · exact (Reached.here _ _).prepend gap
      · exact ((ih t ht).prepend x.spelling).prepend gap

/-- The places that offsets into a script lead to. -/
def Location.IsIn (source : String) (l : Location) : Prop :=
  ∃ k ≤ source.toList.length, l = after (source.toList.take k)

/-- What is reached from the start of a script is a place in it. -/
theorem Reached.isIn {source : String} {l : Location} (h : Reached .start source.toList l) :
    l.IsIn source := by
  obtain ⟨front, hfront, rfl⟩ := h
  refine ⟨front.length, hfront.length_le, ?_⟩
  rw [Location.start_advance, ← List.prefix_iff_eq_take.mp hfront]

theorem Location.IsIn.one_le_line {source : String} {l : Location} (h : l.IsIn source) :
    1 ≤ l.line := by
  obtain ⟨k, -, rfl⟩ := h
  exact Int.le_add_of_nonneg_right (Int.natCast_nonneg _)

/-- A place in a script is a known one. -/
theorem Location.IsIn.isKnown {source : String} {l : Location} (h : l.IsIn source) :
    l.isKnown = true :=
  decide_eq_true (Int.lt_of_lt_of_le Int.zero_lt_one h.one_le_line)

/-! ## Nothing else makes places -/

/-- Places can be moved into a class of them that has one, so that the places
    of the class stay. -/
theorem exists_retraction {P : Location → Prop} {l : Location} (hl : P l) :
    ∃ f : Location → Location, (∀ m, P (f m)) ∧ ∀ m, P m → f m = m := by
  classical
  refine ⟨fun m => if P m then m else l, ?_, ?_⟩
  · intro m
    dsimp only
    split
    · assumption
    · exact hl
  · intro m hm
    exact if_pos hm

section Closed

variable {f : Location → Location} {P : Location → Prop}

/-- Tokens that are where they belong are not moved. -/
theorem TokenStream.relocate_eq_self {s : TokenStream}
    (htokens : ∀ t ∈ s.tokens, f t.location = t.location) (hstop : f s.stop = s.stop) :
    s.relocate f = s := by
  have hmap : s.tokens.map (Token.relocate f) = s.tokens.map id :=
    List.map_congr_left fun t ht => by rw [Token.relocate, htokens t ht, id]
  rw [TokenStream.relocate, hstop, hmap, List.map_id]

/-- Where relocation changes nothing, the error is of the places that are
    moved to. -/
theorem location_of_relocated_eq_self {α : Type} {move : α → α} {e : Error}
    (hf : ∀ l, P (f l)) (h : relocated f move (.error e) = .error e) : P e.location := by
  injection h with h
  rw [← h]
  exact hf e.location

end Closed

/-- A relocation that leaves the places of a script alone leaves its tree
    alone, and the error if it has none. -/
theorem Tree.relocated_ofSource {f : Location → Location} {source : String}
    (hfix : ∀ m : Location, m.IsIn source → f m = m) :
    relocated f (relocate f) (ofSource source) = ofSource source := by
  rw [ofSource]
  cases hscan : scan source with
  | error e =>
      have he := hfix _ (reached_of_scanFrom_eq_error hscan).isIn
      dsimp only
      rw [relocated, Error.relocate, he]
  | ok s =>
      have hlaid := laidOut_scanFrom hscan
      have htokens : ∀ t ∈ s.tokens, f t.location = t.location :=
        fun t ht => hfix _ (hlaid.reached t ht).isIn
      have hstop : f s.stop = s.stop :=
        hfix _ (Reached.isIn ⟨source.toList, List.prefix_rfl, hlaid.stop_eq⟩)
      dsimp only
      rw [← ofTokens_relocate, TokenStream.relocate_eq_self htokens hstop]

namespace Session

/-- Errors of a program are at places of the program. -/
theorem location_of_carryOut_eq_error {P : Location → Prop}
    (hknown : ∀ l, P l → l.isKnown = true) {name : String} {p : Program} (hp : p.AllPlaces P)
    {s s' : Session} {e : Error} (h : carryOut name p s = .error e s') : P e.location := by
  rw [carryOut] at h
  cases hrun : p.run s.world with
  | ok u after =>
      rw [hrun] at h
      cases h
  | error e' after =>
      rw [hrun] at h
      injection h with he _
      rw [← he]
      exact Run.blames_runAll hknown p.statements hp.2 _ e' after hrun

/-- **Every error has its place in the script.** -/
theorem isIn_of_run_eq_error {name source : String} {s s' : Session} {e : Error}
    (h : run name source s = .error e s') : e.location.IsIn source := by
  obtain ⟨f, hf, hfix⟩ := exists_retraction (P := Location.IsIn source) (Reached.here _ _).isIn
  have htree := Tree.relocated_ofSource hfix
  rw [run_apply] at h
  cases hsource : Tree.ofSource source with
  | error e' =>
      rw [hsource] at h htree
      cases h
      exact location_of_relocated_eq_self hf htree
  | ok t =>
      rw [hsource] at h htree
      injection htree with htree
      have hprogram := t.toProgram_relocate f
      rw [htree] at hprogram
      dsimp only at h
      cases hp : t.toProgram with
      | error e' =>
          rw [hp] at h hprogram
          cases h
          exact location_of_relocated_eq_self hf hprogram.symm
      | ok p =>
          rw [hp] at h hprogram
          injection hprogram with hprogram
          have hplaces : p.AllPlaces (Location.IsIn source) := by
            rw [hprogram]
            exact p.allPlaces_relocate hf
          exact location_of_carryOut_eq_error (fun _ hl => hl.isKnown) hplaces h

open Relation in
/-- **Errors are located at the innermost place.**  A run that fails blames
    its error on a place in the script.  Where all places of a node are known,
    an error of a node that its evaluation leads to is the error of the whole,
    with the same fault and at the same place; and each error comes from a
    node whose own it is, and in which nothing fails. -/
theorem errors_located_innermost :
    (∀ (name source : String) (s s' : Session) (e : Error), run name source s = .error e s' →
      1 ≤ e.location.line
        ∧ ∃ k ≤ source.toList.length, e.location = Location.after (source.toList.take k))
    ∧ (∀ (v v' : Visit) (e : Error) (w : World), v.node.AllPlaces (·.isKnown = true) →
      ReflTransGen Visit.Enters v v' → v'.outcome = .error e w → ∃ w', v.outcome = .error e w')
    ∧ ∀ (v : Visit) (e : Error) (w : World), v.node.AllPlaces (·.isKnown = true) →
      v.outcome = .error e w →
      ∃ v' w', ReflTransGen Visit.Enters v v' ∧ v'.outcome = .error e w'
        ∧ v'.node.Owns e.location ∧ v'.Undisturbed := by
  refine ⟨?_, ?_, ?_⟩
  · intro name source s s' e h
    have hplace := isIn_of_run_eq_error h
    exact ⟨hplace.one_le_line, hplace⟩
  · intro v v' e w hv hreach hv'
    exact Visit.outcome_of_reaches hv hreach hv'
  · intro v e w hv h
    exact Visit.exists_innermost hv h

/-- An attempt that fails is a run that fails. -/
theorem exists_run_of_attempt {s : Session} {script : Script} {e : Error}
    (h : (s.attempt script).1 = some e) : ∃ s', run script.name script.source s = .error e s' := by
  rw [attempt] at h
  cases hrun : run script.name script.source s with
  | ok u s' =>
      rw [hrun] at h
      cases h
  | error e' s' =>
      rw [hrun] at h
      cases h
      exact ⟨s', rfl⟩

/-- A row of holes, the second at no place. -/
def tornRow : Script :=
  ⟨"row", "for i in linspace(0, 1, 2) \x7b\n  drill(1mm / (1 - i), 0mm, depth = 1mm);\n\x7d"⟩

/-- A depth that is counted from one that is not known. -/
def countedDepth : Expr :=
  .binary ⟨2, 13⟩ .add (.number ⟨2, 11⟩ (Quantity.mk 1 none)) (.identifier ⟨2, 15⟩ "last")

/-- The depth in a block. -/
def depthBlock : Stmt := .block ⟨1, 1⟩ [.expr (.assign ⟨2, 3⟩ "depth" countedDepth)]

open Relation in
theorem errors_located_innermost_tornRow :
    let e : Error := ⟨RuntimeFault.divisionByZero, ⟨2, 13⟩⟩
    let lost : Error := ⟨NameFault.undefinedName "last", ⟨2, 15⟩⟩
    let v := Visit.stmt depthBlock standard.world
    (standard.attempt tornRow).1 = some e
      ∧ (∃ k ≤ tornRow.source.toList.length,
          e.location = Location.after (tornRow.source.toList.take k))
      ∧ v.node.AllPlaces (·.isKnown = true)
      ∧ (∃ v' w', ReflTransGen Visit.Enters v v' ∧ v'.outcome = .error lost w')
      ∧ (∃ w, v.outcome = .error lost w)
      ∧ ∃ v' w', ReflTransGen Visit.Enters v v' ∧ v'.outcome = .error lost w'
        ∧ v'.node.Owns lost.location ∧ v'.Undisturbed := by
  intro e lost v
  obtain ⟨hrun, hreaches, hinnermost⟩ := errors_located_innermost
  have hend : (standard.attempt tornRow).1 = some e := by decide +kernel
  obtain ⟨s', hfails⟩ := exists_run_of_attempt hend
  have hplaces : v.node.AllPlaces (·.isKnown = true) :=
    ⟨rfl, ⟨rfl, rfl, rfl, rfl⟩, trivial⟩
  let w : World := { standard.world with scopes := standard.world.scopes.push }
  -- the block, the assignment in it, the sum that is assigned, the name in the sum
  have hfirst : Stmt.evalAll [] w = .ok () w := rfl
  have hname : ReflTransGen Visit.Enters v (.expr (.identifier ⟨2, 15⟩ "last") w) :=
    .tail (.tail (.tail .refl (.inBlock hfirst)) .assigned) (.rhs rfl)
  have hlost : (Visit.expr (.identifier ⟨2, 15⟩ "last") w).outcome = .error lost w := by
    have hunbound : w.scopes.lookup "last" = none :=
      Option.isNone_iff_eq_none.mp (by decide +kernel)
    show Run.locating ⟨2, 15⟩ (Run.lookup "last") w = _
    rw [Run.locating, Run.lookup, hunbound]
    rfl
  obtain ⟨w', hv⟩ := hreaches v _ lost w hplaces hname hlost
  exact ⟨hend, (hrun _ _ _ _ _ hfails).2, hplaces, ⟨_, w, hname, hlost⟩, ⟨w', hv⟩,
    hinnermost v lost w' hplaces hv⟩

end Session

end MillScript
