import MillScript.Proofs.Evaluation.Scripted

/-! # Evaluation and the frames around it

    Names are bound in the innermost frame, and a frame that is entered is
    left again, whether the work in it succeeds or fails.  So evaluation
    leaves all frames around the innermost one as they are, and work in a
    frame of its own leaves all frames as they are: what it ends with has the
    frame that was entered on top, and leaving that one always succeeds. -/

namespace MillScript

theorem Scopes.depth_eq (s : Scopes) : s.depth = s.outer.size + 1 := by
  have hnonempty := s.nonempty
  rw [depth, outer, Array.size_pop]
  omega

namespace Run

variable {α : Type} {x : Run α}

/-- Work in a frame of its own puts the frames back, if the work keeps those
    around the one it was given. -/
theorem scopes_inFrame_of_outer {w : World}
    (h : (endState (x { w with scopes := w.scopes.push })).scopes.outer = w.scopes.push.outer) :
    (endState (inFrame x w)).scopes = w.scopes := by
  rw [Scopes.outer_push] at h
  rw [inFrame]
  cases hx : x { w with scopes := w.scopes.push } with
  | ok a w' =>
      rw [hx] at h
      have hpop : w'.scopes.pop? = some w.scopes := Scopes.pop?_eq_some h
      show w'.scopes.pop?.getD w'.scopes = w.scopes
      rw [hpop, Option.getD_some]
  | error e w' =>
      rw [hx] at h
      have hpop : w'.scopes.pop? = some w.scopes := Scopes.pop?_eq_some h
      show w'.scopes.pop?.getD w'.scopes = w.scopes
      rw [hpop, Option.getD_some]

theorem scopes_call (line : Int) (args : Arguments) (f : Builtin) (w : World) :
    (endState (call line args f w)).scopes = w.scopes := by
  rw [call_apply]
  cases Call.apply args f (w.job.atLine line) with
  | ok v job => rfl
  | error fault job => rfl

/-- **The frames around the innermost one stay**, however evaluation ends. -/
theorem Scripted.outer (h : Scripted x) (w : World) :
    (endState (x w)).scopes.outer = w.scopes.outer := by
  induction h generalizing w with
  | pure a => rfl
  | @bind _ _ x f _ _ ihx ihf =>
      have hfirst := ihx w
      rw [bind_apply]
      cases hx : x w with
      | error e v =>
          rw [hx] at hfirst
          exact hfirst
      | ok a v =>
          rw [hx] at hfirst
          exact (ihf a v).trans hfirst
  | fail e => rfl
  | locating l _ ih =>
      rw [endState_locating]
      exact ih w
  | inFrame _ ih => rw [scopes_inFrame_of_outer (ih _)]
  | bindName name value => exact w.scopes.outer_bind name value
  | lookup name => rw [endState_lookup]
  | say text => rfl
  | call line args f => rw [scopes_call]

/-- Work in a frame of its own leaves all frames as they were. -/
theorem Scripted.scopes_inFrame (h : Scripted x) (w : World) :
    (endState (Run.inFrame x w)).scopes = w.scopes := scopes_inFrame_of_outer (h.outer _)

/-- The frame that was entered can be left. -/
theorem Scripted.pop?_of_push (h : Scripted x) (w : World) :
    (endState (x { w with scopes := w.scopes.push })).scopes.pop? = some w.scopes := by
  refine Scopes.pop?_eq_some ?_
  rw [h.outer]
  exact w.scopes.outer_push

/-- A block leaves the innermost frame as it was, too. -/
theorem scopes_block (l : Location) (body : List Stmt) (w : World) :
    (endState ((Stmt.block l body).eval w)).scopes = w.scopes := by
  rw [Stmt.eval, endState_locating, endState_andReturn]
  exact (scripted_stmts body).scopes_inFrame w

end Run

end MillScript
