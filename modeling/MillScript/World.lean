import MillScript.Machining.Motion
import MillScript.Scopes

/-! # Where scripts run

    A world is a job, the variables in scope, and a console that traces the
    run if it is asked to.  Work in a world may fail; what was done before
    the failure stays done. -/

namespace MillScript

/-- What a run prints, and whether it prints at all. -/
structure Console where
  verbose : Bool := false
  printed : String := ""

namespace Console

/-- Prints a text, which is made only if it is wanted. -/
def say (c : Console) (text : Unit → String) : Console :=
  if c.verbose then { c with printed := c.printed ++ text () } else c

end Console

/-- Everything that the run of a script can read and change. -/
structure World where
  job : Job
  scopes : Scopes := {}
  console : Console := {}

namespace World

/-- The world of a machine that has done nothing yet. -/
def ofMachine (m : Machine) : World := { job := { machine := m } }

end World

/-- Work in a world. -/
abbrev Run := EStateM Error World

namespace Run

/-- Goes on with a result; a failure has no place yet. -/
def ofExcept {α : Type} (r : Except Fault α) : Run α := fun w =>
  match r with
  | .ok a => .ok a w
  | .error fault => .error { fault } w

/-- Does machining work; a failure has no place yet. -/
def machining {α : Type} (work : Machining α) : Run α := fun w =>
  match work w.job with
  | .ok a job => .ok a { w with job }
  | .error fault job => .error { fault } { w with job }

/-- Blames failures that have no place on this one. -/
def locating {α : Type} (l : Location) (work : Run α) : Run α := fun w =>
  match work w with
  | .ok a w' => .ok a w'
  | .error e w' => .error (e.locate l) w'

/-- Does work in a fresh frame, which is left in any case. -/
def inFrame {α : Type} (work : Run α) : Run α := fun w =>
  let leave := fun w' : World => { w' with scopes := w'.scopes.pop?.getD w'.scopes }
  match work { w with scopes := w.scopes.push } with
  | .ok a w' => .ok a (leave w')
  | .error e w' => .error e (leave w')

/-- Gives a name a value in the innermost frame. -/
def bindName (name : String) (value : Value) : Run Unit := fun w =>
  .ok () { w with scopes := w.scopes.bind name value }

/-- The value of a name. -/
def lookup (name : String) : Run Value := fun w =>
  match w.scopes.lookup name with
  | some v => .ok v w
  | none => .error { fault := NameFault.undefinedName name } w

/-- Prints a text if the console is verbose. -/
def say (text : World → String) : Run Unit := fun w =>
  .ok () { w with console := w.console.say fun _ => text w }

/-- Sets the line that the next steps of the toolpath come from. -/
def setLine (line : Int) : Run Unit := fun w =>
  .ok () { w with job.path.line := line }

end Run

end MillScript
