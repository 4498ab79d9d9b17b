import MillScript.Evaluation
import MillScript.Gcode.Emit
import MillScript.Program.Lower
import MillScript.SyntaxTree.Parse

/-! # Sessions

    Several scripts may run one after the other in one world, a table of
    materials first and then the job.  A script that fails is taken back:
    machine, variables and toolpath are as they were before it. -/

namespace MillScript

/-- A world and the moves of its toolpath as rows, as of the last script
    that ran through. -/
structure Session where
  world : World
  rows : List Row := []

namespace Session

/-- A session on a machine set up as configured. -/
def ofConfig (config : Config) (verbose : Bool) : Except Fault Session :=
  (Machine.ofConfig config).map fun machine =>
    { world := { World.ofMachine machine with console := { verbose } } }

/-- Prints a text if the console is verbose. -/
def say (s : Session) (text : Unit → String) : Session :=
  { s with world.console := s.world.console.say text }

/-- Takes back what a script did, except for what it printed. -/
def takeBack (before after : World) : World :=
  { job :=
      { machine := before.job.machine
        path := after.job.path.truncate before.job.path.size }
    scopes := before.scopes
    console := after.console }

/-- Runs a script; its name appears in the trace only. -/
def run (name source : String) : EStateM Error Session Unit := fun s =>
  match Tree.ofSource source with
  | .error e => .error e s
  | .ok tree =>
    let s := s.say fun _ => "parse tree of " ++ name ++ "\n" ++ tree.outline
    match tree.toProgram with
    | .error e => .error e s
    | .ok program =>
      match program.run s.world with
      | .error e after => .error e { s with world := takeBack s.world after }
      | .ok _ after =>
        let done : Session := { world := after, rows := after.job.path.rows }
        .ok () (done.say fun _ => name ++ ": " ++ after.job.path.size.repr ++ " segments\n")

/-- The toolpath of the session as G-code. -/
def output (s : Session) : Except Fault String :=
  let config := s.world.job.machine.config
  Gcode.emit config.precision config.safeHeight s.world.job.path

/-- What a script is called that has no name of its own. -/
def unnamed : String := "<string>"

end Session

/-- The G-code of a script. -/
def compile (config : Config) (source : String) : Except Error String :=
  match Session.ofConfig config false with
  | .error fault => .error { fault }
  | .ok session =>
    match Session.run Session.unnamed source session with
    | .error e _ => .error e
    | .ok _ session =>
      match session.output with
      | .ok text => .ok text
      | .error fault => .error { fault }

end MillScript
