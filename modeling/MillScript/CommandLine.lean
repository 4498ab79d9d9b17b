import MillScript.Decimal.Read
import MillScript.FileSystem
import MillScript.Session

/-! # The command line

    The arguments are read first; a mistake in them, or a call for help,
    ends the program before it looks at any file.  Then the scripts run in
    one session, and its G-code is written if all of them ran through.  All
    of it is a function of the arguments and the files. -/

namespace MillScript.CommandLine

/-! ## Arguments -/

/-- Options that are followed by a value. -/
inductive Setting where
  | output
  | materials
  | safeHeight
  | clearance
  | peck
  | precision
deriving DecidableEq

/-- The option of a name. -/
def Setting.ofName? : String → Option Setting
  | "-o" => some .output
  | "--output" => some .output
  | "-m" => some .materials
  | "--materials" => some .materials
  | "--safe-height" => some .safeHeight
  | "--clearance" => some .clearance
  | "--peck" => some .peck
  | "--precision" => some .precision
  | _ => none

/-- What the arguments ask for; a name that is empty was not given. -/
structure Options where
  input : String := ""
  output : String := ""
  /-- A script that runs before the input. -/
  profile : String := ""
  verbose : Bool := false
  config : Config := {}

/-- Why no script is run. -/
inductive Refusal where
  | help
  | lengthExpected (option : String)
  | precisionExpected
  | unknownOption (argument : String)
  | secondInput
  | incomplete
deriving DecidableEq

namespace Refusal

def usage : String :=
  "usage: gcad -o OUTPUT [-v] [-m PROFILE] [--safe-height MM] [--clearance MM]"
    ++ " [--peck MM] [--precision N] INPUT\n"

/-- What is printed about a refusal. -/
def text : Refusal → String
  | .help => usage
  | .lengthExpected option => "error: " ++ option ++ " needs a positive number of mm\n"
  | .precisionExpected => "error: --precision needs an integer from 0 to 9\n"
  | .unknownOption argument =>
    "error: unknown or incomplete option '" ++ argument ++ "'\n" ++ usage
  | .secondInput => "error: more than one input file\n" ++ usage
  | .incomplete => usage

/-- To be asked for help is no failure. -/
def exitCode : Refusal → Nat
  | .help => 0
  | _ => 2

end Refusal

/-- A positive length; infinity counts as one. -/
def length? (text : String) : Option Float :=
  match Decimal.ofWhole? text with
  | some x => if 0 < x then some x else none
  | none => none

/-- A whole number of decimals from 0 to 9. -/
def precision? (text : String) : Option Nat :=
  match Decimal.ofWhole? text with
  | some x => if 0 ≤ x && x ≤ 9 && Decimal.isWhole x then some (Decimal.floor x) else none
  | none => none

namespace Options

/-- The options after one that was given as `name` with a value. -/
def set (o : Options) (name value : String) : Setting → Except Refusal Options
  | .output => .ok { o with output := value }
  | .materials => .ok { o with profile := value }
  | .safeHeight =>
    match length? value with
    | some x => .ok { o with config.safeHeight := x }
    | none => .error (.lengthExpected name)
  | .clearance =>
    match length? value with
    | some x => .ok { o with config.clearance := x }
    | none => .error (.lengthExpected name)
  | .peck =>
    match length? value with
    | some x => .ok { o with config.peckDepth := x }
    | none => .error (.lengthExpected name)
  | .precision =>
    match precision? value with
    | some n => .ok { o with config.precision := n }
    | none => .error .precisionExpected

/-- An argument by itself: the input, unless it looks like an option or
    there is an input already. -/
def addInput (o : Options) (arg : String) : Except Refusal Options :=
  if arg.toList.head? = some '-' then .error (.unknownOption arg)
  else if o.input = "" then .ok { o with input := arg }
  else .error .secondInput

/-- Reads the arguments from the left; the first mistake counts. -/
def readArgs (o : Options) : List String → Except Refusal Options
  | [] => if o.input = "" ∨ o.output = "" then .error .incomplete else .ok o
  | arg :: rest =>
    if arg = "-v" ∨ arg = "--verbose" then readArgs { o with verbose := true } rest
    else if arg = "-h" ∨ arg = "--help" then .error .help
    else
      match Setting.ofName? arg with
      | none =>
        match o.addInput arg with
        | .ok o' => readArgs o' rest
        | .error r => .error r
      | some setting =>
        match rest with
        | [] => .error (.unknownOption arg)
        | value :: rest' =>
          match o.set arg value setting with
          | .ok o' => readArgs o' rest'
          | .error r => .error r

/-- What a list of arguments asks for. -/
def ofArgs (args : List String) : Except Refusal Options := readArgs {} args

/-- The scripts to run, in order. -/
def scripts (o : Options) : List String :=
  if o.profile = "" then [o.input] else [o.profile, o.input]

end Options

/-! ## Running the scripts -/

/-- An error and the script it came up in. -/
structure ScriptError where
  script : String
  error : Error

/-- What the scripts come to: the G-code or an error, and what was printed
    on the way. -/
structure Build where
  result : Except ScriptError String
  printed : String

/-- Runs a script that is read from a file. -/
def runFile (read : String → Option String) (path : String) :
    EStateM ScriptError Session Unit := fun s =>
  match read path with
  | none => .error ⟨path, { fault := ConfigFault.cannotOpen path }⟩ s
  | some source =>
    match Session.run path source s with
    | .ok _ s' => .ok () s'
    | .error e s' => .error ⟨path, e⟩ s'

/-- Runs the scripts of the options and writes out what they made. -/
def build (read : String → Option String) (o : Options) : Build :=
  match Session.ofConfig o.config o.verbose with
  | .error fault => ⟨.error ⟨o.input, { fault }⟩, ""⟩
  | .ok session =>
    match o.scripts.forM (runFile read) session with
    | .error e s => ⟨.error e, s.world.console.printed⟩
    | .ok _ s =>
      match s.output with
      | .ok text => ⟨.ok text, s.world.console.printed⟩
      | .error fault => ⟨.error ⟨o.input, { fault }⟩, s.world.console.printed⟩

/-! ## The whole program -/

/-- What the program leaves behind: a file at most. -/
structure Outcome where
  exitCode : Nat
  stdout : String := ""
  stderr : String := ""
  written : Option (String × String) := none

/-- The end of the program once the scripts have run. -/
def conclude (o : Options) (b : Build) (writable : Bool) : Outcome :=
  match b.result with
  | .error e =>
    { exitCode := 1
      stdout := b.printed
      stderr := "error: " ++ e.script ++ ": " ++ e.error.report ++ "\n" }
  | .ok text =>
    if writable then
      { exitCode := 0
        stdout := b.printed ++ (if o.verbose then "wrote " ++ o.output ++ "\n" else "")
        written := some (o.output, text) }
    else
      { exitCode := 1
        stdout := b.printed
        stderr := "error: cannot write '" ++ o.output ++ "'\n" }

/-- The program. -/
def run (files : FileSystem) (args : List String) : Outcome :=
  match Options.ofArgs args with
  | .error r => { exitCode := r.exitCode, stderr := r.text }
  | .ok o => conclude o (build files.read o) (files.writable o.output)

end MillScript.CommandLine
