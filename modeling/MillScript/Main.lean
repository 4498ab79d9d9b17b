import MillScript.CommandLine

/-! # The program

    Files and arguments are bytes, which the program holds as characters of
    the same numbers. -/

namespace MillScript.Main

open CommandLine

/-- One character for each byte. -/
def ofBytes (bytes : ByteArray) : String :=
  String.ofList (bytes.toList.map fun b => Char.ofNat b.toNat)

/-- The bytes that characters stand for. -/
def toBytes (text : String) : ByteArray :=
  ⟨(text.toList.map fun c => c.toNat.toUInt8).toArray⟩

/-- The name of a file as the system knows it. -/
def fileName (name : String) : String :=
  (String.fromUTF8? (toBytes name)).getD name

/-- Opens a file if it can be opened. -/
def openFile? (name : String) : IO (Option IO.FS.Handle) := do
  try
    return some (← IO.FS.Handle.mk (fileName name) .read)
  catch _ => return none

/-- The text under a name that can be opened; it is empty if there is
    nothing to read, as in a directory. -/
def readFile? (name : String) : IO (Option String) := do
  match ← openFile? name with
  | none => return none
  | some file =>
    try
      return some (ofBytes (← file.readBinToEnd))
    catch _ => return some ""

/-- Writes a file and says whether it could be written. -/
def writeFile (name text : String) : IO Bool := do
  try
    IO.FS.writeBinFile (fileName name) (toBytes text)
    return true
  catch _ => return false

/-- Prints the texts of an outcome. -/
def print (outcome : Outcome) : IO UInt32 := do
  (← IO.getStdout).write (toBytes outcome.stdout)
  (← IO.getStderr).write (toBytes outcome.stderr)
  return outcome.exitCode.toUInt32

end MillScript.Main

open MillScript MillScript.Main MillScript.CommandLine in
/-- Reads the scripts, runs them and writes the G-code. -/
def main (args : List String) : IO UInt32 := do
  match Options.ofArgs (args.map fun arg => ofBytes arg.toUTF8) with
  | .error r => print { exitCode := r.exitCode, stderr := r.text }
  | .ok o =>
    let contents ← o.scripts.mapM fun name => do return (name, ← readFile? name)
    let b := build (fun name => (contents.lookup name).join) o
    match b.result with
    | .ok text => print (conclude o b (← writeFile o.output text))
    | .error _ => print (conclude o b false)
