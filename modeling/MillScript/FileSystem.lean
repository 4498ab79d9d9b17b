/-! # Files

    What a program sees of the files around it.  A directory can be opened
    just as a file can, but there is nothing to read in it.  `Folder` is the
    simplest such surrounding: a working folder of files without folders
    below it. -/

namespace MillScript

/-- What stands under a name. -/
inductive Entry where
  | file (contents : String)
  | directory
deriving DecidableEq

/-- The text that is read from an entry. -/
def Entry.text : Entry → String
  | .file contents => contents
  | .directory => ""

/-- What is found under names, and which names can be written. -/
structure FileSystem where
  entry : String → Option Entry
  writable : String → Bool

namespace FileSystem

/-- The text under a name, if the name can be opened. -/
def read (files : FileSystem) (name : String) : Option String :=
  (files.entry name).map Entry.text

end FileSystem

/-! ## A working folder -/

/-- The parts of a path between its slashes. -/
def pathParts : List Char → List (List Char)
  | [] => [[]]
  | '/' :: cs => [] :: pathParts cs
  | c :: cs =>
    match pathParts cs with
    | [] => [[c]]
    | part :: parts => (c :: part) :: parts

/-- The longest name that a file can have. -/
def maxNameLength : Nat := 255

/-- The longest path that is followed at all. -/
def maxPathLength : Nat := 4095

/-- Where a path leads. -/
inductive Place where
  | folder
  | file (name : String)
deriving DecidableEq

/-- Follows a path from a folder without folders below it.  A path that
    names no file ends in a folder, this one or one above it; one that is
    too long, goes on after a name, or goes elsewhere leads nowhere. -/
def place? (path : String) : Option Place :=
  let parts := pathParts path.toList
  if path = "" ∨ maxPathLength < path.length then none
  else if parts.all ([[], ['.'], ['.', '.']].contains ·) then some .folder
  else if path.toList.head? = some '/' then none
  else
    match parts.dropWhile ([[], ['.']].contains ·) with
    | [name] => if name.length ≤ maxNameLength then some (.file (String.ofList name)) else none
    | _ => none

/-- Files by name. -/
structure Folder where
  files : List (String × String) := []

namespace Folder

/-- What a path leads to. -/
def entry (f : Folder) (path : String) : Option Entry :=
  match place? path with
  | some .folder => some .directory
  | some (.file name) => (f.files.lookup name).map .file
  | none => none

/-- Any file can be written, whether it is there already or not. -/
def writable (path : String) : Bool :=
  match place? path with
  | some (.file _) => true
  | _ => false

/-- The files as seen from inside the folder. -/
def fileSystem (f : Folder) : FileSystem := ⟨f.entry, writable⟩

/-- The file that writing a text to a path makes or changes; none if the
    text is there already. -/
def change (f : Folder) (path text : String) : Option (String × String) :=
  match place? path with
  | some (.file name) => if f.files.lookup name = some text then none else some (name, text)
  | _ => none

end Folder

end MillScript
