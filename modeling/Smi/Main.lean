import Smi.Command.Dump
import Smi.Command.Symbols

/-!
# Command line

The first argument selects the command, `mibdump` or `tokenize`, and the others are handed to it.
Before the command runs, what the paths among its arguments lead to is read into a file system; the
files that it writes are written afterwards.
-/

namespace Smi

/-- What an open handle leads to. A directory can be opened but has no content to read. -/
def readHandle (handle : IO.FS.Handle) : IO FileSystem.Entry := do
  try return .file (← handle.readBinToEnd).data.toList catch _ => return .directory

/-- What is at a path on disk. -/
def readEntry? (path : String) : IO (Option FileSystem.Entry) := do
  try return some (← readHandle (← IO.FS.Handle.mk path .read)) catch _ => return none

/-- The file system with everything on the way along a path. -/
def readPath (fs : FileSystem) (path : String) : IO FileSystem := do
  let names := FileSystem.namesOf path
  let mut fs := fs
  for i in [0:names.length] do
    let start := "/".intercalate (names.take (i + 1))
    match ← readEntry? start with
    | some (.file content) => fs := fs.provide start content
    | some .directory => fs := fs.provideDirectory start
    | none => pure ()
  return fs

/-- Write the file at a path if it is not the same as before. -/
def writeChanged (before after : FileSystem) (path : String) : IO Unit := do
  match before.read path, after.read path with
  | .ok old, .ok new => if old ≠ new then IO.FS.writeBinFile path ⟨new.toArray⟩
  | .error _, .ok new => IO.FS.writeBinFile path ⟨new.toArray⟩
  | _, .error _ => pure ()

/-- Run one of the commands with its arguments. -/
def runCommand (fs : FileSystem) : List String → Option CommandResult
  | "mibdump" :: arguments => some (Dump.run fs arguments)
  | "tokenize" :: arguments => some (Symbols.run fs "tokenize" arguments)
  | _ => none

end Smi

open Smi in
/-- Run a command of the library. -/
def main (arguments : List String) : IO UInt32 := do
  let working := FileSystem.namesOf (← IO.currentDir).toString
  let paths := arguments.drop 1
  let fs ← paths.foldlM readPath (.empty (working.filter fun name => name ≠ ""))
  match runCommand fs arguments with
  | none =>
    IO.eprintln "Usage: smi mibdump|tokenize <argument>..."
    return 1
  | some result =>
    for path in paths do
      try writeChanged fs result.files path catch _ => pure ()
    IO.print result.output
    IO.eprint result.errors
    return UInt32.ofNat result.code
