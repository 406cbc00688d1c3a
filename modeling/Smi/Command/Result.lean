import Smi.FileSystem

/-!
# Results of commands

A command reads its arguments and the files that they name. Its result is what it prints, its exit
code and the file system after it.
-/

namespace Smi

/-- What a command leaves behind. -/
structure CommandResult where
  code : Nat
  output : String
  errors : String
  files : FileSystem
  deriving DecidableEq, Repr

namespace CommandResult

/-- Lines of text, each with its end. -/
def linesText (lines : List String) : String :=
  String.join (lines.map (· ++ "\n"))

/-- A command that prints lines and succeeds. -/
def success (files : FileSystem) (lines : List String) : CommandResult :=
  ⟨0, linesText lines, "", files⟩

/-- A command that prints a message about its failure. -/
def failure (files : FileSystem) (message : String) : CommandResult :=
  ⟨1, "", message ++ "\n", files⟩

end CommandResult

end Smi
