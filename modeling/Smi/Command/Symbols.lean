import Smi.Command.Result
import Smi.Loader

/-!
# Printing symbols

The symbols command lists the symbols of a file, comments included, one to a line with its line and
column counted from one.
-/

namespace Smi.Symbols

/-- How the command is called under a name. -/
def usage (name : String) : String :=
  "Usage: " ++ name ++ " <file>"

/-- One character as it is printed: line ends and tabs by their escapes. -/
def escapeChar : Char → List Char
  | '\n' => ['\\', 'n']
  | '\r' => ['\\', 'r']
  | '\t' => ['\\', 't']
  | c => [c]

/-- A text as it is printed. -/
def escape (text : String) : String :=
  String.ofList (text.toList.flatMap escapeChar)

/-- The line of a symbol. -/
def symbolLine (symbol : Symbol) : String :=
  toString (symbol.position.row + 1) ++ ":" ++ toString (symbol.position.column + 1) ++ "\t" ++
    escape symbol.text

/-- Run the command under a name. -/
def run (fs : FileSystem) (name : String) (arguments : List String) : CommandResult :=
  match arguments with
  | [path] =>
    match SourceFile.read fs path with
    | .ok file => .success fs ((SymbolTable.ofText file.unit file.text).symbols.map symbolLine)
    | .error e => .failure fs e.message
  | _ => .failure fs (usage name)

end Smi.Symbols
