/-!
# Symbols of a source unit

A source unit is cut into symbols, each with the place where it begins. A symbol table lists the
symbols of one unit in reading order, comments included, together with the module name that the
unit declares for itself. The rows of a table are its symbols grouped by source line.
-/

namespace Smi

/-- A place in a source text: line and column, both counted from zero. The counts have no bound; a
text of fewer than `2 ^ 32` characters stays within counts of 32 bits. -/
structure Position where
  row : Nat
  column : Nat
  deriving DecidableEq, Repr, Inhabited

namespace Position

/-- The start of a text. -/
def origin : Position :=
  ⟨0, 0⟩

/-- The place after a character. Only a line feed begins a new line. -/
def after (position : Position) (c : Char) : Position :=
  if c = '\n' then ⟨position.row + 1, 0⟩ else ⟨position.row, position.column + 1⟩

end Position

/-- A non-empty text without blanks at its ends, and the place of its first character. -/
structure Symbol where
  text : String
  position : Position
  deriving DecidableEq, Repr, Inhabited

/-- Whether the symbol is a comment, which is kept in its table but never compiled. -/
def Symbol.isComment (symbol : Symbol) : Bool :=
  match symbol.text.toList with
  | '-' :: '-' :: _ => true
  | _ => false

/-- The symbols of one source unit in reading order. -/
structure SymbolTable where
  /-- The name under which the text was handed in. -/
  unit : String
  /-- The module name that stands before `DEFINITIONS` in the text. -/
  declaredName : Option String
  symbols : List Symbol
  deriving DecidableEq, Repr, Inhabited

namespace SymbolTable

/-- The declared module name, or else the name of the unit. -/
def moduleName (table : SymbolTable) : String :=
  table.declaredName.getD table.unit

/-- The symbols grouped by source line; lines without symbols have no group. -/
def rows (table : SymbolTable) : List (List Symbol) :=
  table.symbols.splitBy fun a b => a.position.row == b.position.row

/-- The number of symbols. -/
def size (table : SymbolTable) : Nat :=
  table.symbols.length

/-- Whether the unit holds no symbol. -/
def isEmpty (table : SymbolTable) : Bool :=
  table.symbols.isEmpty

/-- The texts of the symbols that are compiled. -/
def compileSequence (table : SymbolTable) : List String :=
  (table.symbols.filter fun symbol => !symbol.isComment).map Symbol.text

end SymbolTable

end Smi
