import Smi.Symbol.Basic
import Smi.Text.Blank

/-!
# Cutting a text into symbols

A scanner reads a text one character at a time. It gathers characters into a pending symbol and
knows whether it stands in plain text, in a quoted string or in a line comment, whether it is
inside the braces of an assigned clause or of a list, and how deep brackets are nested. These
decide whether a blank or a bracket ends the pending symbol or belongs to it, so that
`{ system 1 }` and `(SIZE (0..255))` are one symbol each while the members of a `SEQUENCE` body
are symbols of their own. Every text can be scanned; a string or comment that is not closed runs
to the end of the text.
-/

namespace Smi

/-- What kind of text a scanner stands in. -/
inductive Mode where
  /-- Outside strings and comments. -/
  | plain
  /-- Between double quotes. -/
  | string
  /-- After two hyphens, up to the end of the line. -/
  | comment
  /-- In a comment, after a double quote that is not closed yet. -/
  | quotation
  /-- Outside strings and comments, after a comment that ended inside a quotation. A double quote
  is an ordinary character here. -/
  | unbalanced
  deriving DecidableEq, Repr, Inhabited

/-- Whether blanks and brackets are ordinary characters. -/
def Mode.isVerbatim : Mode → Bool
  | string | comment | quotation => true
  | plain | unbalanced => false

/-- The mode after two hyphens outside a string. -/
def Mode.openComment : Mode → Mode
  | plain => comment
  | unbalanced => quotation
  | mode => mode

/-- The mode after the end of a line outside a string. -/
def Mode.endLine : Mode → Mode
  | comment => plain
  | quotation => unbalanced
  | mode => mode

/-- The two-word keywords that are stored as one symbol. -/
def joined? : String → String → Option String
  | "TYPE", "NOTATION" => some "TYPE NOTATION"
  | "VALUE", "NOTATION" => some "VALUE NOTATION"
  | "SEQUENCE", "OF" => some "SEQUENCE OF"
  | "OBJECT", "IDENTIFIER" => some "OBJECT IDENTIFIER"
  | "OCTET", "STRING" => some "OCTET STRING"
  | _, _ => none

/-- The characters before the first two adjacent hyphens, or all of them. -/
def beforeHyphens : List Char → List Char
  | '-' :: '-' :: _ => []
  | c :: rest => c :: beforeHyphens rest
  | [] => []

/-- The state of a scan. Its counts of brackets have no bound, like its places. None of them exceeds
the number of characters read, so for a text of fewer than `2 ^ 32` characters they are counts of 32
bits. -/
structure Scanner where
  /-- The stored symbols, the newest first. -/
  stored : List Symbol
  /-- The module name declared so far. -/
  declaredName : Option String
  /-- The characters of the pending symbol, the newest first. -/
  pending : List Char
  /-- The place of the first pending character. -/
  start : Position
  /-- The place of the next character. -/
  position : Position
  /-- The character read last. -/
  previous : Option Char
  /-- How many brackets of any kind are open. -/
  depth : Nat
  /-- How many round brackets have been opened and not closed in this line. -/
  rounds : Nat
  mode : Mode
  /-- The symbol stored last is `::=`, and nothing has been gathered since. -/
  afterAssign : Bool
  /-- Inside the braces that follow `::=`. -/
  inClause : Bool
  /-- Inside the braces of a list. -/
  inList : Bool
  deriving DecidableEq, Repr

namespace Scanner

/-- The scanner before any text. -/
def initial : Scanner where
  stored := []
  declaredName := none
  pending := []
  start := .origin
  position := .origin
  previous := none
  depth := 0
  rounds := 0
  mode := .plain
  afterAssign := false
  inClause := false
  inList := false

instance : Inhabited Scanner :=
  ⟨initial⟩

/-- The symbol stored last, if it begins in the line of the pending symbol. -/
def neighbour? (s : Scanner) : Option Symbol :=
  s.stored.head?.filter fun symbol => symbol.position.row == s.start.row

/-- Store a symbol that begins at `start`. The second half of a two-word keyword joins its first
half, the symbol before `DEFINITIONS` becomes the declared name, and an opening brace that does not
follow `::=` opens a list. -/
def store (s : Scanner) (text : String) : Scanner :=
  let neighbour := s.neighbour?.map Symbol.text
  match neighbour.bind fun first => joined? first text with
  | some whole =>
    { s with
      stored := match s.stored with
        | symbol :: rest => { symbol with text := whole } :: rest
        | [] => [] }
  | none =>
    { s with
      stored := ⟨text, s.start⟩ :: s.stored
      declaredName := if text = "DEFINITIONS" then neighbour <|> s.declaredName else s.declaredName
      inList := s.inList || (text = "\x7b" && neighbour ≠ some "::=")
      afterAssign := s.afterAssign || text = "::=" }

/-- End the pending symbol and store what is left of it without blanks at its ends. -/
def flush (s : Scanner) : Scanner :=
  if s.pending.isEmpty then s
  else
    let text := Text.trim (String.ofList s.pending.reverse)
    let s := { s with pending := [], afterAssign := false }
    if text.isEmpty then s else s.store text

/-- Take a character into the pending symbol. -/
def append (s : Scanner) (c : Char) : Scanner :=
  { s with
    start := if s.pending.isEmpty then s.position else s.start
    pending := c :: s.pending }

/-- Store a character as a symbol of its own. -/
def alone (s : Scanner) (c : Char) : Scanner :=
  (s.flush.append c).flush

/-- Whether blanks and opening brackets belong to the pending symbol: in strings and comments, and
inside brackets other than the outer level of a list. -/
def keepsDelimiters (s : Scanner) : Bool :=
  s.mode.isVerbatim || ((s.inClause || 0 < s.depth) && (!s.inList || 0 < s.rounds))

/-- Read a space or a tab. -/
def readSpace (s : Scanner) (c : Char) : Scanner :=
  if s.keepsDelimiters then s.append c else s.flush

/-- Read an opening bracket. -/
def readOpening (s : Scanner) (c : Char) : Scanner :=
  let s := { s with
    inClause := s.inClause || (c = '{' && s.afterAssign)
    depth := s.depth + 1
    rounds := if c = '(' then s.rounds + 1 else s.rounds }
  if s.keepsDelimiters then s.append c else s.alone c

/-- Read a closing bracket, which always belongs to the pending symbol. -/
def readClosing (s : Scanner) (c : Char) : Scanner :=
  let s := { s with
    depth := s.depth - 1
    rounds := if c = ')' then s.rounds - 1 else s.rounds }
  let s := s.append c
  if c = '}' then { s with inClause := false, inList := false } else s

/-- Read a comma or a semicolon. -/
def readSeparator (s : Scanner) (c : Char) : Scanner :=
  if s.mode.isVerbatim then s.append c else s.alone c

/-- Read a line feed or a carriage return. -/
def readLineEnd (s : Scanner) (c : Char) : Scanner :=
  if s.mode = .string then s.append c
  else
    let s := s.flush
    { s with mode := s.mode.endLine, rounds := 0 }

/-- Open a line comment whose two hyphens have just been read: what stands before them is a symbol
of its own. -/
def openComment (s : Scanner) : Scanner :=
  let s := { s with
    mode := s.mode.openComment
    pending := (beforeHyphens s.pending.reverse).reverse }
  let s := s.flush
  { s with
    pending := ['-', '-']
    start := ⟨s.position.row, s.position.column - 1⟩ }

/-- Read a hyphen; the second of two outside a string opens a comment. -/
def readHyphen (s : Scanner) : Scanner :=
  let appended := s.append '-'
  if s.previous = some '-' && s.mode ≠ .string then appended.openComment else appended

/-- Read a double quote. It opens or closes a string in plain text, opens or closes a quotation in
a comment, and is an ordinary character that ends its symbol in unbalanced text. -/
def readQuote (s : Scanner) : Scanner :=
  match s.mode with
  | .plain => { s.flush with mode := .string }.append '"'
  | .string => ({ s with mode := .plain }.append '"').flush
  | .comment => { s with mode := .quotation }.append '"'
  | .quotation => { s with mode := .comment }.append '"'
  | .unbalanced => (s.append '"').flush

/-- Act on one character, without counting it. -/
def read (s : Scanner) (c : Char) : Scanner :=
  match c with
  | ' ' | '\t' => s.readSpace c
  | '{' | '[' | '(' => s.readOpening c
  | '}' | ']' | ')' => s.readClosing c
  | ',' | ';' => s.readSeparator c
  | '\n' | '\r' => s.readLineEnd c
  | '-' => s.readHyphen
  | '"' => s.readQuote
  | c => s.append c

/-- Take in one character. -/
def step (s : Scanner) (c : Char) : Scanner :=
  let s := s.read c
  { s with previous := some c, position := s.position.after c }

/-- Take in a piece of text; a text may be handed over in any number of pieces. -/
def feed (s : Scanner) (text : String) : Scanner :=
  text.toList.foldl step s

/-- The symbol table of a finished text. -/
def finish (s : Scanner) (unit : String) : SymbolTable :=
  let s := s.flush
  ⟨unit, s.declaredName, s.stored.reverse⟩

end Scanner

/-- The symbol table of a text handed over in pieces. -/
def SymbolTable.ofPieces (unit : String) (texts : List String) : SymbolTable :=
  (texts.foldl Scanner.feed .initial).finish unit

/-- The symbol table of a text. -/
def SymbolTable.ofText (unit text : String) : SymbolTable :=
  .ofPieces unit [text]

end Smi
