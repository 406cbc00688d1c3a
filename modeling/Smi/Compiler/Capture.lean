import Smi.Definition.Field
import Smi.Text.Blank
import Smi.Text.Numeral

/-!
# Fields of a macro invocation

The symbols between the name of a macro and `::=` hold the fields of an invocation. A keyword of the
macro takes the value behind it: a single symbol without its quotes, the items of a braced list, or
for `SYNTAX` also an enumeration or a `SEQUENCE OF` with its entry. Symbols that belong to no field
are passed over, and of two values of one keyword the later one counts.
-/

namespace Smi.Capture

/-- The symbols up to the first one that holds a closing brace, and the symbols behind it. Without
such a symbol all of them are taken. -/
def throughBrace : List String → List String × List String
  | [] => ([], [])
  | symbol :: rest =>
    if Text.holds '}' symbol then ([symbol], rest)
    else
      let (taken, left) := throughBrace rest
      (symbol :: taken, left)

/-- What is left is no longer than the whole. -/
theorem length_throughBrace_le (symbols : List String) :
    (throughBrace symbols).2.length ≤ symbols.length := by
  induction symbols with
  | nil => exact Nat.le_refl _
  | cons symbol rest ih =>
    unfold throughBrace
    split
    · exact Nat.le_succ _
    · exact Nat.le_succ_of_le ih

/-- The items between the braces of a list: its parts between commas, without blanks at their ends
and without empty parts. -/
def listItems (braced : String) : List String :=
  ((Text.splitAt ',' (Text.removeFirst '}' (Text.removeFirst '{' braced))).map Text.trim).filter
    fun item => !item.isEmpty

/-- The value that begins with a symbol, and the symbols behind the value. -/
def plainValue (symbol : String) (rest : List String) : FieldValue × List String :=
  let bare := Text.remove '"' symbol
  if !Text.beginsWith '{' bare then (.text bare, rest)
  else if Text.holds '}' symbol then (.list (listItems bare), rest)
  else
    let (taken, left) := throughBrace rest
    (.list (listItems (bare ++ String.join taken)), left)

/-- The content of the first pair of round brackets of a symbol, if it is not empty. -/
def parenthesised? (symbol : String) : Option String :=
  match symbol.toList.dropWhile (· ≠ '(') with
  | _ :: inside =>
    if inside.contains ')' then
      let content := inside.takeWhile (· ≠ ')')
      if content.isEmpty then none else some (String.ofList content)
    else none
  | [] => none

/-- The label of an enumeration member: what stands before the round bracket of its symbol, or the
symbol before it when the bracket comes first. An opening brace in front is no part of it. -/
def memberLabel (previous symbol : String) : String :=
  let raw := match symbol.toList with
    | '(' :: _ :: _ => previous.toList
    | cs => cs.takeWhile (· ≠ '(')
  match Text.trimChars raw with
  | '{' :: label => String.ofList (Text.trimChars label)
  | label => String.ofList label

/-- The code and label of the enumeration member that a symbol completes. -/
def member? (previous symbol : String) : Option (Int64 × String) :=
  (parenthesised? symbol).bind fun code =>
    (Text.readInt64? (Text.trim code)).map (·, memberLabel previous symbol)

/-- The members completed by the symbols behind a base type; a later member of the same code
replaces an earlier one. -/
def members (base : String) (symbols : List String) : OrderedMap Int64 String :=
  .ofList (((base :: symbols).zip symbols).filterMap fun pair => member? pair.1 pair.2)

/-- Whether the next symbol opens a brace. -/
def opensBrace (rest : List String) : Bool :=
  rest.head?.any (Text.beginsWith '{')

/-- The type that begins with a symbol, and the symbols behind the type. -/
def typeValue (symbol : String) (rest : List String) : FieldValue × List String :=
  let bare := Text.remove '"' symbol
  if opensBrace rest && (bare = "INTEGER" || bare = "BITS") then
    let (taken, left) := throughBrace rest
    (.enumeration bare (members symbol taken), left)
  else if bare = "SEQUENCE OF" then
    match rest with
    | entry :: left => (.text ("SEQUENCE OF " ++ entry), left)
    | [] => (.text bare, [])
  else plainValue symbol rest

/-- The value of the field of a keyword. -/
def value (key symbol : String) (rest : List String) : FieldValue × List String :=
  if key = "SYNTAX" then typeValue symbol rest else plainValue symbol rest

/-- A plain value leaves no more symbols than there were. -/
theorem length_plainValue_le (symbol : String) (rest : List String) :
    (plainValue symbol rest).2.length ≤ rest.length := by
  unfold plainValue
  dsimp only
  split
  · exact Nat.le_refl _
  · split
    · exact Nat.le_refl _
    · exact length_throughBrace_le rest

/-- A type leaves no more symbols than there were. -/
theorem length_typeValue_le (symbol : String) (rest : List String) :
    (typeValue symbol rest).2.length ≤ rest.length := by
  unfold typeValue
  dsimp only
  split
  · exact length_throughBrace_le rest
  · split
    · split
      · exact Nat.le_succ _
      · exact Nat.le_refl _
    · exact length_plainValue_le symbol rest

/-- A value leaves no more symbols than there were. -/
theorem length_value_le (key symbol : String) (rest : List String) :
    (value key symbol rest).2.length ≤ rest.length := by
  unfold value
  split
  · exact length_typeValue_le symbol rest
  · exact length_plainValue_le symbol rest

/-- The fields captured from symbols, in the order of their occurrence. A keyword that comes last
has no value and is no field. -/
def fields (keychain : List String) : List String → List (String × FieldValue)
  | key :: symbol :: rest =>
    if key ∈ keychain then
      (key, (value key symbol rest).1) :: fields keychain (value key symbol rest).2
    else fields keychain (symbol :: rest)
  | _ => []
termination_by symbols => symbols.length
decreasing_by
  · have := length_value_le key symbol rest
    simp only [List.length_cons]
    omega
  · simp

/-- The fields captured from symbols by key. -/
def fieldMap (keychain symbols : List String) : OrderedMap String FieldValue :=
  .ofList (fields keychain symbols)

/-- How many symbols behind `::=` may come before the `SYNTAX` of a plain assignment; one farther
away belongs to a later declaration. -/
def typeWindow : Nat :=
  9

/-- The type of a plain assignment, from the symbols behind its `::=`. -/
def trailingType? (symbols : List String) : Option FieldValue :=
  match (symbols.take typeWindow).idxOf? "SYNTAX" with
  | some i =>
    match symbols.drop (i + 1) with
    | symbol :: rest => some (typeValue symbol rest).1
    | [] => none
  | none => none

end Smi.Capture
