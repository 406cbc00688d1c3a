/-!
# Blank space

Blank characters are those with the Unicode property `White_Space`, whatever plane of text they
come from. Trimming removes them from both ends of a text and `words` cuts a text at them.
-/

namespace Smi.Text

/-- The characters with the Unicode property `White_Space`. -/
def isBlank (c : Char) : Bool :=
  let code := c.toNat
  (0x09 ≤ code && code ≤ 0x0D) || code == 0x20 || code == 0x85 || code == 0xA0 ||
    code == 0x1680 || (0x2000 ≤ code && code ≤ 0x200A) || code == 0x2028 || code == 0x2029 ||
    code == 0x202F || code == 0x205F || code == 0x3000

/-- The characters between the blank ends of a text. -/
def trimChars (cs : List Char) : List Char :=
  ((cs.dropWhile isBlank).reverse.dropWhile isBlank).reverse

/-- The text without the blanks at its two ends. -/
def trim (text : String) : String :=
  String.ofList (trimChars text.toList)

/-- The parts between the characters that `cut` selects, empty parts included. There is always one
part more than there are cuts. -/
def pieces (cut : Char → Bool) : List Char → List (List Char)
  | [] => [[]]
  | c :: rest =>
    if cut c then [] :: pieces cut rest
    else match pieces cut rest with
      | [] => [[c]]
      | first :: others => (c :: first) :: others

/-- The parts of a text between the occurrences of a character. -/
def splitAt (separator : Char) (text : String) : List String :=
  (pieces (· == separator) text.toList).map String.ofList

/-- The words of a text: its longest parts without blanks. -/
def words (text : String) : List String :=
  ((pieces isBlank text.toList).filter fun word => !word.isEmpty).map String.ofList

/-- Whether the first character of a text is `c`. -/
def beginsWith (c : Char) (text : String) : Bool :=
  text.toList.head? == some c

/-- Whether a character occurs in a text. -/
def holds (c : Char) (text : String) : Bool :=
  text.toList.contains c

/-- The text without its occurrences of a character. -/
def remove (c : Char) (text : String) : String :=
  String.ofList (text.toList.filter (· != c))

/-- The text without the first occurrence of a character. -/
def removeFirst (c : Char) (text : String) : String :=
  String.ofList (text.toList.erase c)

end Smi.Text
