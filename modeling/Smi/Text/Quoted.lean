import Smi.Text.Unseen

/-!
# Quoted text

A quoted text stands between double quotes. Quotes, backslashes and the common control characters
are written with a backslash, and every other character without a picture of its own as its code
point in hexadecimal.
-/

namespace Smi.Text

/-- The lower-case hexadecimal digits of a number, without leading zeros. -/
def hexadecimal (n : Nat) : List Char :=
  Nat.toDigits 16 n

/-- One character as it stands inside quotes. -/
def quoteChar (c : Char) : List Char :=
  match c with
  | '\x00' => ['\\', '0']
  | '\t' => ['\\', 't']
  | '\r' => ['\\', 'r']
  | '\n' => ['\\', 'n']
  | '\\' => ['\\', '\\']
  | '"' => ['\\', '"']
  | c => if isUnseen c then ['\\', 'u', '{'] ++ hexadecimal c.toNat ++ ['}'] else [c]

/-- The text in double quotes. -/
def quoted (text : String) : String :=
  String.ofList (['"'] ++ text.toList.flatMap quoteChar ++ ['"'])

end Smi.Text
