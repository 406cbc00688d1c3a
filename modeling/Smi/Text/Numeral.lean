/-!
# Decimal numerals

A numeral is a non-empty run of ASCII digits, with leading zeros allowed. A sign in front is read
where the range of numbers allows it, and a number outside its range is refused, never wrapped.
-/

namespace Smi.Text

/-- Whether the characters are a non-empty run of the digits `0` to `9`; no other script's digits
count. -/
def isNumeral (cs : List Char) : Bool :=
  !cs.isEmpty && cs.all Char.isDigit

/-- The number written by a run of digits. -/
def readDigits? (cs : List Char) : Option Nat :=
  if isNumeral cs then some (Nat.ofDigitChars 10 cs 0) else none

/-- The digits of a number are read as that number. -/
theorem readDigits?_toDigits (n : Nat) : readDigits? (Nat.toDigits 10 n) = some n := by
  have hdigits : isNumeral (Nat.toDigits 10 n) = true := by
    simp only [isNumeral, Bool.and_eq_true, Bool.not_eq_true', List.isEmpty_eq_false_iff,
      List.all_eq_true]
    exact ⟨Nat.toDigits_ne_nil, fun c hc =>
      Nat.isDigit_of_mem_toDigits (by decide) (by decide) hc⟩
  simp [readDigits?, hdigits]

/-- The number written by a run of digits behind an optional plus sign. -/
def readUnsigned? : List Char → Option Nat
  | '+' :: cs => readDigits? cs
  | cs => readDigits? cs

/-- The number written by a run of digits behind an optional sign. -/
def readSigned? : List Char → Option Int
  | '+' :: cs => (readDigits? cs).map Int.ofNat
  | '-' :: cs => (readDigits? cs).map fun n => -Int.ofNat n
  | cs => (readDigits? cs).map Int.ofNat

/-- The bound of unsigned numbers of 32 bits. -/
def bound32 : Nat :=
  4294967296

/-- The bound of unsigned numbers of 64 bits. -/
def bound64 : Nat :=
  18446744073709551616

/-- The bound of signed numbers of 64 bits. -/
def signedBound64 : Nat :=
  9223372036854775808

/-- An unsigned number below a bound. -/
def readBelow? (bound : Nat) (text : String) : Option Nat :=
  (readUnsigned? text.toList).filter fun n => n < bound

/-- Whether a number is a signed number of 64 bits. -/
def isInt64 (n : Int) : Bool :=
  -Int.ofNat signedBound64 ≤ n && n < Int.ofNat signedBound64

/-- A signed number of 64 bits. -/
def readInt64? (text : String) : Option Int64 :=
  ((readSigned? text.toList).filter isInt64).map Int64.ofInt

end Smi.Text
