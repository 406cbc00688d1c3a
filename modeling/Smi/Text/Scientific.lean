import Smi.Text.Numeral

/-!
# Decimal numbers with an exponent

A number such as `15e-1` is a whole number scaled by a power of ten. It is read into the nearest
double-precision number, ties going to the even neighbour, and then counts as whole when that
double-precision number is whole. All arithmetic is exact.
-/

namespace Smi.Text

/-- The number `digits * 10 ^ exponent`, with a sign. -/
structure Scientific where
  negative : Bool
  digits : Nat
  exponent : Int
  deriving DecidableEq, Repr

namespace Scientific

/-- Digits, then the letter `e` of either case and an exponent, or digits alone. -/
def readMagnitude? (negative : Bool) (cs : List Char) : Option Scientific :=
  let digits := cs.takeWhile Char.isDigit
  match readDigits? digits, cs.dropWhile Char.isDigit with
  | some n, [] => some ⟨negative, n, 0⟩
  | some n, letter :: rest =>
    if letter == 'e' || letter == 'E' then (readSigned? rest).map (⟨negative, n, ·⟩) else none
  | none, _ => none

/-- A signed number without a decimal point. -/
def read? : List Char → Option Scientific
  | '+' :: cs => readMagnitude? false cs
  | '-' :: cs => readMagnitude? true cs
  | cs => readMagnitude? false cs

end Scientific

/-- A double-precision magnitude: `significand * 2 ^ scale`, or a magnitude too large for one. -/
inductive Double where
  | finite (significand : Nat) (scale : Int)
  | infinite
  deriving DecidableEq, Repr

namespace Double

/-- The quotient rounded to the nearest whole number, a half going to the even neighbour. -/
def divideToEven (dividend divisor : Nat) : Nat :=
  let quotient := dividend / divisor
  let twice := 2 * (dividend % divisor)
  if divisor < twice || (twice == divisor && quotient % 2 == 1) then quotient + 1 else quotient

/-- The whole number `e` with `2 ^ e ≤ dividend / divisor < 2 ^ (e + 1)`, for positive numbers. -/
def floorLog (dividend divisor : Nat) : Int :=
  let guess := (Nat.log2 dividend : Int) - (Nat.log2 divisor : Int)
  let reaches := if 0 ≤ guess then divisor <<< guess.toNat ≤ dividend
    else divisor ≤ dividend <<< (-guess).toNat
  if reaches then guess else guess - 1

/-- The magnitude nearest to a quotient: 53 significant bits, fewer below `2 ^ -1022`. -/
def ofQuotient (dividend divisor : Nat) : Double :=
  if dividend == 0 then .finite 0 (-1074)
  else
    let exact := floorLog dividend divisor - 52
    let scale := if exact < -1074 then -1074 else exact
    let significand :=
      if 0 ≤ scale then divideToEven dividend (divisor <<< scale.toNat)
      else divideToEven (dividend <<< (-scale).toNat) divisor
    if 971 < scale || (scale == 971 && significand == 1 <<< 53) then .infinite
    else .finite significand scale

/-- The magnitude nearest to `digits * 10 ^ exponent`. Exponents far outside the range are settled
without computing the power of ten. -/
def ofDecimal (digits : Nat) (exponent : Int) : Double :=
  if digits == 0 then ofQuotient 0 1
  else if 400 < exponent then .infinite
  else if exponent + Nat.log2 digits < -400 then ofQuotient 0 1
  else if 0 ≤ exponent then ofQuotient (digits * Nat.pow 10 exponent.toNat) 1
  else ofQuotient digits (Nat.pow 10 (-exponent).toNat)

/-- The magnitude as a whole number, if it is one. -/
def whole? : Double → Option Nat
  | finite significand scale =>
    if 0 ≤ scale then some (significand <<< scale.toNat)
    else
      let whole := significand >>> (-scale).toNat
      if whole <<< (-scale).toNat == significand then some whole else none
  | infinite => none

end Double

end Smi.Text
