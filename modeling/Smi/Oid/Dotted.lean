import Smi.Oid.Basic
import Smi.Text.Blank
import Smi.Text.Scientific

/-!
# Reading dotted identifiers

A dotted identifier is read component by component; blanks around a component and empty components
are dropped. A component is a whole number of 64 bits, or a decimal number with an exponent that
denotes a whole number once it is rounded to double precision.
-/

namespace Smi.Oid

/-- The bound below which a number written with an exponent is taken for an integer. -/
def exponentBound : Nat :=
  9000000000000000000

/-- Read a number written with an exponent. -/
def readExponential (component : String) : Except Error Int :=
  match Text.Scientific.read? component.toList with
  | none => .error (.malformedComponent component)
  | some number =>
    match Text.Double.ofDecimal number.digits number.exponent with
    | .infinite => .error (.malformedComponent component)
    | magnitude =>
      match magnitude.whole? with
      | none => .error (.fractionalComponent component)
      | some n =>
        if n < exponentBound then .ok (if number.negative then -Int.ofNat n else Int.ofNat n)
        else .error (.malformedComponent component)

/-- Read one component. A numeral outside the range of 64 bits is refused by its sign. -/
def readComponent (component : String) : Except Error Int :=
  match Text.readInt64? component with
  | some value => .ok value.toInt
  | none =>
    match component.toList with
    | '-' :: digits =>
      if Text.isNumeral digits then .error (.negativeComponent component)
      else readExponential component
    | '+' :: digits =>
      if Text.isNumeral digits then .error (.componentTooLarge component)
      else readExponential component
    | digits =>
      if Text.isNumeral digits then .error (.componentTooLarge component)
      else readExponential component

/-- The components of a dotted text, without blanks at their ends and without empty ones. -/
def components (text : String) : List String :=
  ((Text.splitAt '.' text).map Text.trim).filter fun component => !component.isEmpty

/-- Read a dotted identifier. At least one component has to be left. -/
def read (text : String) : Except Error Oid := do
  let values ← (components text).mapM readComponent
  if values.isEmpty then throw .emptyOid
  ofComponents values

end Smi.Oid
