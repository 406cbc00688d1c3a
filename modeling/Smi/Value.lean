import Smi.Oid.Basic
import Smi.Text.Numeral
import Smi.Text.Quoted
import Smi.ValueType

/-!
# Values

A value is what a scalar or a table cell holds. Values are ordered by their form first (integers,
unsigned numbers, strings, identifiers, addresses, truth values, null) and then by their content.
-/

namespace Smi

/-- An address of four octets. -/
structure Ipv4 where
  first : UInt8
  second : UInt8
  third : UInt8
  fourth : UInt8
  deriving DecidableEq, Repr, Inhabited

namespace Ipv4

/-- The four octets as numbers. -/
def toList (address : Ipv4) : List Nat :=
  [address.first.toNat, address.second.toNat, address.third.toNat, address.fourth.toNat]

/-- The address of four numbers below 256. -/
def ofList? : List Nat → Option Ipv4
  | [a, b, c, d] =>
    if a < 256 ∧ b < 256 ∧ c < 256 ∧ d < 256 then
      some ⟨UInt8.ofNat a, UInt8.ofNat b, UInt8.ofNat c, UInt8.ofNat d⟩
    else none
  | _ => none

/-- The octets between points. -/
def dotted (address : Ipv4) : String :=
  ".".intercalate (address.toList.map toString)

/-- Read an octet: one to three digits, without a leading zero. -/
def readOctet? (cs : List Char) : Option Nat :=
  if cs.length ≤ 3 ∧ (cs.length = 1 ∨ cs.head? ≠ some '0') then Text.readDigits? cs else none

/-- Read four octets between points. -/
def read? (text : String) : Option Ipv4 :=
  ((Text.pieces (· == '.') text.toList).mapM readOctet?).bind ofList?

end Ipv4

/-- What a scalar or a table cell holds. -/
inductive Value where
  | integer (n : Int64)
  /-- Counters, gauges and time ticks. -/
  | unsigned (n : UInt64)
  | octetString (text : String)
  | objectIdentifier (oid : Oid)
  | ipAddress (address : Ipv4)
  | boolean (b : Bool)
  | null
  deriving DecidableEq, Inhabited

namespace Value

/-- The type of a value for which none is declared. -/
def naturalType : Value → ValueType
  | integer _ => .integer
  | unsigned _ => .gauge
  | octetString _ => .octetString
  | objectIdentifier _ => .objectIdentifier
  | ipAddress _ => .ipAddress
  | boolean _ => .boolean
  | null => .null

/-- The content of a string. -/
def string? : Value → Option String
  | octetString text => some text
  | _ => none

/-- The content of an integer, or of an unsigned number that fits into a signed one. -/
def integer? : Value → Option Int
  | integer n => some n.toInt
  | unsigned n => if n.toNat < Text.signedBound64 then some n.toNat else none
  | _ => none

/-- The content of an object identifier. -/
def oid? : Value → Option Oid
  | objectIdentifier oid => some oid
  | _ => none

/-- The displayed form of a value; only strings are quoted. -/
def display : Value → String
  | integer n => toString n.toInt
  | unsigned n => toString n.toNat
  | octetString text => Text.quoted text
  | objectIdentifier oid => oid.dotted
  | ipAddress address => address.dotted
  | boolean b => if b then "true" else "false"
  | null => "null"

/-- The place of a form in the order of values. -/
def rank : Value → Nat
  | integer _ => 0
  | unsigned _ => 1
  | octetString _ => 2
  | objectIdentifier _ => 3
  | ipAddress _ => 4
  | boolean _ => 5
  | null => 6

/-- The order of values. -/
def compare : Value → Value → Ordering
  | integer a, integer b => compareOfLessAndEq a.toInt b.toInt
  | unsigned a, unsigned b => compareOfLessAndEq a.toNat b.toNat
  | octetString a, octetString b => compareOfLessAndEq a b
  | objectIdentifier a, objectIdentifier b => compareOfLessAndEq a b
  | ipAddress a, ipAddress b => compareOfLessAndEq a.toList b.toList
  | boolean a, boolean b => compareOfLessAndEq a.toNat b.toNat
  | a, b => compareOfLessAndEq a.rank b.rank

/-- Values in ascending order. -/
def sort (values : List Value) : List Value :=
  values.mergeSort fun a b => (compare a b).isLE

end Value

end Smi
