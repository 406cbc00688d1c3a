import Smi.Provider.Basic
import Smi.Value

/-!
# Row keys and instance suffixes

A row of a table is known by its key, one value for each index entry, and its cells stand at the
suffix in which the key is written. An identifier is written as its arcs and a string as the code
points of its characters, both behind their number unless it is fixed or implied. An address is four
octets, and every other value is a single number.
-/

namespace Smi

/-- The index values of a row, those of other tables first. -/
abbrev RowKey := List Value

namespace IndexEntry

/-- The type by which an index value is written; a column without a type holds integers. -/
def keyType (entry : IndexEntry) : ValueType :=
  entry.type.getD .integer

/-- Write items, with their number before them where it is not fixed or implied. -/
def writeItems (entry : IndexEntry) (items : List Nat) : Except IndexFault (List Nat) :=
  match entry.length with
  | some length =>
    if items.length = length then .ok items else .error (.wrongLength length items.length)
  | none =>
    if entry.implied then .ok items
    else if items.length < Text.bound32 then .ok (items.length :: items)
    else .error .tooLong

/-- The address that a value stands for: an address, or a string in which one is written. -/
def ipv4? : Value → Option Ipv4
  | .ipAddress address => some address
  | .octetString text => Ipv4.read? text
  | _ => none

/-- Write one index value. -/
def write (entry : IndexEntry) (value : Value) : Except IndexFault (List Nat) :=
  match entry.keyType with
  | .objectIdentifier =>
    match value.oid? with
    | some oid => entry.writeItems oid.arcs
    | none => .error .notAnOid
  | .octetString | .opaqueOctets =>
    match value.string? with
    | some text => entry.writeItems (text.toList.map Char.toNat)
    | none => .error .notAString
  | .ipAddress =>
    match ipv4? value with
    | some address => .ok address.toList
    | none => .error .notAnIpAddress
  | _ =>
    match value.integer? with
    | some n => if 0 ≤ n ∧ n ≤ Oid.maxArc then .ok [n.toNat] else .error .integerOutOfRange
    | none => .error .notAnInteger

/-- The first items of a suffix, if it is long enough, and the rest of it. -/
def splitItems (count : Nat) (suffix : List Nat) : Option (List Nat × List Nat) :=
  if count ≤ suffix.length then some (suffix.splitAt count) else none

/-- Take the items of one index value from the front of a suffix. An implied value of no fixed
length takes all of it. -/
def takeItems (entry : IndexEntry) (suffix : List Nat) : Option (List Nat × List Nat) :=
  match entry.length with
  | some length => splitItems length suffix
  | none =>
    if entry.implied then some (suffix, [])
    else match suffix with
      | count :: rest => splitItems count rest
      | [] => none

/-- The character of a code point, if there is one. -/
def character? (code : Nat) : Option Char :=
  if code.isValidChar then some (Char.ofNat code) else none

/-- Read one index value from the front of a suffix, and answer the rest of the suffix. -/
def read? (entry : IndexEntry) (suffix : List Nat) : Option (Value × List Nat) :=
  match entry.keyType with
  | .objectIdentifier => do
    let (items, rest) ← entry.takeItems suffix
    let oid ← (Oid.ofComponents (items.map Int.ofNat)).toOption
    return (.objectIdentifier oid, rest)
  | .octetString | .opaqueOctets => do
    let (items, rest) ← entry.takeItems suffix
    let cs ← items.mapM character?
    return (.octetString (String.ofList cs), rest)
  | .ipAddress => do
    let (items, rest) ← splitItems 4 suffix
    let address ← Ipv4.ofList? items
    return (.ipAddress address, rest)
  | .counter | .gauge | .timeTicks | .counter64 =>
    match suffix with
    | n :: rest => some (.unsigned (UInt64.ofNat n), rest)
    | [] => none
  | _ =>
    match suffix with
    | n :: rest => some (.integer (Int64.ofNat n), rest)
    | [] => none

end IndexEntry

namespace RowKey

/-- Write the values of a key, each by its index entry. -/
def writeValues : List IndexEntry → RowKey → Except Error (List Nat)
  | entry :: entries, value :: values => do
    let first ← (entry.write value).mapError (.invalidIndexValue entry.label)
    let others ← writeValues entries values
    return first ++ others
  | _, _ => .ok []

/-- The suffix in which a key of a table is written. -/
def suffix (table : TableProvider) (key : RowKey) : Except Error (List Nat) :=
  if key.length = table.index.length then writeValues table.keyIndex key
  else .error (.rowKeyLengthMismatch table.name table.index.length key.length)

/-- Read a value for each index entry; nothing may be left of the suffix. -/
def readValues? : List IndexEntry → List Nat → Option RowKey
  | [], [] => some []
  | [], _ :: _ => none
  | entry :: entries, suffix =>
    (entry.read? suffix).bind fun (value, rest) => (readValues? entries rest).map (value :: ·)

/-- The key of a table that is written in a suffix. -/
def ofSuffix (table : TableProvider) (suffix : List Nat) : Except Error RowKey :=
  match readValues? table.keyIndex suffix with
  | some key => .ok key
  | none => .error (.malformedSuffix table.name (Oid.dottedArcs suffix))

end RowKey

end Smi
