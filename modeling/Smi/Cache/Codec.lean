import Smi.OrderedMap
import Smi.Text.Utf8

/-!
# Codecs

A codec writes values of a type as octets and reads them back from the front of a list of octets.
Numbers are written seven bits at a time, the lowest first; texts, lists and maps stand behind their
length, and an optional value behind a flag. Codecs of compound types are put together from the
codecs of their parts.
-/

namespace Smi

/-- Why octets are not the written form of a value. -/
inductive WireFault where
  | endOfInput
  /-- A number is longer than its type allows. -/
  | unterminatedNumber
  | invalidText
  | invalidFlag
  | invalidVariant
  deriving DecidableEq, Repr

/-- The message of a fault. -/
def WireFault.message : WireFault → String
  | endOfInput => "Hit the end of buffer, expected more data"
  | unterminatedNumber =>
    "Found a varint that didn't terminate. Is the usize too big for this platform?"
  | invalidText => "Tried to parse invalid utf-8"
  | invalidFlag => "Found an Option discriminant that wasn't 0 or 1"
  | invalidVariant => "Serde Deserialization Error"

/-- The value at the front of some octets and the octets behind it. -/
abbrev Reading (α : Type) := Except WireFault (α × List UInt8)

/-- What has been read as a value of another type. -/
def Reading.as {α β : Type} (f : α → β) (reading : Reading α) : Reading β :=
  Except.map (fun (value, rest) => (f value, rest)) reading

/-- A way to write values as octets and to read them back. -/
structure Codec (α : Type) where
  write : α → List UInt8
  read : List UInt8 → Reading α

namespace Codec

variable {α β γ : Type}

/-- Write a number: seven bits to an octet, the lowest first, with the high bit set in every octet
but the last. -/
def writeNumber (n : Nat) : List UInt8 :=
  if n < 128 then [UInt8.ofNat n]
  else UInt8.ofNat (n % 128 + 128) :: writeNumber (n / 128)

/-- Read a number of at most `limit` octets, of which the last possible one is at most `lastMax`. A
number need not be written in its shortest form. -/
def readNumber (lastMax : Nat) : Nat → List UInt8 → Reading Nat
  | 0, _ => .error .unterminatedNumber
  | _ + 1, [] => .error .endOfInput
  | limit + 1, byte :: rest =>
    if byte.toNat < 128 then
      if limit = 0 ∧ lastMax < byte.toNat then .error .unterminatedNumber
      else .ok (byte.toNat, rest)
    else match readNumber lastMax limit rest with
      | .ok (high, rest) => .ok (byte.toNat - 128 + 128 * high, rest)
      | .error fault => .error fault

/-- Numbers of 64 bits. -/
def number64 : Codec Nat :=
  ⟨writeNumber, readNumber 1 10⟩

/-- Numbers of 32 bits. -/
def number32 : Codec Nat :=
  ⟨writeNumber, readNumber 15 5⟩

/-- The codec of values that stand for values of another type. -/
def convert (c : Codec α) (forth : α → β) (back : β → α) : Codec β where
  write b := c.write (back b)
  read bytes := Reading.as forth (c.read bytes)

/-- A signed number as an unsigned one: numbers near zero of either sign become small. -/
def zigzag (n : Int) : Nat :=
  if 0 ≤ n then 2 * n.toNat else 2 * (-n).toNat - 1

/-- The signed number that an unsigned one stands for. -/
def unzigzag (n : Nat) : Int :=
  if n % 2 = 0 then (n / 2 : Nat) else -((n / 2 + 1 : Nat) : Int)

/-- Signed numbers of 64 bits. -/
def int64 : Codec Int64 :=
  number64.convert (fun n => Int64.ofInt (unzigzag n)) fun n => zigzag n.toInt

/-- Octets behind their number. -/
def block : Codec (List UInt8) where
  write bytes := number64.write bytes.length ++ bytes
  read bytes :=
    match number64.read bytes with
    | .ok (count, rest) =>
      if count ≤ rest.length then .ok (rest.splitAt count) else .error .endOfInput
    | .error fault => .error fault

/-- Texts as UTF-8 behind the number of octets. -/
def text : Codec String where
  write s := block.write (Text.octets s)
  read bytes :=
    match block.read bytes with
    | .ok (content, rest) =>
      match Text.ofOctets? content with
      | some s => .ok (s, rest)
      | none => .error .invalidText
    | .error fault => .error fault

/-- One value behind another. -/
def pair (a : Codec α) (b : Codec β) : Codec (α × β) where
  write p := a.write p.1 ++ b.write p.2
  read bytes :=
    match a.read bytes with
    | .ok (first, rest) =>
      match b.read rest with
      | .ok (second, rest) => .ok ((first, second), rest)
      | .error fault => .error fault
    | .error fault => .error fault

/-- Read a number of values one behind another. -/
def readMany (c : Codec α) : Nat → List UInt8 → Reading (List α)
  | 0, bytes => .ok ([], bytes)
  | count + 1, bytes =>
    match c.read bytes with
    | .ok (first, rest) =>
      match c.readMany count rest with
      | .ok (others, rest) => .ok (first :: others, rest)
      | .error fault => .error fault
    | .error fault => .error fault

/-- Lists behind their length. -/
def list (c : Codec α) : Codec (List α) where
  write values := number64.write values.length ++ values.flatMap c.write
  read bytes :=
    match number64.read bytes with
    | .ok (count, rest) => c.readMany count rest
    | .error fault => .error fault

/-- Optional values behind a flag. -/
def optional (c : Codec α) : Codec (Option α) where
  write
    | none => [0]
    | some value => 1 :: c.write value
  read
    | [] => .error .endOfInput
    | flag :: rest =>
      if flag = 0 then .ok (none, rest)
      else if flag = 1 then
        match c.read rest with
        | .ok (value, rest) => .ok (some value, rest)
        | .error fault => .error fault
      else .error .invalidFlag

/-- Maps as the list of their bindings in ascending order of the keys. Reading accepts any order,
and of several bindings of a key the last one counts. -/
def orderedMap [LT α] [DecidableLT α] [KeyOrder α] (key : Codec α) (value : Codec β) :
    Codec (OrderedMap α β) :=
  (list (pair key value)).convert OrderedMap.ofList OrderedMap.entries

end Codec

end Smi
