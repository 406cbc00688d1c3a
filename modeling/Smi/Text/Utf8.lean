/-!
# Text and octets

Text is stored as UTF-8. Octets that are not valid UTF-8 are either refused, or read with every
maximal invalid part replaced by U+FFFD: the longest start of a well-formed sequence counts as one
part, and an octet that starts none counts as one part by itself.
-/

namespace Smi.Text

/-- The UTF-8 form of a text. -/
def octets (text : String) : List UInt8 :=
  text.toByteArray.data.toList

/-- The text whose UTF-8 form the octets are. -/
def ofOctets? (bytes : List UInt8) : Option String :=
  String.fromUTF8? ⟨bytes.toArray⟩

/-- Reading back the UTF-8 form of a text gives the text. -/
theorem ofOctets?_octets (text : String) : ofOctets? (octets text) = some text := by
  have h : (⟨(octets text).toArray⟩ : ByteArray) = text.toByteArray := rfl
  rw [ofOctets?, h, String.fromUTF8?, dif_pos text.isValidUTF8]
  rfl

/-- What the first octet of a sequence asks of the second octet, and how many octets follow it. -/
structure Lead where
  payload : Nat
  low : UInt8
  high : UInt8
  followers : Nat

/-- The meaning of a first octet of two or more: overlong forms, surrogates and numbers above
U+10FFFF are kept out by the range of the second octet. -/
def lead? (byte : UInt8) : Option Lead :=
  if 0xC2 ≤ byte && byte ≤ 0xDF then some ⟨byte.toNat - 0xC0, 0x80, 0xBF, 1⟩
  else if byte == 0xE0 then some ⟨0, 0xA0, 0xBF, 2⟩
  else if byte == 0xED then some ⟨0xD, 0x80, 0x9F, 2⟩
  else if 0xE1 ≤ byte && byte ≤ 0xEF then some ⟨byte.toNat - 0xE0, 0x80, 0xBF, 2⟩
  else if byte == 0xF0 then some ⟨0, 0x90, 0xBF, 3⟩
  else if 0xF1 ≤ byte && byte ≤ 0xF3 then some ⟨byte.toNat - 0xF0, 0x80, 0xBF, 3⟩
  else if byte == 0xF4 then some ⟨4, 0x80, 0x8F, 3⟩
  else none

/-- The replacement for an invalid part. -/
def replacement : Char :=
  Char.ofNat 0xFFFD

/-- The state between two octets: complete, or a sequence that asks for more. -/
inductive Awaiting where
  | nothing
  | octet (payload : Nat) (low high : UInt8) (later : Nat)

/-- Read octets from a state. An octet that does not continue the open sequence ends that sequence
as one invalid part and is then read as a first octet. -/
def readLossy : Awaiting → List UInt8 → List Char
  | .nothing, [] => []
  | .octet .., [] => [replacement]
  | .nothing, byte :: rest => readFirst byte rest
  | .octet payload low high later, byte :: rest =>
    if low ≤ byte && byte ≤ high then
      let payload := 64 * payload + (byte.toNat - 0x80)
      match later with
      | 0 => Char.ofNat payload :: readLossy .nothing rest
      | later + 1 => readLossy (.octet payload 0x80 0xBF later) rest
    else replacement :: readFirst byte rest
where
  /-- Read an octet that starts a sequence. -/
  readFirst (byte : UInt8) (rest : List UInt8) : List Char :=
    if byte < 0x80 then Char.ofNat byte.toNat :: readLossy .nothing rest
    else match lead? byte with
      | some lead => readLossy (.octet lead.payload lead.low lead.high (lead.followers - 1)) rest
      | none => replacement :: readLossy .nothing rest

/-- The text of any octets, with invalid parts replaced. -/
def ofOctetsLossy (bytes : List UInt8) : String :=
  String.ofList (readLossy .nothing bytes)

end Smi.Text
