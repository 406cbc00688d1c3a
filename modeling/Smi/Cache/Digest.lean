/-!
# SHA-256

The digest of a message is computed block by block. The message is padded to whole blocks of 64
octets that end in its length in bits. Each block is read as sixteen words of 32 bits, which extend
to a schedule of sixty-four words, and every word of the schedule drives one round on eight words of
state.
-/

namespace Smi

/-- A digest: thirty-two octets. -/
abbrev Digest := Vector UInt8 32

namespace Digest

/-- The eight words of state. -/
structure Working where
  a : UInt32
  b : UInt32
  c : UInt32
  d : UInt32
  e : UInt32
  f : UInt32
  g : UInt32
  h : UInt32
  deriving DecidableEq, Repr

/-- The first thirty-two bits of the fractional parts of the square roots of the first eight prime
numbers. -/
def initial : Working :=
  ⟨0x6A09E667, 0xBB67AE85, 0x3C6EF372, 0xA54FF53A, 0x510E527F, 0x9B05688C, 0x1F83D9AB, 0x5BE0CD19⟩

/-- The first thirty-two bits of the fractional parts of the cube roots of the first sixty-four
prime numbers. -/
def roundConstants : List UInt32 :=
  [0x428A2F98, 0x71374491, 0xB5C0FBCF, 0xE9B5DBA5, 0x3956C25B, 0x59F111F1, 0x923F82A4, 0xAB1C5ED5,
   0xD807AA98, 0x12835B01, 0x243185BE, 0x550C7DC3, 0x72BE5D74, 0x80DEB1FE, 0x9BDC06A7, 0xC19BF174,
   0xE49B69C1, 0xEFBE4786, 0x0FC19DC6, 0x240CA1CC, 0x2DE92C6F, 0x4A7484AA, 0x5CB0A9DC, 0x76F988DA,
   0x983E5152, 0xA831C66D, 0xB00327C8, 0xBF597FC7, 0xC6E00BF3, 0xD5A79147, 0x06CA6351, 0x14292967,
   0x27B70A85, 0x2E1B2138, 0x4D2C6DFC, 0x53380D13, 0x650A7354, 0x766A0ABB, 0x81C2C92E, 0x92722C85,
   0xA2BFE8A1, 0xA81A664B, 0xC24B8B70, 0xC76C51A3, 0xD192E819, 0xD6990624, 0xF40E3585, 0x106AA070,
   0x19A4C116, 0x1E376C08, 0x2748774C, 0x34B0BCB5, 0x391C0CB3, 0x4ED8AA4A, 0x5B9CCA4F, 0x682E6FF3,
   0x748F82EE, 0x78A5636F, 0x84C87814, 0x8CC70208, 0x90BEFFFA, 0xA4506CEB, 0xBEF9A3F7, 0xC67178F2]

/-- A word rotated to the right. -/
def rotate (word count : UInt32) : UInt32 :=
  (word >>> count) ||| (word <<< (32 - count))

/-- The word that the schedule has next behind its last sixteen words. -/
def nextWord (window : List UInt32) : UInt32 :=
  let old := window.getD 1 0
  let new := window.getD 14 0
  let spreadOld := rotate old 7 ^^^ rotate old 18 ^^^ (old >>> 3)
  let spreadNew := rotate new 17 ^^^ rotate new 19 ^^^ (new >>> 10)
  window.getD 0 0 + spreadOld + window.getD 9 0 + spreadNew

/-- One round on the state. -/
def round (s : Working) (constant word : UInt32) : Working :=
  let spreadE := rotate s.e 6 ^^^ rotate s.e 11 ^^^ rotate s.e 25
  let choice := (s.e &&& s.f) ^^^ ((~~~s.e) &&& s.g)
  let first := s.h + spreadE + choice + constant + word
  let spreadA := rotate s.a 2 ^^^ rotate s.a 13 ^^^ rotate s.a 22
  let majority := (s.a &&& s.b) ^^^ (s.a &&& s.c) ^^^ (s.b &&& s.c)
  ⟨first + (spreadA + majority), s.a, s.b, s.c, s.d + first, s.e, s.f, s.g⟩

/-- All rounds on the state, with the window of the sixteen words of the schedule that come next. -/
def rounds (s : Working) (window : List UInt32) : List UInt32 → Working
  | [] => s
  | constant :: rest =>
    rounds (round s constant (window.getD 0 0)) (window.drop 1 ++ [nextWord window]) rest

/-- The state after a block. -/
def compress (s : Working) (block : List UInt32) : Working :=
  let t := rounds s block roundConstants
  ⟨s.a + t.a, s.b + t.b, s.c + t.c, s.d + t.d, s.e + t.e, s.f + t.f, s.g + t.g, s.h + t.h⟩

/-- The word of four octets, the highest first. -/
def wordOf (a b c d : UInt8) : UInt32 :=
  (a.toUInt32 <<< 24) ||| (b.toUInt32 <<< 16) ||| (c.toUInt32 <<< 8) ||| d.toUInt32

/-- Octets as words. -/
def words : List UInt8 → List UInt32
  | a :: b :: c :: d :: rest => wordOf a b c d :: words rest
  | _ => []

/-- The octets of a number, `count` of them, the highest first. -/
def bigEndian (count n : Nat) : List UInt8 :=
  (List.range count).reverse.map fun i => UInt8.ofNat (n >>> (8 * i))

/-- The message up to whole blocks: a set bit, zeros, and the length in bits. -/
def pad (message : List UInt8) : List UInt8 :=
  let zeros := (55 + 64 - message.length % 64) % 64
  message ++ 0x80 :: List.replicate zeros 0 ++ bigEndian 8 (8 * message.length)

/-- The state after words, taken sixteen at a time. -/
def absorb (s : Working) : Nat → List UInt32 → Working
  | 0, _ => s
  | blocks + 1, ws => absorb (compress s (ws.take 16)) blocks (ws.drop 16)

/-- The octets of a state. -/
def ofWorking (s : Working) : Digest :=
  let ws : Vector UInt32 8 := #v[s.a, s.b, s.c, s.d, s.e, s.f, s.g, s.h]
  Vector.ofFn fun i : Fin 32 => (ws[i.val / 4] >>> (24 - 8 * UInt32.ofNat (i.val % 4))).toUInt8

/-- The digest of a message. -/
def ofMessage (message : List UInt8) : Digest :=
  let ws := words (pad message)
  ofWorking (absorb initial (ws.length / 16) ws)

end Digest

end Smi
