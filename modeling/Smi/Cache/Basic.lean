import Smi.Cache.Digest
import Smi.Cache.Payload
import Smi.FileSystem

/-!
# Module caches

A cache file holds compiled modules behind a header: four octets that tell its kind, the version of
the format, and optionally the fingerprint of the files from which the modules were compiled. The
fingerprint is the digest of the version, the names and the contents of the files, taken in the
order of their names.
-/

namespace Smi

/-- Why a cache cannot be used. -/
inductive CacheError where
  | invalidMagic
  | versionMismatch (expected found : Nat)
  /-- The fingerprint is another one, or there is none though one is expected. -/
  | fingerprintMismatch
  | truncatedHeader
  | payload (fault : WireFault)
  | file (fault : FileFault)
  deriving DecidableEq, Repr

/-- The message of an error. -/
def CacheError.message : CacheError → String
  | invalidMagic => "invalid magic bytes (expected MIBC)"
  | versionMismatch expected found =>
    "version mismatch: expected " ++ toString expected ++ ", found " ++ toString found
  | fingerprintMismatch => "fingerprint mismatch"
  | truncatedHeader => "truncated header"
  | payload fault => "postcard deserialization failed: " ++ fault.message
  | file fault => "IO error: " ++ fault.message

/-- The digest that tells from which files modules were compiled. -/
abbrev Fingerprint := Digest

namespace Cache

/-- The version of the format. -/
def version : Nat :=
  1

/-- The octets with which every cache file begins. -/
def magic : List UInt8 :=
  [0x4D, 0x49, 0x42, 0x43]

/-- A number as four octets, the lowest first. -/
def littleEndian (n : Nat) : List UInt8 :=
  (List.range 4).map fun i => UInt8.ofNat (n >>> (8 * i))

/-- The number of octets, the lowest first. -/
def numberOf (bytes : List UInt8) : Nat :=
  bytes.foldr (fun byte n => byte.toNat + 256 * n) 0

/-- The octets of which a fingerprint is the digest. -/
def fingerprintInput (files : List (String × List UInt8)) : List UInt8 :=
  littleEndian version ++
    (files.mergeSort fun a b => a.1 ≤ b.1).flatMap fun file => Text.octets file.1 ++ file.2

/-- The fingerprint of files, given by their names and contents. -/
def fingerprint (files : List (String × List UInt8)) : Fingerprint :=
  .ofMessage (fingerprintInput files)

/-- The header and the fingerprint in it. -/
def writeHeader (fingerprint : Option Fingerprint) : List UInt8 :=
  magic ++ littleEndian version ++
    match fingerprint with
    | some f => 1 :: f.toList
    | none => [0]

/-- The cache of modules. -/
def write (set : ModuleSet) (fingerprint : Option Fingerprint) : List UInt8 :=
  writeHeader fingerprint ++ Codec.moduleSet.write set

/-- The first thirty-two octets as a fingerprint, and the octets behind it. -/
def splitFingerprint? (bytes : List UInt8) : Option (Fingerprint × List UInt8) :=
  if h : (bytes.take 32).length = 32 then
    some (⟨(bytes.take 32).toArray, by simpa using h⟩, bytes.drop 32)
  else none

/-- The fingerprint in the header, and the octets behind the header. Any flag but zero announces a
fingerprint. -/
def splitHeader (bytes : List UInt8) : Except CacheError (Option Fingerprint × List UInt8) := do
  match bytes.drop 8 with
  | [] => throw .truncatedHeader
  | flag :: rest =>
    if bytes.take 4 ≠ magic then throw .invalidMagic
    let found := numberOf ((bytes.drop 4).take 4)
    if found ≠ version then throw (.versionMismatch version found)
    if flag = 0 then return (none, rest)
    match splitFingerprint? rest with
    | some (f, payload) => return (some f, payload)
    | none => throw .truncatedHeader

/-- The fingerprint of a cache. -/
def fingerprintOf (bytes : List UInt8) : Except CacheError (Option Fingerprint) :=
  (splitHeader bytes).map Prod.fst

/-- The modules of a cache. With an expected fingerprint the cache has to have that one. -/
def read (bytes : List UInt8) (expected : Option Fingerprint) : Except CacheError ModuleSet := do
  let (stored, payload) ← splitHeader bytes
  if expected.isSome && stored ≠ expected then throw .fingerprintMismatch
  match Codec.moduleSet.read payload with
  | .ok (set, _) => return set
  | .error fault => throw (.payload fault)

end Cache

end Smi
