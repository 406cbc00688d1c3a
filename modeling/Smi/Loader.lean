import Smi.Cache.Basic
import Smi.Compiler.Basic

/-!
# Loading module files

A module file becomes a unit named by the stem of its path. Files are read and compiled in the order
in which they are given. A cache file saves compiling the same files again: it is used when its
fingerprint is that of the files, and written anew otherwise.
-/

namespace Smi

/-- Why files cannot be loaded. -/
inductive LoadError where
  | read (path : String) (fault : FileFault)
  | cache (error : CacheError)
  deriving DecidableEq, Repr

/-- The message of an error. -/
def LoadError.message : LoadError → String
  | read path fault => "failed to read " ++ path ++ ": " ++ fault.message
  | cache error => error.message

/-- A module file. -/
structure SourceFile where
  unit : String
  content : List UInt8
  deriving DecidableEq, Repr

namespace SourceFile

/-- Read the file at a path. -/
def read (fs : FileSystem) (path : String) : Except LoadError SourceFile :=
  match fs.read path with
  | .ok content => .ok ⟨FileSystem.stem path, content⟩
  | .error fault => .error (.read path fault)

/-- The content as a text; what is no text is replaced. -/
def text (file : SourceFile) : String :=
  Text.ofOctetsLossy file.content

end SourceFile

namespace Loader

/-- The compiler with files queued. -/
def queue (files : List SourceFile) : Compiler :=
  .ofSources (files.map fun file => (file.unit, file.text))

/-- The modules compiled from files. -/
def modulesOf (files : List SourceFile) : ModuleSet :=
  (queue files).compileAll.modules

/-- The compiler with the files at some paths queued. -/
def load (fs : FileSystem) (paths : List String) : Except LoadError Compiler :=
  (paths.mapM (SourceFile.read fs)).map queue

/-- The modules compiled from the files at some paths. -/
def compile (fs : FileSystem) (paths : List String) : Except LoadError ModuleSet :=
  (paths.mapM (SourceFile.read fs)).map modulesOf

/-- The fingerprint of files. -/
def fingerprint (files : List SourceFile) : Fingerprint :=
  Cache.fingerprint (files.map fun file => (file.unit, file.content))

/-- Write modules to a cache file. -/
def saveCache (fs : FileSystem) (path : String) (set : ModuleSet)
    (fingerprint : Option Fingerprint) : Except CacheError FileSystem :=
  (fs.write path (Cache.write set fingerprint)).mapError .file

/-- Read modules from a cache file. With an expected fingerprint the file has to have that one. -/
def loadCache (fs : FileSystem) (path : String) (expected : Option Fingerprint) :
    Except CacheError ModuleSet := do
  let bytes ← (fs.read path).mapError .file
  Cache.read bytes expected

/-- Whether a cache file can be read and has a fingerprint. -/
def isCacheValid (fs : FileSystem) (path : String) (expected : Fingerprint) : Bool :=
  match fs.read path with
  | .ok bytes =>
    match Cache.fingerprintOf bytes with
    | .ok stored => stored = some expected
    | .error _ => false
  | .error _ => false

/-- The modules in a cache file that has a fingerprint and can be read. -/
def cached? (fs : FileSystem) (path : String) (expected : Fingerprint) : Option ModuleSet :=
  if isCacheValid fs path expected then (loadCache fs path (some expected)).toOption else none

/-- The modules compiled from the files at some paths, by way of a cache file. A cache that cannot
be written is no failure. -/
def compileCached (fs : FileSystem) (paths : List String) (cache : String) :
    Except LoadError ModuleSet × FileSystem :=
  match paths.mapM (SourceFile.read fs) with
  | .error e => (.error e, fs)
  | .ok files =>
    match cached? fs cache (fingerprint files) with
    | some set => (.ok set, fs)
    | none =>
      let set := modulesOf files
      match saveCache fs cache set (some (fingerprint files)) with
      | .ok fs => (.ok set, fs)
      | .error _ => (.ok set, fs)

/-- Compile the files at some paths and write the modules to a cache file. -/
def save (fs : FileSystem) (paths : List String) (cache : String)
    (fingerprint : Option Fingerprint) : Except LoadError FileSystem := do
  let set ← compile fs paths
  (saveCache fs cache set fingerprint).mapError .cache

end Loader

end Smi
