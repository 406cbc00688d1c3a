import Smi.Text.Blank

/-!
# File systems

A file system holds directories and files below a root, and one of its directories is the working
directory. A path is a list of names between slashes. It is followed name by name, from the root if
a slash stands in front of it and from the working directory otherwise; every name but the last has
to lead to a directory. Files can be read and written, and a file that does not exist is created if
its directory exists.
-/

namespace Smi

/-- Why a file cannot be read or written. -/
inductive FileFault where
  | notFound
  | notADirectory
  | isADirectory
  deriving DecidableEq, Repr

/-- The message of the operating system. -/
def FileFault.message : FileFault → String
  | notFound => "No such file or directory (os error 2)"
  | notADirectory => "Not a directory (os error 20)"
  | isADirectory => "Is a directory (os error 21)"

/-- The names that lead from the root of a file system to a file or a directory. -/
abbrev Place := List String

/-- The directory or the place that a name leads to from a directory. An empty name and a single
point stay where they are, and two points lead to the directory above. Above the root is the root
itself. -/
def Place.down (place : Place) (name : String) : Place :=
  match name with
  | "" => place
  | "." => place
  | ".." => place.dropLast
  | name => place ++ [name]

/-- Directories and files by their places. -/
structure FileSystem where
  /-- The directory from which paths are followed. -/
  working : Place
  files : List (Place × List UInt8)
  directories : List Place
  deriving DecidableEq, Repr

namespace FileSystem

/-- What is found at a place. -/
inductive Entry where
  | file (content : List UInt8)
  | directory
  deriving DecidableEq, Repr

/-- What is at a place, if anything. The root is a directory. -/
def entry? (fs : FileSystem) (place : Place) : Option Entry :=
  match fs.files.lookup place with
  | some content => some (.file content)
  | none => if place = [] ∨ place ∈ fs.directories then some .directory else none

/-- The file system with the directories on the way down from a place, created where nothing is at
their places. -/
def makeDirectories (fs : FileSystem) (place : Place) : List String → FileSystem
  | [] => fs
  | name :: rest =>
    let next := place.down name
    match fs.entry? next with
    | some _ => fs.makeDirectories next rest
    | none => { fs with directories := next :: fs.directories }.makeDirectories next rest

/-- The file system without files and with no directories but the working directory and those above
it. -/
def empty (working : Place) : FileSystem :=
  makeDirectories ⟨working, [], []⟩ [] working

instance : Inhabited FileSystem :=
  ⟨empty []⟩

/-- The names of a path. -/
def namesOf (path : String) : List String :=
  Text.splitAt '/' path

/-- The place from which a path is followed. -/
def startOf (fs : FileSystem) (path : String) : Place :=
  if Text.beginsWith '/' path then [] else fs.working

/-- Follow names from a place. Each of them is looked up in a directory. -/
def follow (fs : FileSystem) (place : Place) : List String → Except FileFault Place
  | [] => .ok place
  | name :: rest =>
    match fs.entry? place with
    | none => .error .notFound
    | some (.file _) => .error .notADirectory
    | some .directory => fs.follow (place.down name) rest

/-- The content of the file at a path. -/
def read (fs : FileSystem) (path : String) : Except FileFault (List UInt8) := do
  if path.isEmpty then throw .notFound
  match fs.entry? (← fs.follow (fs.startOf path) (namesOf path)) with
  | some (.file content) => return content
  | some .directory => throw .isADirectory
  | none => throw .notFound

/-- The file system with a file at a place, in place of any other file there. -/
def put (fs : FileSystem) (place : Place) (content : List UInt8) : FileSystem :=
  { fs with files := (place, content) :: fs.files.filter fun file => file.1 ≠ place }

/-- The place at which writing to a path creates or replaces a file. The last name has to be that of
a file, and no slash may follow it. -/
def target (fs : FileSystem) (path : String) : Except FileFault Place := do
  if path.isEmpty then throw .notFound
  let names := namesOf path
  let named := (names.reverse.dropWhile String.isEmpty).reverse
  let directory ← fs.follow (fs.startOf path) named.dropLast
  match fs.entry? directory with
  | none => throw .notFound
  | some (.file _) => throw .notADirectory
  | some .directory =>
    if named.length ≠ names.length then throw .isADirectory
    let place ← fs.follow directory (named.drop (named.length - 1))
    match fs.entry? place with
    | some .directory => throw .isADirectory
    | _ => return place

/-- The file system with a file written. -/
def write (fs : FileSystem) (path : String) (content : List UInt8) :
    Except FileFault FileSystem := do
  return fs.put (← fs.target path) content

/-- The file system with a directory at a path and the directories above it. -/
def provideDirectory (fs : FileSystem) (path : String) : FileSystem :=
  fs.makeDirectories (fs.startOf path) (namesOf path)

/-- The file system with a file at a path and the directories above it. A path at which no file can
be leaves it without the file. -/
def provide (fs : FileSystem) (path : String) (content : List UInt8) : FileSystem :=
  let fs := fs.makeDirectories (fs.startOf path) (namesOf path).dropLast
  match fs.write path content with
  | .ok written => written
  | .error _ => fs

/-- The file system of some files and the directories above them, seen from a working directory. -/
def ofFiles (working : Place) (files : List (String × List UInt8)) : FileSystem :=
  files.foldl (fun fs file => fs.provide file.1 file.2) (empty working)

/-- The name of the file at a path without its last extension. A point at the front of the name
begins no extension. -/
def stem (path : String) : String :=
  let name := (namesOf path).getLast?.getD ""
  if name = "" ∨ name = "." ∨ name = ".." then path
  else
    let start := (name.toList.reverse.dropWhile (· ≠ '.')).drop 1
    if start.isEmpty then name else String.ofList start.reverse

end FileSystem

end Smi
