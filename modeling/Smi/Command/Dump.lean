import Smi.Command.Result
import Smi.Loader
import Smi.Provider.Derivation

/-!
# Printing compiled modules

The dump command compiles files in the order in which they are given. For each module it lists the
objects with a position and the providers derived from the module.
-/

namespace Smi.Dump

/-- How the command is called. -/
def usage : String :=
  "Usage: mibdump <file>... [--cache <path>]"

/-- The files to compile, and the cache file if there is one. -/
structure Options where
  files : List String
  cache : Option String
  deriving DecidableEq, Repr

/-- Read arguments. The last `--cache` counts, and one without a path takes the cache away. -/
def readArguments (options : Options) : List String → Options
  | [] => options
  | ["--cache"] => { options with cache := none }
  | "--cache" :: path :: rest => readArguments { options with cache := some path } rest
  | file :: rest => readArguments { options with files := options.files ++ [file] } rest

/-- The displayed name of a type. -/
def typeName (type : Option ValueType) : String :=
  match type with
  | some type => type.name
  | none => "?"

/-- The line of an object with a position. -/
def objectLine? (object : ObjectDefinition) : Option String :=
  object.oid.map fun oid => oid ++ "\t" ++ object.name ++ "\t" ++ object.macroName.getD "-"

/-- The line of a column. -/
def columnLine (column : TableColumn) : String :=
  "  " ++ toString column.number ++ " " ++ column.name ++ " " ++ typeName column.type

/-- The line of a table without its columns. -/
def tableLine (table : TableProvider) : String :=
  "table " ++ table.name ++ " " ++ table.oid.dotted ++
    match table.augments with
    | some base => " augments " ++ base
    | none => " index " ++ ",".intercalate (table.index.map IndexEntry.label)

/-- The lines of a provider. -/
def providerLines : ProviderSpec → List String
  | .scalar provider =>
    ["scalar " ++ provider.name ++ " " ++ provider.oid.dotted ++ " " ++ typeName provider.type]
  | .table table => tableLine table :: table.columns.map columnLine

/-- The lines of the providers of a module of a collection. -/
def derivedLines (set : ModuleSet) (m : ModuleDefinition) : List String :=
  match set.deriveProviders m.name with
  | .ok providers => providers.flatMap providerLines
  | .error _ => []

/-- The lines of a module of a collection, with an empty line at the end. -/
def moduleLines (set : ModuleSet) (m : ModuleDefinition) : List String :=
  ["# " ++ m.name] ++ m.objects.filterMap objectLine? ++ derivedLines set m ++ [""]

/-- Compile the files of some options. -/
def compile (fs : FileSystem) (options : Options) : Except LoadError ModuleSet × FileSystem :=
  match options.cache with
  | some cache => Loader.compileCached fs options.files cache
  | none => (Loader.compile fs options.files, fs)

/-- Run the command. -/
def run (fs : FileSystem) (arguments : List String) : CommandResult :=
  let options := readArguments ⟨[], none⟩ arguments
  if options.files.isEmpty then .failure fs usage
  else match compile fs options with
    | (.ok set, fs) => .success fs (set.modules.flatMap (moduleLines set))
    | (.error e, fs) => .failure fs e.message

end Smi.Dump
