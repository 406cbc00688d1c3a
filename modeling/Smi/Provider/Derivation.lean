import Smi.Definition.Module
import Smi.Oid.Dotted
import Smi.Provider.Basic

/-!
# Deriving providers from a module

The objects of a module are read in the order of their declaration. An object whose `SYNTAX` is a
`SEQUENCE OF` opens a table; the objects behind it belong to the table as long as their parent is
the table, which makes them its entry, or the entry, which makes them its columns. Declarations
without a clause and `SEQUENCE` types are passed over. The first other object ends the table and is
looked at again. Outside tables every `OBJECT-TYPE` is a scalar. Objects without a position that can
be read give no provider.
-/

namespace Smi

/-- The identifier of an object, if its position can be read. -/
def ObjectDefinition.oid? (object : ObjectDefinition) : Option Oid :=
  object.oid.bind fun dotted => (Oid.read dotted).toOption

/-- A table while its entry and its columns are collected. -/
structure OpenTable where
  tableName : String
  entry : Option ObjectDefinition
  columns : List TableColumn
  deriving DecidableEq

namespace OpenTable

/-- The table opened by an object. -/
def named (tableName : String) : OpenTable :=
  ⟨tableName, none, []⟩

/-- The table with the column that an object declares, if its number can be read. -/
def addColumn (conventions : Conventions) (t : OpenTable) (object : ObjectDefinition) : OpenTable :=
  match object.clauseArc? with
  | some number =>
    { t with columns :=
        t.columns ++ [⟨number, object.name, object.type?.bind conventions.typeOf?⟩] }
  | none => t

/-- The table with one more object, or nothing if the object does not belong to the table. -/
def accept? (conventions : Conventions) (t : OpenTable) (object : ObjectDefinition) :
    Option OpenTable :=
  match object.clauseParent? with
  | none => some t
  | some parent =>
    if object.macroName = some "SEQUENCE" then some t
    else if parent = t.tableName then some { t with entry := some object }
    else match t.entry with
      | some entry => if parent = entry.name then some (t.addColumn conventions object) else none
      | none => none

/-- The index of an entry. Without an `INDEX` clause a table is indexed by its first column, and a
table that augments another one has no index of its own. -/
def entryIndex (entry : ObjectDefinition) : List IndexEntry :=
  if entry.augments?.isSome then []
  else if entry.index.isEmpty then [.ofNumber 1]
  else entry.index.map fun item => { IndexEntry.ofName item.column with implied := item.implied }

/-- The provider of a table whose entry has been found. -/
def close? (t : OpenTable) : Option TableProvider :=
  t.entry.bind fun entry => entry.oid?.map fun oid =>
    ⟨entry.name, some t.tableName, oid, t.columns, entryIndex entry, entry.augments?⟩

end OpenTable

/-- The scalars and tables of a module. -/
structure DerivedProviders where
  scalars : List ScalarProvider
  tables : List TableProvider
  deriving DecidableEq

namespace DerivedProviders

/-- Nothing derived. -/
def empty : DerivedProviders :=
  ⟨[], []⟩

/-- All providers, the scalars first. -/
def toList (derived : DerivedProviders) : List ProviderSpec :=
  derived.scalars.map .scalar ++ derived.tables.map .table

/-- Add a closed table at the end of the tables. -/
def addTable (derived : DerivedProviders) (t : OpenTable) : DerivedProviders :=
  { derived with tables := derived.tables ++ t.close?.toList }

/-- Whether an object opens a table. -/
def opensTable (object : ObjectDefinition) : Bool :=
  match object.type? with
  | some (.text name) => "SEQUENCE OF".toList.isPrefixOf name.toList
  | _ => false

/-- The scalar that an object outside tables declares. -/
def scalar? (conventions : Conventions) (object : ObjectDefinition) : Option ScalarProvider :=
  if object.macroName = some "OBJECT-TYPE" then
    object.type?.bind fun type => object.oid?.map fun oid =>
      ⟨object.name, oid, conventions.typeOf? type⟩
  else none

/-- Look at an object outside tables: it opens a table, or it may be a scalar. -/
def look (conventions : Conventions) (derived : DerivedProviders) (object : ObjectDefinition) :
    DerivedProviders × Option OpenTable :=
  if opensTable object then (derived, some (.named object.name))
  else
    ({ derived with
        scalars := derived.scalars ++ (scalar? conventions object).toList }, none)

/-- Read one object, with the table that is open before it and after it. -/
def read (conventions : Conventions) (state : DerivedProviders × Option OpenTable)
    (object : ObjectDefinition) : DerivedProviders × Option OpenTable :=
  match state.2 with
  | none => look conventions state.1 object
  | some t =>
    match t.accept? conventions object with
    | some t => (state.1, some t)
    | none => look conventions (state.1.addTable t) object

/-- The providers of objects in the order of their declaration. -/
def ofObjects (conventions : Conventions) (objects : List ObjectDefinition) : DerivedProviders :=
  match objects.foldl (read conventions) (empty, none) with
  | (derived, some t) => derived.addTable t
  | (derived, none) => derived

end DerivedProviders

/-- The providers of a module, the scalars first, then the tables, each in the order in which they
are declared. -/
def ModuleSet.deriveProviders (set : ModuleSet) (name : String) :
    Except Error (List ProviderSpec) :=
  match set.module? name with
  | none => .error (.unknownModule name)
  | some m => .ok (DerivedProviders.ofObjects (Conventions.ofModules set) m.objects).toList

end Smi
