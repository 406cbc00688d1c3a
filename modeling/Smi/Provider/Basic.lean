import Smi.Oid.Basic
import Smi.ValueType

/-!
# Providers

A provider is what can be attached to the object tree: a scalar, whose single instance is its child
`0`, or a table, whose cells stand at `entry.column.suffix` with the row key written in the suffix.
A provider is plain data until it is registered with a tree.
-/

namespace Smi

/-- An object with a single instance. -/
structure ScalarProvider where
  name : String
  oid : Oid
  type : Option ValueType
  deriving DecidableEq

/-- A column of a table. -/
structure TableColumn where
  /-- The arc below the entry. -/
  number : Nat
  name : String
  type : Option ValueType
  deriving DecidableEq, Repr

/-- A component of the index of a table. Before registration the column may be known by its name or
its number alone. -/
structure IndexEntry where
  columnName : Option String
  columnNumber : Option Nat
  type : Option ValueType
  /-- A value of variable length is written without its length. -/
  implied : Bool
  /-- The fixed length of a string or an identifier, which is then written without its length. -/
  length : Option Nat
  /-- The table that owns the column, if it is another one. -/
  foreign : Option String
  deriving DecidableEq, Repr

namespace IndexEntry

/-- The entry of a column known by its name. -/
def ofName (name : String) : IndexEntry :=
  ⟨some name, none, none, false, none, none⟩

/-- The entry of a column known by its number. -/
def ofNumber (number : Nat) : IndexEntry :=
  ⟨none, some number, none, false, none, none⟩

/-- The name of an entry in messages. -/
def label (entry : IndexEntry) : String :=
  match entry.columnName, entry.columnNumber with
  | some name, _ => name
  | none, some number => toString number
  | none, none => "?"

/-- Whether a value of variable length is written behind its length. -/
def isCounted (entry : IndexEntry) : Bool :=
  !entry.implied && entry.length.isNone

end IndexEntry

/-- A table, addressed by the identifier of its entry. -/
structure TableProvider where
  /-- The name of the entry, by which the provider is known. -/
  name : String
  /-- The name of the table itself, if it comes from a module. -/
  tableName : Option String
  /-- The identifier of the entry. -/
  oid : Oid
  columns : List TableColumn
  index : List IndexEntry
  /-- The entry whose index the table shares. -/
  augments : Option String
  deriving DecidableEq

namespace TableProvider

/-- The column of a number. -/
def column? (table : TableProvider) (number : Nat) : Option TableColumn :=
  table.columns.find? fun column => column.number = number

/-- The column of a name. -/
def columnNamed? (table : TableProvider) (name : String) : Option TableColumn :=
  table.columns.find? fun column => column.name = name

/-- The place of a column among the columns. -/
def columnPosition? (table : TableProvider) (number : Nat) : Option Nat :=
  table.columns.findIdx? fun column => column.number = number

/-- The index entries on columns of other tables. -/
def foreignIndex (table : TableProvider) : List IndexEntry :=
  table.index.filter fun entry => entry.foreign.isSome

/-- The index entries on columns of the table itself. -/
def localIndex (table : TableProvider) : List IndexEntry :=
  table.index.filter fun entry => entry.foreign.isNone

/-- The index entries in the order of a row key: foreign ones first, then those of the table itself,
each in the order of their declaration. -/
def keyIndex (table : TableProvider) : List IndexEntry :=
  table.foreignIndex ++ table.localIndex

end TableProvider

/-- A scalar or a table. -/
inductive ProviderSpec where
  | scalar (provider : ScalarProvider)
  | table (provider : TableProvider)
  deriving DecidableEq

namespace ProviderSpec

/-- The name of a provider. -/
def name : ProviderSpec → String
  | scalar provider => provider.name
  | table provider => provider.name

/-- Where a provider is attached. -/
def oid : ProviderSpec → Oid
  | scalar provider => provider.oid
  | table provider => provider.oid

/-- The kind of a provider. -/
def kind : ProviderSpec → ProviderKind
  | scalar _ => .scalar
  | table _ => .table

/-- The table, if the provider is one. -/
def table? : ProviderSpec → Option TableProvider
  | table provider => some provider
  | scalar _ => none

end ProviderSpec

end Smi
