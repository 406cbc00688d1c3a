import Smi.ObjectTree.Registry
import Smi.ObjectTree.RowKey
import Smi.ObjectTree.Traversal

/-!
# Table rows

A row of a table has one cell in each column, at the suffix of its key. A row is added and deleted
as a whole; afterwards single cells can be read and replaced. An operation that fails leaves the
tree as it is.
-/

namespace Smi

/-- How all cells of a table are grouped. -/
inductive CellOrder where
  /-- One list for each column, with the rows in the order of their suffixes. -/
  | byColumn
  /-- One list for each row, with the columns in the order of their declaration. -/
  | byRow
  deriving DecidableEq, Repr

namespace ObjectTree

/-- The error for a row that is not there. -/
def missingRow (table : String) (suffix : List Nat) : Error :=
  .missingRow table (Oid.dottedArcs suffix)

/-- The address of the cell of a table in the column of a number. -/
def cellAddress (table : TableProvider) (column : Nat) (suffix : List Nat) : Except Error Oid := do
  (← table.oid.child column).extend suffix

/-- The key of a row from its values: first those of the foreign index entries, then, for each index
entry of the table itself, the value of its column. -/
def keyOfValues (table : TableProvider) (values : List Value) : Except Error RowKey := do
  let foreign := table.foreignIndex.length
  let own ← table.localIndex.mapM fun entry =>
    match (entry.columnNumber.bind table.columnPosition?).bind fun i => values[foreign + i]? with
    | some value => .ok value
    | none => .error (.unresolvedIndexColumn table.name entry.label)
  return values.take foreign ++ own

/-- The cells of a row, each with its address, if all of them may be stored. -/
def planCells (tree : ObjectTree) (table : TableProvider) (suffix : List Nat) :
    List (TableColumn × Value) → Except Error (List (Oid × Cell))
  | [] => .ok []
  | (column, value) :: rest => do
    let address ← cellAddress table column.number suffix
    tree.checkSlot address
    let others ← tree.planCells table suffix rest
    return (address, ⟨value, column.type.getD value.naturalType⟩) :: others

/-- The key and the cells of a row of values. -/
def planRow (tree : ObjectTree) (name : String) (values : List Value) :
    Except Error (RowKey × List (Oid × Cell)) := do
  let table ← tree.table name
  let foreign := table.foreignIndex.length
  let expected := foreign + table.columns.length
  if values.length ≠ expected then
    throw (.rowLengthMismatch name expected values.length)
  let key ← keyOfValues table values
  let suffix ← RowKey.suffix table key
  let cells ← tree.planCells table suffix (table.columns.zip (values.drop foreign))
  return (key, cells)

/-- Add a row or write over it. The values are those of the foreign index entries, followed by one
for each column. The answer is the key of the row. -/
def addRow (tree : ObjectTree) (name : String) (values : List Value) : Outcome RowKey :=
  match tree.planRow name values with
  | .ok (key, cells) =>
    (.ok key, cells.foldl (fun tree cell => tree.store cell.1 cell.2) tree)
  | .error e => (.error e, tree)

/-- The nodes of a row's cells; every column has to have one with a value. -/
def rowNodes (tree : ObjectTree) (table : TableProvider) (suffix : List Nat) :
    List TableColumn → Except Error (List NodeId)
  | [] => .ok []
  | column :: rest => do
    let address ← cellAddress table column.number suffix
    match (tree.find? address).filter fun id => ((tree.node? id).bind Node.value?).isSome with
    | some id =>
      let others ← tree.rowNodes table suffix rest
      return id :: others
    | none => throw (missingRow table.name suffix)

/-- The nodes of the cells of the row of a key. -/
def planDeletion (tree : ObjectTree) (name : String) (key : RowKey) :
    Except Error (List NodeId) := do
  let table ← tree.table name
  let suffix ← RowKey.suffix table key
  tree.rowNodes table suffix table.columns

/-- Delete all cells of a row. -/
def deleteRow (tree : ObjectTree) (name : String) (key : RowKey) : Outcome Unit :=
  match tree.planDeletion name key with
  | .ok ids => (.ok (), ids.foldl clear tree)
  | .error e => (.error e, tree)

/-- The suffix of a key and the address of its cell in the column of a number. -/
def locateCell (tree : ObjectTree) (name : String) (column : Nat) (key : RowKey) :
    Except Error (List Nat × Oid) := do
  let table ← tree.table name
  if (table.column? column).isNone then throw (.unknownColumn name column)
  let suffix ← RowKey.suffix table key
  let address ← cellAddress table column suffix
  return (suffix, address)

/-- The value of a cell. -/
def getCell (tree : ObjectTree) (name : String) (column : Nat) (key : RowKey) :
    Except Error Value := do
  let (suffix, address) ← tree.locateCell name column key
  match tree.valueAt? address with
  | some value => return value
  | none => throw (missingRow name suffix)

/-- The node of a cell that has a value, and what it holds. -/
def planCell (tree : ObjectTree) (name : String) (column : Nat) (key : RowKey) :
    Except Error (NodeId × Cell) := do
  let (suffix, address) ← tree.locateCell name column key
  match (tree.find? address).bind fun id => ((tree.node? id).bind Node.cell).map (id, ·) with
  | some found => return found
  | none => throw (missingRow name suffix)

/-- Replace the value of a cell and answer the old one. The type of the cell stays. The plan names a
node that holds a value, so the write finds an old value and cannot fail. -/
def setCell (tree : ObjectTree) (name : String) (column : Nat) (key : RowKey) (value : Value) :
    Outcome Value :=
  match tree.planCell name column key with
  | .ok (id, cell) =>
    (.ok cell.value, tree.modify id fun node => { node with cell := some { cell with value } })
  | .error e => (.error e, tree)

/-- The values of a row in the order of the columns. -/
def getRow (tree : ObjectTree) (name : String) (key : RowKey) : Except Error (List Value) := do
  let table ← tree.table name
  table.columns.mapM fun column => tree.getCell name column.number key

/-- The cells of a column with their addresses, in ascending order. -/
def columnInstances (tree : ObjectTree) (name : String) (column : Nat) :
    Except Error (List (Oid × Cell)) := do
  let table ← tree.table name
  if (table.column? column).isNone then throw (.unknownColumn name column)
  let address ← table.oid.child column
  match tree.find? address with
  | some id => return instances (tree.preorder id)
  | none => return []

/-- The suffix of an instance below a column of a table. -/
def suffixOf (table : TableProvider) (address : Oid) : List Nat :=
  address.arcs.drop (table.oid.length + 1)

/-- The suffix in which the key of a table is written. -/
def instanceSuffix (tree : ObjectTree) (name : String) (key : RowKey) :
    Except Error (List Nat) := do
  RowKey.suffix (← tree.table name) key

/-- The key of a table that is written in a suffix. -/
def rowKeyOfSuffix (tree : ObjectTree) (name : String) (suffix : List Nat) :
    Except Error RowKey := do
  RowKey.ofSuffix (← tree.table name) suffix

/-- The keys and values of a column in the order of the suffixes. -/
def getColumn (tree : ObjectTree) (name : String) (column : Nat) :
    Except Error (List (RowKey × Value)) := do
  let table ← tree.table name
  let found ← tree.columnInstances name column
  found.mapM fun (address, cell) => do
    let key ← RowKey.ofSuffix table (suffixOf table address)
    return (key, cell.value)

/-- Add a value at the end of the row of a suffix. -/
def addToRow (rows : OrderedMap (List Nat) (List Value)) (suffix : List Nat) (value : Value) :
    OrderedMap (List Nat) (List Value) :=
  rows.insert suffix ((rows.get? suffix).getD [] ++ [value])

/-- All cells of a table, grouped by column or by row. -/
def allCells (tree : ObjectTree) (name : String) (order : CellOrder) :
    Except Error (List (List Value)) := do
  let table ← tree.table name
  let columns ← table.columns.mapM fun column => tree.columnInstances name column.number
  match order with
  | .byColumn => return columns.map fun cells => cells.map fun found => found.2.value
  | .byRow =>
    let rows := columns.flatten.foldl
      (fun rows found => addToRow rows (suffixOf table found.1) found.2.value) .empty
    return rows.values

end ObjectTree

end Smi
