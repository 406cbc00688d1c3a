import Smi.ObjectTree.Basic

/-!
# Registering providers

A provider is registered under its name at the node of its identifier. The index of a table is
settled first: each entry is looked up by name or number among the columns of the table itself and
then among those of the other tables in the order of their registration, which makes it foreign. A
table that augments another one takes over the settled index of that one, and a table without an
index is indexed by its first column. An operation that fails leaves the tree as it is.
-/

namespace Smi.ObjectTree

/-- The registration under a name. -/
def registration? (tree : ObjectTree) (name : String) : Option Registration :=
  tree.registry.find? fun registration => registration.spec.name = name

/-- The provider registered under a name. -/
def provider? (tree : ObjectTree) (name : String) : Option ProviderSpec :=
  (tree.registration? name).map Registration.spec

/-- The node of the provider registered under a name. -/
def providerNode? (tree : ObjectTree) (name : String) : Option NodeId :=
  (tree.registration? name).map Registration.node

/-- The registered providers in the order of their registration. -/
def providers (tree : ObjectTree) : List ProviderSpec :=
  tree.registry.map Registration.spec

/-- The scalar registered under a name. -/
def scalar (tree : ObjectTree) (name : String) : Except Error ScalarProvider :=
  match tree.provider? name with
  | some (.scalar provider) => .ok provider
  | some (.table _) => .error (.wrongProviderKind name .scalar .table)
  | none => .error (.unknownProvider name)

/-- The table registered under a name. -/
def table (tree : ObjectTree) (name : String) : Except Error TableProvider :=
  match tree.provider? name with
  | some (.table provider) => .ok provider
  | some (.scalar _) => .error (.wrongProviderKind name .table .scalar)
  | none => .error (.unknownProvider name)

/-- The column that an index entry means among some columns. An entry with a name is matched by it,
and its number, if it has one, has to agree. -/
def matchColumn (table : String) (position : Nat) (entry : IndexEntry)
    (columns : List TableColumn) : Except Error (Option TableColumn) :=
  match entry.columnName with
  | none => .ok (columns.find? fun column => some column.number = entry.columnNumber)
  | some name =>
    match columns.find? fun column => column.name = name, entry.columnNumber with
    | none, _ => .ok none
    | some column, none => .ok (some column)
    | some column, some number =>
      if number = column.number then .ok (some column)
      else .error (.indexColumnMismatch table position name column.number number)

/-- The first of some tables with the column that an index entry of another table means. -/
def matchForeign (table : String) (position : Nat) (entry : IndexEntry) :
    List TableProvider → Except Error (Option (TableColumn × Option String))
  | [] => .ok none
  | other :: rest => do
    if other.name = table then matchForeign table position entry rest
    else match ← matchColumn table position entry other.columns with
      | some column => return some (column, some other.name)
      | none => matchForeign table position entry rest

/-- The column that an index entry of a table means, and the table that owns it if it is another. -/
def matchEntry (tree : ObjectTree) (table : TableProvider) (position : Nat) (entry : IndexEntry) :
    Except Error (Option (TableColumn × Option String)) := do
  match entry.foreign.filter fun owner => owner ≠ table.name with
  | some owner =>
    let other ← tree.table owner
    let found ← matchColumn table.name position entry other.columns
    return found.map (·, some owner)
  | none =>
    match ← matchColumn table.name position entry table.columns with
    | some column => return some (column, none)
    | none => matchForeign table.name position entry (tree.providers.filterMap (·.table?))

/-- An index entry with its column settled. -/
def settleEntry (tree : ObjectTree) (table : TableProvider) (position : Nat) (entry : IndexEntry) :
    Except Error IndexEntry := do
  if entry.columnName.isNone && entry.columnNumber.isNone then
    throw (.incompleteIndexEntry table.name position)
  match ← tree.matchEntry table position entry with
  | some (column, foreign) =>
    return { entry with
      columnName := some column.name
      columnNumber := some column.number
      type := column.type
      foreign }
  | none => throw (.unresolvedIndexColumn table.name entry.label)

/-- The index entries of a table from a position on, settled in their order. -/
def settleEntries (tree : ObjectTree) (table : TableProvider) (position : Nat) :
    List IndexEntry → Except Error (List IndexEntry)
  | [] => .ok []
  | entry :: rest => do
    let first ← tree.settleEntry table position entry
    let others ← tree.settleEntries table (position + 1) rest
    return first :: others

/-- The index of a table as another table shares it: every entry is foreign. -/
def sharedIndex (base : TableProvider) : List IndexEntry :=
  base.index.map fun entry => { entry with foreign := some (entry.foreign.getD base.name) }

/-- The settled index of a table. -/
def settleIndex (tree : ObjectTree) (table : TableProvider) : Except Error (List IndexEntry) :=
  match table.augments with
  | some base =>
    if base = table.name then .error (.selfAugment table.name)
    else match tree.provider? base with
      | some (.table other) => .ok (sharedIndex other)
      | _ => .error (.unknownBaseTable table.name base)
  | none =>
    tree.settleEntries table 0 (if table.index.isEmpty then [.ofNumber 1] else table.index)

/-- A provider with its index settled. -/
def settle (tree : ObjectTree) : ProviderSpec → Except Error ProviderSpec
  | .scalar provider => .ok (.scalar provider)
  | .table provider => do
    let index ← tree.settleIndex provider
    return .table { provider with index }

/-- Whether a settled provider can be attached: its name and its node are free, and no value stands
at its node or above it. -/
def checkAttach (tree : ObjectTree) (spec : ProviderSpec) : Except Error Unit := do
  if (tree.registration? spec.name).isSome then throw (.duplicateProvider spec.name)
  match (tree.get? spec.oid).bind fun node => node.provider.map (node.address, ·) with
  | some (address, provider) => throw (.occupiedNode address.dotted provider)
  | none => pure ()
  tree.checkSlot spec.oid
  if (tree.valueAt? spec.oid).isSome then throw (.valueNodeConflict spec.oid.dotted)

/-- Attach a provider that can be attached. -/
def attach (tree : ObjectTree) (spec : ProviderSpec) : ObjectTree × NodeId :=
  let (tree, id) := tree.materialize spec.oid
  let tree := tree.modify id fun node => { node with provider := some spec.name }
  ({ tree with registry := tree.registry ++ [⟨spec, id⟩] }, id)

/-- Register a provider and answer its node. -/
def register (tree : ObjectTree) (spec : ProviderSpec) : Outcome NodeId :=
  let checked : Except Error ProviderSpec := do
    let spec ← tree.settle spec
    tree.checkAttach spec
    return spec
  match checked with
  | .ok spec =>
    let (tree, id) := tree.attach spec
    (.ok id, tree)
  | .error e => (.error e, tree)

/-- Register providers in their order. The first failure ends this, and the providers before it stay
registered. -/
def registerAll (tree : ObjectTree) : List ProviderSpec → Outcome Unit
  | [] => (.ok (), tree)
  | spec :: rest =>
    match tree.register spec with
    | (.ok _, tree) => tree.registerAll rest
    | (.error e, tree) => (.error e, tree)

/-- Whether the provider of a name can be detached: it is registered, and its node has no children.
The answer is its registration. -/
def checkDetach (tree : ObjectTree) (name : String) : Except Error Registration := do
  match tree.registration? name with
  | none => throw (.unknownProvider name)
  | some registration =>
    match (tree.node? registration.node).filter fun node => !node.isLeaf with
    | some node => throw (.nonLeafNode node.address.dotted)
    | none => return registration

/-- Detach a registered provider and remove the branch that held it as far as nothing else does. -/
def detach (tree : ObjectTree) (registration : Registration) : ObjectTree :=
  let tree := (tree.modify registration.node fun node => { node with provider := none }).prune
    registration.node
  { tree with
    registry := tree.registry.filter fun other => other.spec.name ≠ registration.spec.name }

/-- Unregister a provider and answer it. What passes the check is in the registry, and removing its
branch leaves the registry alone, so it is still there to be taken out and nothing can fail behind
the check. -/
def unregister (tree : ObjectTree) (name : String) : Outcome ProviderSpec :=
  match tree.checkDetach name with
  | .ok registration => (.ok registration.spec, tree.detach registration)
  | .error e => (.error e, tree)

end Smi.ObjectTree
