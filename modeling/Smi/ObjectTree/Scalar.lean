import Smi.ObjectTree.Registry

/-!
# Scalar values

The value of a scalar stands at the child `0` of its node. It has the declared type of the scalar,
or its natural type if none is declared. An operation that fails leaves the tree as it is.
-/

namespace Smi.ObjectTree

/-- The scalar of a name and the address of its instance. -/
def scalarInstance (tree : ObjectTree) (name : String) : Except Error (ScalarProvider × Oid) := do
  let provider ← tree.scalar name
  let address ← provider.oid.child 0
  return (provider, address)

/-- The value of a scalar. -/
def getScalar (tree : ObjectTree) (name : String) : Except Error Value := do
  let (_, address) ← tree.scalarInstance name
  match tree.valueAt? address with
  | some value => return value
  | none => throw (.unsetScalar name)

/-- Where the value of a scalar is stored, if it may be stored there, and what is stored. -/
def planScalar (tree : ObjectTree) (name : String) (value : Value) : Except Error (Oid × Cell) := do
  let (provider, address) ← tree.scalarInstance name
  tree.checkSlot address
  return (address, ⟨value, provider.type.getD value.naturalType⟩)

/-- Set the value of a scalar. -/
def setScalar (tree : ObjectTree) (name : String) (value : Value) : Outcome Unit :=
  match tree.planScalar name value with
  | .ok (address, cell) => (.ok (), tree.store address cell)
  | .error e => (.error e, tree)

/-- Remove the value of a scalar and answer it. -/
def clearScalar (tree : ObjectTree) (name : String) : Outcome (Option Value) :=
  match tree.scalarInstance name with
  | .error e => (.error e, tree)
  | .ok (_, address) =>
    match tree.find? address with
    | some id => (.ok ((tree.node? id).bind Node.value?), tree.clear id)
    | none => (.ok none, tree)

end Smi.ObjectTree
