import Smi.OrderedMap
import Smi.Provider.Basic
import Smi.Value

/-!
# The object tree

The nodes of an object tree stand in numbered slots, and a node's identifier is the number of its
slot. Every node knows its address, its parent and its children in ascending order of their arcs.
Nodes are created when an address is needed, and removed again once neither children nor a value nor
a provider holds them; a freed slot is used again before a new one, the slot freed last first. The
root is never removed.
-/

namespace Smi

/-- The slot number of a node. -/
abbrev NodeId := Nat

/-- A stored value and its type. The two are set together and removed together, so a node has a type
exactly if it has a value; a value that is replaced leaves the type as it is. -/
structure Cell where
  value : Value
  type : ValueType
  deriving DecidableEq

/-- A node of the object tree. -/
structure Node where
  address : Oid
  parent : Option NodeId
  /-- The children by the arc that leads to them. -/
  children : OrderedMap Nat NodeId
  /-- The name of the provider attached here. -/
  provider : Option String
  /-- The value and its type, or neither of them. -/
  cell : Option Cell
  deriving DecidableEq

namespace Node

/-- The node of an address without children, provider and value. -/
def bare (address : Oid) (parent : Option NodeId) : Node :=
  ⟨address, parent, .empty, none, none⟩

/-- The child behind an arc. -/
def child? (node : Node) (arc : Nat) : Option NodeId :=
  node.children.get? arc

/-- Whether the node has no children. -/
def isLeaf (node : Node) : Bool :=
  node.children.isEmpty

/-- The value of the node. -/
def value? (node : Node) : Option Value :=
  node.cell.map Cell.value

/-- Whether nothing holds the node. -/
def isVacant (node : Node) : Bool :=
  node.isLeaf && node.provider.isNone && node.cell.isNone

end Node

/-- A registered provider and the node that it is attached to. The provider carries its name. -/
structure Registration where
  spec : ProviderSpec
  node : NodeId
  deriving DecidableEq

/-- Nodes in slots, and the providers attached to them. -/
structure ObjectTree where
  slots : Array (Option Node)
  /-- The free slots, the one freed last first. -/
  free : List NodeId
  /-- The registered providers in the order of their registration. One list is both what is found by
  a name and the order of the names: a name enters the two together, behind all others, and leaves
  them together, so a name has a place in the order exactly if it is registered. -/
  registry : List Registration
  deriving DecidableEq

/-- The result of an operation that may fail, and the tree after it. -/
abbrev Outcome (α : Type) := Except Error α × ObjectTree

namespace ObjectTree

/-- The identifier of the root. -/
def rootId : NodeId :=
  0

/-- The tree that holds the root alone. -/
def empty : ObjectTree :=
  ⟨#[some (.bare .root none)], [], []⟩

instance : Inhabited ObjectTree :=
  ⟨empty⟩

/-- The node of an identifier. -/
def node? (tree : ObjectTree) (id : NodeId) : Option Node :=
  tree.slots[id]?.join

/-- The number of nodes, the root included. -/
def size (tree : ObjectTree) : Nat :=
  tree.slots.size - tree.free.length

/-- Whether the tree holds the root alone. -/
def isEmpty (tree : ObjectTree) : Bool :=
  tree.size = 1

/-- The node reached from a node along arcs. -/
def findFrom? (tree : ObjectTree) (id : NodeId) : List Nat → Option NodeId
  | [] => some id
  | arc :: rest => (tree.node? id).bind fun node =>
    (node.child? arc).bind fun child => tree.findFrom? child rest

/-- The identifier of the node at an address. -/
def find? (tree : ObjectTree) (oid : Oid) : Option NodeId :=
  tree.findFrom? rootId oid.arcs

/-- The node at an address. -/
def get? (tree : ObjectTree) (oid : Oid) : Option Node :=
  (tree.find? oid).bind tree.node?

/-- The value at an address. -/
def valueAt? (tree : ObjectTree) (oid : Oid) : Option Value :=
  (tree.get? oid).bind Node.value?

/-- The tree with a live node changed. -/
def modify (tree : ObjectTree) (id : NodeId) (f : Node → Node) : ObjectTree :=
  match tree.node? id with
  | some node => { tree with slots := tree.slots.setIfInBounds id (some (f node)) }
  | none => tree

/-- Put a node into the slot freed last, or else into a new slot. -/
def allocate (tree : ObjectTree) (node : Node) : ObjectTree × NodeId :=
  match tree.free with
  | id :: free => ({ tree with slots := tree.slots.setIfInBounds id (some node), free }, id)
  | [] => ({ tree with slots := tree.slots.push (some node) }, tree.slots.size)

/-- Create the child of a node behind an arc. -/
def addChild (tree : ObjectTree) (parent : NodeId) (arc : Nat) (address : Oid) :
    ObjectTree × NodeId :=
  let (tree, child) := tree.allocate (.bare address (some parent))
  (tree.modify parent fun node => { node with children := node.children.insert arc child }, child)

/-- Follow arcs from the node at the first `depth` arcs of an address and create what is missing. -/
def materializeFrom (tree : ObjectTree) (id : NodeId) (oid : Oid) (depth : Nat) :
    List Nat → ObjectTree × NodeId
  | [] => (tree, id)
  | arc :: rest =>
    match (tree.node? id).bind (·.child? arc) with
    | some child => tree.materializeFrom child oid (depth + 1) rest
    | none =>
      let (tree, child) := tree.addChild id arc (oid.take (depth + 1))
      tree.materializeFrom child oid (depth + 1) rest

/-- The node at an address, created with all its ancestors where they are missing. -/
def materialize (tree : ObjectTree) (oid : Oid) : ObjectTree × NodeId :=
  tree.materializeFrom rootId oid 0 oid.arcs

/-- Remove a node without children. The root cannot be removed, and a node that does not exist is
removed already. -/
def delete (tree : ObjectTree) (id : NodeId) : Outcome Unit :=
  if id = rootId then (.error .rootNode, tree)
  else match tree.node? id with
    | none => (.ok (), tree)
    | some node =>
      if !node.isLeaf then (.error (.nonLeafNode node.address.dotted), tree)
      else
        let tree := match node.parent, node.address.lastArc? with
          | some parent, some arc =>
            tree.modify parent fun above => { above with children := above.children.erase arc }
          | _, _ => tree
        (.ok (), { tree with
          slots := tree.slots.setIfInBounds id none
          free := id :: tree.free })

/-- Remove a node and then its ancestors, as long as nothing holds them, up to `limit` nodes. -/
def pruneUp (tree : ObjectTree) (id : NodeId) : Nat → ObjectTree
  | 0 => tree
  | limit + 1 =>
    match tree.node? id with
    | none => tree
    | some node =>
      if id = rootId || !node.isVacant then tree
      else match tree.delete id with
        | (.error _, tree) => tree
        | (.ok _, tree) =>
          match node.parent with
          | some parent => tree.pruneUp parent limit
          | none => tree

/-- Remove a node and then its ancestors, as long as nothing holds them. An address bounds the
number of nodes between its node and the root. -/
def prune (tree : ObjectTree) (id : NodeId) : ObjectTree :=
  match tree.node? id with
  | some node => tree.pruneUp id node.address.length
  | none => tree

/-- Whether a value may stand at the end of arcs below a node: no node before the end has a value,
and the node at the end, if there is one, has no children. -/
def checkSlotFrom (tree : ObjectTree) (id : NodeId) : List Nat → Except Error Unit
  | [] =>
    match tree.node? id with
    | some node =>
      if node.isLeaf then .ok () else .error (.valueNodeConflict node.address.dotted)
    | none => .ok ()
  | arc :: rest =>
    match tree.node? id with
    | some node =>
      if node.cell.isSome then .error (.valueNodeConflict node.address.dotted)
      else match node.child? arc with
        | some child => tree.checkSlotFrom child rest
        | none => .ok ()
    | none => .ok ()

/-- Whether a value may stand at an address. -/
def checkSlot (tree : ObjectTree) (oid : Oid) : Except Error Unit :=
  tree.checkSlotFrom rootId oid.arcs

/-- Store a value at an address. -/
def store (tree : ObjectTree) (oid : Oid) (cell : Cell) : ObjectTree :=
  let (tree, id) := tree.materialize oid
  tree.modify id fun node => { node with cell := some cell }

/-- Remove the value of a node, and the node with it if nothing else holds it. -/
def clear (tree : ObjectTree) (id : NodeId) : ObjectTree :=
  (tree.modify id fun node => { node with cell := none }).prune id

end ObjectTree

end Smi
