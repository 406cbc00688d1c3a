import Smi.ObjectTree.Basic

/-!
# Walking the object tree

The nodes below a node are visited depth first and in ascending order of their arcs, which is the
order of their addresses. The next instance after an address is the first node with a value and a
greater address.
-/

namespace Smi.ObjectTree

/-- The nodes from a node down to a depth, in the order of their addresses. -/
def descend (tree : ObjectTree) : Nat → NodeId → List (NodeId × Node)
  | 0, _ => []
  | depth + 1, id =>
    match tree.node? id with
    | some node => (id, node) :: node.children.values.flatMap (tree.descend depth)
    | none => []

/-- A node and all nodes below it in the order of their addresses. No way down passes more nodes
than there are slots. -/
def preorder (tree : ObjectTree) (id : NodeId) : List (NodeId × Node) :=
  tree.descend tree.slots.size id

/-- The instances in a list of nodes: their addresses and values. -/
def instances (nodes : List (NodeId × Node)) : List (Oid × Cell) :=
  nodes.filterMap fun (_, node) => node.cell.map (node.address, ·)

/-- The first instance behind an address. -/
def nextInstance? (tree : ObjectTree) (oid : Oid) : Option (Oid × Value) :=
  ((instances (tree.preorder rootId)).find? fun found => oid < found.1).map
    fun (address, cell) => (address, cell.value)

/-- The instances reached by asking for the next one, at most `limit` of them. -/
def walkFrom (tree : ObjectTree) (oid : Oid) : Nat → List (Oid × Value)
  | 0 => []
  | limit + 1 =>
    match tree.nextInstance? oid with
    | some found => found :: tree.walkFrom found.1 limit
    | none => []

/-- The instances reached from an address by asking for the next one again and again. -/
def walk (tree : ObjectTree) (oid : Oid) : List (Oid × Value) :=
  tree.walkFrom oid tree.size

/-- The node at the end of arcs below a node, or else the node before the place where they leave the
tree: the last child before the missing arc, or the node that misses it. -/
def nearestFrom (tree : ObjectTree) (id : NodeId) : List Nat → NodeId
  | [] => id
  | arc :: rest =>
    match tree.node? id with
    | none => id
    | some node =>
      match node.child? arc with
      | some child => tree.nearestFrom child rest
      | none =>
        match (node.children.entries.filter fun entry => entry.1 < arc).getLast? with
        | some before => before.2
        | none => id

/-- The node at an address or right before its place. -/
def nearest (tree : ObjectTree) (oid : Oid) : NodeId :=
  tree.nearestFrom rootId oid.arcs

end Smi.ObjectTree
