import Smi.Proofs.ObjectTree.Content

/-!
# Creating and removing nodes

Materializing an address creates the missing nodes on the way to it, and pruning removes nodes that
nothing holds any longer. Both leave a tree that fits together and holds what it held before.
-/

namespace Smi.ObjectTree

variable {tree before middle after : ObjectTree} {id other parent : NodeId} {node : Node}
  {arc : Nat} {address oid : Oid}

/-- The slots, the free list and the links of a tree fit together. -/
structure Shaped (tree : ObjectTree) : Prop where
  packed : tree.Packed
  linked : tree.Linked

/-- A tree fits together and holds the same as an earlier one. -/
structure Keeps (before after : ObjectTree) : Prop where
  shaped : after.Shaped
  held (id : NodeId) : after.held? id = before.held? id

/-- A tree that fits together keeps what it holds. -/
theorem Keeps.refl (hshaped : tree.Shaped) : tree.Keeps tree :=
  ⟨hshaped, fun _ => rfl⟩

/-- A tree that keeps what another one keeps holds the same as the first. -/
theorem Keeps.trans (hfirst : before.Keeps middle) (hsecond : middle.Keeps after) :
    before.Keeps after :=
  ⟨hsecond.shaped, fun id => (hsecond.held id).trans (hfirst.held id)⟩

/-- The same is found at every address when a tree keeps what it holds. -/
theorem Keeps.contentAt (hkeeps : before.Keeps after) (hshaped : before.Shaped) (oid : Oid) :
    after.contentAt oid = before.contentAt oid :=
  hshaped.linked.contentAt_congr hkeeps.shaped.linked hkeeps.held oid

/-! ### Materializing an address -/

/-- Adding a missing child keeps a tree in shape and what it holds. -/
theorem Shaped.addChild (hshaped : tree.Shaped) (hnode : tree.node? parent = some node)
    (hunused : node.child? arc = none) (haddress : address.arcs = node.address.arcs ++ [arc]) :
    tree.Keeps (tree.addChild parent arc address).1 where
  shaped := ⟨hshaped.packed.addChild parent arc address,
    hshaped.linked.addChild hshaped.packed hnode hunused haddress⟩
  held := hshaped.packed.held?_addChild hnode hunused

/-- The first arcs of a list and the arc behind them. -/
theorem take_drop_succ {arcs rest : List Nat} {depth : Nat}
    (hdrop : arcs.drop depth = arc :: rest) :
    arcs.take (depth + 1) = arcs.take depth ++ [arc] ∧ arcs.drop (depth + 1) = rest := by
  have hget : arcs[depth]? = some arc := by
    rw [← List.head?_drop, hdrop, List.head?_cons]
  constructor
  · rw [List.take_add_one, hget, Option.toList_some]
  · rw [← List.drop_drop, hdrop, List.drop_one, List.tail_cons]

/-- Following the rest of an address from the node at its first arcs ends at the address. -/
theorem Shaped.materializeFrom (hshaped : tree.Shaped) {depth : Nat} {rest : List Nat}
    (hnode : tree.node? id = some node) (haddress : node.address.arcs = oid.arcs.take depth)
    (hrest : oid.arcs.drop depth = rest) :
    tree.Keeps (tree.materializeFrom id oid depth rest).1 ∧
      ∃ found, (tree.materializeFrom id oid depth rest).1.node?
          (tree.materializeFrom id oid depth rest).2 = some found ∧ found.address = oid := by
  induction rest generalizing tree id node depth with
  | nil =>
    refine ⟨.refl hshaped, node, hnode, Oid.ext ?_⟩
    rw [haddress]
    exact List.take_of_length_le (List.drop_eq_nil_iff.mp hrest)
  | cons arc rest ih =>
    obtain ⟨htake, hdrop⟩ := take_drop_succ hrest
    have hchildAddress : (oid.take (depth + 1)).arcs = node.address.arcs ++ [arc] :=
      htake.trans (by rw [haddress])
    cases hchild : node.child? arc with
    | some child =>
      obtain ⟨below, hbelow, _, hbelowAddress⟩ := hshaped.linked.child hnode hchild
      have hstep := ih hshaped hbelow (hbelowAddress.trans hchildAddress.symm) hdrop
      simpa only [ObjectTree.materializeFrom, hnode, Option.bind_some, hchild] using hstep
    | none =>
      have hkeeps := hshaped.addChild hnode hchild hchildAddress
      have hnew := hshaped.packed.node?_addChild hnode arc (oid.take (depth + 1))
        (tree.addChild id arc (oid.take (depth + 1))).2
      rw [if_pos rfl] at hnew
      obtain ⟨hafter, found⟩ := ih hkeeps.shaped hnew rfl hdrop
      simp only [ObjectTree.materializeFrom, hnode, Option.bind_some, hchild]
      exact ⟨hkeeps.trans hafter, found⟩

/-- Materializing an address keeps what the tree holds and answers the node at the address. -/
theorem Shaped.materialize (hshaped : tree.Shaped) (oid : Oid) :
    tree.Keeps (tree.materialize oid).1 ∧
      ∃ found, (tree.materialize oid).1.node? (tree.materialize oid).2 = some found ∧
        found.address = oid := by
  obtain ⟨root, hroot, haddress, _⟩ := hshaped.linked.root
  exact hshaped.materializeFrom hroot (by rw [haddress]; rfl) rfl

/-! ### Pruning -/

/-- A leaf has no child. -/
theorem child?_eq_none_of_isLeaf (hleaf : node.isLeaf = true) (arc : Nat) :
    node.child? arc = none :=
  node.children.isEmpty_iff.mp hleaf arc

/-- A vacant node has no children and holds nothing. -/
theorem isVacant_iff : node.isVacant = true ↔ node.isLeaf = true ∧ node.content = .blank := by
  simp [Node.isVacant, Node.content, Content.blank, and_assoc]

/-- Removing a node without children below the root takes it from its parent. -/
theorem Linked.delete_eq (hlinked : tree.Linked) (hid : id ≠ rootId)
    (hnode : tree.node? id = some node) (hleaf : node.isLeaf = true) :
    ∃ parent above arc, node.parent = some parent ∧ tree.node? parent = some above ∧
      node.address.arcs = above.address.arcs ++ [arc] ∧
      tree.delete id = (.ok (), tree.unlink id parent arc) := by
  obtain ⟨parent, above, arc, hparent, habove, _, haddress⟩ := hlinked.parent hnode hid
  have hlast : node.address.lastArc? = some arc := by
    rw [Oid.lastArc?, haddress, List.getLast?_concat]
  exact ⟨parent, above, arc, hparent, habove, haddress,
    delete_eq_unlink hid hnode hleaf hparent hlast⟩

/-- Removing a vacant node below the root keeps what the tree holds. -/
theorem Shaped.delete (hshaped : tree.Shaped) (hid : id ≠ rootId)
    (hnode : tree.node? id = some node) (hvacant : node.isVacant = true) :
    ∃ after, tree.delete id = (.ok (), after) ∧ tree.Keeps after := by
  obtain ⟨hleaf, hblank⟩ := isVacant_iff.mp hvacant
  obtain ⟨parent, above, arc, hparent, habove, haddress, hdelete⟩ :=
    hshaped.linked.delete_eq hid hnode hleaf
  have hne : parent ≠ id := ne_of_address hnode habove haddress
  refine ⟨_, hdelete, ⟨?_, ?_⟩, ?_⟩
  · exact hshaped.packed.unlink hnode parent arc
  · exact hshaped.linked.unlink hid hnode (child?_eq_none_of_isLeaf hleaf) hparent habove haddress
  · exact held?_unlink hne habove hnode hblank

/-- Pruning keeps a tree in shape and what it holds. -/
theorem Shaped.pruneUp (hshaped : tree.Shaped) (id : NodeId) (limit : Nat) :
    tree.Keeps (tree.pruneUp id limit) := by
  induction limit generalizing tree id with
  | zero => exact .refl hshaped
  | succ limit ih =>
    cases hnode : tree.node? id with
    | none =>
      simp only [ObjectTree.pruneUp, hnode]
      exact .refl hshaped
    | some node =>
      by_cases hstop : (decide (id = rootId) || !node.isVacant) = true
      · simp only [ObjectTree.pruneUp, hnode, hstop, if_true]
        exact .refl hshaped
      · have hid : id ≠ rootId := fun h => hstop (by simp [h])
        have hvacant : node.isVacant = true := by simpa [hid] using hstop
        obtain ⟨after, hdelete, hkeeps⟩ := hshaped.delete hid hnode hvacant
        simp only [ObjectTree.pruneUp, hnode, if_neg hstop, hdelete]
        cases node.parent with
        | none => exact hkeeps
        | some parent => exact hkeeps.trans (ih hkeeps.shaped parent)

/-- Pruning keeps what the tree holds. -/
theorem Shaped.prune (hshaped : tree.Shaped) (id : NodeId) : tree.Keeps (tree.prune id) := by
  unfold ObjectTree.prune
  cases tree.node? id with
  | none => exact .refl hshaped
  | some node => exact hshaped.pruneUp id node.address.length

/-! ### The registry

Nodes are created and removed without a look at the registry. -/

/-- Materializing an address keeps the registry. -/
@[simp] theorem registry_materialize (oid : Oid) :
    (tree.materialize oid).1.registry = tree.registry := by
  have hfrom (tree : ObjectTree) (id : NodeId) (depth : Nat) (arcs : List Nat) :
      (tree.materializeFrom id oid depth arcs).1.registry = tree.registry := by
    induction arcs generalizing tree id depth with
    | nil => rfl
    | cons arc rest ih =>
      unfold ObjectTree.materializeFrom
      split
      · exact ih _ _ _
      · rw [ih, registry_addChild]
  exact hfrom tree rootId 0 oid.arcs

/-- Deleting a node keeps the registry. -/
@[simp] theorem registry_delete (tree : ObjectTree) (id : NodeId) :
    (tree.delete id).2.registry = tree.registry := by
  unfold ObjectTree.delete
  split
  · rfl
  · split
    · rfl
    · split
      · rfl
      · dsimp only
        split
        · rw [registry_modify]
        · rfl

/-- Pruning up to a limit keeps the registry. -/
@[simp] theorem registry_pruneUp (id : NodeId) (limit : Nat) :
    (tree.pruneUp id limit).registry = tree.registry := by
  induction limit generalizing tree id with
  | zero => rfl
  | succ limit ih =>
    have hdelete := registry_delete tree id
    unfold ObjectTree.pruneUp
    cases tree.node? id with
    | none => rfl
    | some node =>
      by_cases hstop : (decide (id = rootId) || !node.isVacant) = true
      · simp [hstop]
      · simp only [hstop]
        rcases hresult : tree.delete id with ⟨_ | _, after⟩
        · rw [hresult] at hdelete
          exact hdelete
        · rw [hresult] at hdelete
          cases node.parent with
          | none => exact hdelete
          | some parent => exact (ih parent).trans hdelete

/-- Pruning keeps the registry. -/
@[simp] theorem registry_prune (id : NodeId) : (tree.prune id).registry = tree.registry := by
  unfold ObjectTree.prune
  cases tree.node? id <;> simp

/-- Storing a value keeps the registry. -/
@[simp] theorem registry_store (oid : Oid) (cell : Cell) :
    (tree.store oid cell).registry = tree.registry := by
  simp [store]

/-- Clearing a node keeps the registry. -/
@[simp] theorem registry_clear (id : NodeId) : (tree.clear id).registry = tree.registry := by
  simp [clear]

end Smi.ObjectTree
