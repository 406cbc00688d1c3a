import Smi.ObjectTree.Basic
import Smi.Proofs.OrderedMap

/-!
# The slots of an object tree

Every change of an object tree is made of three: a live node is modified, a node is put into a free
slot below its parent, or a node is taken out of its slot. This file says what each of them does to
the nodes behind the identifiers, and that the free list stays the list of the empty slots.
-/

namespace Smi

/-- What is found at an address: the name of a provider and a value with its type. -/
structure Content where
  provider : Option String
  cell : Option Cell
  deriving DecidableEq

namespace Node

/-- What a node holds. -/
def content (node : Node) : Content :=
  ⟨node.provider, node.cell⟩

/-- A node as it became while only children were added to it or taken from it. -/
structure Continues (now old : Node) : Prop where
  address : now.address = old.address
  parent : now.parent = old.parent
  content : now.content = old.content

/-- A node continues itself. -/
theorem Continues.refl (node : Node) : node.Continues node :=
  ⟨rfl, rfl, rfl⟩

end Node

namespace ObjectTree

variable {tree : ObjectTree} {id other parent : NodeId} {node now old : Node} {arc : Nat}
  {address : Oid}

/-- The free list names each empty slot once and no other slot. -/
structure Packed (tree : ObjectTree) : Prop where
  free_nodup : tree.free.Nodup
  mem_free_iff {id : NodeId} : id ∈ tree.free ↔ tree.slots[id]? = some none

/-- A node is live if its slot is full. -/
theorem node?_eq_some_iff : tree.node? id = some node ↔ tree.slots[id]? = some (some node) := by
  simp [node?, Option.join_eq_some_iff]

/-- A node stands in one of the slots. -/
theorem lt_size_of_node? (hnode : tree.node? id = some node) : id < tree.slots.size :=
  (Array.getElem?_eq_some_iff.mp (node?_eq_some_iff.mp hnode)).1

/-- No node is live in a free slot. -/
theorem Packed.node?_of_mem_free (hpacked : tree.Packed) (hid : id ∈ tree.free) :
    tree.node? id = none := by
  rw [node?, hpacked.mem_free_iff.mp hid, Option.join_some]

/-! ### Modifying a node -/

/-- A modification is seen behind the identifier of its node alone. -/
theorem node?_modify (tree : ObjectTree) (id other : NodeId) (f : Node → Node) :
    (tree.modify id f).node? other =
      if other = id then (tree.node? id).map f else tree.node? other := by
  unfold modify
  cases hnode : tree.node? id with
  | none =>
    by_cases hother : other = id
    · rw [if_pos hother, hother, hnode, Option.map_none]
    · rw [if_neg hother]
  | some node =>
    have hlt := lt_size_of_node? hnode
    by_cases hother : other = id
    · subst hother
      simp [node?, hlt]
    · simp [node?, Array.getElem?_setIfInBounds_ne (Ne.symm hother), hother]

/-- Changing a node frees no slot. -/
@[simp] theorem free_modify (f : Node → Node) : (tree.modify id f).free = tree.free := by
  unfold modify
  split <;> rfl

/-- Changing a node keeps the registry. -/
@[simp] theorem registry_modify (f : Node → Node) :
    (tree.modify id f).registry = tree.registry := by
  unfold modify
  split <;> rfl

/-- Changing a node keeps the number of slots. -/
@[simp] theorem size_slots_modify (f : Node → Node) :
    (tree.modify id f).slots.size = tree.slots.size := by
  unfold modify
  split <;> simp

/-- The free slots are still the empty ones after a node is changed. -/
theorem Packed.modify (hpacked : tree.Packed) (id : NodeId) (f : Node → Node) :
    (tree.modify id f).Packed := by
  refine ⟨by rw [free_modify]; exact hpacked.free_nodup, fun {other} => ?_⟩
  rw [free_modify, hpacked.mem_free_iff, ObjectTree.modify]
  cases hnode : tree.node? id with
  | none => rfl
  | some node =>
    have hslot := node?_eq_some_iff.mp hnode
    by_cases hother : id = other
    · subst hother
      rw [hslot]
      simp [lt_size_of_node? hnode]
    · simp [Array.getElem?_setIfInBounds_ne hother]

/-! ### Putting a node into a free slot -/

/-- The slot of a new node was empty or did not exist. -/
theorem Packed.node?_allocate_fresh (hpacked : tree.Packed) (node : Node) :
    tree.node? (tree.allocate node).2 = none := by
  unfold ObjectTree.allocate
  cases hfree : tree.free with
  | nil => simp [node?]
  | cons first rest =>
    exact hpacked.node?_of_mem_free (by rw [hfree]; exact List.mem_cons_self)

/-- A new node stands in its slot, and all other slots hold what they held. -/
theorem Packed.node?_allocate (hpacked : tree.Packed) (node : Node) (other : NodeId) :
    (tree.allocate node).1.node? other =
      if other = (tree.allocate node).2 then some node else tree.node? other := by
  unfold ObjectTree.allocate
  cases hfree : tree.free with
  | nil =>
    by_cases hother : other = tree.slots.size
    · simp [node?, hother]
    · simp [node?, Array.getElem?_push, hother]
  | cons first rest =>
    have hslot : tree.slots[first]? = some none :=
      hpacked.mem_free_iff.mp (by rw [hfree]; exact List.mem_cons_self)
    have hlt : first < tree.slots.size := (Array.getElem?_eq_some_iff.mp hslot).1
    by_cases hother : other = first
    · subst hother
      simp [node?, hlt]
    · simp [node?, Array.getElem?_setIfInBounds_ne (Ne.symm hother), hother]

/-- Allocating a node keeps the registry. -/
@[simp] theorem registry_allocate (node : Node) :
    (tree.allocate node).1.registry = tree.registry := by
  unfold ObjectTree.allocate
  split <;> rfl

/-- The free slots are still the empty ones after a node is allocated. -/
theorem Packed.allocate (hpacked : tree.Packed) (node : Node) : (tree.allocate node).1.Packed := by
  unfold ObjectTree.allocate
  cases hfree : tree.free with
  | nil =>
    refine ⟨List.nodup_nil, fun {id} => ?_⟩
    have hnot : tree.slots[id]? ≠ some none := fun hslot => by
      have hmem := hpacked.mem_free_iff.mpr hslot
      rw [hfree] at hmem
      exact List.not_mem_nil hmem
    by_cases hid : id = tree.slots.size
    · simp [hid]
    · simp [Array.getElem?_push, hid, hnot]
  | cons first rest =>
    have hnodup := hpacked.free_nodup
    rw [hfree] at hnodup
    obtain ⟨hfirst, hrest⟩ := List.nodup_cons.mp hnodup
    refine ⟨hrest, fun {id} => ?_⟩
    have hmem : id ∈ tree.free ↔ tree.slots[id]? = some none := hpacked.mem_free_iff
    rw [hfree, List.mem_cons] at hmem
    by_cases hid : first = id
    · subst hid
      have hslot : tree.slots[first]? = some none := hmem.mp (Or.inl rfl)
      have hlt : first < tree.slots.size := (Array.getElem?_eq_some_iff.mp hslot).1
      simp [hfirst, hlt]
    · rw [Array.getElem?_setIfInBounds_ne hid, ← hmem]
      simp [Ne.symm hid]

/-! ### Creating a child -/

/-- The free slots are still the empty ones after a child is added. -/
theorem Packed.addChild (hpacked : tree.Packed) (parent : NodeId) (arc : Nat) (address : Oid) :
    (tree.addChild parent arc address).1.Packed :=
  (hpacked.allocate _).modify _ _

/-- Adding a child keeps the registry. -/
@[simp] theorem registry_addChild :
    (tree.addChild parent arc address).1.registry = tree.registry := by
  simp [addChild]

/-- The slot of a new child was empty or did not exist. -/
theorem Packed.node?_addChild_fresh (hpacked : tree.Packed) (parent : NodeId) (arc : Nat)
    (address : Oid) : tree.node? (tree.addChild parent arc address).2 = none :=
  hpacked.node?_allocate_fresh _

/-- A new child is bare, its parent knows it, and all other nodes are as they were. -/
theorem Packed.node?_addChild (hpacked : tree.Packed) (hnode : tree.node? parent = some node)
    (arc : Nat) (address : Oid) (other : NodeId) :
    (tree.addChild parent arc address).1.node? other =
      if other = (tree.addChild parent arc address).2 then some (.bare address (some parent))
      else if other = parent then
        some { node with
          children := node.children.insert arc (tree.addChild parent arc address).2 }
      else tree.node? other := by
  have hfresh := hpacked.node?_allocate_fresh (.bare address (some parent))
  have hallocate := hpacked.node?_allocate (.bare address (some parent))
  have hsnd : (tree.addChild parent arc address).2 =
      (tree.allocate (.bare address (some parent))).2 := rfl
  have hfst : (tree.addChild parent arc address).1 =
      (tree.allocate (.bare address (some parent))).1.modify parent fun above =>
        { above with children :=
            above.children.insert arc (tree.addChild parent arc address).2 } := rfl
  rw [← hsnd] at hfresh
  simp only [← hsnd] at hallocate
  have hne : parent ≠ (tree.addChild parent arc address).2 := fun h => by
    rw [← h, hnode] at hfresh
    cases hfresh
  rw [hfst, node?_modify, hallocate, hallocate, if_neg hne, hnode, Option.map_some]
  by_cases hother : other = parent
  · rw [if_pos hother, if_neg (by rw [hother]; exact hne), if_pos hother]
  · rw [if_neg hother, if_neg hother]

/-- Creating a child keeps every node and its children. -/
theorem Packed.addChild_of_old (hpacked : tree.Packed) (hnode : tree.node? parent = some node)
    (hunused : node.child? arc = none) (address : Oid) (hold : tree.node? id = some old) :
    ∃ now, (tree.addChild parent arc address).1.node? id = some now ∧ now.Continues old ∧
      ∀ a child, old.child? a = some child → now.child? a = some child := by
  have hafter := hpacked.node?_addChild hnode arc address id
  have hfresh := hpacked.node?_addChild_fresh parent arc address
  have hid : id ≠ (tree.addChild parent arc address).2 := fun h => by
    rw [← h, hold] at hfresh
    cases hfresh
  rw [if_neg hid] at hafter
  by_cases hparent : id = parent
  · rw [if_pos hparent] at hafter
    subst hparent
    obtain rfl : node = old := Option.some.inj (hnode.symm.trans hold)
    refine ⟨_, hafter, ⟨rfl, rfl, rfl⟩, fun a child hchild => ?_⟩
    have ha : a ≠ arc := fun h => by
      rw [h, hunused] at hchild
      cases hchild
    exact (node.children.get?_insert arc a _).trans ((if_neg ha).trans hchild)
  · rw [if_neg hparent] at hafter
    exact ⟨old, hafter.trans hold, .refl old, fun _ _ hchild => hchild⟩

/-- After a child was created, every node is the new one or an old one, and every child link is the
new one or an old one. -/
theorem Packed.old_of_addChild (hpacked : tree.Packed) (hnode : tree.node? parent = some node)
    (hnow : (tree.addChild parent arc address).1.node? id = some now) :
    (id = (tree.addChild parent arc address).2 ∧ now = .bare address (some parent)) ∨
    ∃ old, tree.node? id = some old ∧ now.Continues old ∧
      ∀ a child, now.child? a = some child →
        old.child? a = some child ∨
          id = parent ∧ a = arc ∧ child = (tree.addChild parent arc address).2 := by
  have hafter := hpacked.node?_addChild hnode arc address id
  rw [hnow] at hafter
  by_cases hid : id = (tree.addChild parent arc address).2
  · rw [if_pos hid] at hafter
    exact Or.inl ⟨hid, Option.some.inj hafter⟩
  · right
    rw [if_neg hid] at hafter
    by_cases hparent : id = parent
    · rw [if_pos hparent] at hafter
      obtain rfl := Option.some.inj hafter
      refine ⟨node, hparent ▸ hnode, ⟨rfl, rfl, rfl⟩, fun a child hchild => ?_⟩
      have hget := (node.children.get?_insert arc a _).symm.trans hchild
      by_cases ha : a = arc
      · rw [if_pos ha] at hget
        exact Or.inr ⟨hparent, ha, (Option.some.inj hget).symm⟩
      · rw [if_neg ha] at hget
        exact Or.inl hget
    · rw [if_neg hparent] at hafter
      exact ⟨now, hafter.symm, .refl now, fun _ _ hchild => Or.inl hchild⟩

/-! ### Removing a node -/

/-- The tree with the slot of a node emptied and its parent told. -/
def unlink (tree : ObjectTree) (id parent : NodeId) (arc : Nat) : ObjectTree :=
  let tree := tree.modify parent fun above => { above with children := above.children.erase arc }
  { tree with slots := tree.slots.setIfInBounds id none, free := id :: tree.free }

/-- Unlinking a node keeps the registry. -/
@[simp] theorem registry_unlink : (tree.unlink id parent arc).registry = tree.registry := by
  simp [unlink]

/-- Removing a childless node below a parent empties its slot and tells the parent. -/
theorem delete_eq_unlink (hid : id ≠ rootId) (hnode : tree.node? id = some node)
    (hleaf : node.isLeaf = true) (hparent : node.parent = some parent)
    (harc : node.address.lastArc? = some arc) :
    tree.delete id = (.ok (), tree.unlink id parent arc) := by
  simp [delete, hid, hnode, hleaf, hparent, harc, unlink]

/-- A removed node is gone, its parent no longer knows it, and all other nodes are as they were. -/
theorem node?_unlink (hne : parent ≠ id) (habove : tree.node? parent = some node) (arc : Nat)
    (other : NodeId) :
    (tree.unlink id parent arc).node? other =
      if other = id then none
      else if other = parent then some { node with children := node.children.erase arc }
      else tree.node? other := by
  have hmodify := node?_modify tree parent other fun above =>
    { above with children := above.children.erase arc }
  rw [habove, Option.map_some] at hmodify
  by_cases hother : other = id
  · subst hother
    rw [if_pos rfl]
    by_cases hlt : other < tree.slots.size
    · simp [unlink, node?, hlt]
    · simp [unlink, node?, hlt]
  · rw [if_neg hother, ← hmodify]
    simp [unlink, node?, Array.getElem?_setIfInBounds_ne (Ne.symm hother)]

/-- The free slots are still the empty ones after a node is unlinked. -/
theorem Packed.unlink (hpacked : tree.Packed) (hnode : tree.node? id = some node)
    (parent : NodeId) (arc : Nat) : (tree.unlink id parent arc).Packed := by
  have hmodified := hpacked.modify parent fun above =>
    { above with children := above.children.erase arc }
  have hlive := node?_eq_some_iff.mp hnode
  have hlt := lt_size_of_node? hnode
  have hnotFree : id ∉ tree.free := fun hmem => by
    rw [hpacked.mem_free_iff.mp hmem] at hlive
    cases hlive
  refine ⟨?_, fun {other} => ?_⟩
  · simp only [ObjectTree.unlink, free_modify]
    exact List.nodup_cons.mpr ⟨hnotFree, hpacked.free_nodup⟩
  · simp only [ObjectTree.unlink, List.mem_cons, hmodified.mem_free_iff]
    by_cases hother : id = other
    · subst hother
      simp [hlt]
    · rw [Array.getElem?_setIfInBounds_ne hother]
      simp [Ne.symm hother]

/-- Removing a node keeps every other node, and every child link but the one to it. -/
theorem unlink_of_old (hne : parent ≠ id) (habove : tree.node? parent = some node) (arc : Nat)
    (hother : other ≠ id) (hold : tree.node? other = some old) :
    ∃ now, (tree.unlink id parent arc).node? other = some now ∧ now.Continues old ∧
      ∀ a child, old.child? a = some child →
        now.child? a = some child ∨ other = parent ∧ a = arc := by
  have hafter := node?_unlink hne habove arc other
  rw [if_neg hother] at hafter
  by_cases hparent : other = parent
  · rw [if_pos hparent] at hafter
    subst hparent
    obtain rfl : node = old := Option.some.inj (habove.symm.trans hold)
    refine ⟨_, hafter, ⟨rfl, rfl, rfl⟩, fun a child hchild => ?_⟩
    by_cases ha : a = arc
    · exact Or.inr ⟨rfl, ha⟩
    · exact Or.inl ((node.children.get?_erase arc a).trans ((if_neg ha).trans hchild))
  · rw [if_neg hparent] at hafter
    exact ⟨old, hafter.trans hold, .refl old, fun _ _ hchild => Or.inl hchild⟩

/-- After a node was removed, every node is another old one, and every child link is an old one but
not that to the removed node. -/
theorem old_of_unlink (hne : parent ≠ id) (habove : tree.node? parent = some node)
    (hnow : (tree.unlink id parent arc).node? other = some now) :
    other ≠ id ∧ ∃ old, tree.node? other = some old ∧ now.Continues old ∧
      ∀ a child, now.child? a = some child →
        old.child? a = some child ∧ ¬(other = parent ∧ a = arc) := by
  have hafter := node?_unlink hne habove arc other
  rw [hnow] at hafter
  by_cases hother : other = id
  · rw [if_pos hother] at hafter
    cases hafter
  · refine ⟨hother, ?_⟩
    rw [if_neg hother] at hafter
    by_cases hparent : other = parent
    · rw [if_pos hparent] at hafter
      obtain rfl := Option.some.inj hafter
      refine ⟨node, hparent ▸ habove, ⟨rfl, rfl, rfl⟩, fun a child hchild => ?_⟩
      have hget := (node.children.get?_erase arc a).symm.trans hchild
      by_cases ha : a = arc
      · rw [if_pos ha] at hget
        cases hget
      · rw [if_neg ha] at hget
        exact ⟨hget, fun h => ha h.2⟩
    · rw [if_neg hparent] at hafter
      exact ⟨now, hafter.symm, .refl now, fun _ _ hchild => ⟨hchild, fun h => hparent h.1⟩⟩

end ObjectTree

end Smi
