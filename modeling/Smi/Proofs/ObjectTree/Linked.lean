import Smi.Proofs.ObjectTree.Slots

/-!
# The links of an object tree

Every node but the root hangs below a live parent that leads to it behind the last arc of its
address, and every child link leads to a live node that points back. Creating a child, removing a
node without children and changing what a node holds keep the links. In a linked tree an address is
found exactly where a node has it.
-/

namespace Smi

/-- The address of a node, its parent and its children. -/
def Node.links (node : Node) : Oid × Option NodeId × OrderedMap Nat NodeId :=
  (node.address, node.parent, node.children)

namespace ObjectTree

variable {tree after : ObjectTree} {id other parent : NodeId} {node above : Node} {arc : Nat}
  {address : Oid}

/-- Parents and children know each other, and their addresses differ by the arc between them. -/
structure Linked (tree : ObjectTree) : Prop where
  root : ∃ node, tree.node? rootId = some node ∧ node.address = .root ∧ node.parent = none
  parent {id : NodeId} {node : Node} : tree.node? id = some node → id ≠ rootId →
    ∃ parent above arc, node.parent = some parent ∧ tree.node? parent = some above ∧
      above.child? arc = some id ∧ node.address.arcs = above.address.arcs ++ [arc]
  child {id : NodeId} {node : Node} {arc : Nat} {child : NodeId} :
    tree.node? id = some node → node.child? arc = some child →
    ∃ below, tree.node? child = some below ∧ below.parent = some id ∧
      below.address.arcs = node.address.arcs ++ [arc]

/-! ### Changes that keep the links -/

/-- Trees whose nodes have the same links are linked alike. -/
theorem Linked.of_links (hlinked : tree.Linked)
    (hlinks : ∀ id, (after.node? id).map Node.links = (tree.node? id).map Node.links) :
    after.Linked := by
  have hback {id : NodeId} {node : Node} (hnode : after.node? id = some node) :
      ∃ old, tree.node? id = some old ∧ old.links = node.links := by
    have h := hlinks id
    rw [hnode, Option.map_some] at h
    exact Option.map_eq_some_iff.mp h.symm
  have hforth {id : NodeId} {node : Node} (hnode : tree.node? id = some node) :
      ∃ new, after.node? id = some new ∧ new.links = node.links := by
    have h := hlinks id
    rw [hnode, Option.map_some] at h
    exact Option.map_eq_some_iff.mp h
  have hfields {a b : Node} (h : a.links = b.links) :
      a.address = b.address ∧ a.parent = b.parent ∧ a.children = b.children := by
    simpa only [Node.links, Prod.mk.injEq] using h
  constructor
  · obtain ⟨node, hnode, haddress, hparent⟩ := hlinked.root
    obtain ⟨new, hnew, hsame⟩ := hforth hnode
    obtain ⟨h1, h2, _⟩ := hfields hsame
    exact ⟨new, hnew, h1.trans haddress, h2.trans hparent⟩
  · intro id node hnode hid
    obtain ⟨old, hold, hsame⟩ := hback hnode
    obtain ⟨h1, h2, _⟩ := hfields hsame
    obtain ⟨parent, above, arc, hparent, habove, hchild, haddress⟩ := hlinked.parent hold hid
    obtain ⟨new, hnew, hsame⟩ := hforth habove
    obtain ⟨h3, _, h4⟩ := hfields hsame
    refine ⟨parent, new, arc, h2 ▸ hparent, hnew, ?_, ?_⟩
    · rw [Node.child?, h4]
      exact hchild
    · rw [← h1, h3, haddress]
  · intro id node arc child hnode hchild
    obtain ⟨old, hold, hsame⟩ := hback hnode
    obtain ⟨h1, _, h2⟩ := hfields hsame
    have holdChild : old.child? arc = some child := by
      rw [Node.child?, h2]
      exact hchild
    obtain ⟨below, hbelow, hparent, haddress⟩ := hlinked.child hold holdChild
    obtain ⟨new, hnew, hsame⟩ := hforth hbelow
    obtain ⟨h3, h4, _⟩ := hfields hsame
    exact ⟨new, hnew, h4.trans hparent, by rw [h3, haddress, h1]⟩

/-- Changing what a node holds keeps all links. -/
theorem Linked.modify (hlinked : tree.Linked) (id : NodeId) {f : Node → Node}
    (hf : ∀ node, (f node).links = node.links) : (tree.modify id f).Linked := by
  refine hlinked.of_links fun other => ?_
  rw [node?_modify]
  by_cases hother : other = id
  · rw [if_pos hother, hother, Option.map_map]
    exact congrArg (fun g => (tree.node? id).map g) (funext hf)
  · rw [if_neg hother]

/-- A new child behind an unused arc keeps the links, if its address is that of its parent and the
arc. -/
theorem Linked.addChild (hlinked : tree.Linked) (hpacked : tree.Packed)
    (hnode : tree.node? parent = some node) (hunused : node.child? arc = none)
    (haddress : address.arcs = node.address.arcs ++ [arc]) :
    (tree.addChild parent arc address).1.Linked := by
  have hkeep {id : NodeId} {old : Node} (hold : tree.node? id = some old) :=
    hpacked.addChild_of_old hnode hunused address hold
  have hnew := hpacked.node?_addChild hnode arc address (tree.addChild parent arc address).2
  rw [if_pos rfl] at hnew
  constructor
  · obtain ⟨root, hroot, hrootAddress, hrootParent⟩ := hlinked.root
    obtain ⟨now, hnow, hsame, _⟩ := hkeep hroot
    exact ⟨now, hnow, hsame.address.trans hrootAddress, hsame.parent.trans hrootParent⟩
  · intro id now hnow hid
    rcases hpacked.old_of_addChild hnode hnow with ⟨rfl, rfl⟩ | ⟨old, hold, hsame, _⟩
    · have hparent := hpacked.node?_addChild hnode arc address parent
      have hne : parent ≠ (tree.addChild parent arc address).2 := fun h => by
        have hfresh := hpacked.node?_addChild_fresh parent arc address
        rw [← h, hnode] at hfresh
        cases hfresh
      rw [if_neg hne, if_pos rfl] at hparent
      refine ⟨parent, _, arc, rfl, hparent, ?_, haddress⟩
      exact (node.children.get?_insert arc arc _).trans (if_pos rfl)
    · obtain ⟨p, above, a, hparent, habove, hchild, haddr⟩ := hlinked.parent hold hid
      obtain ⟨aboveNow, haboveNow, haboveSame, hchildren⟩ := hkeep habove
      exact ⟨p, aboveNow, a, hsame.parent.trans hparent, haboveNow, hchildren a id hchild,
        by rw [hsame.address, haboveSame.address, haddr]⟩
  · intro id now a child hnow hchild
    rcases hpacked.old_of_addChild hnode hnow with ⟨rfl, rfl⟩ | ⟨old, hold, hsame, hchildren⟩
    · cases hchild
    · rcases hchildren a child hchild with holdChild | ⟨rfl, rfl, rfl⟩
      · obtain ⟨below, hbelow, hparent, haddr⟩ := hlinked.child hold holdChild
        obtain ⟨belowNow, hbelowNow, hbelowSame, _⟩ := hkeep hbelow
        exact ⟨belowNow, hbelowNow, hbelowSame.parent.trans hparent,
          by rw [hbelowSame.address, hsame.address, haddr]⟩
      · obtain rfl : node = old := Option.some.inj (hnode.symm.trans hold)
        exact ⟨_, hnew, rfl, by rw [hsame.address]; exact haddress⟩

/-- A node is not its own parent, because its address is longer. -/
theorem ne_of_address (hnode : tree.node? id = some node) (habove : tree.node? parent = some above)
    (haddress : node.address.arcs = above.address.arcs ++ [arc]) : parent ≠ id := by
  rintro rfl
  obtain rfl := Option.some.inj (hnode.symm.trans habove)
  simpa using congrArg List.length haddress

/-- The parent of a node leads to it behind the arc by which their addresses differ. -/
theorem Linked.child?_of_parent (hlinked : tree.Linked) (hid : id ≠ rootId)
    (hnode : tree.node? id = some node) (hparent : node.parent = some parent)
    (habove : tree.node? parent = some above)
    (haddress : node.address.arcs = above.address.arcs ++ [arc]) :
    above.child? arc = some id := by
  obtain ⟨other, found, last, hother, hfound, hchild, hlast⟩ := hlinked.parent hnode hid
  obtain rfl : parent = other := Option.some.inj (hparent.symm.trans hother)
  obtain rfl : above = found := Option.some.inj (habove.symm.trans hfound)
  obtain rfl : arc = last := by simpa [haddress] using hlast
  exact hchild

/-- Removing a childless node from below its parent keeps the links. -/
theorem Linked.unlink (hlinked : tree.Linked) (hid : id ≠ rootId)
    (hnode : tree.node? id = some node) (hleaf : ∀ a, node.child? a = none)
    (hparent : node.parent = some parent) (habove : tree.node? parent = some above)
    (haddress : node.address.arcs = above.address.arcs ++ [arc]) :
    (tree.unlink id parent arc).Linked := by
  have hne : parent ≠ id := ne_of_address hnode habove haddress
  have hkeep {other : NodeId} {old : Node} (hother : other ≠ id)
      (hold : tree.node? other = some old) :=
    unlink_of_old hne habove arc hother hold
  constructor
  · obtain ⟨root, hroot, hrootAddress, hrootParent⟩ := hlinked.root
    obtain ⟨now, hnow, hsame, _⟩ := hkeep (Ne.symm hid) hroot
    exact ⟨now, hnow, hsame.address.trans hrootAddress, hsame.parent.trans hrootParent⟩
  · intro other now hnow hother
    obtain ⟨hotherId, old, hold, hsame, _⟩ := old_of_unlink hne habove hnow
    obtain ⟨p, up, a, hup, hupNode, hchild, haddr⟩ := hlinked.parent hold hother
    have hp : p ≠ id := fun h => by
      rw [h, hnode] at hupNode
      obtain rfl := Option.some.inj hupNode
      rw [hleaf a] at hchild
      cases hchild
    obtain ⟨upNow, hupNow, hupSame, hchildren⟩ := hkeep hp hupNode
    refine ⟨p, upNow, a, hsame.parent.trans hup, hupNow, ?_,
      by rw [hsame.address, hupSame.address, haddr]⟩
    rcases hchildren a other hchild with hnowChild | ⟨rfl, rfl⟩
    · exact hnowChild
    -- The arc that the parent lost led to the removed node.
    · obtain rfl : above = up := Option.some.inj (habove.symm.trans hupNode)
      have hlost := hlinked.child?_of_parent hid hnode hparent habove haddress
      rw [hchild] at hlost
      exact absurd (Option.some.inj hlost) hotherId
  · intro other now a child hnow hchild
    obtain ⟨_, old, hold, hsame, hchildren⟩ := old_of_unlink hne habove hnow
    obtain ⟨holdChild, hnot⟩ := hchildren a child hchild
    obtain ⟨below, hbelow, hbelowParent, haddr⟩ := hlinked.child hold holdChild
    have hchildId : child ≠ id := fun h => by
      rw [h, hnode] at hbelow
      obtain rfl := Option.some.inj hbelow
      obtain rfl : parent = other := Option.some.inj (hparent.symm.trans hbelowParent)
      obtain rfl : above = old := Option.some.inj (habove.symm.trans hold)
      rw [haddress] at haddr
      exact hnot ⟨rfl, by simpa using haddr.symm⟩
    obtain ⟨belowNow, hbelowNow, hbelowSame, _⟩ := hkeep hchildId hbelow
    exact ⟨belowNow, hbelowNow, hbelowSame.parent.trans hbelowParent,
      by rw [hbelowSame.address, hsame.address, haddr]⟩

/-! ### Finding an address -/

/-- A node is found by following the first arcs and then the others. -/
theorem findFrom?_append (tree : ObjectTree) (id : NodeId) (first second : List Nat) :
    tree.findFrom? id (first ++ second) =
      (tree.findFrom? id first).bind fun middle => tree.findFrom? middle second := by
  induction first generalizing id with
  | nil => rfl
  | cons arc rest ih =>
    simp only [List.cons_append, findFrom?, ih, Option.bind_assoc]

/-- Arcs from a node lead to a node whose address they end. -/
theorem Linked.address_of_findFrom? (hlinked : tree.Linked) {arcs : List Nat}
    (hnode : tree.node? id = some node) (hfind : tree.findFrom? id arcs = some other) :
    ∃ below, tree.node? other = some below ∧ below.address.arcs = node.address.arcs ++ arcs := by
  induction arcs generalizing id node with
  | nil =>
    obtain rfl := Option.some.inj hfind
    exact ⟨node, hnode, by rw [List.append_nil]⟩
  | cons arc rest ih =>
    rw [findFrom?, hnode, Option.bind_some, Option.bind_eq_some_iff] at hfind
    obtain ⟨child, hchild, hrest⟩ := hfind
    obtain ⟨middle, hmiddle, _, haddress⟩ := hlinked.child hnode hchild
    obtain ⟨below, hbelow, hbelowAddress⟩ := ih hmiddle hrest
    refine ⟨below, hbelow, ?_⟩
    rw [hbelowAddress, haddress, List.append_assoc, List.singleton_append]

/-- Every live node is found at its address. -/
theorem Linked.find?_address (hlinked : tree.Linked) (hnode : tree.node? id = some node) :
    tree.find? node.address = some id := by
  obtain ⟨arcs, harcs⟩ : ∃ arcs, node.address.arcs = arcs := ⟨_, rfl⟩
  rw [find?, harcs]
  induction hlength : arcs.length generalizing id node arcs with
  | zero =>
    obtain rfl := List.length_eq_zero_iff.mp hlength
    by_cases hid : id = rootId
    · rw [hid]
      rfl
    · obtain ⟨_, above, arc, _, _, _, haddress⟩ := hlinked.parent hnode hid
      rw [harcs] at haddress
      simp at haddress
  | succ length ih =>
    by_cases hid : id = rootId
    · obtain ⟨root, hroot, haddress, _⟩ := hlinked.root
      rw [hid, hroot] at hnode
      obtain rfl := Option.some.inj hnode
      rw [haddress] at harcs
      subst harcs
      cases hlength
    · obtain ⟨parent, above, arc, _, habove, hchild, haddress⟩ := hlinked.parent hnode hid
      rw [harcs] at haddress
      subst haddress
      have hfound := ih habove _ rfl (by simpa using hlength)
      rw [findFrom?_append, hfound, Option.bind_some, findFrom?, habove, Option.bind_some, hchild]
      rfl

/-- An identifier is found at an address exactly when it is that of the live node there. -/
theorem Linked.find?_eq_some_iff (hlinked : tree.Linked) :
    tree.find? address = some id ↔ ∃ node, tree.node? id = some node ∧ node.address = address := by
  constructor
  · intro hfind
    obtain ⟨root, hroot, hrootAddress, _⟩ := hlinked.root
    obtain ⟨node, hnode, haddress⟩ := hlinked.address_of_findFrom? hroot hfind
    refine ⟨node, hnode, Oid.ext ?_⟩
    rw [haddress, hrootAddress]
    rfl
  · rintro ⟨node, hnode, rfl⟩
    exact hlinked.find?_address hnode

/-- The node at an address is the live one that has it. -/
theorem Linked.get?_eq_some_iff (hlinked : tree.Linked) :
    tree.get? address = some node ↔ ∃ id, tree.node? id = some node ∧ node.address = address := by
  rw [get?, Option.bind_eq_some_iff]
  constructor
  · rintro ⟨id, hfind, hnode⟩
    obtain ⟨found, hfound, haddress⟩ := hlinked.find?_eq_some_iff.mp hfind
    obtain rfl : node = found := Option.some.inj (hnode.symm.trans hfound)
    exact ⟨id, hnode, haddress⟩
  · rintro ⟨id, hnode, haddress⟩
    exact ⟨id, hlinked.find?_eq_some_iff.mpr ⟨node, hnode, haddress⟩, hnode⟩

/-- Two live nodes do not share an address. -/
theorem Linked.id_eq_of_address_eq (hlinked : tree.Linked) (hnode : tree.node? id = some node)
    (hother : tree.node? other = some above) (haddress : node.address = above.address) :
    id = other := by
  have hfind := hlinked.find?_address hnode
  rw [haddress, hlinked.find?_address hother] at hfind
  exact (Option.some.inj hfind).symm

end ObjectTree

end Smi
