import Smi.Proofs.ObjectTree.Linked

/-!
# What an object tree holds

Seen from outside, an object tree is a map from addresses to their contents, a provider and a value
with its type. Creating nodes and removing vacant ones leave this map, and even the identifiers of
the nodes that hold something, as they are. Changing what one node holds changes the map at the
address of this node alone.
-/

namespace Smi

/-- The content of an address where nothing is. -/
def Content.blank : Content :=
  ⟨none, none⟩

namespace ObjectTree

variable {tree before after : ObjectTree} {id other parent : NodeId} {node above : Node}
  {arc : Nat} {address oid : Oid} {content : Content}

/-- What is found at an address. -/
def contentAt (tree : ObjectTree) (oid : Oid) : Content :=
  ((tree.get? oid).map Node.content).getD .blank

/-- The address and the content of a node that holds something. -/
def held? (tree : ObjectTree) (id : NodeId) : Option (Oid × Content) :=
  (tree.node? id).bind fun node =>
    if node.content = .blank then none else some (node.address, node.content)

/-- A node holds a content if it is live and the content is not blank. -/
theorem held?_eq_some_iff :
    tree.held? id = some (address, content) ↔
      content ≠ .blank ∧
        ∃ node, tree.node? id = some node ∧ node.address = address ∧ node.content = content := by
  rw [held?, Option.bind_eq_some_iff]
  constructor
  · rintro ⟨node, hnode, hheld⟩
    by_cases hblank : node.content = .blank
    · rw [if_pos hblank] at hheld
      cases hheld
    · rw [if_neg hblank] at hheld
      obtain ⟨rfl, rfl⟩ := Prod.mk.inj (Option.some.inj hheld)
      exact ⟨hblank, node, hnode, rfl, rfl⟩
  · rintro ⟨hblank, node, hnode, rfl, rfl⟩
    exact ⟨node, hnode, if_neg hblank⟩

/-- Trees hold the same if the nodes that hold something are the same with the same contents. -/
theorem held?_eq_of_continues
    (hforth : ∀ {id old}, before.node? id = some old → old.content ≠ .blank →
      ∃ now, after.node? id = some now ∧ now.Continues old)
    (hback : ∀ {id now}, after.node? id = some now → now.content ≠ .blank →
      ∃ old, before.node? id = some old ∧ now.Continues old) (id : NodeId) :
    after.held? id = before.held? id := by
  refine Option.ext fun held => ?_
  obtain ⟨address, content⟩ := held
  rw [held?_eq_some_iff, held?_eq_some_iff]
  constructor
  · rintro ⟨hblank, now, hnow, rfl, rfl⟩
    obtain ⟨old, hold, hsame⟩ := hback hnow hblank
    exact ⟨hblank, old, hold, hsame.address.symm, hsame.content.symm⟩
  · rintro ⟨hblank, old, hold, rfl, rfl⟩
    obtain ⟨now, hnow, hsame⟩ := hforth hold hblank
    exact ⟨hblank, now, hnow, hsame.address, hsame.content⟩

/-- Creating a child changes nothing of what a tree holds. -/
theorem Packed.held?_addChild (hpacked : tree.Packed) (hnode : tree.node? parent = some node)
    (hunused : node.child? arc = none) (id : NodeId) :
    (tree.addChild parent arc address).1.held? id = tree.held? id := by
  refine held?_eq_of_continues (fun hold _ => ?_) (fun hnow hblank => ?_) id
  · obtain ⟨now, hnow, hsame, _⟩ := hpacked.addChild_of_old hnode hunused address hold
    exact ⟨now, hnow, hsame⟩
  · rcases hpacked.old_of_addChild hnode hnow with ⟨_, rfl⟩ | ⟨old, hold, hsame, _⟩
    · exact absurd rfl hblank
    · exact ⟨old, hold, hsame⟩

/-- Removing a node that holds nothing changes nothing of what a tree holds. -/
theorem held?_unlink (hne : parent ≠ id) (habove : tree.node? parent = some above)
    (hnode : tree.node? id = some node) (hvacant : node.content = .blank) (other : NodeId) :
    (tree.unlink id parent arc).held? other = tree.held? other := by
  refine held?_eq_of_continues (fun {other old} hold hblank => ?_) (fun hnow _ => ?_) other
  · have hother : other ≠ id := fun h => by
      rw [h, hnode] at hold
      obtain rfl := Option.some.inj hold
      exact hblank hvacant
    obtain ⟨now, hnow, hsame, _⟩ := unlink_of_old hne habove arc hother hold
    exact ⟨now, hnow, hsame⟩
  · obtain ⟨_, old, hold, hsame, _⟩ := old_of_unlink hne habove hnow
    exact ⟨old, hold, hsame⟩

/-! ### Contents by address -/

/-- The content of a live node is found at its address. -/
theorem Linked.contentAt_address (hlinked : tree.Linked) (hnode : tree.node? id = some node) :
    tree.contentAt node.address = node.content := by
  rw [contentAt, hlinked.get?_eq_some_iff.mpr ⟨id, hnode, rfl⟩]
  rfl

/-- A content is found at an address exactly when a node with this address holds it. -/
theorem Linked.contentAt_eq_iff (hlinked : tree.Linked) (hcontent : content ≠ .blank) :
    tree.contentAt oid = content ↔ ∃ id, tree.held? id = some (oid, content) := by
  constructor
  · intro hat
    cases hget : tree.get? oid with
    | none =>
      rw [contentAt, hget] at hat
      exact absurd hat.symm hcontent
    | some node =>
      rw [contentAt, hget] at hat
      obtain ⟨id, hnode, haddress⟩ := hlinked.get?_eq_some_iff.mp hget
      exact ⟨id, held?_eq_some_iff.mpr ⟨hcontent, node, hnode, haddress, hat⟩⟩
  · rintro ⟨id, hheld⟩
    obtain ⟨_, node, hnode, rfl, rfl⟩ := held?_eq_some_iff.mp hheld
    exact hlinked.contentAt_address hnode

/-- Linked trees that hold the same have the same contents at all addresses. -/
theorem Linked.contentAt_congr (hbefore : before.Linked) (hafter : after.Linked)
    (hheld : ∀ id, after.held? id = before.held? id) (oid : Oid) :
    after.contentAt oid = before.contentAt oid := by
  by_cases hafterBlank : after.contentAt oid = .blank
  · by_cases hblank : before.contentAt oid = .blank
    · rw [hafterBlank, hblank]
    · obtain ⟨id, hid⟩ := (hbefore.contentAt_eq_iff hblank).mp rfl
      rw [← hheld] at hid
      exact (hafter.contentAt_eq_iff hblank).mpr ⟨id, hid⟩
  · obtain ⟨id, hid⟩ := (hafter.contentAt_eq_iff hafterBlank).mp rfl
    rw [hheld] at hid
    exact ((hbefore.contentAt_eq_iff hafterBlank).mpr ⟨id, hid⟩).symm

/-- The value at an address is that of the content found there. -/
theorem valueAt?_eq (tree : ObjectTree) (oid : Oid) :
    tree.valueAt? oid = (tree.contentAt oid).cell.map Cell.value := by
  rw [valueAt?, contentAt]
  cases tree.get? oid <;> rfl

/-- Changing what a node holds changes the contents at its address alone. -/
theorem Linked.contentAt_modify (hlinked : tree.Linked) (hnode : tree.node? id = some node)
    {f : Node → Node} (hf : ∀ node, (f node).links = node.links) (oid : Oid) :
    (tree.modify id f).contentAt oid =
      if oid = node.address then (f node).content else tree.contentAt oid := by
  have hafter := hlinked.modify id hf
  have hkeep : ∀ other, (f other).address = other.address :=
    fun other => congrArg Prod.fst (hf other)
  have hself : (tree.modify id f).node? id = some (f node) := by
    rw [node?_modify, if_pos rfl, hnode, Option.map_some]
  by_cases hoid : oid = node.address
  · rw [if_pos hoid, hoid, ← hkeep node]
    exact hafter.contentAt_address hself
  · rw [if_neg hoid, contentAt, contentAt]
    congr 2
    refine Option.ext fun found => ?_
    rw [hafter.get?_eq_some_iff, hlinked.get?_eq_some_iff]
    constructor
    · rintro ⟨other, hfound, rfl⟩
      by_cases hother : other = id
      · rw [hother, hself] at hfound
        obtain rfl := Option.some.inj hfound
        exact absurd (hkeep node) hoid
      · rw [node?_modify, if_neg hother] at hfound
        exact ⟨other, hfound, rfl⟩
    · rintro ⟨other, hfound, rfl⟩
      have hother : other ≠ id := fun h => by
        rw [h, hnode] at hfound
        obtain rfl := Option.some.inj hfound
        exact hoid rfl
      exact ⟨other, by rw [node?_modify, if_neg hother, hfound], rfl⟩

end ObjectTree

end Smi
