import Smi.Proofs.ObjectTree.Operation

/-!
# Runs of operations

However many operations follow each other from the tree of the root alone, and whichever of them
fail, the tree stays well formed: slots and free list account for each other, parents and children
agree, an address is found exactly where a live node has it, and the registry and the names on the
nodes tell the same.
-/

namespace Smi.ObjectTree

variable {tree : ObjectTree} {id : NodeId}

/-- The tree after some operations. -/
def run (tree : ObjectTree) (operations : List Operation) : ObjectTree :=
  operations.foldl apply tree

/-- A tree that operations lead to from the tree of the root alone. -/
def Reachable (tree : ObjectTree) : Prop :=
  ∃ operations, run empty operations = tree

/-- The root is the only node of the empty tree. -/
theorem node?_empty (id : NodeId) :
    empty.node? id = if id = rootId then some (.bare .root none) else none := by
  cases id <;> rfl

/-- The empty tree is well formed. -/
theorem empty_wellFormed : empty.WellFormed where
  shaped := {
    packed := ⟨List.nodup_nil, by intro id; cases id <;> simp [empty]⟩
    linked := {
      root := ⟨_, rfl, rfl, rfl⟩
      parent := fun hnode hid => by
        rw [node?_empty, if_neg hid] at hnode
        cases hnode
      child := fun {id _ _ _} hnode hchild => by
        rw [node?_empty] at hnode
        by_cases hid : id = rootId
        · rw [if_pos hid] at hnode
          obtain rfl := Option.some.inj hnode
          cases hchild
        · rw [if_neg hid] at hnode
          cases hnode } }
  registered := {
    names_nodup := List.nodup_nil
    attached?_eq_some_iff := by
      intro id address name
      have hnone : empty.attached? id = none := by
        rw [attached?, node?_empty]
        by_cases hid : id = rootId
        · rw [if_pos hid]
          rfl
        · rw [if_neg hid]
          rfl
      rw [hnone]
      simp [empty] }

/-- A run keeps a tree well formed. -/
theorem WellFormed.run (hwf : tree.WellFormed) (operations : List Operation) :
    (tree.run operations).WellFormed := by
  induction operations generalizing tree with
  | nil => exact hwf
  | cons operation rest ih => exact ih (hwf.apply operation)

/-- What each operation of a run keeps is kept by the run. -/
theorem WellFormed.run_induction {motive : ObjectTree → Prop} (hwf : tree.WellFormed)
    (hstart : motive tree) {operations : List Operation}
    (hstep : ∀ tree, ∀ operation ∈ operations, WellFormed tree → motive tree →
      motive (ObjectTree.apply tree operation)) : motive (tree.run operations) := by
  induction operations generalizing tree with
  | nil => exact hstart
  | cons operation rest ih =>
    obtain ⟨hfirst, hrest⟩ :=
      List.forall_mem_cons.mp fun other hother tree => hstep tree other hother
    exact ih (hwf.apply operation) (hfirst tree hwf hstart) fun tree other hother =>
      hrest other hother tree

/-- Every reachable tree is well formed. -/
theorem Reachable.wellFormed (hreachable : tree.Reachable) : tree.WellFormed := by
  obtain ⟨operations, rfl⟩ := hreachable
  exact empty_wellFormed.run operations

/-- An operation leads from a reachable tree to another one. -/
theorem Reachable.apply (hreachable : tree.Reachable) (operation : Operation) :
    (tree.apply operation).Reachable := by
  obtain ⟨operations, rfl⟩ := hreachable
  exact ⟨operations ++ [operation], by rw [run, run, List.foldl_append]; rfl⟩

/-- A run over one more operation is followed by that operation. -/
theorem run_take_succ {operations : List Operation} {count : Nat} {operation : Operation}
    (h : operations[count]? = some operation) :
    tree.run (operations.take (count + 1)) =
      (tree.run (operations.take count)).apply operation := by
  rw [List.take_add_one, h, run, run, List.foldl_append]
  rfl

/-- What holds of the trees along a run is known from finitely many of them. -/
theorem forall_run_take {operations : List Operation} {p : ObjectTree → Prop}
    (h : ∀ count ≤ operations.length, p (tree.run (operations.take count))) (count : Nat) :
    p (tree.run (operations.take count)) := by
  rw [List.take_eq_take_min]
  exact h _ (Nat.min_le_right _ _)

/-! ### What well-formedness says -/

/-- The size of a tree is the number of its live nodes. -/
theorem Packed.size_eq (hpacked : tree.Packed) :
    tree.size =
      ((List.range tree.slots.size).filter fun id => (tree.node? id).isSome).length := by
  have hfree : tree.free.length =
      ((List.range tree.slots.size).filter fun id => !(tree.node? id).isSome).length := by
    refine List.Perm.length_eq ((List.perm_ext_iff_of_nodup hpacked.free_nodup
      (List.nodup_range.sublist List.filter_sublist)).mpr fun id => ?_)
    rw [hpacked.mem_free_iff, List.mem_filter, List.mem_range]
    constructor
    · intro hslot
      exact ⟨(Array.getElem?_eq_some_iff.mp hslot).1, by rw [node?, hslot]; rfl⟩
    · rintro ⟨hlt, hnode⟩
      rw [node?, Array.getElem?_eq_getElem hlt, Option.join_some] at hnode
      rw [Array.getElem?_eq_getElem hlt]
      simpa using hnode
  have htotal := List.length_eq_countP_add_countP (l := List.range tree.slots.size)
    fun id => (tree.node? id).isSome
  simp only [List.length_range, List.countP_eq_length_filter, Bool.not_eq_true,
    Bool.decide_eq_false] at htotal
  rw [size, hfree]
  omega

/-- A node carries the name of a provider exactly when the provider is registered at this node. -/
theorem WellFormed.provider_eq_some_iff (hwf : tree.WellFormed) {node : Node} {name : String}
    (hnode : tree.node? id = some node) :
    node.provider = some name ↔ tree.providerNode? name = some id := by
  have hattached : node.provider = some name ↔
      tree.attached? id = some (node.address, name) := by
    rw [attached?_of_node? hnode, Option.map_eq_some_iff]
    simp
  rw [hattached, providerNode?, Option.map_eq_some_iff,
    hwf.registered.attached?_eq_some_iff]
  constructor
  · rintro ⟨registration, hmem, hat, _, hname⟩
    exact ⟨registration, hwf.registered.registration?_eq_some_iff.mpr ⟨hmem, hname⟩, hat⟩
  · rintro ⟨registration, hfound, hat⟩
    obtain ⟨hmem, hname⟩ := mem_of_registration? hfound
    have hself := hwf.registered.attached?_eq_some_iff.mpr ⟨registration, hmem, rfl, rfl, rfl⟩
    rw [hat, attached?_of_node? hnode, Option.map_eq_some_iff] at hself
    obtain ⟨_, _, hpair⟩ := hself
    exact ⟨registration, hmem, hat, (Prod.mk.inj hpair).1.symm, hname⟩

/-- A registered provider is attached to a live node at its identifier. -/
theorem WellFormed.node?_of_registration? (hwf : tree.WellFormed) {registration : Registration}
    {name : String} (hfound : tree.registration? name = some registration) :
    registration.spec.name = name ∧
      ∃ node, tree.node? registration.node = some node ∧ node.address = registration.spec.oid := by
  obtain ⟨hmem, hname⟩ := mem_of_registration? hfound
  have hself := hwf.registered.attached?_eq_some_iff.mpr ⟨registration, hmem, rfl, rfl, rfl⟩
  obtain ⟨node, hnode, hprovider⟩ := Option.bind_eq_some_iff.mp hself
  obtain ⟨_, _, hpair⟩ := Option.map_eq_some_iff.mp hprovider
  exact ⟨hname, node, hnode, (Prod.mk.inj hpair).1⟩

/-- The names in the order of registration are those under which a provider is found. -/
theorem mem_names_iff (tree : ObjectTree) (name : String) :
    name ∈ tree.providers.map ProviderSpec.name ↔ (tree.provider? name).isSome := by
  rw [provider?, Option.isSome_map, registration?, List.find?_isSome, providers, List.map_map,
    List.mem_map]
  simp

/-- After every run the slots and the free list account for each other, the links of the nodes and
their addresses agree, an address is found exactly where a live node has it, the names on the nodes
are those of the registry, and a value never lacks its type. -/
theorem run_empty_consistent (operations : List Operation) :
    let tree := empty.run operations
    (tree.free.Nodup ∧ (∀ id, id ∈ tree.free ↔ tree.slots[id]? = some none) ∧
      tree.size =
        ((List.range tree.slots.size).filter fun id => (tree.node? id).isSome).length ∧
      ∃ root, tree.node? rootId = some root ∧ root.address = .root ∧ root.parent = none) ∧
    ((∀ id node, tree.node? id = some node → id ≠ rootId →
        ∃ parent above arc, node.parent = some parent ∧ tree.node? parent = some above ∧
          node.address.lastArc? = some arc ∧ above.child? arc = some id ∧
          node.address.arcs = above.address.arcs ++ [arc]) ∧
      (∀ id node arc child, tree.node? id = some node → node.child? arc = some child →
        ∃ below, tree.node? child = some below ∧ below.parent = some id) ∧
      ∀ oid id, tree.find? oid = some id ↔
        ∃ node, tree.node? id = some node ∧ node.address = oid) ∧
    ((∀ id node name, tree.node? id = some node →
        (node.provider = some name ↔ tree.providerNode? name = some id)) ∧
      (∀ name registration, tree.registration? name = some registration →
        registration.spec.name = name ∧
          ∃ node, tree.node? registration.node = some node ∧
            node.address = registration.spec.oid) ∧
      (tree.providers.map ProviderSpec.name).Nodup ∧
      ∀ name, name ∈ tree.providers.map ProviderSpec.name ↔ (tree.provider? name).isSome) ∧
    ∀ id node, tree.node? id = some node →
      (node.value?.isSome ↔ (node.cell.map Cell.type).isSome) := by
  have hwf := empty_wellFormed.run operations
  have hpacked := hwf.shaped.packed
  have hlinked := hwf.shaped.linked
  refine ⟨⟨hpacked.free_nodup, fun _ => hpacked.mem_free_iff, hpacked.size_eq, hlinked.root⟩,
    ⟨fun id node hnode hid => ?_, fun id node arc child hnode hchild => ?_,
      fun _ _ => hlinked.find?_eq_some_iff⟩,
    ⟨fun _ _ _ hnode => hwf.provider_eq_some_iff hnode,
      fun _ _ hfound => hwf.node?_of_registration? hfound, ?_, mem_names_iff _⟩,
    fun id node _ => ?_⟩
  · obtain ⟨parent, above, arc, hparent, habove, hchild, haddress⟩ := hlinked.parent hnode hid
    refine ⟨parent, above, arc, hparent, habove, ?_, hchild, haddress⟩
    rw [Oid.lastArc?, haddress, List.getLast?_concat]
  · obtain ⟨below, hbelow, hparent, _⟩ := hlinked.child hnode hchild
    exact ⟨below, hbelow, hparent⟩
  · rw [providers, List.map_map]
    exact hwf.registered.names_nodup
  · simp [Node.value?]

end Smi.ObjectTree
