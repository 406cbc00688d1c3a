import Mathlib.Data.List.Sort
import Smi.ObjectTree.Traversal
import Smi.Proofs.ObjectTree.Linked
import Smi.Proofs.OrderedMap

/-!
# The order of a traversal

The nodes below a node are those whose addresses extend its own, and a traversal lists them in
strictly ascending order of their addresses. The depth to which it descends is enough: the nodes on
the way from the root to a node stand in different slots, so no address is as long as there are
slots. A loop that keeps the nodes to visit on a stack visits the same nodes in the same order.
-/

namespace Smi

instance : KeyOrder Oid where
  irrefl oid := List.lt_irrefl oid.arcs
  trans {a b c} (hab : a.arcs < b.arcs) (hbc : b.arcs < c.arcs) := List.lt_trans hab hbc
  eq_of_not_lt hab hba := Oid.ext (KeyOrder.eq_of_not_lt hab hba)

namespace ObjectTree

variable {tree : ObjectTree} {id other : NodeId} {node below : Node} {depth : Nat}

/-! ### How deep a tree can be -/

/-- The nodes on the way from the root to a node. Their addresses are no longer than that of the
node, and no two of them are the same. -/
theorem Linked.exists_ancestors (hlinked : tree.Linked) (hnode : tree.node? id = some node) :
    ∃ ids : List NodeId, ids.length = node.address.length + 1 ∧ ids.Nodup ∧
      ∀ other ∈ ids, ∃ above, tree.node? other = some above ∧
        above.address.length ≤ node.address.length := by
  induction hlength : node.address.length generalizing id node with
  | zero => exact ⟨[id], rfl, by simp, fun other hother => by
      rw [List.mem_singleton.mp hother]
      exact ⟨node, hnode, Nat.le_of_eq hlength⟩⟩
  | succ length ih =>
    have hid : id ≠ rootId := fun h => by
      obtain ⟨root, hroot, haddress, _⟩ := hlinked.root
      rw [h, hroot] at hnode
      obtain rfl := Option.some.inj hnode
      rw [haddress] at hlength
      cases hlength
    obtain ⟨parent, above, arc, _, habove, _, haddress⟩ := hlinked.parent hnode hid
    have hshorter : above.address.length = length := by
      simpa [Oid.length, haddress] using hlength
    obtain ⟨ids, hids, hnodup, hall⟩ := ih habove hshorter
    refine ⟨id :: ids, by rw [List.length_cons, hids], List.nodup_cons.mpr ⟨fun hmem => ?_, hnodup⟩,
      fun other hother => ?_⟩
    · obtain ⟨same, hsame, hle⟩ := hall id hmem
      obtain rfl : node = same := Option.some.inj (hnode.symm.trans hsame)
      omega
    · rcases List.mem_cons.mp hother with rfl | hmem
      · exact ⟨node, hnode, Nat.le_of_eq hlength⟩
      · obtain ⟨found, hfound, hle⟩ := hall other hmem
        exact ⟨found, hfound, Nat.le_succ_of_le hle⟩

/-- The address of a node has fewer arcs than there are slots. -/
theorem Linked.length_address_lt (hlinked : tree.Linked) (hnode : tree.node? id = some node) :
    node.address.length < tree.slots.size := by
  obtain ⟨ids, hids, hnodup, hall⟩ := hlinked.exists_ancestors hnode
  have hsub : ids ⊆ List.range tree.slots.size := fun other hother => by
    obtain ⟨above, habove, _⟩ := hall other hother
    exact List.mem_range.mpr (lt_size_of_node? habove)
  have hle := hnodup.length_le_of_subset hsub
  rw [List.length_range] at hle
  omega

/-! ### What a traversal visits -/

/-- Behind a node comes the child that an arc of a longer address leads to. -/
theorem Linked.child?_of_address (hlinked : tree.Linked) (hnode : tree.node? id = some node)
    (hbelow : tree.node? other = some below) {arc : Nat} {rest : List Nat}
    (haddress : below.address.arcs = node.address.arcs ++ arc :: rest) :
    ∃ child, node.child? arc = some child := by
  have hfind := hlinked.find?_address hbelow
  have hself := hlinked.find?_address hnode
  rw [find?] at hself
  rw [find?, haddress, findFrom?_append, hself, Option.bind_some, findFrom?, hnode,
    Option.bind_some, Option.bind_eq_some_iff] at hfind
  obtain ⟨child, hchild, _⟩ := hfind
  exact ⟨child, hchild⟩

/-- A descent visits the live nodes whose addresses extend that of its start by fewer arcs than its
depth. -/
theorem Linked.mem_descend_iff (hlinked : tree.Linked) (hnode : tree.node? id = some node) :
    (other, below) ∈ tree.descend depth id ↔
      tree.node? other = some below ∧
        ∃ arcs, below.address.arcs = node.address.arcs ++ arcs ∧ arcs.length < depth := by
  induction depth generalizing id node with
  | zero => simp [descend]
  | succ depth ih =>
    simp only [descend, hnode, List.mem_cons, Prod.mk.injEq, List.mem_flatMap,
      OrderedMap.mem_values_iff]
    constructor
    · rintro (⟨rfl, rfl⟩ | ⟨child, ⟨arc, hchild⟩, hmem⟩)
      · exact ⟨hnode, [], (List.append_nil _).symm, Nat.succ_pos depth⟩
      · obtain ⟨middle, hmiddle, _, haddress⟩ := hlinked.child hnode hchild
        obtain ⟨hbelow, arcs, harcs, hlength⟩ := (ih hmiddle).mp hmem
        refine ⟨hbelow, arc :: arcs, ?_, Nat.succ_lt_succ hlength⟩
        rw [harcs, haddress, List.append_assoc, List.singleton_append]
    · rintro ⟨hbelow, arcs, harcs, hlength⟩
      cases arcs with
      | nil =>
        left
        rw [List.append_nil] at harcs
        obtain rfl := hlinked.id_eq_of_address_eq hbelow hnode (Oid.ext harcs)
        exact ⟨rfl, Option.some.inj (hbelow.symm.trans hnode)⟩
      | cons arc rest =>
        right
        obtain ⟨child, hchild⟩ := hlinked.child?_of_address hnode hbelow harcs
        obtain ⟨middle, hmiddle, _, haddress⟩ := hlinked.child hnode hchild
        refine ⟨child, ⟨arc, hchild⟩, (ih hmiddle).mpr ⟨hbelow, rest, ?_,
          Nat.lt_of_succ_lt_succ hlength⟩⟩
        rw [harcs, haddress, List.append_assoc, List.singleton_append]

/-- A traversal visits the live nodes whose addresses extend that of its start. -/
theorem Linked.mem_preorder_iff (hlinked : tree.Linked) (hnode : tree.node? id = some node) :
    (other, below) ∈ tree.preorder id ↔
      tree.node? other = some below ∧ node.address.isStartOf below.address = true := by
  rw [preorder, hlinked.mem_descend_iff hnode, Oid.isStartOf, List.isPrefixOf_iff_prefix]
  refine and_congr_right fun hbelow => ⟨fun ⟨arcs, harcs, _⟩ => ⟨arcs, harcs.symm⟩, ?_⟩
  rintro ⟨arcs, harcs⟩
  refine ⟨arcs, harcs.symm, Nat.lt_of_le_of_lt ?_ (hlinked.length_address_lt hbelow)⟩
  rw [Oid.length, ← harcs, List.length_append]
  exact Nat.le_add_left _ _

/-! ### In which order it visits them -/

/-- A descent visits nodes in strictly ascending order of their addresses. -/
theorem Linked.descend_pairwise (hlinked : tree.Linked) (depth : Nat) (id : NodeId) :
    (tree.descend depth id).Pairwise fun a b => a.2.address < b.2.address := by
  induction depth generalizing id with
  | zero => exact List.Pairwise.nil
  | succ depth ih =>
    unfold descend
    cases hnode : tree.node? id with
    | none => exact List.Pairwise.nil
    | some node =>
      -- What is visited below the child behind an arc has this arc behind the address of the node.
      have hstart {arc : Nat} {child : NodeId} (hentry : (arc, child) ∈ node.children.entries)
          {found : NodeId × Node} (hfound : found ∈ tree.descend depth child) :
          ∃ rest, found.2.address.arcs = node.address.arcs ++ arc :: rest := by
        have hchild := (OrderedMap.mem_entries_iff node.children arc child).mp hentry
        obtain ⟨middle, hmiddle, _, haddress⟩ := hlinked.child hnode hchild
        obtain ⟨_, rest, hrest, _⟩ := (hlinked.mem_descend_iff hmiddle).mp hfound
        exact ⟨rest, by rw [hrest, haddress, List.append_assoc, List.singleton_append]⟩
      refine List.pairwise_cons.mpr ⟨fun found hfound => ?_, List.pairwise_flatMap.mpr
        ⟨fun child _ => ih child, ?_⟩⟩
      · obtain ⟨child, hchild, hbelow⟩ := List.mem_flatMap.mp hfound
        obtain ⟨entry, hentry, rfl⟩ := List.mem_map.mp hchild
        obtain ⟨rest, hrest⟩ := hstart hentry hbelow
        have hlt : node.address.arcs ++ [] < node.address.arcs ++ entry.1 :: rest :=
          List.append_left_lt (List.nil_lt_cons entry.1 rest)
        rw [List.append_nil, ← hrest] at hlt
        exact hlt
      · refine List.pairwise_map.mpr (node.children.sorted.imp_of_mem ?_)
        intro first second hfirst hsecond hlt a ha b hb
        obtain ⟨restA, hrestA⟩ := hstart hfirst ha
        obtain ⟨restB, hrestB⟩ := hstart hsecond hb
        show a.2.address.arcs < b.2.address.arcs
        rw [hrestA, hrestB]
        exact List.append_left_lt (List.cons_lt_cons_iff.mpr (Or.inl hlt))

/-- A traversal visits nodes in strictly ascending order of their addresses. -/
theorem Linked.preorder_pairwise (hlinked : tree.Linked) (id : NodeId) :
    (tree.preorder id).Pairwise fun a b => a.2.address < b.2.address :=
  hlinked.descend_pairwise tree.slots.size id

/-! ### A loop over a stack -/

/-- The nodes visited by at most `limit` rounds of a loop over a stack. A round takes the identifier
on top of the stack off and puts the children of its node there instead, the first child on top. An
identifier without a node is passed over. -/
def visit (tree : ObjectTree) : Nat → List NodeId → List (NodeId × Node)
  | 0, _ => []
  | _ + 1, [] => []
  | limit + 1, id :: rest =>
    match tree.node? id with
    | some node => (id, node) :: tree.visit limit (node.children.values ++ rest)
    | none => tree.visit limit rest

/-- A descent that may go as deep as the longest address visits all nodes of a traversal. -/
theorem Linked.descend_eq_preorder (hlinked : tree.Linked) (hnode : tree.node? id = some node)
    (hdepth : tree.slots.size ≤ node.address.length + depth) :
    tree.descend depth id = tree.preorder id := by
  have hirrefl : Std.Irrefl fun a b : NodeId × Node => a.2.address < b.2.address :=
    ⟨fun found => KeyOrder.irrefl found.2.address⟩
  have hasymm : Std.Asymm fun a b : NodeId × Node => a.2.address < b.2.address :=
    ⟨fun a b hab hba => KeyOrder.irrefl a.2.address (KeyOrder.trans hab hba)⟩
  refine (hlinked.descend_pairwise depth id).eq_of_mem_iff (hlinked.preorder_pairwise id) ?_
  rintro ⟨other, below⟩
  rw [preorder, hlinked.mem_descend_iff hnode, hlinked.mem_descend_iff hnode]
  refine and_congr_right fun hbelow => exists_congr fun arcs => and_congr_right fun harcs => ?_
  have hshorter := hlinked.length_address_lt hbelow
  rw [Oid.length, harcs, List.length_append] at hshorter
  rw [Oid.length] at hdepth
  omega

/-- A traversal visits its start and then, child by child, what a traversal from there visits. -/
theorem Linked.preorder_eq_cons (hlinked : tree.Linked) (hnode : tree.node? id = some node) :
    tree.preorder id = (id, node) :: node.children.values.flatMap tree.preorder := by
  obtain ⟨depth, hdepth⟩ := Nat.exists_eq_add_one_of_ne_zero
    (Nat.ne_zero_of_lt (lt_size_of_node? hnode))
  rw [preorder, hdepth, descend, hnode]
  refine congrArg ((id, node) :: ·) (List.flatMap_congr fun child hchild => ?_)
  obtain ⟨arc, harc⟩ := (OrderedMap.mem_values_iff _ _).mp hchild
  obtain ⟨middle, hmiddle, _, haddress⟩ := hlinked.child hnode harc
  refine hlinked.descend_eq_preorder hmiddle ?_
  rw [Oid.length, haddress, List.length_append, List.length_singleton]
  omega

/-- With enough rounds a loop over a stack of nodes visits, from the top of the stack down, what
their traversals visit. -/
theorem Linked.visit_eq_flatMap (hlinked : tree.Linked) {limit : Nat} {ids : List NodeId}
    (hlive : ∀ id ∈ ids, ∃ node, tree.node? id = some node)
    (hlimit : (ids.flatMap tree.preorder).length ≤ limit) :
    tree.visit limit ids = ids.flatMap tree.preorder := by
  -- A round replaces the node on top by its children, and the traversal behind them is shorter by
  -- this node.
  induction limit generalizing ids with
  | zero => rw [List.length_eq_zero_iff.mp (Nat.le_zero.mp hlimit), visit]
  | succ limit ih =>
    cases ids with
    | nil => rfl
    | cons id rest =>
      obtain ⟨⟨node, hnode⟩, hrest⟩ := List.forall_mem_cons.mp hlive
      have hcons : (id :: rest).flatMap tree.preorder =
          (id, node) :: (node.children.values ++ rest).flatMap tree.preorder := by
        rw [List.flatMap_cons, hlinked.preorder_eq_cons hnode, List.flatMap_append,
          List.cons_append]
      have hchildren : ∀ child ∈ node.children.values, ∃ below, tree.node? child = some below :=
        fun child hchild => by
          obtain ⟨arc, harc⟩ := (OrderedMap.mem_values_iff _ _).mp hchild
          obtain ⟨below, hbelow, _⟩ := hlinked.child hnode harc
          exact ⟨below, hbelow⟩
      rw [hcons] at hlimit ⊢
      rw [visit, hnode]
      exact congrArg _ (ih (List.forall_mem_append.mpr ⟨hchildren, hrest⟩)
        (Nat.le_of_succ_le_succ hlimit))

/-- A loop over a stack that begins with one node is a traversal from this node. -/
theorem Linked.visit_eq_preorder (hlinked : tree.Linked) (id : NodeId) {limit : Nat}
    (hlimit : (tree.preorder id).length ≤ limit) : tree.visit limit [id] = tree.preorder id := by
  cases hnode : tree.node? id with
  | some node =>
    have hsingle : [id].flatMap tree.preorder = tree.preorder id := List.flatMap_singleton _ _
    rw [← hsingle] at hlimit ⊢
    exact hlinked.visit_eq_flatMap (by simp [hnode]) hlimit
  | none =>
    have hnothing (depth : Nat) : tree.descend depth id = [] := by
      cases depth <;> simp [descend, hnode]
    rw [preorder, hnothing]
    cases limit with
    | zero => rfl
    | succ limit => cases limit <;> simp [visit, hnode]

end ObjectTree

end Smi
