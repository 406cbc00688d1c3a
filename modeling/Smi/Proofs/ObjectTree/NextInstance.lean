import Smi.Proofs.ObjectTree.Preorder
import Smi.Proofs.ObjectTree.Run
import Smi.Proofs.Oid.Admissible

/-!
# Asking for the next instance

A traversal from the root lists every address that holds a value once and in ascending order. The
next instance behind an address is the first one of this list that is greater. So asking again and
again gives the rest of the list, and nothing is left after as many steps as there are nodes.
-/

namespace Smi.ObjectTree

variable {tree : ObjectTree} {oid address : Oid} {value : Value}

/-! ### The instances below a node -/

/-- A value is found at an address exactly if a live node with this address holds it. -/
theorem Linked.cell_contentAt_iff (hlinked : tree.Linked) {cell : Cell} :
    (tree.contentAt address).cell = some cell ↔
      ∃ id node, tree.node? id = some node ∧ node.address = address ∧ node.cell = some cell := by
  constructor
  · intro hcell
    have hblank : tree.contentAt address ≠ .blank := fun h => by
      rw [h] at hcell
      cases hcell
    obtain ⟨id, hheld⟩ := (hlinked.contentAt_eq_iff hblank).mp rfl
    obtain ⟨_, node, hnode, haddress, hcontent⟩ := held?_eq_some_iff.mp hheld
    rw [← hcontent] at hcell
    exact ⟨id, node, hnode, haddress, hcell⟩
  · rintro ⟨id, node, hnode, rfl, hcell⟩
    rw [hlinked.contentAt_address hnode]
    exact hcell

/-- The instances of a traversal are the values at addresses that extend that of its start. -/
theorem Linked.mem_instances_iff (hlinked : tree.Linked) {id : NodeId} {node : Node} {cell : Cell}
    (hnode : tree.node? id = some node) :
    (address, cell) ∈ instances (tree.preorder id) ↔
      node.address.arcs <+: address.arcs ∧ (tree.contentAt address).cell = some cell := by
  simp only [instances, List.mem_filterMap, Option.map_eq_some_iff, Prod.mk.injEq,
    hlinked.cell_contentAt_iff]
  constructor
  · rintro ⟨⟨otherId, below⟩, hmem, cell, hcell, rfl, rfl⟩
    obtain ⟨hbelow, hstart⟩ := (hlinked.mem_preorder_iff hnode).mp hmem
    exact ⟨List.isPrefixOf_iff_prefix.mp hstart, otherId, below, hbelow, rfl, hcell⟩
  · rintro ⟨hstart, otherId, below, hbelow, rfl, hcell⟩
    refine ⟨(otherId, below), (hlinked.mem_preorder_iff hnode).mpr ⟨hbelow, ?_⟩, cell, hcell, rfl,
      rfl⟩
    exact List.isPrefixOf_iff_prefix.mpr hstart

/-- The instances of a traversal are in strictly ascending order of their addresses. -/
theorem Linked.instances_pairwise (hlinked : tree.Linked) (id : NodeId) :
    (instances (tree.preorder id)).Pairwise fun a b => a.1 < b.1 := by
  refine List.Pairwise.filterMap _ ?_ (hlinked.preorder_pairwise id)
  intro a b hlt found hfound other hother
  obtain ⟨cell, _, rfl⟩ := Option.map_eq_some_iff.mp hfound
  obtain ⟨cell', _, rfl⟩ := Option.map_eq_some_iff.mp hother
  exact hlt

/-! ### The list of all instances -/

/-- All addresses that hold a value, with their values, in the order of a traversal. -/
def valued (tree : ObjectTree) : List (Oid × Value) :=
  (instances (tree.preorder rootId)).map fun found => (found.1, found.2.value)

/-- The instances behind an address. -/
def valuedAfter (tree : ObjectTree) (oid : Oid) : List (Oid × Value) :=
  tree.valued.filter fun found => oid < found.1

/-- The instances of a tree are the values at its addresses. -/
theorem Linked.mem_valued_iff (hlinked : tree.Linked) :
    (address, value) ∈ tree.valued ↔ tree.valueAt? address = some value := by
  obtain ⟨root, hroot, hrootAddress, _⟩ := hlinked.root
  have hstart : root.address.arcs <+: address.arcs := by
    rw [hrootAddress]
    exact List.nil_prefix
  rw [valueAt?_eq, Option.map_eq_some_iff, valued, List.mem_map]
  constructor
  · rintro ⟨⟨_, cell⟩, hmem, hpair⟩
    obtain ⟨rfl, rfl⟩ := Prod.mk.inj hpair
    exact ⟨cell, ((hlinked.mem_instances_iff hroot).mp hmem).2, rfl⟩
  · rintro ⟨cell, hcell, rfl⟩
    exact ⟨(address, cell), (hlinked.mem_instances_iff hroot).mpr ⟨hstart, hcell⟩, rfl⟩

/-- The instances of a tree are in the order of their addresses. -/
theorem Linked.valued_pairwise (hlinked : tree.Linked) :
    tree.valued.Pairwise fun a b => a.1 < b.1 :=
  List.pairwise_map.mpr (hlinked.instances_pairwise rootId)

/-- There are no more instances than nodes. -/
theorem length_valued_le (hlinked : tree.Linked) (hpacked : tree.Packed) :
    tree.valued.length ≤ tree.size := by
  have hnodes : ((tree.preorder rootId).map Prod.fst).length ≤ tree.size := by
    rw [hpacked.size_eq]
    obtain ⟨root, hroot, _, _⟩ := hlinked.root
    refine List.Nodup.length_le_of_subset ?_ fun id hid => ?_
    · refine List.pairwise_map.mpr ((hlinked.preorder_pairwise rootId).imp_of_mem ?_)
      intro a b ha hb hlt hsame
      have hnode := ((hlinked.mem_preorder_iff hroot).mp ha).1
      have hother := ((hlinked.mem_preorder_iff hroot).mp hb).1
      rw [hsame, hother] at hnode
      rw [Option.some.inj hnode] at hlt
      exact KeyOrder.irrefl _ hlt
    · obtain ⟨⟨_, node⟩, hmem, rfl⟩ := List.mem_map.mp hid
      have hnode := ((hlinked.mem_preorder_iff hroot).mp hmem).1
      exact List.mem_filter.mpr ⟨List.mem_range.mpr (lt_size_of_node? hnode), by rw [hnode]; rfl⟩
  rw [valued, List.length_map, instances]
  rw [List.length_map] at hnodes
  exact Nat.le_trans (List.length_filterMap_le _ _) hnodes

/-! ### The next instance -/

/-- The next instance is the first of those behind an address. -/
theorem nextInstance?_eq (tree : ObjectTree) (oid : Oid) :
    tree.nextInstance? oid = (tree.valuedAfter oid).head? := by
  rw [nextInstance?, valuedAfter, valued, List.head?_filter, List.find?_map]
  rfl

/-- The instances behind an address are the values at greater ones. -/
theorem Linked.mem_valuedAfter_iff (hlinked : tree.Linked) :
    (address, value) ∈ tree.valuedAfter oid ↔
      oid < address ∧ tree.valueAt? address = some value := by
  rw [valuedAfter, List.mem_filter, hlinked.mem_valued_iff, decide_eq_true_eq, and_comm]

/-- The instances behind an address are in order. -/
theorem Linked.valuedAfter_pairwise (hlinked : tree.Linked) (oid : Oid) :
    (tree.valuedAfter oid).Pairwise fun a b => a.1 < b.1 :=
  hlinked.valued_pairwise.filter _

/-- Behind the first instance after an address come the others after it. -/
theorem Linked.valuedAfter_of_cons (hlinked : tree.Linked) {found : Oid × Value}
    {rest : List (Oid × Value)} (hafter : tree.valuedAfter oid = found :: rest) :
    tree.valuedAfter found.1 = rest := by
  have hsorted := hlinked.valuedAfter_pairwise oid
  rw [hafter] at hsorted
  obtain ⟨hfirst, _⟩ := List.pairwise_cons.mp hsorted
  have hmem : found ∈ tree.valuedAfter oid := by
    rw [hafter]
    exact List.mem_cons_self
  have hlt : oid < found.1 := (hlinked.mem_valuedAfter_iff.mp hmem).1
  have hnested : tree.valuedAfter found.1 =
      (tree.valuedAfter oid).filter fun other => found.1 < other.1 := by
    rw [valuedAfter, valuedAfter, List.filter_filter]
    refine List.filter_congr fun other _ => ?_
    by_cases hother : found.1 < other.1
    · simp [hother, KeyOrder.trans hlt hother]
    · simp [hother]
  rw [hnested, hafter, List.filter_cons_of_neg (by simpa using KeyOrder.irrefl found.1)]
  exact List.filter_eq_self.mpr fun other hother => decide_eq_true (hfirst other hother)

/-- The first entry of an ascending list is the one that no other is less than. -/
theorem head?_eq_some_iff_of_pairwise {found : Oid × Value} {list : List (Oid × Value)}
    (hsorted : list.Pairwise fun a b => a.1 < b.1) :
    list.head? = some found ↔ found ∈ list ∧ ∀ other ∈ list, ¬other.1 < found.1 := by
  cases list with
  | nil => simp
  | cons first rest =>
    obtain ⟨hfirst, _⟩ := List.pairwise_cons.mp hsorted
    rw [List.head?_cons, Option.some.injEq]
    constructor
    · rintro rfl
      refine ⟨List.mem_cons_self, fun other hother hless => ?_⟩
      rcases List.mem_cons.mp hother with rfl | hrest
      · exact KeyOrder.irrefl _ hless
      · exact KeyOrder.irrefl _ (KeyOrder.trans hless (hfirst other hrest))
    · rintro ⟨hfound, hleast⟩
      rcases List.mem_cons.mp hfound with rfl | hrest
      · rfl
      · exact absurd (hfirst found hrest) (hleast first List.mem_cons_self)

/-- The next instance is the least address behind the given one that holds a value. -/
theorem Linked.nextInstance?_eq_some_iff (hlinked : tree.Linked) :
    tree.nextInstance? oid = some (address, value) ↔
      tree.valueAt? address = some value ∧ oid < address ∧
        ∀ other, oid < other → (tree.valueAt? other).isSome → ¬other < address := by
  rw [nextInstance?_eq, head?_eq_some_iff_of_pairwise (hlinked.valuedAfter_pairwise oid),
    hlinked.mem_valuedAfter_iff]
  constructor
  · rintro ⟨⟨hlt, hvalue⟩, hleast⟩
    refine ⟨hvalue, hlt, fun other hother hsome => ?_⟩
    obtain ⟨found, hfound⟩ := Option.isSome_iff_exists.mp hsome
    exact hleast (other, found) (hlinked.mem_valuedAfter_iff.mpr ⟨hother, hfound⟩)
  · rintro ⟨hvalue, hlt, hleast⟩
    refine ⟨⟨hlt, hvalue⟩, fun ⟨other, found⟩ hother => ?_⟩
    obtain ⟨hotherLt, hotherValue⟩ := hlinked.mem_valuedAfter_iff.mp hother
    exact hleast other hotherLt (by rw [hotherValue]; rfl)

/-- There is no next instance if no greater address has a value. -/
theorem Linked.nextInstance?_eq_none_iff (hlinked : tree.Linked) :
    tree.nextInstance? oid = none ↔ ∀ address, oid < address → tree.valueAt? address = none := by
  rw [nextInstance?_eq, List.head?_eq_none_iff, List.eq_nil_iff_forall_not_mem]
  simp only [Prod.forall, hlinked.mem_valuedAfter_iff, not_and, Option.eq_none_iff_forall_ne_some]
  exact ⟨fun hnone address hlt value => hnone address value hlt,
    fun hnone address value hlt => hnone address hlt value⟩

/-! ### Asking again and again -/

/-- Some steps from one instance to the next give as many instances, as long as there are any. -/
theorem Linked.walkFrom_eq (hlinked : tree.Linked) (oid : Oid) (limit : Nat) :
    tree.walkFrom oid limit = (tree.valuedAfter oid).take limit := by
  induction limit generalizing oid with
  | zero => rw [walkFrom, List.take_zero]
  | succ limit ih =>
    rw [walkFrom, nextInstance?_eq]
    cases hafter : tree.valuedAfter oid with
    | nil => rfl
    | cons found rest =>
      rw [List.head?_cons, List.take_succ_cons, ← hlinked.valuedAfter_of_cons hafter]
      exact congrArg (found :: ·) (ih found.1)

/-- When as many steps are allowed as there are nodes, all instances behind an address are reached,
and more steps reach no others. -/
theorem walkFrom_eq_valuedAfter (hlinked : tree.Linked) (hpacked : tree.Packed) {limit : Nat}
    (hlimit : tree.size ≤ limit) (oid : Oid) :
    tree.walkFrom oid limit = tree.valuedAfter oid := by
  have hlength : (tree.valuedAfter oid).length ≤ tree.size :=
    Nat.le_trans (List.length_filter_le _ _) (length_valued_le hlinked hpacked)
  rw [hlinked.walkFrom_eq, List.take_of_length_le (Nat.le_trans hlength hlimit)]

/-- After every run a traversal of a node visits the live nodes whose addresses extend its own, in
ascending order. The next instance behind an address is the least one that is greater, if there is
one, and asking for it again and again ends and has then given all of them in ascending order. -/
theorem run_empty_traversal (operations : List Operation) :
    let tree := empty.run operations
    (∀ id node, tree.node? id = some node →
      ((tree.preorder id).Pairwise fun a b => a.2.address < b.2.address) ∧
      ∀ other below, (other, below) ∈ tree.preorder id ↔
        tree.node? other = some below ∧ node.address.isStartOf below.address = true) ∧
    (∀ oid,
      (∀ address value, tree.nextInstance? oid = some (address, value) ↔
        tree.valueAt? address = some value ∧ oid < address ∧
          ∀ other, oid < other → (tree.valueAt? other).isSome → ¬other < address) ∧
      (tree.nextInstance? oid = none ↔
        ∀ address, oid < address → tree.valueAt? address = none)) ∧
    ∀ oid,
      ((tree.walk oid).Pairwise fun a b => a.1 < b.1) ∧
      (∀ address value, (address, value) ∈ tree.walk oid ↔
        oid < address ∧ tree.valueAt? address = some value) ∧
      ∀ limit, tree.size ≤ limit → tree.walkFrom oid limit = tree.walk oid := by
  have hshaped := (empty_wellFormed.run operations).shaped
  have hlinked := hshaped.linked
  have hwalk (limit : Nat) (hlimit : (empty.run operations).size ≤ limit) (oid : Oid) :=
    walkFrom_eq_valuedAfter hlinked hshaped.packed hlimit oid
  refine ⟨fun id node hnode => ⟨hlinked.preorder_pairwise id,
      fun _ _ => hlinked.mem_preorder_iff hnode⟩,
    fun oid => ⟨fun _ _ => hlinked.nextInstance?_eq_some_iff, hlinked.nextInstance?_eq_none_iff⟩,
    fun oid => ⟨?_, fun address value => ?_, fun limit hlimit => ?_⟩⟩
  · rw [walk, hwalk _ (Nat.le_refl _)]
    exact hlinked.valuedAfter_pairwise oid
  · rw [walk, hwalk _ (Nat.le_refl _), hlinked.mem_valuedAfter_iff]
  · rw [walk, hwalk _ (Nat.le_refl _), hwalk limit hlimit]

/-- Two scalars are walked in the order of their addresses, whichever was set first. -/
example :
    (empty.run [.register (.scalar ⟨"load", ⟨[1, 3, 2], by decide⟩, none⟩),
      .register (.scalar ⟨"uptime", ⟨[1, 3, 1], by decide⟩, none⟩),
      .setScalar "load" (.integer 7), .setScalar "uptime" (.integer 5)]).walk .root =
    [(⟨[1, 3, 1, 0], by decide⟩, .integer 5), (⟨[1, 3, 2, 0], by decide⟩, .integer 7)] := by
  rfl

end Smi.ObjectTree
