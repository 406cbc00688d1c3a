import Smi.Proofs.ObjectTree.Run
import Smi.Proofs.ObjectTree.Vacancy
import Smi.Proofs.Oid.Admissible

/-!
# The nearest node

A search for the node at an address or right before its place is a predecessor query. Where the way
to the address leaves the tree, it ends at the last child before the missing arc, or else at the
node that misses it. What it finds is not behind the address, and everything from there up to the
address stands below it.
-/

namespace Smi

/-- A list between two extensions of a list extends it too, by something between theirs. -/
theorem exists_append_of_between {first low high middle : List Nat}
    (hlow : ¬middle < first ++ low) (hhigh : ¬first ++ high < middle) :
    ∃ behind, middle = first ++ behind ∧ ¬behind < low ∧ ¬high < behind := by
  induction first generalizing middle with
  | nil => exact ⟨middle, rfl, hlow, hhigh⟩
  | cons arc rest ih =>
    cases middle with
    | nil => exact absurd (List.nil_lt_cons _ _) hlow
    | cons other others =>
      rw [List.cons_append, List.cons_lt_cons_iff] at hlow hhigh
      obtain rfl : arc = other := by omega
      obtain ⟨behind, rfl, hbetween⟩ :=
        ih (fun h => hlow (.inr ⟨rfl, h⟩)) fun h => hhigh (.inr ⟨rfl, h⟩)
      exact ⟨behind, rfl, hbetween⟩

namespace OrderedMap

variable {β : Type} {m : OrderedMap Nat β} {key : Nat} {entry : Nat × β}

/-- The last entry in front of a key is the binding of the greatest smaller key. -/
theorem getLast?_before_eq_some
    (h : (m.entries.filter fun entry => entry.1 < key).getLast? = some entry) :
    m.get? entry.1 = some entry.2 ∧ entry.1 < key ∧
      ∀ other, entry.1 < other → other < key → m.get? other = none := by
  obtain ⟨front, hfront⟩ := List.getLast?_eq_some_iff.mp h
  have hmem : entry ∈ m.entries.filter fun entry => entry.1 < key := by simp [hfront]
  obtain ⟨hentry, hlt⟩ := List.mem_filter.mp hmem
  refine ⟨(mem_entries_iff m _ _).mp hentry, of_decide_eq_true hlt, fun other hbehind hbefore => ?_⟩
  refine Option.eq_none_iff_forall_not_mem.mpr fun value hvalue => ?_
  have hother : (other, value) ∈ front ++ [entry] := by
    rw [← hfront, List.mem_filter]
    exact ⟨(mem_entries_iff m _ _).mpr hvalue, decide_eq_true hbefore⟩
  have hsorted := m.sorted.filter fun entry => entry.1 < key
  rw [hfront, List.pairwise_append] at hsorted
  rcases List.mem_append.mp hother with hfirst | hlast
  · have hless := hsorted.2.2 _ hfirst entry (List.mem_singleton_self entry)
    exact absurd hbehind (Nat.lt_asymm hless)
  · rw [← List.mem_singleton.mp hlast] at hbehind
    exact absurd hbehind (Nat.lt_irrefl other)

/-- A map without an entry before a key has none at any smaller key. -/
theorem getLast?_before_eq_none
    (h : (m.entries.filter fun entry => entry.1 < key).getLast? = none) :
    ∀ other < key, m.get? other = none := fun other hother =>
  Option.eq_none_iff_forall_not_mem.mpr fun value hvalue => by
    have hmem := (mem_entries_iff m other value).mpr hvalue
    exact List.filter_eq_nil_iff.mp (List.getLast?_eq_none_iff.mp h) _ hmem (decide_eq_true hother)

end OrderedMap

namespace ObjectTree

variable {tree : ObjectTree} {oid : Oid} {id found : NodeId} {node : Node} {arc : Nat}

/-- Whether the way to an address leaves the tree at a node: it is the deepest one whose address
begins the address sought, and `arc` comes next. -/
structure LeavesAt (tree : ObjectTree) (oid : Oid) (id : NodeId) (node : Node) (arc : Nat) :
    Prop where
  node? : tree.node? id = some node
  next : node.address.arcs ++ [arc] <+: oid.arcs
  deepest : ∀ other, tree.Live other → other.arcs <+: oid.arcs → other.length ≤ node.address.length

/-- Whether a node comes right before a missing child of `node`: it is the child with the greatest
smaller arc, or `node` itself if no child has a smaller one. -/
inductive ComesBefore (id : NodeId) (node : Node) (arc : Nat) : NodeId → Prop where
  | child {before : Nat} {child : NodeId} (hbefore : before < arc)
      (hchild : node.child? before = some child)
      (hgreatest : ∀ other, before < other → other < arc → node.child? other = none) :
      ComesBefore id node arc child
  | self (hleast : ∀ other < arc, node.child? other = none) : ComesBefore id node arc id

/-! ### One step of the search -/

/-- The node nearest to an address is sought from a child if the next arc leads there. -/
theorem nearestFrom_of_child? (hnode : tree.node? id = some node) {child : NodeId}
    (hchild : node.child? arc = some child) (rest : List Nat) :
    tree.nearestFrom id (arc :: rest) = tree.nearestFrom child rest := by
  simp [nearestFrom, hnode, hchild]

/-- A search that misses a child ends right before its place. -/
theorem comesBefore_nearestFrom (hnode : tree.node? id = some node)
    (hmissing : node.child? arc = none) (rest : List Nat) :
    ComesBefore id node arc (tree.nearestFrom id (arc :: rest)) := by
  simp only [nearestFrom, hnode, hmissing]
  split
  next before hlast =>
    obtain ⟨hchild, hbefore, hgreatest⟩ := OrderedMap.getLast?_before_eq_some hlast
    exact .child hbefore hchild hgreatest
  next hlast => exact .self (OrderedMap.getLast?_before_eq_none hlast)

/-! ### The whole search -/

/-- Where the way to an address goes on, the search follows it. -/
theorem nearestFrom_of_findFrom? {arcs : List Nat} (hfind : tree.findFrom? id arcs = some found) :
    tree.nearestFrom id arcs = found := by
  induction arcs generalizing id with
  | nil => exact Option.some.inj hfind
  | cons arc rest ih =>
    obtain ⟨node, hnode, hrest⟩ := Option.bind_eq_some_iff.mp hfind
    obtain ⟨child, hchild, hfound⟩ := Option.bind_eq_some_iff.mp hrest
    rw [nearestFrom_of_child? hnode hchild, ih hfound]

/-- The way leaves the tree where a child on it is missing. -/
theorem Linked.leavesAt (hlinked : tree.Linked) (hnode : tree.node? id = some node)
    (hmissing : node.child? arc = none) (hnext : node.address.arcs ++ [arc] <+: oid.arcs) :
    tree.LeavesAt oid id node arc := by
  refine ⟨hnode, hnext, fun other hlive hstart => Nat.le_of_not_lt fun hlonger => ?_⟩
  have hlength : (node.address.arcs ++ [arc]).length ≤ other.arcs.length := by
    rw [List.length_append]
    exact hlonger
  exact hlinked.not_live_of_child? hnode hmissing
    (List.prefix_of_prefix_length_le hnext hstart hlength) hlive

/-- If an address is not found, its way leaves the tree somewhere, and the search ends right before
the missing child. -/
theorem Linked.exists_leavesAt (hlinked : tree.Linked) {arcs : List Nat}
    (hnode : tree.node? id = some node) (harcs : node.address.arcs ++ arcs = oid.arcs)
    (hfind : tree.findFrom? id arcs = none) :
    ∃ last above arc, tree.LeavesAt oid last above arc ∧
      ComesBefore last above arc (tree.nearestFrom id arcs) := by
  induction arcs generalizing id node with
  | nil => cases hfind
  | cons arc rest ih =>
    cases hchild : node.child? arc with
    | none =>
      have hnext : node.address.arcs ++ [arc] <+: oid.arcs :=
        ⟨rest, by rw [← harcs, List.append_assoc, List.singleton_append]⟩
      exact ⟨id, node, arc, hlinked.leavesAt hnode hchild hnext,
        comesBefore_nearestFrom hnode hchild rest⟩
    | some child =>
      obtain ⟨below, hbelow, _, haddress⟩ := hlinked.child hnode hchild
      have hrest : tree.findFrom? child rest = none := by
        rw [findFrom?, hnode, Option.bind_some, hchild, Option.bind_some] at hfind
        exact hfind
      rw [nearestFrom_of_child? hnode hchild]
      exact ih hbelow (by rw [haddress, ← harcs, List.append_assoc, List.singleton_append]) hrest

/-! ### The order of the addresses -/

/-- The arc behind the node where the way leaves leads to no child. -/
theorem LeavesAt.child?_eq_none (h : tree.LeavesAt oid id node arc) (hlinked : tree.Linked) :
    node.child? arc = none := by
  refine Option.eq_none_iff_forall_not_mem.mpr fun child hchild => ?_
  obtain ⟨below, hbelow, _, haddress⟩ := hlinked.child h.node? hchild
  have hdeeper := h.deepest below.address ⟨child, below, hbelow, rfl⟩ (haddress ▸ h.next)
  rw [Oid.length, haddress, List.length_append] at hdeeper
  exact Nat.not_succ_le_self _ hdeeper

/-- What comes right before the place of an address is a node that is not behind the address, and
the nodes from there up to the address extend its own. -/
theorem ComesBefore.spec (hlinked : tree.Linked) (hleaves : tree.LeavesAt oid id node arc)
    (hbefore : ComesBefore id node arc found) :
    ∃ last, tree.node? found = some last ∧ last.address < oid ∧
      ∀ other, tree.Live other → last.address < other → ¬oid < other →
        last.address.arcs <+: other.arcs := by
  obtain ⟨rest, hrest⟩ := hleaves.next
  rw [List.append_assoc, List.singleton_append] at hrest
  have hup {other : Oid} (hother : ¬oid < other) :
      ¬node.address.arcs ++ arc :: rest < other.arcs := by
    rw [hrest]
    exact hother
  cases hbefore with
  | self hleast =>
    refine ⟨node, hleaves.node?, ?_, fun other _ hlt hle => ?_⟩
    · have hlt : node.address.arcs ++ [] < node.address.arcs ++ arc :: rest :=
        List.append_left_lt (List.nil_lt_cons arc rest)
      rwa [List.append_nil, hrest] at hlt
    · have hfrom : ¬other.arcs < node.address.arcs ++ [] := by
        rw [List.append_nil]
        exact List.lt_asymm hlt
      obtain ⟨behind, hbehind, _⟩ := exists_append_of_between hfrom (hup hle)
      exact ⟨behind, hbehind.symm⟩
  | @child before _ hsmaller hchild hgreatest =>
    obtain ⟨last, hlast, _, haddress⟩ := hlinked.child hleaves.node? hchild
    refine ⟨last, hlast, ?_, fun other hlive hlt hle => ?_⟩
    · change last.address.arcs < oid.arcs
      rw [haddress, ← hrest]
      exact List.append_left_lt (List.cons_lt_cons_iff.mpr (.inl hsmaller))
    · have hfrom : ¬other.arcs < node.address.arcs ++ [before] :=
        haddress ▸ List.lt_asymm hlt
      obtain ⟨behind, hbehind, hlow, hhigh⟩ := exists_append_of_between hfrom (hup hle)
      obtain ⟨otherId, below, hbelow, rfl⟩ := hlive
      -- What stands behind the address of the node begins with an arc between the two, and only
      -- the smaller one of them leads to a child.
      cases behind with
      | nil => exact absurd (List.nil_lt_cons _ _) hlow
      | cons next others =>
        obtain ⟨child, hnext⟩ := hlinked.child?_of_address hleaves.node? hbelow hbehind
        have hmissing : next ≠ arc := fun hsame => by
          rw [hsame, hleaves.child?_eq_none hlinked] at hnext
          cases hnext
        have hbetween : ¬(before < next ∧ next < arc) := fun ⟨hgreater, hless⟩ => by
          rw [hgreatest next hgreater hless] at hnext
          cases hnext
        rw [List.cons_lt_cons_iff] at hlow hhigh
        obtain rfl : before = next := by omega
        exact ⟨others, by rw [haddress, hbehind, List.append_assoc, List.singleton_append]⟩

/-- After every run, a search ends at the node with the address sought, if there is one. Otherwise
it ends right before the child that is missing where the way to the address leaves the tree. So the
address of what it finds is not behind the one sought, and every node with an address between the
two stands below what it finds. -/
theorem run_empty_nearest (operations : List Operation) (oid : Oid) :
    let tree := empty.run operations
    (∀ id node, tree.node? id = some node → node.address = oid → tree.nearest oid = id) ∧
    (¬tree.Live oid → ∃ id node arc, tree.LeavesAt oid id node arc ∧
      ComesBefore id node arc (tree.nearest oid)) ∧
    ∃ found, tree.node? (tree.nearest oid) = some found ∧ ¬oid < found.address ∧
      ∀ other below, tree.node? other = some below → found.address < below.address →
        ¬oid < below.address → (other, below) ∈ tree.preorder (tree.nearest oid) := by
  have hlinked := (empty_wellFormed.run operations).shaped.linked
  generalize empty.run operations = tree at hlinked
  have hfound (id : NodeId) (node : Node) (hnode : tree.node? id = some node)
      (haddress : node.address = oid) : tree.nearest oid = id :=
    nearestFrom_of_findFrom? (hlinked.find?_eq_some_iff.mpr ⟨node, hnode, haddress⟩)
  have hleft (hlive : ¬tree.Live oid) :
      ∃ id node arc, tree.LeavesAt oid id node arc ∧
        ComesBefore id node arc (tree.nearest oid) := by
    obtain ⟨root, hroot, haddress, _⟩ := hlinked.root
    refine hlinked.exists_leavesAt hroot (by rw [haddress]; rfl) ?_
    exact Option.eq_none_iff_forall_not_mem.mpr fun id hfind =>
      hlive ⟨id, hlinked.find?_eq_some_iff.mp hfind⟩
  refine ⟨hfound, hleft, ?_⟩
  by_cases hlive : tree.Live oid
  · obtain ⟨id, node, hnode, haddress⟩ := hlive
    rw [hfound id node hnode haddress, ← haddress]
    exact ⟨node, hnode, KeyOrder.irrefl _, fun _ _ _ hbehind hbefore => absurd hbehind hbefore⟩
  · obtain ⟨id, node, arc, hleaves, hbefore⟩ := hleft hlive
    obtain ⟨found, hnode, hlt, hbelow⟩ := hbefore.spec hlinked hleaves
    refine ⟨found, hnode, fun hgreater => KeyOrder.irrefl _ (KeyOrder.trans hlt hgreater),
      fun other below hother hgreater hle => (hlinked.mem_preorder_iff hnode).mpr ⟨hother, ?_⟩⟩
    exact List.isPrefixOf_iff_prefix.mpr
      (hbelow below.address ⟨other, below, hother, rfl⟩ hgreater hle)

/-- Between the nodes `1.3.6.4` and `1.3.6.9` the search for `1.3.6.5.7` ends at the first of
them. -/
example :
    let tree := empty.run [.materialize ⟨[1, 3, 6, 4], by decide⟩,
      .materialize ⟨[1, 3, 6, 9], by decide⟩]
    (tree.node? (tree.nearest ⟨[1, 3, 6, 5, 7], by decide⟩)).map Node.address =
      some ⟨[1, 3, 6, 4], by decide⟩ := by
  rfl

end ObjectTree

end Smi
