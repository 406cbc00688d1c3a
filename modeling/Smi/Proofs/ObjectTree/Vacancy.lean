import Smi.Proofs.ObjectTree.Content
import Smi.Proofs.ObjectTree.Preorder
import Smi.Proofs.Outcome

/-!
# Where a value may stand

An address ends a branch if no live node stands below it. A value may be stored at an address
exactly when the address ends a branch and no value stands strictly above it.
-/

namespace Smi.ObjectTree

variable {tree : ObjectTree} {id : NodeId} {node : Node} {oid : Oid}

/-- Whether a node stands at an address. -/
def Live (tree : ObjectTree) (oid : Oid) : Prop :=
  ∃ id node, tree.node? id = some node ∧ node.address = oid

/-- Whether no node stands below an address. -/
def Ends (tree : ObjectTree) (oid : Oid) : Prop :=
  ∀ other, tree.Live other → oid.arcs <+: other.arcs → other = oid

/-- Whether no value stands strictly above an address. -/
def Uncovered (tree : ObjectTree) (oid : Oid) : Prop :=
  ∀ count < oid.length, (tree.contentAt (oid.take count)).cell = none

/-- Whether no value stands strictly above an address, from a number of arcs on. -/
def UncoveredFrom (tree : ObjectTree) (oid : Oid) (first : Nat) : Prop :=
  ∀ count, first ≤ count → count < oid.length → (tree.contentAt (oid.take count)).cell = none

/-- An address is uncovered from a number of arcs on if there is no value after so many arcs and
none after more. -/
theorem uncoveredFrom_iff {first : Nat} (hfirst : first < oid.length) :
    tree.UncoveredFrom oid first ↔
      (tree.contentAt (oid.take first)).cell = none ∧ tree.UncoveredFrom oid (first + 1) := by
  constructor
  · intro h
    exact ⟨h first (Nat.le_refl _) hfirst, fun count hle => h count (Nat.le_of_succ_le hle)⟩
  · rintro ⟨hcell, h⟩ count hle hlt
    rcases Nat.eq_or_lt_of_le hle with rfl | hlater
    · exact hcell
    · exact h count hlater hlt

/-- Where something is held a node stands. -/
theorem Linked.live_of_contentAt (hlinked : tree.Linked) (hcontent : tree.contentAt oid ≠ .blank) :
    tree.Live oid := by
  obtain ⟨id, hheld⟩ := (hlinked.contentAt_eq_iff hcontent).mp rfl
  obtain ⟨_, node, hnode, haddress, _⟩ := held?_eq_some_iff.mp hheld
  exact ⟨id, node, hnode, haddress⟩

/-- A node has no children exactly when its address ends a branch. -/
theorem Linked.isLeaf_iff (hlinked : tree.Linked) (hnode : tree.node? id = some node) :
    node.isLeaf = true ↔ tree.Ends node.address := by
  constructor
  · rintro hleaf other ⟨otherId, below, hbelow, rfl⟩ ⟨arcs, harcs⟩
    cases arcs with
    | nil => exact Oid.ext (by rw [← harcs, List.append_nil])
    | cons arc rest =>
      obtain ⟨child, hchild⟩ := hlinked.child?_of_address hnode hbelow harcs.symm
      rw [Node.child?, node.children.isEmpty_iff.mp hleaf arc] at hchild
      cases hchild
  · intro hends
    refine node.children.isEmpty_iff.mpr fun arc => ?_
    cases hchild : node.children.get? arc with
    | none => rfl
    | some child =>
      obtain ⟨below, hbelow, _, haddress⟩ := hlinked.child hnode hchild
      have hsame := hends below.address ⟨child, below, hbelow, rfl⟩ ⟨[arc], haddress.symm⟩
      rw [hsame] at haddress
      simp at haddress

/-- A node stands at every start of the address of a node. -/
theorem Linked.live_of_prefix (hlinked : tree.Linked) (hlive : tree.Live oid) {above : Oid}
    (habove : above.arcs <+: oid.arcs) : tree.Live above := by
  obtain ⟨id, node, hnode, rfl⟩ := hlive
  obtain ⟨rest, hrest⟩ := habove
  have hfind := hlinked.find?_address hnode
  rw [find?, ← hrest, findFrom?_append, Option.bind_eq_some_iff] at hfind
  obtain ⟨middle, hmiddle, _⟩ := hfind
  exact ⟨middle, hlinked.find?_eq_some_iff.mp hmiddle⟩

/-- A branch ends somewhere below every node, since addresses are not longer than there are
slots. -/
theorem Linked.exists_ends (hlinked : tree.Linked) (hlive : tree.Live oid) :
    ∃ below, oid.arcs <+: below.arcs ∧ tree.Live below ∧ tree.Ends below := by
  induction hdepth : tree.slots.size - oid.length using Nat.strongRecOn generalizing oid with
  | ind depth ih =>
    by_cases hends : tree.Ends oid
    · exact ⟨oid, List.prefix_refl _, hlive, hends⟩
    · obtain ⟨other, hother⟩ := Classical.not_forall.mp hends
      obtain ⟨hotherLive, hrest⟩ := Classical.not_imp.mp hother
      obtain ⟨hbelow, hne⟩ := Classical.not_imp.mp hrest
      have hlonger : oid.length < other.length := by
        refine Nat.lt_of_le_of_ne hbelow.length_le fun hlength => ?_
        exact hne (Oid.ext (hbelow.eq_of_length hlength).symm)
      have hbound : other.length < tree.slots.size := by
        obtain ⟨id, node, hnode, rfl⟩ := hotherLive
        exact hlinked.length_address_lt hnode
      obtain ⟨below, hway, hfound⟩ := ih (tree.slots.size - other.length) (by omega) hotherLive rfl
      exact ⟨below, hbelow.trans hway, hfound⟩

/-- Behind a missing child no node stands. -/
theorem Linked.not_live_of_child? (hlinked : tree.Linked) (hnode : tree.node? id = some node)
    {arc : Nat} (hchild : node.child? arc = none)
    (habove : node.address.arcs ++ [arc] <+: oid.arcs) : ¬tree.Live oid := by
  rintro ⟨other, below, hbelow, rfl⟩
  obtain ⟨rest, hrest⟩ := habove
  rw [List.append_assoc, List.singleton_append] at hrest
  obtain ⟨child, hsome⟩ := hlinked.child?_of_address hnode hbelow hrest.symm
  rw [hchild] at hsome
  cases hsome

/-- Where a child is missing, nothing stands on the rest of the way and below its end. -/
theorem Linked.vacant_of_child? (hlinked : tree.Linked) (hnode : tree.node? id = some node)
    {arc : Nat} {rest : List Nat} (hchild : node.child? arc = none)
    (harcs : oid.arcs = node.address.arcs ++ arc :: rest) :
    tree.UncoveredFrom oid (node.address.length + 1) ∧ tree.Ends oid := by
  have hway : node.address.arcs ++ [arc] <+: oid.arcs :=
    ⟨rest, by rw [harcs, List.append_assoc, List.singleton_append]⟩
  refine ⟨fun count hle _ => ?_, fun other hlive hbelow =>
    absurd hlive (hlinked.not_live_of_child? hnode hchild (hway.trans hbelow))⟩
  have hbehind : node.address.arcs ++ [arc] <+: (oid.take count).arcs :=
    List.prefix_take_iff.mpr ⟨hway, by simpa [Oid.length] using hle⟩
  have hblank : tree.contentAt (oid.take count) = .blank := Decidable.byContradiction fun hne =>
    hlinked.not_live_of_child? hnode hchild hbehind (hlinked.live_of_contentAt hne)
  rw [hblank]
  rfl

/-- Following the rest of an address from the node at its first arcs, a value may be stored at the
end if the nodes on the way hold none and nothing stands below the end. -/
theorem Linked.checkSlotFrom_eq_ok_iff (hlinked : tree.Linked) {rest : List Nat}
    (hnode : tree.node? id = some node) (harcs : oid.arcs = node.address.arcs ++ rest) :
    tree.checkSlotFrom id rest = .ok () ↔
      tree.UncoveredFrom oid node.address.length ∧ tree.Ends oid := by
  induction rest generalizing id node with
  | nil =>
    obtain rfl : oid = node.address := Oid.ext (by rw [harcs, List.append_nil])
    have hvacuous : tree.UncoveredFrom node.address node.address.length :=
      fun count hle hlt => absurd hlt (Nat.not_lt_of_le hle)
    rw [← hlinked.isLeaf_iff hnode, and_iff_right hvacuous]
    cases hleaf : node.isLeaf <;> simp [checkSlotFrom, hnode, hleaf]
  | cons arc rest ih =>
    have hlength : node.address.length < oid.length := by simp [Oid.length, harcs]
    have hself : (tree.contentAt (oid.take node.address.length)).cell = node.cell := by
      have htake : oid.take node.address.length = node.address :=
        Oid.ext (by simp [Oid.take, harcs, Oid.length])
      rw [htake, hlinked.contentAt_address hnode]
      rfl
    rw [uncoveredFrom_iff hlength, hself]
    cases hcell : node.cell with
    | some cell => simp [checkSlotFrom, hnode, hcell]
    | none =>
      cases hchild : node.child? arc with
      | some child =>
        obtain ⟨below, hbelow, _, haddress⟩ := hlinked.child hnode hchild
        have hbelowLength : below.address.length = node.address.length + 1 := by
          simp [Oid.length, haddress]
        have hrest := ih hbelow (by rw [harcs, haddress]; simp)
        rw [hbelowLength] at hrest
        simpa [checkSlotFrom, hnode, hcell, hchild] using hrest
      | none =>
        simp [checkSlotFrom, hnode, hcell, hchild, hlinked.vacant_of_child? hnode hchild harcs]

/-- A value may be stored at an address exactly when none stands strictly above it and no node
stands below it. -/
theorem Linked.checkSlot_eq_ok_iff (hlinked : tree.Linked) :
    tree.checkSlot oid = .ok () ↔ tree.Uncovered oid ∧ tree.Ends oid := by
  obtain ⟨root, hroot, haddress, _⟩ := hlinked.root
  have hempty : root.address.arcs = [] := by rw [haddress]; rfl
  have harcs : oid.arcs = root.address.arcs ++ oid.arcs := by rw [hempty, List.nil_append]
  rw [checkSlot, hlinked.checkSlotFrom_eq_ok_iff hroot harcs]
  simp [Uncovered, UncoveredFrom, Oid.length, hempty]

/-- A value at the start of an uncovered address stands at the address itself. -/
theorem Uncovered.eq_of_above (huncovered : tree.Uncovered oid) {above : Oid}
    (habove : above.arcs <+: oid.arcs) (hcell : (tree.contentAt above).cell ≠ none) :
    above = oid := by
  have htake : above = oid.take above.length :=
    Oid.ext (List.prefix_iff_eq_take.mp habove)
  rcases Nat.lt_or_ge above.length oid.length with hlt | hge
  · rw [htake] at hcell
    exact absurd (huncovered _ hlt) hcell
  · exact Oid.ext (habove.eq_of_length (Nat.le_antisymm habove.length_le hge))

end Smi.ObjectTree
