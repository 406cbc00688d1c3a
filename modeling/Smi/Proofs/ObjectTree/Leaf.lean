import Smi.Proofs.ObjectTree.RowEffect
import Smi.Proofs.ObjectTree.Run
import Smi.Proofs.ObjectTree.Vacancy
import Smi.Proofs.RowKey.RoundTrip

/-!
# Values stand at leaves

Materializing an address creates nodes on the way to it and no others, and pruning creates none. A
value is stored only where the branch ends and nothing above holds a value, and a provider is
attached only below nodes without values. So whatever operations follow each other, a node that
holds a value has no children. Materializing an address by itself is no such operation: it creates
nodes below a value without asking.
-/

namespace Smi.ObjectTree

variable {tree after : ObjectTree} {id : NodeId} {now : Node} {oid other : Oid}
  {cells : List (Oid × Cell)} {operation : Operation}

/-- Whether only nodes without children hold values. -/
def LeafValued (tree : ObjectTree) : Prop :=
  ∀ id node, tree.node? id = some node → node.cell.isSome = true → node.isLeaf = true

/-- Values stand at leaves when each address of a value ends a branch. -/
theorem Linked.leafValued_iff (hlinked : tree.Linked) :
    tree.LeafValued ↔ ∀ oid, (tree.contentAt oid).cell ≠ none → tree.Ends oid := by
  constructor
  · intro hleaf oid hcell
    have hblank : tree.contentAt oid ≠ .blank := fun h => hcell (by rw [h]; rfl)
    obtain ⟨id, node, hnode, rfl⟩ := hlinked.live_of_contentAt hblank
    rw [hlinked.contentAt_address hnode] at hcell
    exact (hlinked.isLeaf_iff hnode).mp (hleaf id node hnode (Option.isSome_iff_ne_none.mpr hcell))
  · intro hends id node hnode hcell
    refine (hlinked.isLeaf_iff hnode).mpr (hends node.address ?_)
    rw [hlinked.contentAt_address hnode]
    exact Option.isSome_iff_ne_none.mp hcell

/-! ### Where nodes stand after a change -/

/-- A node after some arcs were followed is an old one, or it stands on the way. -/
theorem Shaped.old_of_materializeFrom (hshaped : tree.Shaped) {depth : Nat} {rest : List Nat}
    {start : Node} (hstart : tree.node? id = some start)
    (haddress : start.address.arcs = oid.arcs.take depth) (hrest : oid.arcs.drop depth = rest)
    (hlive : (tree.materializeFrom id oid depth rest).1.Live other) :
    tree.Live other ∨ other.arcs <+: oid.arcs := by
  induction rest generalizing tree id start depth with
  | nil => exact Or.inl hlive
  | cons arc rest ih =>
    obtain ⟨htake, hdrop⟩ := take_drop_succ hrest
    have hchildAddress : (oid.take (depth + 1)).arcs = start.address.arcs ++ [arc] :=
      htake.trans (by rw [haddress])
    cases hchild : start.child? arc with
    | some child =>
      obtain ⟨below, hbelow, _, hbelowAddress⟩ := hshaped.linked.child hstart hchild
      simp only [ObjectTree.materializeFrom, hstart, Option.bind_some, hchild] at hlive
      exact ih hshaped hbelow (hbelowAddress.trans hchildAddress.symm) hdrop hlive
    | none =>
      have hkeeps := hshaped.addChild hstart hchild hchildAddress
      have hnew := hshaped.packed.node?_addChild hstart arc (oid.take (depth + 1))
        (tree.addChild id arc (oid.take (depth + 1))).2
      rw [if_pos rfl] at hnew
      simp only [ObjectTree.materializeFrom, hstart, Option.bind_some, hchild] at hlive
      rcases ih hkeeps.shaped hnew rfl hdrop hlive with ⟨otherId, node, hnode, rfl⟩ | hway
      · rcases hshaped.packed.old_of_addChild hstart hnode with ⟨_, rfl⟩ | ⟨old, hold, hsame, _⟩
        · exact Or.inr (List.take_prefix _ _)
        · exact Or.inl ⟨otherId, old, hold, hsame.address.symm⟩
      · exact Or.inr hway

/-- Materializing an address creates nodes on the way to it alone. -/
theorem Shaped.live_of_materialize (hshaped : tree.Shaped)
    (hlive : (tree.materialize oid).1.Live other) : tree.Live other ∨ other.arcs <+: oid.arcs := by
  obtain ⟨root, hroot, haddress, _⟩ := hshaped.linked.root
  exact hshaped.old_of_materializeFrom hroot (by rw [haddress]; rfl) rfl hlive

/-- Changing what a node holds creates no node. -/
theorem live_of_modify {f : Node → Node} (hf : ∀ node, (f node).address = node.address)
    (hlive : (tree.modify id f).Live other) : tree.Live other := by
  obtain ⟨otherId, node, hnode, rfl⟩ := hlive
  rw [node?_modify] at hnode
  by_cases hid : otherId = id
  · rw [if_pos hid, Option.map_eq_some_iff] at hnode
    obtain ⟨old, hold, rfl⟩ := hnode
    exact ⟨id, old, hold, (hf old).symm⟩
  · rw [if_neg hid] at hnode
    exact ⟨otherId, node, hnode, rfl⟩

/-- Pruning makes nothing live. -/
theorem Shaped.live_of_prune (hshaped : tree.Shaped) (hlive : (tree.prune id).Live other) :
    tree.Live other := by
  obtain ⟨otherId, node, hnode, rfl⟩ := hlive
  obtain ⟨old, hold, hsame⟩ := hshaped.old_of_prune hnode
  exact ⟨otherId, old, hold, hsame.address.symm⟩

/-- Clearing a node makes nothing live. -/
theorem Shaped.live_of_clear (hshaped : tree.Shaped) (hlive : (tree.clear id).Live other) :
    tree.Live other :=
  live_of_modify (f := fun node => { node with cell := none }) (fun _ => rfl)
    ((hshaped.modifyCell id none).live_of_prune hlive)

/-- Attaching a provider makes only the addresses down to it live. -/
theorem Shaped.live_of_attach (hshaped : tree.Shaped) {spec : ProviderSpec}
    (hlive : (tree.attach spec).1.Live other) :
    tree.Live other ∨ other.arcs <+: spec.oid.arcs :=
  hshaped.live_of_materialize
    (live_of_modify (f := fun node => { node with provider := some spec.name }) (fun _ => rfl)
      hlive)

/-- Detaching a provider makes nothing live. -/
theorem Shaped.live_of_detach (hshaped : tree.Shaped) {registration : Registration}
    (hlive : (tree.detach registration).Live other) : tree.Live other := by
  obtain ⟨otherId, node, hnode, haddress⟩ := hlive
  have hpruned : ((tree.modify registration.node fun node => { node with provider := none }).prune
      registration.node).node? otherId = some node := hnode
  have hmodified := hshaped.modify registration.node
    (f := fun node => { node with provider := none }) fun _ => rfl
  exact live_of_modify (f := fun node => { node with provider := none }) (fun _ => rfl)
    (hmodified.live_of_prune ⟨otherId, node, hpruned, haddress⟩)

/-- Storing a value makes only the addresses down to it live. -/
theorem Shaped.live_of_store (hshaped : tree.Shaped) {cell : Cell}
    (hlive : (tree.store oid cell).Live other) : tree.Live other ∨ other.arcs <+: oid.arcs :=
  hshaped.live_of_materialize
    (live_of_modify (f := fun node => { node with cell := some cell }) (fun _ => rfl) hlive)

/-- Storing values creates nodes on the ways to their addresses alone. -/
theorem WellFormed.live_of_storeAll (hwf : tree.WellFormed)
    (hlive : (cells.foldl (fun tree cell => tree.store cell.1 cell.2) tree).Live other) :
    tree.Live other ∨ ∃ cell ∈ cells, other.arcs <+: cell.1.arcs := by
  induction cells generalizing tree with
  | nil => exact Or.inl hlive
  | cons first rest ih =>
    rcases ih (hwf.store first.1 first.2) hlive with hstored | ⟨cell, hcell, hway⟩
    · rcases hwf.shaped.live_of_store hstored with hold | hway
      · exact Or.inl hold
      · exact Or.inr ⟨first, List.mem_cons_self, hway⟩
    · exact Or.inr ⟨cell, List.mem_cons_of_mem _ hcell, hway⟩

/-- After values have been stored, a value is an old one or one of them. -/
theorem WellFormed.cell_of_storeAll (hwf : tree.WellFormed)
    (hcell : ((cells.foldl (fun tree cell => tree.store cell.1 cell.2) tree).contentAt
      oid).cell ≠ none) :
    (tree.contentAt oid).cell ≠ none ∨ ∃ cell ∈ cells, cell.1 = oid := by
  rw [hwf.contentAt_storeAll, Content.withCell] at hcell
  cases hlookup : cells.reverse.lookup oid with
  | none =>
    rw [hlookup, Option.none_or] at hcell
    exact Or.inl hcell
  | some cell =>
    obtain ⟨before, behind, hsplit, _⟩ := List.lookup_eq_some_iff.mp hlookup
    refine Or.inr ⟨(oid, cell), List.mem_reverse.mp ?_, rfl⟩
    rw [hsplit]
    exact List.mem_append_right _ List.mem_cons_self

/-! ### Changes that keep values at leaves -/

/-- Values stay at leaves if every new node is on the way to a target, every new value is at the end
of a branch, and no value covers a target. -/
theorem LeafValued.of_targets (hleaf : tree.LeafValued) (hlinked : tree.Linked)
    (hafter : after.Linked) (targets : List Oid)
    (hlive : ∀ oid, after.Live oid → tree.Live oid ∨ ∃ target ∈ targets, oid.arcs <+: target.arcs)
    (hends : ∀ oid, (after.contentAt oid).cell ≠ none →
      (tree.contentAt oid).cell ≠ none ∨ tree.Ends oid)
    (hcover : ∀ oid, (after.contentAt oid).cell ≠ none →
      ∀ target ∈ targets, oid.arcs <+: target.arcs → oid = target) : after.LeafValued := by
  refine hafter.leafValued_iff.mpr fun oid hcell other hother hbelow => ?_
  rcases hlive other hother with hold | ⟨target, htarget, hway⟩
  · rcases hends oid hcell with hvalue | hend
    · exact hlinked.leafValued_iff.mp hleaf oid hvalue other hold hbelow
    · exact hend other hold hbelow
  · obtain rfl := hcover oid hcell target htarget (hbelow.trans hway)
    exact Oid.ext (hway.eq_of_length (Nat.le_antisymm hway.length_le hbelow.length_le))

/-- Values stay at leaves where no node and no value is created. -/
theorem LeafValued.of_shrinks (hleaf : tree.LeafValued) (hlinked : tree.Linked)
    (hafter : after.Linked) (hlive : ∀ oid, after.Live oid → tree.Live oid)
    (hcell : ∀ oid, (after.contentAt oid).cell ≠ none → (tree.contentAt oid).cell ≠ none) :
    after.LeafValued :=
  hleaf.of_targets hlinked hafter [] (fun oid h => Or.inl (hlive oid h))
    (fun oid h => Or.inl (hcell oid h)) fun _ _ _ htarget => absurd htarget List.not_mem_nil

/-- Storing values at addresses of one length keeps values at leaves, if each of them may be stored
before the first one is. -/
theorem LeafValued.storeAll (hleaf : tree.LeafValued) (hwf : tree.WellFormed) {length : Nat}
    (hslot : ∀ cell ∈ cells, tree.checkSlot cell.1 = .ok () ∧ cell.1.length = length) :
    (cells.foldl (fun tree cell => tree.store cell.1 cell.2) tree).LeafValued := by
  have hwfAfter : (cells.foldl (fun tree cell => tree.store cell.1 cell.2) tree).WellFormed :=
    List.foldlRecOn cells _ hwf fun _ h cell _ => h.store cell.1 cell.2
  have hfree {cell : Oid × Cell} (hmem : cell ∈ cells) :=
    hwf.shaped.linked.checkSlot_eq_ok_iff.mp (hslot cell hmem).1
  refine hleaf.of_targets hwf.shaped.linked hwfAfter.shaped.linked (cells.map Prod.fst)
    (fun oid hlive => ?_) (fun oid hcell => ?_) fun oid hcell target htarget hway => ?_
  · rcases hwf.live_of_storeAll hlive with hold | ⟨cell, hmem, hway⟩
    · exact Or.inl hold
    · exact Or.inr ⟨cell.1, List.mem_map_of_mem hmem, hway⟩
  · rcases hwf.cell_of_storeAll hcell with hold | ⟨cell, hmem, rfl⟩
    · exact Or.inl hold
    · exact Or.inr (hfree hmem).2
  · obtain ⟨cell, hmem, rfl⟩ := List.mem_map.mp htarget
    rcases hwf.cell_of_storeAll hcell with hold | ⟨stored, hstored, rfl⟩
    · exact (hfree hmem).1.eq_of_above hway hold
    -- Two of the stored values stand equally far from the root.
    · have hlength : stored.1.length = cell.1.length :=
        (hslot stored hstored).2.trans (hslot cell hmem).2.symm
      exact Oid.ext (hway.eq_of_length hlength)

/-- Only leaves hold values after a node is cleared. -/
theorem LeafValued.clear (hleaf : tree.LeafValued) (hwf : tree.WellFormed) (id : NodeId) :
    (tree.clear id).LeafValued := by
  refine hleaf.of_shrinks hwf.shaped.linked (hwf.clear id).shaped.linked
    (fun oid hlive => hwf.shaped.live_of_clear hlive) fun oid hcell => ?_
  rw [hwf.shaped.contentAt_clear] at hcell
  by_cases hfind : tree.find? oid = some id
  · rw [if_pos hfind] at hcell
    exact absurd rfl hcell
  · rwa [if_neg hfind] at hcell

/-! ### Every operation keeps values at leaves -/

/-- Only leaves hold values after a provider is registered. -/
theorem LeafValued.register (hleaf : tree.LeafValued) (hwf : tree.WellFormed)
    (spec : ProviderSpec) : (tree.register spec).2.LeafValued := by
  have hwfAfter := hwf.register spec
  rcases tree.register_cases spec with ⟨e, hresult⟩ | ⟨settled, _, hcheck, hresult⟩
  · rw [hresult]
    exact hleaf
  · rw [hresult] at hwfAfter ⊢
    obtain ⟨_, _, hslot, _⟩ := checkAttach_eq_ok_iff.mp hcheck
    have hfree := hwf.shaped.linked.checkSlot_eq_ok_iff.mp hslot
    have hcells : ∀ oid, ((tree.attach settled).1.contentAt oid).cell = (tree.contentAt oid).cell :=
      fun oid => by
        rw [hwf.shaped.changesAt_attach settled oid]
        split <;> rfl
    refine hleaf.of_targets hwf.shaped.linked hwfAfter.shaped.linked [settled.oid]
      (fun oid hlive => ?_) (fun oid hcell => ?_) fun oid hcell target htarget hway => ?_
    · rcases hwf.shaped.live_of_attach hlive with hold | hway
      · exact Or.inl hold
      · exact Or.inr ⟨settled.oid, List.mem_cons_self, hway⟩
    · rw [hcells] at hcell
      exact Or.inl hcell
    · rw [hcells] at hcell
      obtain rfl := List.mem_singleton.mp htarget
      exact hfree.1.eq_of_above hway hcell

/-- Only leaves hold values after several providers are registered. -/
theorem LeafValued.registerAll (hleaf : tree.LeafValued) (hwf : tree.WellFormed)
    (specs : List ProviderSpec) : (tree.registerAll specs).2.LeafValued :=
  hwf.registerAll_induction hleaf (fun _ spec hwf hleaf => hleaf.register hwf spec) specs

/-- Only leaves hold values after a provider is unregistered. -/
theorem LeafValued.unregister (hleaf : tree.LeafValued) (hwf : tree.WellFormed) (name : String) :
    (tree.unregister name).2.LeafValued := by
  have hwfAfter := hwf.unregister name
  have hdone := hwf.unregister_atomic name
  rcases tree.unregister_cases name with ⟨e, hresult⟩ | ⟨registration, _, _, hresult⟩
  · rw [hresult]
    exact hleaf
  · rw [hresult] at hwfAfter hdone ⊢
    obtain ⟨_, _, hchange⟩ := hdone
    refine hleaf.of_shrinks hwf.shaped.linked hwfAfter.shaped.linked
      (fun oid hlive => hwf.shaped.live_of_detach hlive) fun oid hcell => ?_
    rw [hchange oid] at hcell
    split at hcell <;> exact hcell

/-- Only leaves hold values after a scalar is set. -/
theorem LeafValued.setScalar (hleaf : tree.LeafValued) (hwf : tree.WellFormed) (name : String)
    (value : Value) : (tree.setScalar name value).2.LeafValued := by
  unfold ObjectTree.setScalar
  rcases hplan : tree.planScalar name value with e | ⟨address, cell⟩
  · exact hleaf
  · obtain ⟨⟨provider, found⟩, _, hplan⟩ := bind_eq_ok_iff.mp hplan
    obtain ⟨_, hslot, hplan⟩ := bind_eq_ok_iff.mp hplan
    obtain ⟨rfl, _⟩ := Prod.mk.inj (pure_eq_ok_iff.mp hplan)
    have hslots : ∀ write ∈ [(found, cell)],
        tree.checkSlot write.1 = .ok () ∧ write.1.length = found.length :=
      List.forall_mem_singleton.mpr ⟨hslot, rfl⟩
    exact hleaf.storeAll hwf hslots

/-- Only leaves hold values after a scalar is cleared. -/
theorem LeafValued.clearScalar (hleaf : tree.LeafValued) (hwf : tree.WellFormed) (name : String) :
    (tree.clearScalar name).2.LeafValued := by
  unfold ObjectTree.clearScalar
  rcases tree.scalarInstance name with e | ⟨provider, address⟩
  · exact hleaf
  · cases hfind : tree.find? address with
    | none =>
      simp only [hfind]
      exact hleaf
    | some id =>
      simp only [hfind]
      exact hleaf.clear hwf id

/-- The planned cells of a row may be stored, and their addresses are equally long. -/
theorem checkSlot_of_planCells {table : TableProvider} {suffix : List Nat}
    {planned : List (TableColumn × Value)}
    (hplan : tree.planCells table suffix planned = .ok cells) :
    ∀ cell ∈ cells, tree.checkSlot cell.1 = .ok () ∧
      cell.1.length = table.oid.length + (suffix.length + 1) := by
  induction planned generalizing cells with
  | nil =>
    obtain rfl := Except.ok.inj hplan
    exact fun _ hmem => absurd hmem List.not_mem_nil
  | cons first rest ih =>
    simp only [planCells, bind_eq_ok_iff, pure_eq_ok_iff] at hplan
    obtain ⟨address, haddress, _, hslot, others, hothers, rfl⟩ := hplan
    have hlength : address.length = table.oid.length + (suffix.length + 1) := by
      rw [Oid.length, arcs_of_cellAddress haddress, List.length_append, List.length_cons,
        Oid.length]
    exact List.forall_mem_cons.mpr ⟨⟨hslot, hlength⟩, ih hothers⟩

/-- Only leaves hold values after a row is added. -/
theorem LeafValued.addRow (hleaf : tree.LeafValued) (hwf : tree.WellFormed) (name : String)
    (values : List Value) : (tree.addRow name values).2.LeafValued := by
  unfold ObjectTree.addRow
  rcases hplan : tree.planRow name values with e | ⟨key, cells⟩
  · exact hleaf
  · obtain ⟨table, htable, _⟩ := bind_eq_ok_iff.mp hplan
    obtain ⟨_, _, suffix, _, hcells⟩ := planCells_of_planRow htable hplan
    exact hleaf.storeAll hwf (checkSlot_of_planCells hcells)

/-- Only leaves hold values after a row is deleted. -/
theorem LeafValued.deleteRow (hleaf : tree.LeafValued) (hwf : tree.WellFormed) (name : String)
    (key : RowKey) : (tree.deleteRow name key).2.LeafValued := by
  unfold ObjectTree.deleteRow
  cases tree.planDeletion name key with
  | error e => exact hleaf
  | ok ids =>
    exact (List.foldlRecOn (motive := fun later => later.LeafValued ∧ later.WellFormed) ids
      ObjectTree.clear ⟨hleaf, hwf⟩
      fun _ h id _ => ⟨h.1.clear h.2 id, h.2.clear id⟩).1

/-- Only leaves hold values after a cell is set. -/
theorem LeafValued.setCell (hleaf : tree.LeafValued) (hwf : tree.WellFormed) (name : String)
    (column : Nat) (key : RowKey) (value : Value) :
    (tree.setCell name column key value).2.LeafValued := by
  have hwfAfter := hwf.setCell name column key value
  have hdone := hwf.setCell_atomic name column key value
  have hlive : ∀ oid, (tree.setCell name column key value).2.Live oid → tree.Live oid := by
    intro oid
    unfold ObjectTree.setCell
    cases tree.planCell name column key with
    | error e => exact id
    | ok plan => exact live_of_modify fun _ => rfl
  rcases hresult : tree.setCell name column key value with ⟨e | old, after⟩
  · rw [hresult] at hdone
    exact hdone ▸ hleaf
  · rw [hresult] at hwfAfter hdone hlive
    obtain ⟨_, address, cell, _, hheld, _, _, hchange⟩ := hdone
    refine hleaf.of_shrinks hwf.shaped.linked hwfAfter.shaped.linked hlive fun oid hcell => ?_
    by_cases hoid : oid = address
    · rw [hoid, hheld]
      exact Option.some_ne_none cell
    · rwa [hchange oid, if_neg hoid] at hcell

/-- Every operation but materializing keeps values at leaves, whether it succeeds or fails. -/
theorem LeafValued.apply (hleaf : tree.LeafValued) (hwf : tree.WellFormed)
    (hoperation : ∀ oid, operation ≠ .materialize oid) : (tree.apply operation).LeafValued := by
  cases operation with
  | materialize oid => exact absurd rfl (hoperation oid)
  | register spec => exact hleaf.register hwf spec
  | registerAll specs => exact hleaf.registerAll hwf specs
  | unregister name => exact hleaf.unregister hwf name
  | setScalar name value => exact hleaf.setScalar hwf name value
  | clearScalar name => exact hleaf.clearScalar hwf name
  | addRow name values => exact hleaf.addRow hwf name values
  | deleteRow name key => exact hleaf.deleteRow hwf name key
  | setCell name column key value => exact hleaf.setCell hwf name column key value

/-- Only leaves hold values after a run that materializes nothing. -/
theorem LeafValued.run (hleaf : tree.LeafValued) (hwf : tree.WellFormed)
    {operations : List Operation} (hoperations : ∀ oid, .materialize oid ∉ operations) :
    (tree.run operations).LeafValued :=
  hwf.run_induction hleaf fun _ _ hmem hwf hleaf =>
    hleaf.apply hwf fun oid h => hoperations oid (h ▸ hmem)

/-- Only leaves hold values in the empty tree, since nothing does. -/
theorem empty_leafValued : empty.LeafValued := by
  intro id node hnode hcell
  rw [node?_empty] at hnode
  by_cases hid : id = rootId
  · rw [if_pos hid] at hnode
    obtain rfl := Option.some.inj hnode
    cases hcell
  · rw [if_neg hid] at hnode
    cases hnode

/-- In a well-formed tree whose values stand at leaves they still do so after any operation but
materializing, whether it succeeds or fails; and so they do after every run of such operations from
the tree of the root alone. -/
theorem only_leaves_hold_values :
    (∀ (tree : ObjectTree) operation, tree.WellFormed → tree.LeafValued →
      (∀ oid, operation ≠ .materialize oid) → (tree.apply operation).LeafValued) ∧
    ∀ operations, (∀ oid, .materialize oid ∉ operations) → (empty.run operations).LeafValued :=
  ⟨fun _ _ hwf hleaf hoperation => hleaf.apply hwf hoperation,
    fun _ hoperations => empty_leafValued.run empty_wellFormed hoperations⟩

/-- A scalar inside the column of the addresses of the hosts. -/
def probe : ScalarProvider :=
  ⟨"probe", ⟨[1, 3, 6, 1, 10], by decide⟩, some .integer⟩

/-- The row of a host whose address begins where the instance of the scalar stands is refused, and
the value of the scalar stays at a leaf. -/
theorem only_leaves_hold_values_probe :
    let operations : List Operation :=
      [.register (.table hosts), .register (.scalar probe), .setScalar "probe" (.integer 5)]
    let row : List Value :=
      [.ipAddress ⟨10, 0, 0, 1⟩, .octetString "ab", .objectIdentifier ⟨[1, 3], by decide⟩]
    let tree := empty.run operations
    (∀ oid, .materialize oid ∉ operations) ∧ tree.WellFormed ∧ tree.LeafValued ∧
      (∀ oid, Operation.addRow "host" row ≠ .materialize oid) ∧
      tree.valueAt? ⟨[1, 3, 6, 1, 10, 0], by decide⟩ = some (.integer 5) ∧
      (tree.addRow "host" row).1 = .error (.valueNodeConflict "1.3.6.1.10.0") ∧
      (tree.apply (.addRow "host" row)).LeafValued := by
  intro operations row tree
  have hoperations : ∀ oid, .materialize oid ∉ operations := by simp [operations]
  have hrow : ∀ oid, Operation.addRow "host" row ≠ .materialize oid := by simp
  have hwf : tree.WellFormed := empty_wellFormed.run operations
  have hleaf : tree.LeafValued := only_leaves_hold_values.2 operations hoperations
  exact ⟨hoperations, hwf, hleaf, hrow, rfl, rfl,
    only_leaves_hold_values.1 tree (.addRow "host" row) hwf hleaf hrow⟩

end Smi.ObjectTree
