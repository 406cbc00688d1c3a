import Smi.Proofs.ObjectTree.Leaf
import Smi.Proofs.ObjectTree.Owner

/-!
# Which nodes stay

A node is created where an address needs it, and it is removed again when nothing holds it any
longer. So a node without children has a value or a provider, or its address was materialized for
its own sake. What stays in a tree are the ways from the root to such nodes.
-/

namespace Smi.ObjectTree

variable {tree after : ObjectTree} {id : NodeId} {node : Node} {oid other above : Oid}
  {allowed further : Oid → Prop} {operation : Operation}

/-! ### Live addresses -/

/-- The same addresses are live after a node is changed that keeps its address. -/
theorem live_modify_iff {f : Node → Node} (hf : ∀ node, (f node).address = node.address) :
    (tree.modify id f).Live oid ↔ tree.Live oid := by
  refine ⟨live_of_modify hf, ?_⟩
  rintro ⟨otherId, node, hnode, rfl⟩
  have hmodify := node?_modify tree id otherId f
  by_cases hid : otherId = id
  · subst hid
    rw [if_pos rfl, hnode] at hmodify
    exact ⟨otherId, f node, hmodify, hf node⟩
  · rw [if_neg hid, hnode] at hmodify
    exact ⟨otherId, node, hmodify, rfl⟩

/-- The nodes of a tree stay while arcs are followed. -/
theorem Shaped.live_materializeFrom (hshaped : tree.Shaped) {depth : Nat} {rest : List Nat}
    {start : Node} (hstart : tree.node? id = some start)
    (haddress : start.address.arcs = oid.arcs.take depth) (hrest : oid.arcs.drop depth = rest)
    (hlive : tree.Live other) : (tree.materializeFrom id oid depth rest).1.Live other := by
  induction rest generalizing tree id start depth with
  | nil => exact hlive
  | cons arc rest ih =>
    obtain ⟨htake, hdrop⟩ := take_drop_succ hrest
    have hchildAddress : (oid.take (depth + 1)).arcs = start.address.arcs ++ [arc] :=
      htake.trans (by rw [haddress])
    cases hchild : start.child? arc with
    | some child =>
      obtain ⟨below, hbelow, _, hbelowAddress⟩ := hshaped.linked.child hstart hchild
      have hstep := ih hshaped hbelow (hbelowAddress.trans hchildAddress.symm) hdrop hlive
      simpa only [ObjectTree.materializeFrom, hstart, Option.bind_some, hchild] using hstep
    | none =>
      have hkeeps := hshaped.addChild hstart hchild hchildAddress
      have hnew := hshaped.packed.node?_addChild hstart arc (oid.take (depth + 1))
        (tree.addChild id arc (oid.take (depth + 1))).2
      rw [if_pos rfl] at hnew
      have hstays : (tree.addChild id arc (oid.take (depth + 1))).1.Live other := by
        obtain ⟨otherId, old, hold, rfl⟩ := hlive
        obtain ⟨now, hnow, hsame, _⟩ :=
          hshaped.packed.addChild_of_old hstart hchild (oid.take (depth + 1)) hold
        exact ⟨otherId, now, hnow, hsame.address⟩
      simp only [ObjectTree.materializeFrom, hstart, Option.bind_some, hchild]
      exact ih hkeeps.shaped hnew rfl hdrop hstays

/-- Materializing an address adds the nodes on the way to it. -/
theorem Shaped.live_materialize_iff (hshaped : tree.Shaped) :
    (tree.materialize oid).1.Live other ↔ tree.Live other ∨ other.arcs <+: oid.arcs := by
  refine ⟨hshaped.live_of_materialize, ?_⟩
  rintro (hlive | hway)
  · obtain ⟨root, hroot, haddress, _⟩ := hshaped.linked.root
    exact hshaped.live_materializeFrom hroot (by rw [haddress]; rfl) rfl hlive
  · obtain ⟨hkeeps, found, hfound, haddress⟩ := hshaped.materialize oid
    exact hkeeps.shaped.linked.live_of_prefix ⟨_, found, hfound, haddress⟩ hway

/-- Storing a value makes the addresses down to it live. -/
theorem Shaped.live_store_iff (hshaped : tree.Shaped) {cell : Cell} :
    (tree.store oid cell).Live other ↔ tree.Live other ∨ other.arcs <+: oid.arcs :=
  (live_modify_iff (f := fun node => { node with cell := some cell }) fun _ => rfl).trans
    hshaped.live_materialize_iff

/-- Attaching a provider makes the addresses down to it live. -/
theorem Shaped.live_attach_iff (hshaped : tree.Shaped) {spec : ProviderSpec} :
    (tree.attach spec).1.Live other ↔ tree.Live other ∨ other.arcs <+: spec.oid.arcs :=
  (live_modify_iff (f := fun node => { node with provider := some spec.name }) fun _ => rfl).trans
    hshaped.live_materialize_iff

/-! ### Nodes that nothing holds -/

/-- Whether a node stands at an address below the root and nothing holds it: it has no children, no
provider and no value. -/
structure Unheld (tree : ObjectTree) (oid : Oid) : Prop where
  live : tree.Live oid
  ends : tree.Ends oid
  blank : tree.contentAt oid = .blank
  ne_root : oid ≠ .root

/-- Whether nodes that nothing holds stand at allowed addresses alone. -/
def Tidy (tree : ObjectTree) (allowed : Oid → Prop) : Prop :=
  ∀ oid, tree.Unheld oid → allowed oid

/-- A tree is still tidy when more addresses are allowed. -/
theorem Tidy.mono (htidy : tree.Tidy allowed) (himp : ∀ oid, allowed oid → further oid) :
    tree.Tidy further :=
  fun oid hunheld => himp oid (htidy oid hunheld)

/-- An address that need not be allowed: something is held there, or its branch goes on, or it is
the root. -/
theorem Tidy.of_spared (htidy : tree.Tidy fun other => allowed other ∨ other = oid)
    (hheld : ¬tree.Unheld oid) : tree.Tidy allowed := by
  intro other hunheld
  rcases htidy other hunheld with hallowed | rfl
  · exact hallowed
  · exact absurd hunheld hheld

/-- In a tidy tree every node but the root is on the way to a value, to a provider or to an allowed
address. -/
theorem Tidy.way_of_live (htidy : tree.Tidy allowed) (hlinked : tree.Linked)
    (hlive : tree.Live oid) :
    oid = .root ∨ ∃ below, oid.arcs <+: below.arcs ∧ tree.Live below ∧
      (tree.contentAt below ≠ .blank ∨ allowed below) := by
  obtain ⟨below, hway, hbelow, hends⟩ := hlinked.exists_ends hlive
  by_cases hroot : below = .root
  · left
    rw [hroot] at hway
    exact Oid.ext (List.prefix_nil.mp hway)
  · right
    refine ⟨below, hway, hbelow, ?_⟩
    by_cases hblank : tree.contentAt below = .blank
    · exact Or.inr (htidy below ⟨hbelow, hends, hblank, hroot⟩)
    · exact Or.inl hblank

/-- Where the nodes on the way to one address are added, it is the only one that may be left
without anything that holds it. -/
theorem Tidy.of_grows (htidy : tree.Tidy allowed)
    (hlive : ∀ other, after.Live other ↔ tree.Live other ∨ other.arcs <+: oid.arcs)
    (hcontent : ∀ other, other ≠ oid → after.contentAt other = tree.contentAt other) :
    after.Tidy fun other => allowed other ∨ other = oid := by
  intro other hunheld
  by_cases hoid : other = oid
  · exact Or.inr hoid
  · have hnotOnWay : ¬other.arcs <+: oid.arcs := fun hway =>
      hoid (hunheld.ends oid ((hlive oid).mpr (Or.inr (List.prefix_refl _))) hway).symm
    have hold : tree.Live other := ((hlive other).mp hunheld.live).resolve_right hnotOnWay
    refine Or.inl (htidy other ⟨hold, fun below hbelow => ?_, ?_, hunheld.ne_root⟩)
    · exact hunheld.ends below ((hlive below).mpr (Or.inl hbelow))
    · rw [← hcontent other hoid]
      exact hunheld.blank

/-- Where no node is added or removed, what is held may change at allowed addresses. -/
theorem Tidy.of_live_iff (htidy : tree.Tidy allowed)
    (hlive : ∀ oid, after.Live oid ↔ tree.Live oid)
    (hcontent : ∀ oid, allowed oid ∨ after.contentAt oid = tree.contentAt oid) :
    after.Tidy allowed := by
  intro oid hunheld
  rcases hcontent oid with hallowed | hsame
  · exact hallowed
  · refine htidy oid ⟨(hlive oid).mp hunheld.live, fun below hbelow => ?_, ?_, hunheld.ne_root⟩
    · exact hunheld.ends below ((hlive below).mpr hbelow)
    · rw [← hsame]
      exact hunheld.blank

/-! ### Pruning -/

/-- Removing a vacant node removes its address alone, and the node above it stays. -/
theorem Shaped.live_delete (hshaped : tree.Shaped) (hid : id ≠ rootId)
    (hnode : tree.node? id = some node) (hvacant : node.isVacant = true)
    (hdelete : tree.delete id = (.ok (), after)) :
    (∀ oid, after.Live oid ↔ tree.Live oid ∧ oid ≠ node.address) ∧
      ∃ parent above arc, node.parent = some parent ∧ after.node? parent = some above ∧
        node.address.arcs = above.address.arcs ++ [arc] := by
  obtain ⟨parent, above, arc, hparent, habove, haddress, hunlink⟩ :=
    hshaped.linked.delete_eq hid hnode (isVacant_iff.mp hvacant).1
  rw [hunlink] at hdelete
  obtain rfl := (Prod.mk.inj hdelete).2
  have hne : parent ≠ id := ne_of_address hnode habove haddress
  refine ⟨fun oid => ⟨?_, ?_⟩, ?_⟩
  · rintro ⟨other, now, hnow, rfl⟩
    obtain ⟨hother, old, hold, hsame, _⟩ := old_of_unlink hne habove hnow
    refine ⟨⟨other, old, hold, hsame.address.symm⟩, fun h => hother ?_⟩
    exact hshaped.linked.id_eq_of_address_eq hold hnode (hsame.address.symm.trans h)
  · rintro ⟨⟨other, old, hold, rfl⟩, hoid⟩
    have hother : other ≠ id := fun h => by
      rw [h, hnode] at hold
      exact hoid (by rw [Option.some.inj hold])
    obtain ⟨now, hnow, hsame, _⟩ := unlink_of_old hne habove arc hother hold
    exact ⟨other, now, hnow, hsame.address⟩
  · obtain ⟨now, hnow, hsame, _⟩ := unlink_of_old hne habove arc hne habove
    exact ⟨parent, now, arc, hparent, hnow, by rw [hsame.address, haddress]⟩

/-- Removing a vacant node may leave nothing that holds the node above it. -/
theorem Tidy.of_delete
    (htidy : tree.Tidy fun other => allowed other ∨ other = oid)
    (hlive : ∀ other, after.Live other ↔ tree.Live other ∧ other ≠ oid)
    (hcontent : ∀ other, after.contentAt other = tree.contentAt other)
    (habove : after.Live above) {arc : Nat} (haddress : oid.arcs = above.arcs ++ [arc]) :
    after.Tidy fun other => allowed other ∨ other = above := by
  intro other hunheld
  obtain ⟨hold, hne⟩ := (hlive other).mp hunheld.live
  by_cases hother : other = above
  · exact Or.inr hother
  · left
    refine (htidy other ⟨hold, fun below hbelow hway => ?_, ?_, hunheld.ne_root⟩).resolve_right hne
    · by_cases hbelowOid : below = oid
      -- What stands above the removed node also stands above its parent, which is still there.
      · rw [hbelowOid, haddress] at hway
        rcases List.prefix_concat_iff.mp hway with heq | hway
        · exact absurd (Oid.ext (heq.trans haddress.symm)) hne
        · exact absurd (hunheld.ends above habove hway).symm hother
      · exact hunheld.ends below ((hlive below).mpr ⟨hbelow, hbelowOid⟩) hway
    · rw [← hcontent other]
      exact hunheld.blank

/-- Pruning from the only node that may be left without anything that holds it leaves none. -/
theorem Tidy.pruneUp (hshaped : tree.Shaped) {limit : Nat} (hnode : tree.node? id = some node)
    (hlimit : node.address.length ≤ limit)
    (htidy : tree.Tidy fun other => allowed other ∨ other = node.address) :
    (tree.pruneUp id limit).Tidy allowed := by
  induction limit generalizing tree id node with
  | zero =>
    refine htidy.of_spared fun hunheld => hunheld.ne_root (Oid.ext ?_)
    exact List.length_eq_zero_iff.mp (Nat.le_zero.mp hlimit)
  | succ limit ih =>
    by_cases hstop : (decide (id = rootId) || !node.isVacant) = true
    · simp only [ObjectTree.pruneUp, hnode, hstop, if_true]
      refine htidy.of_spared fun hunheld => ?_
      rcases Bool.or_eq_true_iff.mp hstop with hroot | hheld
      · obtain ⟨root, hfound, haddress, _⟩ := hshaped.linked.root
        rw [of_decide_eq_true hroot, hfound] at hnode
        obtain rfl := Option.some.inj hnode
        exact hunheld.ne_root haddress
      · have hvacant : node.isVacant = true := isVacant_iff.mpr
          ⟨(hshaped.linked.isLeaf_iff hnode).mpr hunheld.ends,
            (hshaped.linked.contentAt_address hnode).symm.trans hunheld.blank⟩
        rw [hvacant] at hheld
        cases hheld
    · have hid : id ≠ rootId := fun h => hstop (by simp [h])
      have hvacant : node.isVacant = true := by simpa [hid] using hstop
      obtain ⟨after, hdelete, hkeeps⟩ := hshaped.delete hid hnode hvacant
      obtain ⟨hlive, parent, above, arc, hparent, habove, haddress⟩ :=
        hshaped.live_delete hid hnode hvacant hdelete
      simp only [ObjectTree.pruneUp, hnode, if_neg hstop, hdelete, hparent]
      have hshorter : above.address.length ≤ limit := by
        have hlength := congrArg List.length haddress
        simp only [List.length_append, List.length_singleton] at hlength
        simp only [Oid.length] at hlimit ⊢
        omega
      exact ih hkeeps.shaped habove hshorter (htidy.of_delete hlive
        (hkeeps.contentAt hshaped) ⟨parent, above, habove, rfl⟩ haddress)

/-- Changing what a node holds and then pruning from it leaves no other node without anything that
holds it. -/
theorem Tidy.modify_prune (htidy : tree.Tidy allowed) (hshaped : tree.Shaped) (id : NodeId)
    {f : Node → Node} (hf : ∀ node, (f node).links = node.links) :
    ((tree.modify id f).prune id).Tidy allowed := by
  have hmodified := hshaped.modify id hf
  have hkeep : ∀ node, (f node).address = node.address := fun node => congrArg Prod.fst (hf node)
  cases hnode : tree.node? id with
  | none =>
    have hsame : tree.modify id f = tree := by rw [ObjectTree.modify, hnode]
    rw [hsame, ObjectTree.prune, hnode]
    exact htidy
  | some node =>
    have hnow : (tree.modify id f).node? id = some (f node) := by
      rw [node?_modify, if_pos rfl, hnode, Option.map_some]
    have hspared : tree.Tidy fun other => allowed other ∨ other = (f node).address :=
      htidy.mono fun _ => Or.inl
    rw [ObjectTree.prune, hnow]
    refine Tidy.pruneUp hmodified hnow (Nat.le_refl _) (hspared.of_live_iff
      (fun _ => live_modify_iff hkeep) fun other => ?_)
    rw [hshaped.linked.contentAt_modify hnode hf, hkeep node]
    by_cases hother : other = node.address
    · exact Or.inl (Or.inr hother)
    · exact Or.inr (if_neg hother)

/-! ### Every operation keeps a tree tidy -/

/-- A materialized address is the only one where a node may be that nothing holds. -/
theorem Tidy.materialize (htidy : tree.Tidy allowed) (hshaped : tree.Shaped) (oid : Oid) :
    (tree.materialize oid).1.Tidy fun other => allowed other ∨ other = oid :=
  htidy.of_grows (fun _ => hshaped.live_materialize_iff)
    fun other _ => (hshaped.materialize oid).1.contentAt hshaped other

/-- A tree is still tidy when a value is stored. -/
theorem Tidy.store (htidy : tree.Tidy allowed) (hshaped : tree.Shaped) (oid : Oid) (cell : Cell) :
    (tree.store oid cell).Tidy allowed := by
  have hgrown : (tree.store oid cell).Tidy fun other => allowed other ∨ other = oid :=
    htidy.of_grows (fun _ => hshaped.live_store_iff) fun other hother => by
      rw [hshaped.contentAt_store, if_neg hother]
  refine hgrown.of_spared fun hunheld => ?_
  have hblank := hunheld.blank
  rw [hshaped.contentAt_store, if_pos rfl] at hblank
  cases congrArg Content.cell hblank

/-- A tree is still tidy when a provider is attached. -/
theorem Tidy.attach (htidy : tree.Tidy allowed) (hshaped : tree.Shaped) (spec : ProviderSpec) :
    (tree.attach spec).1.Tidy allowed := by
  have hgrown : (tree.attach spec).1.Tidy fun other => allowed other ∨ other = spec.oid :=
    htidy.of_grows (fun _ => hshaped.live_attach_iff) fun other hother => by
      rw [hshaped.changesAt_attach spec other, if_neg hother]
  refine hgrown.of_spared fun hunheld => ?_
  have hblank := hunheld.blank
  rw [hshaped.changesAt_attach spec spec.oid, if_pos rfl] at hblank
  cases congrArg Content.provider hblank

/-- A tree is still tidy when a node is cleared. -/
theorem Tidy.clear (htidy : tree.Tidy allowed) (hshaped : tree.Shaped) (id : NodeId) :
    (tree.clear id).Tidy allowed :=
  htidy.modify_prune hshaped id fun _ => rfl

/-- A tree is still tidy when a provider is detached. -/
theorem Tidy.detach (htidy : tree.Tidy allowed) (hshaped : tree.Shaped)
    (registration : Registration) : (tree.detach registration).Tidy allowed := by
  have hpruned := htidy.modify_prune hshaped registration.node
    (f := fun node => { node with provider := none }) fun _ => rfl
  exact hpruned.of_live_iff (fun _ => Iff.rfl) fun oid => Or.inr (contentAt_withRegistry _ _ oid)

/-- A tree is still tidy when a provider is registered. -/
theorem Tidy.register (htidy : tree.Tidy allowed) (hwf : tree.WellFormed) (spec : ProviderSpec) :
    (tree.register spec).2.Tidy allowed := by
  rcases tree.register_cases spec with ⟨e, hresult⟩ | ⟨settled, _, _, hresult⟩
  · rw [hresult]
    exact htidy
  · rw [hresult]
    exact htidy.attach hwf.shaped settled

/-- A tree is still tidy when a provider is unregistered. -/
theorem Tidy.unregister (htidy : tree.Tidy allowed) (hwf : tree.WellFormed) (name : String) :
    (tree.unregister name).2.Tidy allowed := by
  rcases tree.unregister_cases name with ⟨e, hresult⟩ | ⟨registration, _, _, hresult⟩
  · rw [hresult]
    exact htidy
  · rw [hresult]
    exact htidy.detach hwf.shaped registration

/-- A tree is still tidy when a scalar is set. -/
theorem Tidy.setScalar (htidy : tree.Tidy allowed) (hwf : tree.WellFormed) (name : String)
    (value : Value) : (tree.setScalar name value).2.Tidy allowed := by
  unfold ObjectTree.setScalar
  cases tree.planScalar name value with
  | error e => exact htidy
  | ok plan => exact htidy.store hwf.shaped plan.1 plan.2

/-- A tree is still tidy when a scalar is cleared. -/
theorem Tidy.clearScalar (htidy : tree.Tidy allowed) (hwf : tree.WellFormed) (name : String) :
    (tree.clearScalar name).2.Tidy allowed := by
  unfold ObjectTree.clearScalar
  rcases tree.scalarInstance name with e | ⟨provider, address⟩
  · exact htidy
  · cases hfind : tree.find? address with
    | none =>
      simp only [hfind]
      exact htidy
    | some id =>
      simp only [hfind]
      exact htidy.clear hwf.shaped id

/-- A tree is still tidy when a row is added. -/
theorem Tidy.addRow (htidy : tree.Tidy allowed) (hwf : tree.WellFormed) (name : String)
    (values : List Value) : (tree.addRow name values).2.Tidy allowed := by
  unfold ObjectTree.addRow
  cases tree.planRow name values with
  | error e => exact htidy
  | ok plan =>
    exact (List.foldlRecOn
      (motive := fun later : ObjectTree => later.Tidy allowed ∧ later.WellFormed) plan.2 _
      ⟨htidy, hwf⟩ fun _ h cell _ =>
        ⟨h.1.store h.2.shaped cell.1 cell.2, h.2.store cell.1 cell.2⟩).1

/-- Cells of a row may share nodes above them; the last one that is cleared takes these away. -/
theorem Tidy.deleteRow (htidy : tree.Tidy allowed) (hwf : tree.WellFormed) (name : String)
    (key : RowKey) : (tree.deleteRow name key).2.Tidy allowed := by
  unfold ObjectTree.deleteRow
  cases tree.planDeletion name key with
  | error e => exact htidy
  | ok ids =>
    exact (List.foldlRecOn (motive := fun later => later.Tidy allowed ∧ later.WellFormed) ids
      ObjectTree.clear ⟨htidy, hwf⟩ fun _ h id _ => ⟨h.1.clear h.2.shaped id, h.2.clear id⟩).1

/-- A tree is still tidy when a cell is set. -/
theorem Tidy.setCell (htidy : tree.Tidy allowed) (hwf : tree.WellFormed) (name : String)
    (column : Nat) (key : RowKey) (value : Value) :
    (tree.setCell name column key value).2.Tidy allowed := by
  have hdone := hwf.setCell_atomic name column key value
  have hlive : ∀ oid, (tree.setCell name column key value).2.Live oid ↔ tree.Live oid := by
    intro oid
    unfold ObjectTree.setCell
    cases tree.planCell name column key with
    | error e => exact Iff.rfl
    | ok plan => exact live_modify_iff fun _ => rfl
  rcases hdone.cases with hsame | ⟨old, _, address, cell, _, _, _, _, hchange⟩
  · rw [hsame]
    exact htidy
  · have hspared : tree.Tidy fun other => allowed other ∨ other = address :=
      htidy.mono fun _ => Or.inl
    refine (hspared.of_live_iff hlive fun oid => ?_).of_spared fun hunheld => ?_
    · by_cases hoid : oid = address
      · exact Or.inl (Or.inr hoid)
      · exact Or.inr (by rw [hchange oid, if_neg hoid])
    · have hblank := hunheld.blank
      rw [hchange address, if_pos rfl] at hblank
      cases congrArg Content.cell hblank

/-- An operation leaves a node that nothing holds only where it was asked to create one. -/
theorem Tidy.apply (htidy : tree.Tidy allowed) (hwf : tree.WellFormed)
    (hasked : ∀ oid, operation = .materialize oid → allowed oid) :
    (tree.apply operation).Tidy allowed := by
  cases operation with
  | materialize oid =>
    refine (htidy.materialize hwf.shaped oid).mono fun other hother => ?_
    rcases hother with hallowed | rfl
    · exact hallowed
    · exact hasked other rfl
  | register spec => exact htidy.register hwf spec
  | registerAll specs =>
    exact hwf.registerAll_induction (motive := (Tidy · allowed)) htidy
      (fun _ spec hwf htidy => htidy.register hwf spec) specs
  | unregister name => exact htidy.unregister hwf name
  | setScalar name value => exact htidy.setScalar hwf name value
  | clearScalar name => exact htidy.clearScalar hwf name
  | addRow name values => exact htidy.addRow hwf name values
  | deleteRow name key => exact htidy.deleteRow hwf name key
  | setCell name column key value => exact htidy.setCell hwf name column key value

/-- A tree is still tidy after a run, if the addresses that it materializes are allowed. -/
theorem Tidy.run (htidy : tree.Tidy allowed) (hwf : tree.WellFormed) {operations : List Operation}
    (hasked : ∀ oid, .materialize oid ∈ operations → allowed oid) :
    (tree.run operations).Tidy allowed :=
  hwf.run_induction (motive := (Tidy · allowed)) htidy fun _ _ hmem hwf htidy =>
    htidy.apply hwf fun oid h => hasked oid (h ▸ hmem)

/-- Only the root is live in the empty tree. -/
theorem live_empty_iff : empty.Live oid ↔ oid = .root := by
  constructor
  · rintro ⟨id, node, hnode, rfl⟩
    rw [node?_empty] at hnode
    split at hnode
    · obtain rfl := Option.some.inj hnode
      rfl
    · cases hnode
  · rintro rfl
    exact ⟨rootId, _, rfl, rfl⟩

/-- The empty tree is tidy. -/
theorem empty_tidy : empty.Tidy allowed :=
  fun _ hunheld => absurd (live_empty_iff.mp hunheld.live) hunheld.ne_root

/-- After every run, nodes that nothing holds stand at addresses that were materialized alone. -/
theorem run_empty_tidy (operations : List Operation) :
    (empty.run operations).Tidy fun oid => .materialize oid ∈ operations :=
  empty_tidy.run empty_wellFormed fun _ hmem => hmem

/-! ### The ways to what is held -/

/-- A provider is found at an address exactly when it is registered there. -/
theorem WellFormed.provider_contentAt_iff (hwf : tree.WellFormed) {name : String} :
    (tree.contentAt oid).provider = some name ↔
      ∃ spec ∈ tree.providers, spec.oid = oid ∧ spec.name = name := by
  constructor
  · intro hprovider
    have hblank : tree.contentAt oid ≠ .blank := fun h => by
      rw [h] at hprovider
      cases hprovider
    obtain ⟨id, node, hnode, rfl⟩ := hwf.shaped.linked.live_of_contentAt hblank
    rw [hwf.shaped.linked.contentAt_address hnode] at hprovider
    have hattached : tree.attached? id = some (node.address, name) := by
      rw [attached?_of_node? hnode, show node.provider = some name from hprovider]
      rfl
    obtain ⟨registration, hmem, _, haddress, hname⟩ :=
      hwf.registered.attached?_eq_some_iff.mp hattached
    exact ⟨registration.spec, List.mem_map_of_mem hmem, haddress, hname⟩
  · rintro ⟨spec, hspec, rfl, rfl⟩
    obtain ⟨registration, hmem, rfl⟩ := List.mem_map.mp hspec
    have hattached := hwf.registered.attached?_eq_some_iff.mpr ⟨registration, hmem, rfl, rfl, rfl⟩
    obtain ⟨node, hnode, hprovider⟩ := Option.bind_eq_some_iff.mp hattached
    obtain ⟨name, hname, hpair⟩ := Option.map_eq_some_iff.mp hprovider
    obtain ⟨haddress, rfl⟩ := Prod.mk.inj hpair
    rw [← haddress, hwf.shaped.linked.contentAt_address hnode]
    exact hname

/-- A node stands at the identifier of every registered provider. -/
theorem WellFormed.live_of_mem_providers (hwf : tree.WellFormed) {spec : ProviderSpec}
    (hspec : spec ∈ tree.providers) : tree.Live spec.oid := by
  refine hwf.shaped.linked.live_of_contentAt fun hblank => ?_
  have hprovider := hwf.provider_contentAt_iff.mpr ⟨spec, hspec, rfl, rfl⟩
  rw [hblank] at hprovider
  cases hprovider

/-- An address with a value is live. -/
theorem Linked.live_of_valueAt? (hlinked : tree.Linked) (hvalue : (tree.valueAt? oid).isSome) :
    tree.Live oid := by
  refine hlinked.live_of_contentAt fun hblank => ?_
  rw [valueAt?_eq, hblank] at hvalue
  cases hvalue

/-- What is not blank has a provider or a value. -/
theorem WellFormed.holder_of_contentAt (hwf : tree.WellFormed)
    (hcontent : tree.contentAt oid ≠ .blank) :
    (∃ spec ∈ tree.providers, spec.oid = oid) ∨ (tree.valueAt? oid).isSome := by
  rw [valueAt?_eq, Option.isSome_map]
  cases hprovider : (tree.contentAt oid).provider with
  | some name =>
    obtain ⟨spec, hspec, hoid, _⟩ := hwf.provider_contentAt_iff.mp hprovider
    exact Or.inl ⟨spec, hspec, hoid⟩
  | none =>
    cases hcell : (tree.contentAt oid).cell with
    | some cell => exact Or.inr rfl
    | none =>
      refine absurd ?_ hcontent
      rcases htree : tree.contentAt oid with ⟨_, _⟩
      rw [htree] at hprovider hcell
      exact Content.mk.injEq .. ▸ ⟨hprovider, hcell⟩

/-- Whether an address starts the identifier of a provider or an address with a value. -/
def OnWay (tree : ObjectTree) (oid : Oid) : Prop :=
  (∃ spec ∈ tree.providers, oid.arcs <+: spec.oid.arcs) ∨
    ∃ address, (tree.valueAt? address).isSome ∧ oid.arcs <+: address.arcs

/-- An address on the way to a provider or to a value is live. -/
theorem WellFormed.live_of_onWay (hwf : tree.WellFormed) (honWay : tree.OnWay oid) :
    tree.Live oid := by
  rcases honWay with ⟨spec, hspec, hway⟩ | ⟨address, hvalue, hway⟩
  · exact hwf.shaped.linked.live_of_prefix (hwf.live_of_mem_providers hspec) hway
  · exact hwf.shaped.linked.live_of_prefix (hwf.shaped.linked.live_of_valueAt? hvalue) hway

/-- A tree whose only node is the root is empty. -/
theorem WellFormed.isEmpty_of_live (hwf : tree.WellFormed)
    (hlive : ∀ oid, tree.Live oid → oid = .root) : tree.isEmpty = true := by
  obtain ⟨root, hroot, haddress, _⟩ := hwf.shaped.linked.root
  have hids : ((List.range tree.slots.size).filter fun id => (tree.node? id).isSome).Perm
      [rootId] := by
    refine (List.perm_ext_iff_of_nodup (List.nodup_range.sublist List.filter_sublist)
      (List.pairwise_singleton _ _)).mpr fun id => ?_
    rw [List.mem_filter, List.mem_range, List.mem_singleton]
    constructor
    · rintro ⟨_, hsome⟩
      obtain ⟨node, hnode⟩ := Option.isSome_iff_exists.mp hsome
      exact hwf.shaped.linked.id_eq_of_address_eq hnode hroot
        ((hlive _ ⟨id, node, hnode, rfl⟩).trans haddress.symm)
    · rintro rfl
      exact ⟨lt_size_of_node? hroot, Option.isSome_iff_exists.mpr ⟨root, hroot⟩⟩
  rw [isEmpty, hwf.shaped.packed.size_eq, hids.length_eq]
  rfl

/-- Without a provider there is no value either. -/
theorem Owned.not_onWay (howned : tree.Owned) (hproviders : tree.providers = []) :
    ¬tree.OnWay oid := by
  rintro (⟨spec, hspec, _⟩ | ⟨address, hvalue, _⟩)
  · rw [hproviders] at hspec
    exact List.not_mem_nil hspec
  · rw [valueAt?_eq, Option.isSome_map] at hvalue
    obtain ⟨spec, hspec, _⟩ := howned address (Option.isSome_iff_ne_none.mp hvalue)
    rw [hproviders] at hspec
    exact List.not_mem_nil hspec

/-- After every run the root and all ways to registered providers and to values are there, and every
other node is on the way to an address that was materialized. So without materializing these ways
are all there is, and once every provider is unregistered, which takes that its values are gone,
the root is left alone. -/
theorem run_empty_live_iff (operations : List Operation) :
    let tree := empty.run operations
    (∀ oid, oid = .root ∨ tree.OnWay oid → tree.Live oid) ∧
    (∀ oid, tree.Live oid → oid = .root ∨ tree.OnWay oid ∨
      ∃ asked, .materialize asked ∈ operations ∧ oid.arcs <+: asked.arcs) ∧
    ((∀ asked, .materialize asked ∉ operations) →
      (∀ oid, tree.Live oid ↔ oid = .root ∨ tree.OnWay oid) ∧
      (tree.providers = [] → (∀ oid, tree.Live oid ↔ oid = .root) ∧ tree.isEmpty = true)) := by
  intro tree
  have hwf : tree.WellFormed := empty_wellFormed.run operations
  have htidy : tree.Tidy fun oid => .materialize oid ∈ operations := run_empty_tidy operations
  have howned : tree.Owned := empty_owned.run empty_wellFormed operations
  have hways : ∀ oid, oid = .root ∨ tree.OnWay oid → tree.Live oid := by
    rintro oid (rfl | honWay)
    · obtain ⟨root, hroot, haddress, _⟩ := hwf.shaped.linked.root
      exact ⟨rootId, root, hroot, haddress⟩
    · exact hwf.live_of_onWay honWay
  have honly : ∀ oid, tree.Live oid → oid = .root ∨ tree.OnWay oid ∨
      ∃ asked, .materialize asked ∈ operations ∧ oid.arcs <+: asked.arcs := by
    intro oid hlive
    rcases htidy.way_of_live hwf.shaped.linked hlive with hroot | ⟨below, hway, _, hheld | hasked⟩
    · exact Or.inl hroot
    · right
      left
      rcases hwf.holder_of_contentAt hheld with ⟨spec, hspec, rfl⟩ | hvalue
      · exact Or.inl ⟨spec, hspec, hway⟩
      · exact Or.inr ⟨below, hvalue, hway⟩
    · exact Or.inr (Or.inr ⟨below, hasked, hway⟩)
  refine ⟨hways, honly, fun hnone => ?_⟩
  have hiff : ∀ oid, tree.Live oid ↔ oid = .root ∨ tree.OnWay oid := by
    refine fun oid => ⟨fun hlive => ?_, hways oid⟩
    rcases honly oid hlive with hroot | honWay | ⟨asked, hasked, _⟩
    · exact Or.inl hroot
    · exact Or.inr honWay
    · exact absurd hasked (hnone asked)
  refine ⟨hiff, fun hproviders => ?_⟩
  have hroot : ∀ oid, tree.Live oid ↔ oid = .root := fun oid =>
    (hiff oid).trans (or_iff_left (howned.not_onWay hproviders))
  exact ⟨hroot, hwf.isEmpty_of_live fun oid => (hroot oid).mp⟩

/-- A scalar beside the hosts. -/
def clock : ScalarProvider :=
  ⟨"clock", ⟨[1, 3, 1], by decide⟩, some .timeTicks⟩

/-- A host and the time of the clock come and go. While both are there a node stands on the way to
the clock; when all is gone again, the tree is empty. -/
theorem run_empty_live_iff_clock :
    let place : Value := .objectIdentifier ⟨[1, 3], by decide⟩
    let coming : List Operation :=
      [.register (.table hosts), .register (.scalar clock), .setScalar "clock" (.unsigned 5),
        .addRow "host" [.ipAddress ⟨10, 0, 0, 1⟩, .octetString "ab", place]]
    let going : List Operation :=
      [.clearScalar "clock", .unregister "clock",
        .deleteRow "host" [.ipAddress ⟨10, 0, 0, 1⟩, .octetString "ab", place], .unregister "host"]
    (∀ asked, .materialize asked ∉ coming ++ going) ∧
      .scalar clock ∈ (empty.run coming).providers ∧
      (empty.run coming).Live ⟨[1, 3], by decide⟩ ∧
      (empty.run (coming ++ going)).providers = [] ∧
      (empty.run (coming ++ going)).isEmpty = true := by
  intro place coming going
  have hnone : ∀ asked, .materialize asked ∉ coming ++ going := by simp [coming, going]
  have hthere : .scalar clock ∈ (empty.run coming).providers := by decide +kernel
  have hgone : (empty.run (coming ++ going)).providers = [] :=
    List.isEmpty_iff.mp (by decide +kernel)
  refine ⟨hnone, hthere, (run_empty_live_iff coming).1 _ (Or.inr (Or.inl ?_)), hgone,
    (((run_empty_live_iff (coming ++ going)).2.2 hnone).2 hgone).2⟩
  exact ⟨.scalar clock, hthere, ⟨[1], rfl⟩⟩

end Smi.ObjectTree
