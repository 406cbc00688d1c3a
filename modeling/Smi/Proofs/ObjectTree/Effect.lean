import Smi.Proofs.ObjectTree.Registration
import Smi.Proofs.ObjectTree.Stored

/-!
# What operations do to the contents

Seen as a map from addresses to contents, a tree is changed by an operation at the addresses that
the operation is about and nowhere else, whatever nodes are created and removed on the way. There is
one lemma for each operation: either it fails and the tree is the same tree, or it succeeds and
everything that it has to write is written. Those for rows are in a file of their own.
-/

namespace Smi

/-- A content with another value, or with none. -/
def Content.withCell (content : Content) (cell : Option Cell) : Content :=
  { content with cell }

/-- A content with another provider, or with none. -/
def Content.withProvider (content : Content) (provider : Option String) : Content :=
  { content with provider }

/-- An operation that failed has changed nothing, and one that succeeded has done what `done` says
of its result and of the tree after it. -/
def Outcome.Atomic {α : Type} (outcome : Outcome α) (tree : ObjectTree)
    (done : α → ObjectTree → Prop) : Prop :=
  match outcome with
  | (.ok result, after) => done result after
  | (.error _, after) => after = tree

/-- A node that continues another continues what the other does. -/
theorem Node.Continues.trans {first second third : Node} (h : third.Continues second)
    (h' : second.Continues first) : third.Continues first :=
  ⟨h.address.trans h'.address, h.parent.trans h'.parent, h.content.trans h'.content⟩

namespace ObjectTree

variable {tree after : ObjectTree} {id other : NodeId} {node now : Node} {oid address : Oid}
  {name : String} {registration : Registration} {table : TableProvider} {suffix : List Nat}

/-- The contents of two trees differ by a change at one address. -/
def ChangesAt (tree after : ObjectTree) (address : Oid) (f : Content → Content) : Prop :=
  ∀ oid, after.contentAt oid =
    if oid = address then f (tree.contentAt oid) else tree.contentAt oid

/-- Where a provider is named or forgotten, all values stay. -/
theorem ChangesAt.cell_eq {provider : Option String}
    (h : tree.ChangesAt after address (·.withProvider provider)) (oid : Oid) :
    (after.contentAt oid).cell = (tree.contentAt oid).cell := by
  rw [h oid]
  split <;> rfl

/-- Changing what a node holds changes what is found at its address. -/
theorem Linked.changesAt_modify (hlinked : tree.Linked) (hnode : tree.node? id = some node)
    {f : Node → Node} {g : Content → Content} (hf : ∀ node, (f node).links = node.links)
    (hg : (f node).content = g node.content) :
    tree.ChangesAt (tree.modify id f) node.address g := by
  intro oid
  rw [hlinked.contentAt_modify hnode hf]
  by_cases hoid : oid = node.address
  · rw [if_pos hoid, if_pos hoid, hg, hoid, hlinked.contentAt_address hnode]
  · rw [if_neg hoid, if_neg hoid]

/-- A node is found at one address only. -/
theorem Linked.address_eq_of_find? (hlinked : tree.Linked) (hfind : tree.find? oid = some id)
    (hother : tree.find? address = some id) : oid = address := by
  obtain ⟨node, hnode, rfl⟩ := hlinked.find?_eq_some_iff.mp hfind
  obtain ⟨found, hfound, rfl⟩ := hlinked.find?_eq_some_iff.mp hother
  rw [Option.some.inj (hnode.symm.trans hfound)]

/-! ### Clearing nodes -/

/-- Removing a vacant node leaves no node that was not there before. -/
theorem Shaped.old_of_delete (hshaped : tree.Shaped) (hid : id ≠ rootId)
    (hnode : tree.node? id = some node) (hvacant : node.isVacant = true)
    (hdelete : tree.delete id = (.ok (), after)) (hnow : after.node? other = some now) :
    ∃ old, tree.node? other = some old ∧ now.Continues old := by
  obtain ⟨hleaf, _⟩ := isVacant_iff.mp hvacant
  obtain ⟨parent, above, arc, _, habove, haddress, hunlink⟩ :=
    hshaped.linked.delete_eq hid hnode hleaf
  rw [hunlink] at hdelete
  obtain rfl := (Prod.mk.inj hdelete).2
  obtain ⟨_, old, hold, hsame, _⟩ :=
    old_of_unlink (ne_of_address hnode habove haddress) habove hnow
  exact ⟨old, hold, hsame⟩

/-- The nodes that are left after pruning continue nodes that were there before. -/
theorem Shaped.old_of_pruneUp (hshaped : tree.Shaped) {limit : Nat}
    (hnow : (tree.pruneUp id limit).node? other = some now) :
    ∃ old, tree.node? other = some old ∧ now.Continues old := by
  induction limit generalizing tree id with
  | zero => exact ⟨now, hnow, .refl now⟩
  | succ limit ih =>
    cases hnode : tree.node? id with
    | none =>
      simp only [ObjectTree.pruneUp, hnode] at hnow
      exact ⟨now, hnow, .refl now⟩
    | some node =>
      by_cases hstop : (decide (id = rootId) || !node.isVacant) = true
      · simp only [ObjectTree.pruneUp, hnode, hstop, if_true] at hnow
        exact ⟨now, hnow, .refl now⟩
      · have hid : id ≠ rootId := fun h => hstop (by simp [h])
        have hvacant : node.isVacant = true := by simpa [hid] using hstop
        obtain ⟨after, hdelete, hkeeps⟩ := hshaped.delete hid hnode hvacant
        have hold {middle : Node} (hmiddle : after.node? other = some middle) :
            ∃ old, tree.node? other = some old ∧ middle.Continues old :=
          hshaped.old_of_delete hid hnode hvacant hdelete hmiddle
        simp only [ObjectTree.pruneUp, hnode, if_neg hstop, hdelete] at hnow
        cases hparent : node.parent with
        | none =>
          rw [hparent] at hnow
          exact hold hnow
        | some parent =>
          rw [hparent] at hnow
          obtain ⟨middle, hmiddle, hsame⟩ := ih hkeeps.shaped hnow
          obtain ⟨old, hnodeOld, hsameOld⟩ := hold hmiddle
          exact ⟨old, hnodeOld, hsame.trans hsameOld⟩

/-- Pruning leaves no node that was not there before. -/
theorem Shaped.old_of_prune (hshaped : tree.Shaped)
    (hnow : (tree.prune id).node? other = some now) :
    ∃ old, tree.node? other = some old ∧ now.Continues old := by
  unfold ObjectTree.prune at hnow
  cases hnode : tree.node? id with
  | none =>
    rw [hnode] at hnow
    exact ⟨now, hnow, .refl now⟩
  | some node =>
    rw [hnode] at hnow
    exact hshaped.old_of_pruneUp hnow

/-- A tree keeps its shape when the value of a node changes. -/
theorem Shaped.modifyCell (hshaped : tree.Shaped) (id : NodeId) (cell : Option Cell) :
    (tree.modify id fun node => { node with cell }).Shaped :=
  hshaped.modify id fun _ => rfl

/-- An address that is found after a node was cleared was found there before. -/
theorem Shaped.find?_of_clear (hshaped : tree.Shaped)
    (hfind : (tree.clear id).find? oid = some other) : tree.find? oid = some other := by
  have hmodified := hshaped.modifyCell id none
  obtain ⟨now, hnow, rfl⟩ := (hmodified.prune id).shaped.linked.find?_eq_some_iff.mp hfind
  obtain ⟨middle, hmiddle, hsame⟩ := hmodified.old_of_prune hnow
  rw [hsame.address, hshaped.linked.find?_eq_some_iff]
  rw [node?_modify] at hmiddle
  by_cases hother : other = id
  · rw [if_pos hother] at hmiddle
    obtain ⟨old, hold, rfl⟩ := Option.map_eq_some_iff.mp hmiddle
    exact ⟨old, hother ▸ hold, rfl⟩
  · rw [if_neg hother] at hmiddle
    exact ⟨middle, hmiddle, rfl⟩

/-- Clearing a node removes the value at its address and nothing else. -/
theorem Shaped.contentAt_clear (hshaped : tree.Shaped) (id : NodeId) (oid : Oid) :
    (tree.clear id).contentAt oid =
      if tree.find? oid = some id then (tree.contentAt oid).withCell none
      else tree.contentAt oid := by
  have hmodified := hshaped.modifyCell id none
  rw [clear, (hmodified.prune id).contentAt hmodified]
  cases hnode : tree.node? id with
  | none =>
    have hfind : tree.find? oid ≠ some id := fun hfind => by
      obtain ⟨node, hsome, _⟩ := hshaped.linked.find?_eq_some_iff.mp hfind
      rw [hnode] at hsome
      cases hsome
    rw [if_neg hfind, ObjectTree.modify, hnode]
  | some node =>
    have hfind := hshaped.linked.find?_address hnode
    have hchange := hshaped.linked.changesAt_modify hnode
      (f := fun node => { node with cell := none }) (g := (·.withCell none)) (fun _ => rfl) rfl
    rw [hchange oid]
    by_cases haddress : oid = node.address
    · rw [if_pos haddress, haddress, if_pos hfind]
    · rw [if_neg haddress,
        if_neg fun h => haddress (hshaped.linked.address_eq_of_find? h hfind)]

/-- A node that holds something is found at its address after another one was cleared. -/
theorem Shaped.find?_clear (hshaped : tree.Shaped) (hfind : tree.find? oid = some other)
    (hcontent : (tree.clear id).contentAt oid ≠ .blank) :
    (tree.clear id).find? oid = some other := by
  have hafter := ((hshaped.modifyCell id none).prune id).shaped
  obtain ⟨found, hheld⟩ := (hafter.linked.contentAt_eq_iff hcontent).mp rfl
  obtain ⟨_, now, hnow, haddress, _⟩ := held?_eq_some_iff.mp hheld
  have hfound : (tree.clear id).find? oid = some found :=
    hafter.linked.find?_eq_some_iff.mpr ⟨now, hnow, haddress⟩
  rw [hfound, ← hshaped.find?_of_clear hfound, hfind]

/-- Clearing nodes one after the other removes the values at their addresses and nothing else. -/
theorem WellFormed.contentAt_clearAll (hwf : tree.WellFormed) (ids : List NodeId) (oid : Oid) :
    (ids.foldl ObjectTree.clear tree).contentAt oid =
      if ∃ id ∈ ids, tree.find? oid = some id then (tree.contentAt oid).withCell none
      else tree.contentAt oid := by
  induction ids generalizing tree with
  | nil => simp
  | cons first rest ih =>
    have hfirst := hwf.shaped.contentAt_clear first oid
    have hmem : (∃ id ∈ first :: rest, tree.find? oid = some id) ↔
        tree.find? oid = some first ∨ ∃ id ∈ rest, tree.find? oid = some id := by
      simp
    rw [List.foldl_cons, ih (hwf.clear first)]
    by_cases hself : tree.find? oid = some first
    · rw [if_pos hself] at hfirst
      rw [hfirst, if_pos (hmem.mpr (Or.inl hself))]
      split <;> rfl
    · rw [if_neg hself] at hfirst
      by_cases hrest : ∃ id ∈ rest, tree.find? oid = some id
      · rw [if_pos (hmem.mpr (Or.inr hrest)), hfirst]
        -- A node that is not found any more was pruned because it held nothing.
        by_cases hblank : tree.contentAt oid = .blank
        · rw [hblank]
          split <;> rfl
        · obtain ⟨id, hid, hfind⟩ := hrest
          exact if_pos ⟨id, hid, hwf.shaped.find?_clear hfind (hfirst ▸ hblank)⟩
      · have hlost : ¬∃ id ∈ rest, (tree.clear first).find? oid = some id :=
          fun ⟨id, hid, hfind⟩ => hrest ⟨id, hid, hwf.shaped.find?_of_clear hfind⟩
        rw [if_neg hlost, if_neg fun h => (hmem.mp h).elim hself hrest, hfirst]

/-! ### Storing values -/

/-- Storing values one after the other leaves at each address the value stored there last. -/
theorem WellFormed.contentAt_storeAll (hwf : tree.WellFormed) (cells : List (Oid × Cell))
    (oid : Oid) :
    (cells.foldl (fun tree cell => tree.store cell.1 cell.2) tree).contentAt oid =
      (tree.contentAt oid).withCell
        ((cells.reverse.lookup oid).or (tree.contentAt oid).cell) := by
  induction cells generalizing tree with
  | nil => rfl
  | cons first rest ih =>
    obtain ⟨address, cell⟩ := first
    rw [List.foldl_cons, ih (hwf.store address cell), hwf.shaped.contentAt_store,
      List.reverse_cons, List.lookup_append]
    by_cases haddress : oid = address
    · subst haddress
      simp [Content.withCell]
    · have hne : (oid == address) = false := by simpa using haddress
      simp [List.lookup_cons, haddress, hne]

/-! ### Registering and unregistering -/

/-- The registry has no part in what is found at an address. -/
theorem contentAt_withRegistry (tree : ObjectTree) (registry : List Registration) (oid : Oid) :
    { tree with registry }.contentAt oid = tree.contentAt oid := by
  have hfind (id : NodeId) (arcs : List Nat) :
      { tree with registry }.findFrom? id arcs = tree.findFrom? id arcs := by
    induction arcs generalizing id with
    | nil => rfl
    | cons arc rest ih =>
      have hnode : { tree with registry }.node? id = tree.node? id := rfl
      simp only [findFrom?, hnode, ih]
  rw [contentAt, contentAt, get?, get?, find?, find?, hfind]
  rfl

/-- Settling an index changes neither the name nor the place of a provider. -/
theorem name_oid_of_settle {spec settled : ProviderSpec} (h : tree.settle spec = .ok settled) :
    settled.name = spec.name ∧ settled.oid = spec.oid := by
  cases spec with
  | scalar provider =>
    obtain rfl := Except.ok.inj h
    exact ⟨rfl, rfl⟩
  | table provider =>
    obtain ⟨index, _, h⟩ := bind_eq_ok_iff.mp h
    obtain rfl := pure_eq_ok_iff.mp h
    exact ⟨rfl, rfl⟩

/-- A provider that is registered is found under its name, with its index settled. -/
theorem registration?_of_register {given : ProviderSpec} {id : NodeId}
    (hregister : tree.register given = (.ok id, after)) :
    ∃ spec, tree.settle given = .ok spec ∧ tree.registration? given.name = none ∧
      after.registration? given.name = some ⟨spec, id⟩ ∧
      after.providers = tree.providers ++ [spec] := by
  rcases tree.register_cases given with ⟨e, hresult⟩ | ⟨spec, hsettle, hcheck, hresult⟩
  · rw [hresult] at hregister
    cases (Prod.mk.inj hregister).1
  · rw [hresult] at hregister
    obtain ⟨hid, rfl⟩ := Prod.mk.inj hregister
    obtain rfl := Except.ok.inj hid
    have hname : tree.registration? given.name = none := by
      rw [← (name_oid_of_settle hsettle).1]
      exact (checkAttach_eq_ok_iff.mp hcheck).1
    refine ⟨spec, hsettle, hname, ?_, ?_⟩
    · rw [registration?_attach, hname, (name_oid_of_settle hsettle).1]
      exact if_pos rfl
    · simp [providers, attach]

/-- Attaching a provider adds its name at its place. -/
theorem Shaped.changesAt_attach (hshaped : tree.Shaped) (spec : ProviderSpec) :
    tree.ChangesAt (tree.attach spec).1 spec.oid (·.withProvider (some spec.name)) := by
  intro oid
  obtain ⟨grown, node, hkeeps, hnode, haddress, hresult⟩ := hshaped.attach spec
  have hchange := hkeeps.shaped.linked.changesAt_modify hnode
    (f := fun node => { node with provider := some spec.name })
    (g := (·.withProvider (some spec.name))) (fun _ => rfl) rfl
  rw [hresult, contentAt_withRegistry, hchange oid, haddress, hkeeps.contentAt hshaped]

/-- What registering a provider does: it adds the settled provider to the registry and its name to
what is found at its place, where the answered node stands. -/
def Registers (tree : ObjectTree) (spec : ProviderSpec) (id : NodeId) (after : ObjectTree) : Prop :=
  ∃ settled, tree.settle spec = .ok settled ∧
    after.registry = tree.registry ++ [⟨settled, id⟩] ∧ after.find? spec.oid = some id ∧
    tree.ChangesAt after spec.oid (·.withProvider (some spec.name))

/-- Registering a provider does all it says or nothing. -/
theorem WellFormed.register_atomic (hwf : tree.WellFormed) (spec : ProviderSpec) :
    (tree.register spec).Atomic tree (tree.Registers spec) := by
  have hwfAfter := hwf.register spec
  rcases tree.register_cases spec with ⟨e, hresult⟩ | ⟨settled, hsettle, _, hresult⟩
  · rw [hresult]
    rfl
  · obtain ⟨hname, hoid⟩ := name_oid_of_settle hsettle
    obtain ⟨grown, node, _, hnode, haddress, hattach⟩ := hwf.shaped.attach settled
    have hlive : (tree.attach settled).1.node? (tree.attach settled).2 =
        some { node with provider := some settled.name } := by
      have hmodified := node?_modify grown (tree.attach settled).2 (tree.attach settled).2
        fun node => { node with provider := some settled.name }
      rw [if_pos rfl, hnode] at hmodified
      rw [hattach]
      exact hmodified
    rw [hresult] at hwfAfter ⊢
    refine ⟨settled, hsettle, ?_, ?_, fun oid => ?_⟩
    · rw [hattach]
    · exact hwfAfter.shaped.linked.find?_eq_some_iff.mpr ⟨_, hlive, haddress.trans hoid⟩
    · rw [hwf.shaped.changesAt_attach settled oid, hname, hoid]

/-- What unregistering a name does: it answers the provider of that name and takes it out of the
registry, and its name from what is found at its place. -/
def Unregisters (tree : ObjectTree) (name : String) (spec : ProviderSpec) (after : ObjectTree) :
    Prop :=
  tree.provider? name = some spec ∧
    after.registry = tree.registry.filter (fun other => other.spec.name ≠ name) ∧
    tree.ChangesAt after spec.oid (·.withProvider none)

/-- Unregistering a name does all it says or nothing. -/
theorem WellFormed.unregister_atomic (hwf : tree.WellFormed) (name : String) :
    (tree.unregister name).Atomic tree (tree.Unregisters name) := by
  rcases tree.unregister_cases name with ⟨e, hresult⟩ | ⟨registration, hfound, _, hresult⟩
  · rw [hresult]
    rfl
  · obtain ⟨hname, node, hnode, haddress⟩ := hwf.node?_of_registration? hfound
    obtain ⟨pruned, hkeeps, hdetach⟩ := hwf.shaped.detach registration
    have hmodified := hwf.shaped.modify registration.node
      (f := fun node => { node with provider := none }) fun _ => rfl
    have hchange := hwf.shaped.linked.changesAt_modify hnode
      (f := fun node => { node with provider := none }) (g := (·.withProvider none))
      (fun _ => rfl) rfl
    rw [haddress] at hchange
    rw [hresult]
    refine ⟨by rw [provider?, hfound]; rfl, by rw [hdetach, hname], fun oid => ?_⟩
    rw [hdetach, contentAt_withRegistry, hkeeps.contentAt hmodified, hchange oid]

/-! ### Scalars -/

/-- What setting a scalar does: it stores the value at the instance, with the declared type of the
scalar or else the natural type of the value. -/
def SetsScalar (tree : ObjectTree) (name : String) (value : Value) (after : ObjectTree) : Prop :=
  ∃ provider address, tree.scalarInstance name = .ok (provider, address) ∧
    after.registry = tree.registry ∧
    tree.ChangesAt after address
      (·.withCell (some ⟨value, provider.type.getD value.naturalType⟩))

/-- Setting a scalar does all it says or nothing. -/
theorem WellFormed.setScalar_atomic (hwf : tree.WellFormed) (name : String) (value : Value) :
    (tree.setScalar name value).Atomic tree fun _ => tree.SetsScalar name value := by
  unfold ObjectTree.setScalar
  rcases hplan : tree.planScalar name value with e | ⟨address, cell⟩
  · rfl
  · obtain ⟨⟨provider, found⟩, hinstance, hplan⟩ := bind_eq_ok_iff.mp hplan
    obtain ⟨_, _, hplan⟩ := bind_eq_ok_iff.mp hplan
    obtain ⟨rfl, rfl⟩ := Prod.mk.inj (pure_eq_ok_iff.mp hplan)
    refine ⟨provider, found, hinstance, registry_store _ _, fun oid => ?_⟩
    rw [hwf.shaped.contentAt_store]
    by_cases hoid : oid = found
    · rw [if_pos hoid, if_pos hoid, hoid]
      rfl
    · rw [if_neg hoid, if_neg hoid]

/-- What clearing a scalar does: it answers the value at the instance, if there is one, and removes
it. -/
def ClearsScalar (tree : ObjectTree) (name : String) (value : Option Value) (after : ObjectTree) :
    Prop :=
  ∃ provider address, tree.scalarInstance name = .ok (provider, address) ∧
    value = tree.valueAt? address ∧ after.registry = tree.registry ∧
    tree.ChangesAt after address (·.withCell none)

/-- Clearing a scalar does all it says or nothing. -/
theorem WellFormed.clearScalar_atomic (hwf : tree.WellFormed) (name : String) :
    (tree.clearScalar name).Atomic tree (tree.ClearsScalar name) := by
  unfold ObjectTree.clearScalar
  rcases hinstance : tree.scalarInstance name with e | ⟨provider, address⟩
  · rfl
  · cases hfind : tree.find? address with
    | none =>
      have hnone : tree.get? address = none := by rw [get?, hfind, Option.bind_none]
      simp only [hfind]
      refine ⟨provider, address, hinstance, by rw [valueAt?, hnone]; rfl, rfl, fun oid => ?_⟩
      by_cases hoid : oid = address
      · rw [if_pos hoid, hoid, contentAt, hnone]
        rfl
      · rw [if_neg hoid]
    | some id =>
      simp only [hfind]
      refine ⟨provider, address, hinstance, by rw [valueAt?, get?, hfind, Option.bind_some],
        registry_clear id, fun oid => ?_⟩
      rw [hwf.shaped.contentAt_clear]
      by_cases hoid : oid = address
      · rw [if_pos hoid, hoid, if_pos hfind]
      · rw [if_neg hoid, if_neg fun h => hoid (hwf.shaped.linked.address_eq_of_find? h hfind)]

end ObjectTree

end Smi
