import Smi.ObjectTree.Registry
import Smi.Proofs.ObjectTree.Upkeep
import Smi.Proofs.Outcome

/-!
# Providers and their nodes

The registry and the nodes of a tree tell the same: a node carries a name exactly when a provider of
that name is registered there, and then the node stands at the identifier of the provider. Attaching
a provider under a new name to a free node and detaching a registered one keep this.
-/

namespace Smi.ObjectTree

variable {tree before after : ObjectTree} {id other : NodeId} {node : Node} {address oid : Oid}
  {name : String} {registration : Registration} {spec settled : ProviderSpec}

/-- The address of a node and the name of the provider attached to it. -/
def attached? (tree : ObjectTree) (id : NodeId) : Option (Oid × String) :=
  (tree.node? id).bind fun node => node.provider.map (node.address, ·)

/-- Names are registered once, and registrations and attached names are the same. -/
structure Registered (tree : ObjectTree) : Prop where
  names_nodup : (tree.registry.map fun registration => registration.spec.name).Nodup
  attached?_eq_some_iff {id : NodeId} {address : Oid} {name : String} :
    tree.attached? id = some (address, name) ↔
      ∃ registration ∈ tree.registry, registration.node = id ∧
        registration.spec.oid = address ∧ registration.spec.name = name

/-- A tree that fits together and agrees with its registry. -/
structure WellFormed (tree : ObjectTree) : Prop where
  shaped : tree.Shaped
  registered : tree.Registered

/-! ### Names and registrations -/

/-- A live node is attached to the provider it names. -/
theorem attached?_of_node? (hnode : tree.node? id = some node) :
    tree.attached? id = node.provider.map (node.address, ·) := by
  rw [attached?, hnode, Option.bind_some]

/-- A node is attached to the provider in the content that it holds. -/
theorem attached?_eq_held? (tree : ObjectTree) (id : NodeId) :
    tree.attached? id =
      (tree.held? id).bind fun found => found.2.provider.map (found.1, ·) := by
  rw [attached?, held?]
  cases hnode : tree.node? id with
  | none => rfl
  | some node =>
    by_cases hblank : node.content = .blank
    · have hprovider : node.provider = none := congrArg Content.provider hblank
      rw [Option.bind_some, Option.bind_some, if_pos hblank, hprovider]
      rfl
    · rw [Option.bind_some, Option.bind_some, if_neg hblank]
      rfl

/-- A name is registered under itself. -/
theorem mem_of_registration? (h : tree.registration? name = some registration) :
    registration ∈ tree.registry ∧ registration.spec.name = name := by
  have hname := List.find?_some h
  exact ⟨List.mem_of_find?_eq_some h, by simpa using hname⟩

/-- A name is free if no registration has it. -/
theorem registration?_eq_none_iff :
    tree.registration? name = none ↔
      ∀ registration ∈ tree.registry, registration.spec.name ≠ name := by
  simp [registration?]

/-- Registrations of one name are the same. -/
theorem Registered.eq_of_name_eq (hregistered : tree.Registered)
    {first second : Registration} (hfirst : first ∈ tree.registry)
    (hsecond : second ∈ tree.registry) (hname : first.spec.name = second.spec.name) :
    first = second := by
  have hnodup := List.pairwise_map.mp hregistered.names_nodup
  obtain ⟨i, hi, rfl⟩ := List.mem_iff_getElem.mp hfirst
  obtain ⟨j, hj, rfl⟩ := List.mem_iff_getElem.mp hsecond
  rcases Nat.lt_trichotomy i j with hlt | heq | hlt
  · exact absurd hname (List.pairwise_iff_getElem.mp hnodup i j hi hj hlt)
  · subst heq
    rfl
  · exact absurd hname.symm (List.pairwise_iff_getElem.mp hnodup j i hj hi hlt)

/-- The registration under a name is the one in the registry with this name. -/
theorem Registered.registration?_eq_some_iff (hregistered : tree.Registered) :
    tree.registration? name = some registration ↔
      registration ∈ tree.registry ∧ registration.spec.name = name := by
  constructor
  · exact mem_of_registration?
  · rintro ⟨hmem, hname⟩
    cases hfound : tree.registration? name with
    | none => exact absurd hname (registration?_eq_none_iff.mp hfound registration hmem)
    | some found =>
      obtain ⟨hfoundMem, hfoundName⟩ := mem_of_registration? hfound
      rw [hregistered.eq_of_name_eq hfoundMem hmem (hfoundName.trans hname.symm)]

/-! ### Changes that keep the registry in agreement -/

/-- A registry agrees with another tree in which the same names are attached to the nodes. -/
theorem Registered.of_attached? (hregistered : before.Registered)
    (hattached : ∀ id, after.attached? id = before.attached? id)
    (hregistry : after.registry = before.registry) : after.Registered where
  names_nodup := by
    rw [hregistry]
    exact hregistered.names_nodup
  attached?_eq_some_iff := by
    intro id address name
    rw [hattached, hregistry]
    exact hregistered.attached?_eq_some_iff

/-- A tree that fits together and holds the same is well formed. -/
theorem WellFormed.of_keeps (hwf : before.WellFormed) (hkeeps : before.Keeps after)
    (hregistry : after.registry = before.registry) : after.WellFormed where
  shaped := hkeeps.shaped
  registered := hwf.registered.of_attached?
    (fun id => by rw [attached?_eq_held?, attached?_eq_held?, hkeeps.held]) hregistry

/-- Changing what a node holds keeps the tree in shape. -/
theorem Shaped.modify (hshaped : tree.Shaped) (id : NodeId) {f : Node → Node}
    (hf : ∀ node, (f node).links = node.links) : (tree.modify id f).Shaped :=
  ⟨hshaped.packed.modify id f, hshaped.linked.modify id hf⟩

/-- A node carries its name whatever value it gets. -/
theorem WellFormed.modifyCell (hwf : tree.WellFormed) (id : NodeId) (cell : Option Cell) :
    (tree.modify id fun node => { node with cell }).WellFormed where
  shaped := hwf.shaped.modify id fun _ => rfl
  registered := by
    refine hwf.registered.of_attached? (fun other => ?_) (registry_modify _)
    rw [attached?, attached?, node?_modify]
    by_cases hother : other = id
    · rw [if_pos hother, hother]
      cases tree.node? id <;> rfl
    · rw [if_neg hother]

/-- Materializing an address keeps a tree well formed. -/
theorem WellFormed.materialize (hwf : tree.WellFormed) (oid : Oid) :
    (tree.materialize oid).1.WellFormed :=
  hwf.of_keeps (hwf.shaped.materialize oid).1 (registry_materialize oid)

/-- Storing a value keeps a tree well formed. -/
theorem WellFormed.store (hwf : tree.WellFormed) (oid : Oid) (cell : Cell) :
    (tree.store oid cell).WellFormed :=
  (hwf.materialize oid).modifyCell _ _

/-- Clearing a node keeps a tree well formed. -/
theorem WellFormed.clear (hwf : tree.WellFormed) (id : NodeId) : (tree.clear id).WellFormed :=
  have hmodified := hwf.modifyCell id none
  hmodified.of_keeps (hmodified.shaped.prune id) (registry_prune id)

/-! ### Attaching and detaching -/

/-- A provider can be attached under a new name to a free node, where and above which no value
stands. -/
theorem checkAttach_eq_ok_iff :
    tree.checkAttach spec = .ok () ↔
      tree.registration? spec.name = none ∧
        (∀ node, tree.get? spec.oid = some node → node.provider = none) ∧
        tree.checkSlot spec.oid = .ok () ∧ tree.valueAt? spec.oid = none := by
  unfold checkAttach
  cases hname : tree.registration? spec.name with
  | some registration => simp
  | none =>
    cases hget : tree.get? spec.oid with
    | none => simp [valueAt?, hget]
    | some node =>
      cases hprovider : node.provider with
      | some provider => simp [hprovider]
      | none => cases hvalue : tree.valueAt? spec.oid <;> simp [hprovider]

/-- The registry has no part in how nodes are stored and linked. -/
theorem Shaped.withRegistry (hshaped : tree.Shaped) (registry : List Registration) :
    { tree with registry }.Shaped :=
  ⟨⟨hshaped.packed.free_nodup, hshaped.packed.mem_free_iff⟩,
    ⟨hshaped.linked.root, hshaped.linked.parent, hshaped.linked.child⟩⟩

/-- Naming a node is seen at this node alone. -/
theorem attached?_modify_provider (hnode : tree.node? id = some node) (provider : Option String)
    (other : NodeId) :
    (tree.modify id fun node => { node with provider }).attached? other =
      if other = id then provider.map (node.address, ·) else tree.attached? other := by
  rw [attached?, node?_modify]
  by_cases hother : other = id
  · rw [if_pos hother, if_pos hother, hnode]
    rfl
  · rw [if_neg hother, if_neg hother]
    rfl

/-- Attaching materializes the address of a provider, names the node there and registers it. -/
theorem Shaped.attach (hshaped : tree.Shaped) (spec : ProviderSpec) :
    ∃ grown node, tree.Keeps grown ∧ grown.node? (tree.attach spec).2 = some node ∧
      node.address = spec.oid ∧
      (tree.attach spec).1 =
        { grown.modify (tree.attach spec).2
            fun node => { node with provider := some spec.name } with
          registry := tree.registry ++ [⟨spec, (tree.attach spec).2⟩] } := by
  obtain ⟨hkeeps, node, hnode, haddress⟩ := hshaped.materialize spec.oid
  refine ⟨_, node, hkeeps, hnode, haddress, ?_⟩
  rw [← registry_materialize spec.oid, ← registry_modify]
  rfl

/-- Attaching a provider under a new name at an address without one keeps the registry in
agreement. -/
theorem WellFormed.attach (hwf : tree.WellFormed) (hname : tree.registration? spec.name = none)
    (hfree : (tree.contentAt spec.oid).provider = none) : (tree.attach spec).1.WellFormed := by
  obtain ⟨grown, node, hkeeps, hnode, haddress, hresult⟩ := hwf.shaped.attach spec
  rw [hresult]
  generalize (tree.attach spec).2 = id at hnode
  have hnone : tree.attached? id = none := by
    have hat := hkeeps.shaped.linked.contentAt_address hnode
    rw [haddress, hkeeps.contentAt hwf.shaped] at hat
    rw [hat] at hfree
    rw [attached?_eq_held?, ← hkeeps.held, ← attached?_eq_held?, attached?_of_node? hnode]
    exact congrArg _ hfree
  refine ⟨(hkeeps.shaped.modify id (f := fun node => { node with provider := some spec.name })
    fun _ => rfl).withRegistry _, ?_, fun {other address name} => ?_⟩
  · rw [List.map_append, List.nodup_append]
    refine ⟨hwf.registered.names_nodup, List.pairwise_singleton _ _,
      fun first hfirst second hsecond => ?_⟩
    obtain ⟨registration, hmem, rfl⟩ := List.mem_map.mp hfirst
    obtain rfl := List.mem_singleton.mp hsecond
    exact registration?_eq_none_iff.mp hname registration hmem
  · have hattached := attached?_modify_provider hnode (some spec.name) other
    rw [haddress, attached?_eq_held? grown, hkeeps.held, ← attached?_eq_held?] at hattached
    refine (iff_of_eq (congrArg (· = some (address, name)) hattached)).trans ?_
    simp only [List.mem_append, List.mem_singleton]
    by_cases hother : other = id
    · rw [if_pos hother]
      constructor
      · intro h
        obtain ⟨rfl, rfl⟩ := Prod.mk.inj (Option.some.inj h)
        exact ⟨_, Or.inr rfl, hother.symm, rfl, rfl⟩
      · rintro ⟨registration, hmem | rfl, hat, rfl, rfl⟩
        · have hold := hwf.registered.attached?_eq_some_iff.mpr ⟨registration, hmem, hat, rfl, rfl⟩
          rw [hother, hnone] at hold
          cases hold
        · rfl
    · rw [if_neg hother, hwf.registered.attached?_eq_some_iff]
      constructor
      · rintro ⟨registration, hmem, hrest⟩
        exact ⟨registration, Or.inl hmem, hrest⟩
      · rintro ⟨registration, hmem | rfl, hat, hrest⟩
        · exact ⟨registration, hmem, hat, hrest⟩
        · exact absurd hat.symm hother

/-- Detaching takes the name from a node, removes what is vacant then, and forgets the provider. -/
theorem Shaped.detach (hshaped : tree.Shaped) (registration : Registration) :
    ∃ pruned, (tree.modify registration.node fun node => { node with provider := none }).Keeps
        pruned ∧
      tree.detach registration =
        { pruned with
          registry :=
            tree.registry.filter fun other => other.spec.name ≠ registration.spec.name } := by
  have hkeeps := (hshaped.modify registration.node
    (f := fun node => { node with provider := none }) fun _ => rfl).prune registration.node
  refine ⟨_, hkeeps, ?_⟩
  simp [ObjectTree.detach]

/-- Detaching a registered provider keeps the registry in agreement. -/
theorem WellFormed.detach (hwf : tree.WellFormed) (hmem : registration ∈ tree.registry) :
    (tree.detach registration).WellFormed := by
  have hself := hwf.registered.attached?_eq_some_iff.mpr ⟨registration, hmem, rfl, rfl, rfl⟩
  obtain ⟨node, hnode⟩ : ∃ node, tree.node? registration.node = some node :=
    (Option.bind_eq_some_iff.mp hself).imp fun _ h => h.1
  obtain ⟨pruned, hkeeps, hresult⟩ := hwf.shaped.detach registration
  rw [hresult]
  refine ⟨hkeeps.shaped.withRegistry _, ?_, fun {id address name} => ?_⟩
  · exact hwf.registered.names_nodup.sublist (List.filter_sublist.map _)
  · have hattached := attached?_modify_provider hnode none id
    rw [attached?_eq_held?, ← hkeeps.held, ← attached?_eq_held?, Option.map_none] at hattached
    refine (iff_of_eq (congrArg (· = some (address, name)) hattached)).trans ?_
    simp only [List.mem_filter, decide_eq_true_eq]
    by_cases hid : id = registration.node
    · rw [if_pos hid]
      constructor
      · intro h
        cases h
      -- Another registration at this node would have the name of the detached one.
      · rintro ⟨other, ⟨hother, hne⟩, hat, _, _⟩
        have hattachedOther :=
          hwf.registered.attached?_eq_some_iff.mpr ⟨other, hother, rfl, rfl, rfl⟩
        rw [hat, hid, hself] at hattachedOther
        exact absurd (Prod.mk.inj (Option.some.inj hattachedOther)).2.symm hne
    · rw [if_neg hid, hwf.registered.attached?_eq_some_iff]
      constructor
      · rintro ⟨other, hother, hat, hrest⟩
        refine ⟨other, ⟨hother, fun hname => hid ?_⟩, hat, hrest⟩
        rw [← hat, hwf.registered.eq_of_name_eq hother hmem hname]
      · rintro ⟨other, ⟨hother, _⟩, hrest⟩
        exact ⟨other, hother, hrest⟩

end Smi.ObjectTree
