import Smi.Proofs.ObjectTree.Transition

/-!
# To whom a value belongs

A scalar writes its value at its instance, and a table writes at the cells of its columns, behind
suffixes in which its keys are written. A provider is unregistered only when no node is left below
it. So every value in the tree was written by a provider that is still registered, and it stands
below the identifier of this provider.
-/

namespace Smi

variable {oid : Oid}

/-- Whether a provider writes its values at an address. -/
def ProviderSpec.Owns : ProviderSpec → Oid → Prop
  | .scalar provider, oid => oid.arcs = provider.oid.arcs ++ [0]
  | .table provider, oid => ∃ column ∈ provider.columns, ∃ key suffix,
      RowKey.suffix provider key = .ok suffix ∧ provider.IsCell column.number suffix oid

/-- What a provider owns stands strictly below its identifier. -/
theorem ProviderSpec.Owns.below {spec : ProviderSpec} (h : spec.Owns oid) :
    ∃ arc rest, oid.arcs = spec.oid.arcs ++ arc :: rest := by
  cases spec with
  | scalar provider => exact ⟨0, [], h⟩
  | table table =>
    obtain ⟨column, _, _, suffix, _, hcell⟩ := h
    exact ⟨column.number, suffix, hcell⟩

/-- What a provider owns is not its own identifier. -/
theorem ProviderSpec.Owns.ne_oid {spec : ProviderSpec} (h : spec.Owns oid) : oid ≠ spec.oid := by
  rintro rfl
  obtain ⟨arc, rest, harcs⟩ := h.below
  simp at harcs

namespace ObjectTree

variable {tree after : ObjectTree} {table : TableProvider} {suffix : List Nat}
  {planned : List (TableColumn × Value)}

/-- Whether every value belongs to a registered provider. -/
def Owned (tree : ObjectTree) : Prop :=
  ∀ oid, (tree.contentAt oid).cell ≠ none → ∃ spec ∈ tree.providers, spec.Owns oid

/-- Trees with the same registry have the same providers. -/
theorem providers_congr (hregistry : after.registry = tree.registry) :
    after.providers = tree.providers := by
  rw [providers, hregistry, providers]

/-- A provider is registered in both of two trees with the same registry, or in neither. -/
theorem mem_providers_congr (hregistry : after.registry = tree.registry) {spec : ProviderSpec} :
    spec ∈ after.providers ↔ spec ∈ tree.providers := by
  rw [providers_congr hregistry]

/-- Registering adds the settled provider to the others. -/
theorem Registers.mem_providers_iff {given spec : ProviderSpec} {id : NodeId}
    (hdone : tree.Registers given id after) :
    spec ∈ after.providers ↔ spec ∈ tree.providers ∨ tree.settle given = .ok spec := by
  obtain ⟨settled, hsettle, hregistry, _⟩ := hdone
  rw [providers, hregistry, List.map_append, List.mem_append, hsettle, Except.ok.injEq, eq_comm]
  exact or_congr_right List.mem_singleton

/-- Registering a provider changes no value. -/
theorem Registers.cell_eq {spec : ProviderSpec} {id : NodeId} (hdone : tree.Registers spec id after)
    (oid : Oid) : (after.contentAt oid).cell = (tree.contentAt oid).cell := by
  obtain ⟨_, _, _, _, hchange⟩ := hdone
  exact hchange.cell_eq oid

/-- Unregistering a name leaves the providers of other names. -/
theorem Unregisters.mem_providers_iff {gone spec : ProviderSpec} {name : String}
    (hdone : tree.Unregisters name gone after) :
    spec ∈ after.providers ↔ spec ∈ tree.providers ∧ spec.name ≠ name := by
  obtain ⟨_, hregistry, _⟩ := hdone
  simp only [providers, hregistry, List.mem_map, List.mem_filter, decide_eq_true_eq]
  constructor
  · rintro ⟨registration, ⟨hmem, hname⟩, rfl⟩
    exact ⟨⟨registration, hmem, rfl⟩, hname⟩
  · rintro ⟨⟨registration, hmem, rfl⟩, hname⟩
    exact ⟨registration, ⟨hmem, hname⟩, rfl⟩

/-- Unregistering a provider changes no value. -/
theorem Unregisters.cell_eq {spec : ProviderSpec} {name : String}
    (hdone : tree.Unregisters name spec after) (oid : Oid) :
    (after.contentAt oid).cell = (tree.contentAt oid).cell :=
  hdone.2.2.cell_eq oid

/-- Values stay owned where no value is created and no provider is taken away. -/
theorem Owned.of_cells (howned : tree.Owned)
    (hproviders : ∀ spec ∈ tree.providers, spec ∈ after.providers)
    (hcells : ∀ oid, (after.contentAt oid).cell ≠ none → (tree.contentAt oid).cell ≠ none) :
    after.Owned := by
  intro oid hcell
  obtain ⟨spec, hspec, howns⟩ := howned oid (hcells oid hcell)
  exact ⟨spec, hproviders spec hspec, howns⟩

/-- Values stay owned where all new ones belong to one provider. -/
theorem Owned.of_writer (howned : tree.Owned) (hregistry : after.registry = tree.registry)
    {spec : ProviderSpec} (hspec : spec ∈ tree.providers)
    (hcells : ∀ oid, (after.contentAt oid).cell ≠ none →
      (tree.contentAt oid).cell ≠ none ∨ spec.Owns oid) : after.Owned := by
  intro oid hcell
  rw [providers_congr hregistry]
  rcases hcells oid hcell with hold | howns
  · exact howned oid hold
  · exact ⟨spec, hspec, howns⟩

/-- A value that a row puts at an address stands in one of its columns. -/
theorem exists_isCell_of_plannedCell? {oid : Oid} {cell : Cell}
    (h : plannedCell? table suffix planned oid = some cell) :
    ∃ found ∈ planned, table.IsCell found.1.number suffix oid := by
  obtain ⟨found, hfound, _⟩ := Option.map_eq_some_iff.mp h
  exact ⟨found, List.mem_reverse.mp (List.mem_of_find?_eq_some hfound),
    by simpa using List.find?_some hfound⟩

/-- Unregistering a provider leaves no value without an owner, since no node stands below it. -/
theorem Owned.of_unregisters (howned : tree.Owned) (hwf : tree.WellFormed) {name : String}
    {spec : ProviderSpec} (hends : tree.Ends spec.oid) (hdone : tree.Unregisters name spec after) :
    after.Owned := by
  intro oid hcell
  rw [hdone.cell_eq] at hcell
  obtain ⟨owner, howner, howns⟩ := howned oid hcell
  refine ⟨owner, hdone.mem_providers_iff.mpr ⟨howner, fun hname => ?_⟩, howns⟩
  obtain ⟨hspec, hspecName⟩ := mem_providers_of_provider? hdone.1
  obtain rfl := hwf.eq_of_provider_name howner hspec (hname.trans hspecName.symm)
  obtain ⟨arc, rest, harcs⟩ := howns.below
  have hlive := hwf.shaped.linked.live_of_contentAt fun h => hcell (by rw [h]; rfl)
  exact howns.ne_oid (hends oid hlive ⟨arc :: rest, harcs.symm⟩)

/-- Whatever an operation does, every value belongs to a registered provider afterwards. -/
theorem Owned.transition (howned : tree.Owned) (hwf : tree.WellFormed)
    (h : tree.Transition after) : after.Owned := by
  cases h with
  | idle hregistry hcontents =>
    refine howned.of_cells (fun _ => (mem_providers_congr hregistry).mpr) fun oid hcell => ?_
    rwa [hcontents] at hcell
  | registers hends hdone =>
    refine howned.of_cells (fun _ hspec => hdone.mem_providers_iff.mpr (Or.inl hspec))
      fun oid hcell => ?_
    rwa [hdone.cell_eq] at hcell
  | unregisters hends hdone => exact howned.of_unregisters hwf hends hdone
  | setsScalar hdone =>
    obtain ⟨provider, address, hinstance, hregistry, hchange⟩ := hdone
    obtain ⟨hspec, harcs⟩ := mem_providers_of_scalarInstance hinstance
    refine howned.of_writer hregistry hspec fun oid hcell => ?_
    rw [hchange oid] at hcell
    by_cases hoid : oid = address
    · exact Or.inr (hoid ▸ harcs)
    · rw [if_neg hoid] at hcell
      exact Or.inl hcell
  | clearsScalar hdone =>
    obtain ⟨provider, address, _, _, hregistry, hchange⟩ := hdone
    refine howned.of_cells (fun _ => (mem_providers_congr hregistry).mpr) fun oid hcell => ?_
    rw [hchange oid] at hcell
    split at hcell
    · exact absurd rfl hcell
    · exact hcell
  | addsRow hdone =>
    obtain ⟨table, suffix, htable, _, hsuffix, hregistry, _, hcontents⟩ := hdone
    refine howned.of_writer hregistry (mem_providers_of_table htable).1 fun oid hcell => ?_
    rw [hcontents oid, Content.withCell] at hcell
    cases hplanned : plannedCell? table suffix
        (table.columns.zip (List.drop table.foreignIndex.length _)) oid with
    | none =>
      rw [hplanned, Option.none_or] at hcell
      exact Or.inl hcell
    | some cell =>
      obtain ⟨⟨column, value⟩, hmem, hisCell⟩ := exists_isCell_of_plannedCell? hplanned
      exact Or.inr ⟨column, (List.of_mem_zip hmem).1, _, suffix, hsuffix, hisCell⟩
  | deletesRow hdone =>
    obtain ⟨table, suffix, _, _, _, hregistry, hcontents⟩ := hdone
    refine howned.of_cells (fun _ => (mem_providers_congr hregistry).mpr) fun oid hcell => ?_
    rw [hcontents oid] at hcell
    split at hcell
    · exact absurd rfl hcell
    · exact hcell
  | setsCell hdone =>
    obtain ⟨suffix, address, cell, _, hold, _, hregistry, hchange⟩ := hdone
    refine howned.of_cells (fun _ => (mem_providers_congr hregistry).mpr) fun oid hcell => ?_
    by_cases hoid : oid = address
    · rw [hoid, hold]
      exact Option.some_ne_none cell
    · rwa [hchange oid, if_neg hoid] at hcell

/-- Every value belongs to a registered provider after a run. -/
theorem Owned.run (howned : tree.Owned) (hwf : tree.WellFormed) (operations : List Operation) :
    (tree.run operations).Owned :=
  hwf.run_induction howned fun _ operation _ hwf howned =>
    hwf.apply_induction howned (fun _ _ hwf h howned => howned.transition hwf h) operation

/-- Nothing is found in the empty tree. -/
theorem empty_contentAt (oid : Oid) : empty.contentAt oid = .blank := by
  rw [contentAt]
  cases hget : empty.get? oid with
  | none => rfl
  | some node =>
    obtain ⟨id, hnode, _⟩ := empty_wellFormed.shaped.linked.get?_eq_some_iff.mp hget
    rw [node?_empty] at hnode
    split at hnode
    · obtain rfl := Option.some.inj hnode
      rfl
    · cases hnode

/-- Every value of the empty tree belongs to a registered provider, since it has none. -/
theorem empty_owned : empty.Owned := fun oid hcell =>
  absurd (by rw [empty_contentAt]; rfl) hcell

/-! ### Providers that do not meet -/

/-- Whether a provider meets no other one: none is registered at its identifier, above or below
it. -/
def Alone (tree : ObjectTree) (spec : ProviderSpec) : Prop :=
  ∀ other ∈ tree.providers,
    other.oid.arcs <+: spec.oid.arcs ∨ spec.oid.arcs <+: other.oid.arcs → other = spec

instance (tree : ObjectTree) (spec : ProviderSpec) : Decidable (tree.Alone spec) :=
  inferInstanceAs (Decidable (∀ _ ∈ _, _ → _))

/-- Whether no two providers meet. -/
def Disjoint (tree : ObjectTree) : Prop :=
  ∀ spec ∈ tree.providers, tree.Alone spec

instance (tree : ObjectTree) : Decidable tree.Disjoint :=
  inferInstanceAs (Decidable (∀ _ ∈ _, _))

/-- A value above, at or below an address below a provider that meets no other one is its own. -/
theorem Owned.owns_of_alone (howned : tree.Owned) {spec : ProviderSpec} (halone : tree.Alone spec)
    {oid below : Oid} (hcell : (tree.contentAt oid).cell ≠ none) (hway : oid.arcs <+: below.arcs)
    (hbelow : spec.oid.arcs <+: below.arcs) : spec.Owns oid := by
  obtain ⟨owner, howner, howns⟩ := howned oid hcell
  obtain ⟨arc, rest, harcs⟩ := howns.below
  have hownerWay : owner.oid.arcs <+: below.arcs :=
    List.IsPrefix.trans ⟨arc :: rest, harcs.symm⟩ hway
  rwa [← halone owner howner (List.prefix_or_prefix_of_prefix hownerWay hbelow)]

end ObjectTree

end Smi
