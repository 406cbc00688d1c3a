import Smi.Proofs.ObjectTree.RowEffect
import Smi.Proofs.ObjectTree.Run
import Smi.Proofs.ObjectTree.Vacancy

/-!
# What one operation can do

Whichever operation is applied to a tree, and whether it succeeds or fails, one of eight things
happens to the registry and to what is found at the addresses. What all operations keep is proved by
going through these eight. Registering several providers is registering one after the other.
-/

namespace Smi

variable {α : Type} {tree after : ObjectTree} {outcome : Outcome α} {done : α → ObjectTree → Prop}

/-- An operation that failed left the same tree, and otherwise it has a result. -/
theorem Outcome.Atomic.cases (h : outcome.Atomic tree done) :
    outcome.2 = tree ∨ ∃ result, done result outcome.2 := by
  rcases outcome with ⟨_ | result, last⟩
  · exact Or.inl h
  · exact Or.inr ⟨result, h⟩

namespace ObjectTree

variable {name : String} {spec : ProviderSpec} {operation : Operation}

/-- What an operation does to the registry and the contents of a tree. -/
inductive Transition (tree after : ObjectTree) : Prop
  /-- Nothing is written: the operation fails, or it only creates nodes. -/
  | idle (hregistry : after.registry = tree.registry)
      (hcontents : ∀ oid, after.contentAt oid = tree.contentAt oid)
  /-- A provider is registered where no node stands below it. -/
  | registers {spec : ProviderSpec} {id : NodeId} (hends : tree.Ends spec.oid)
      (hdone : tree.Registers spec id after)
  /-- A provider is unregistered below which no node stands. -/
  | unregisters {name : String} {spec : ProviderSpec} (hends : tree.Ends spec.oid)
      (hdone : tree.Unregisters name spec after)
  | setsScalar {name : String} {value : Value} (hdone : tree.SetsScalar name value after)
  | clearsScalar {name : String} {value : Option Value}
      (hdone : tree.ClearsScalar name value after)
  | addsRow {name : String} {values : List Value} {key : RowKey}
      (hdone : tree.AddsRow name values key after)
  | deletesRow {name : String} {key : RowKey} (hdone : tree.DeletesRow name key after)
  | setsCell {name : String} {column : Nat} {key : RowKey} {value old : Value}
      (hdone : tree.SetsCell name column key value old after)

/-- An operation that leaves the tree as it is does nothing. -/
theorem Transition.of_eq (h : after = tree) : tree.Transition after :=
  .idle (by rw [h]) fun oid => by rw [h]

/-- An operation that is atomic does nothing or what it does when it succeeds. -/
theorem Transition.of_atomic (h : outcome.Atomic tree done)
    (hdone : ∀ result last, done result last → tree.Transition last) :
    tree.Transition outcome.2 := by
  rcases h.cases with hsame | ⟨result, hresult⟩
  · exact .of_eq hsame
  · exact hdone result _ hresult

/-- Registering fails and changes nothing, or it registers a provider below which no node stands. -/
theorem WellFormed.register_step (hwf : tree.WellFormed) (spec : ProviderSpec) :
    (tree.register spec).2 = tree ∨
      tree.Ends spec.oid ∧ ∃ id, tree.Registers spec id (tree.register spec).2 := by
  have hdone := hwf.register_atomic spec
  rcases tree.register_cases spec with ⟨e, hresult⟩ | ⟨settled, hsettle, hcheck, hresult⟩
  · exact Or.inl (by rw [hresult])
  · obtain ⟨_, _, hslot, _⟩ := checkAttach_eq_ok_iff.mp hcheck
    obtain ⟨_, hends⟩ := hwf.shaped.linked.checkSlot_eq_ok_iff.mp hslot
    rw [(name_oid_of_settle hsettle).2] at hends
    rw [hresult] at hdone ⊢
    exact Or.inr ⟨hends, _, hdone⟩

/-- Registering a provider where nothing stands below it is a transition. -/
theorem WellFormed.transition_register (hwf : tree.WellFormed) (spec : ProviderSpec) :
    tree.Transition (tree.register spec).2 := by
  rcases hwf.register_step spec with hsame | ⟨hends, _, hdone⟩
  · exact .of_eq hsame
  · exact .registers hends hdone

/-- Unregistering a provider below which nothing stands is a transition. -/
theorem WellFormed.transition_unregister (hwf : tree.WellFormed) (name : String) :
    tree.Transition (tree.unregister name).2 := by
  have hdone := hwf.unregister_atomic name
  rcases tree.unregister_cases name with ⟨e, hresult⟩ | ⟨registration, hfound, hleaf, hresult⟩
  · exact .of_eq (by rw [hresult])
  · obtain ⟨_, node, hnode, haddress⟩ := hwf.node?_of_registration? hfound
    have hends := (hwf.shaped.linked.isLeaf_iff hnode).mp (hleaf node hnode)
    rw [haddress] at hends
    rw [hresult] at hdone ⊢
    exact .unregisters hends hdone

/-- Every operation but registering several providers does one of the eight things. -/
theorem WellFormed.transition_apply (hwf : tree.WellFormed)
    (hsingle : ∀ specs, operation ≠ .registerAll specs) :
    tree.Transition (tree.apply operation) := by
  cases operation with
  | materialize oid =>
    exact .idle (registry_materialize oid) ((hwf.shaped.materialize oid).1.contentAt hwf.shaped)
  | register spec => exact hwf.transition_register spec
  | registerAll specs => exact absurd rfl (hsingle specs)
  | unregister name => exact hwf.transition_unregister name
  | setScalar name value =>
    exact .of_atomic (hwf.setScalar_atomic name value) fun _ _ => .setsScalar
  | clearScalar name => exact .of_atomic (hwf.clearScalar_atomic name) fun _ _ => .clearsScalar
  | addRow name values => exact .of_atomic (hwf.addRow_atomic name values) fun _ _ => .addsRow
  | deleteRow name key => exact .of_atomic (hwf.deleteRow_atomic name key) fun _ _ => .deletesRow
  | setCell name column key value =>
    exact .of_atomic (hwf.setCell_atomic name column key value) fun _ _ => .setsCell

/-- What every transition keeps is kept by every operation. -/
theorem WellFormed.apply_induction {motive : ObjectTree → Prop} (hwf : tree.WellFormed)
    (hstart : motive tree)
    (hstep : ∀ tree after, WellFormed tree → Transition tree after → motive tree → motive after)
    (operation : Operation) : motive (tree.apply operation) := by
  by_cases hseveral : ∃ specs, operation = .registerAll specs
  · obtain ⟨specs, rfl⟩ := hseveral
    exact hwf.registerAll_induction hstart
      (fun tree spec hwf => hstep tree _ hwf (hwf.transition_register spec)) specs
  · exact hstep tree _ hwf (hwf.transition_apply fun specs h => hseveral ⟨specs, h⟩) hstart

/-! ### Providers by name -/

/-- A provider that is found is one of the providers, under its name. -/
theorem mem_providers_of_provider? (h : tree.provider? name = some spec) :
    spec ∈ tree.providers ∧ spec.name = name := by
  obtain ⟨registration, hfound, rfl⟩ := Option.map_eq_some_iff.mp h
  obtain ⟨hmem, hname⟩ := mem_of_registration? hfound
  exact ⟨List.mem_map_of_mem hmem, hname⟩

/-- A table is one of the providers under its name. -/
theorem mem_providers_of_table {table : TableProvider} (h : tree.table name = .ok table) :
    .table table ∈ tree.providers ∧ table.name = name := by
  obtain ⟨registration, hfound, hspec⟩ := table_eq_ok_iff.mp h
  obtain ⟨hmem, hname⟩ := mem_of_registration? hfound
  rw [hspec] at hname
  exact ⟨hspec ▸ List.mem_map_of_mem hmem, hname⟩

/-- The instance of a scalar is its child `0`. -/
theorem scalarInstance_eq_ok_iff {provider : ScalarProvider} {address : Oid} :
    tree.scalarInstance name = .ok (provider, address) ↔
      tree.scalar name = .ok provider ∧ address.arcs = provider.oid.arcs ++ [0] := by
  simp only [scalarInstance, bind_eq_ok_iff, pure_eq_ok_iff, Oid.child_eq_ok_iff, Prod.mk.injEq]
  constructor
  · rintro ⟨found, hscalar, child, hchild, rfl, rfl⟩
    exact ⟨hscalar, hchild⟩
  · rintro ⟨hscalar, hchild⟩
    exact ⟨provider, hscalar, address, hchild, rfl, rfl⟩

/-- The scalar of an instance is one of the providers, and the instance is its child `0`. -/
theorem mem_providers_of_scalarInstance {provider : ScalarProvider} {address : Oid}
    (h : tree.scalarInstance name = .ok (provider, address)) :
    .scalar provider ∈ tree.providers ∧ address.arcs = provider.oid.arcs ++ [0] := by
  obtain ⟨hscalar, haddress⟩ := scalarInstance_eq_ok_iff.mp h
  obtain ⟨registration, hfound, hspec⟩ := scalar_eq_ok_iff.mp hscalar
  exact ⟨hspec ▸ List.mem_map_of_mem (mem_of_registration? hfound).1, haddress⟩

/-- Providers of one name are the same. -/
theorem WellFormed.eq_of_provider_name (hwf : tree.WellFormed) {first second : ProviderSpec}
    (hfirst : first ∈ tree.providers) (hsecond : second ∈ tree.providers)
    (hname : first.name = second.name) : first = second := by
  obtain ⟨registration, hmem, rfl⟩ := List.mem_map.mp hfirst
  obtain ⟨other, hother, rfl⟩ := List.mem_map.mp hsecond
  rw [hwf.registered.eq_of_name_eq hmem hother hname]

end ObjectTree

end Smi
