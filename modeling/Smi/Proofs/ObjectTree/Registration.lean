import Smi.Proofs.ObjectTree.Run

/-!
# How long a provider stays registered

Values are written and removed without a look at the registry. Registering adds to its end and
unregistering takes one provider out, so a provider is found unchanged under its name for as long as
anything is registered there.
-/

namespace Smi.ObjectTree

variable {tree after : ObjectTree} {id : NodeId} {name : String} {registration : Registration}
  {spec : ProviderSpec}

/-! ### Values and the registry -/

/-- Setting a scalar keeps the registry. -/
theorem registry_setScalar (name : String) (value : Value) :
    (tree.setScalar name value).2.registry = tree.registry := by
  unfold setScalar
  cases tree.planScalar name value <;> simp

/-- Clearing a scalar keeps the registry. -/
theorem registry_clearScalar (name : String) :
    (tree.clearScalar name).2.registry = tree.registry := by
  unfold clearScalar
  cases tree.scalarInstance name with
  | error e => rfl
  | ok found => cases hfind : tree.find? found.2 <;> simp [hfind]

/-- Adding a row keeps the registry. -/
theorem registry_addRow (name : String) (values : List Value) :
    (tree.addRow name values).2.registry = tree.registry := by
  unfold addRow
  cases tree.planRow name values with
  | error e => rfl
  | ok plan =>
    exact List.foldlRecOn (motive := (ObjectTree.registry · = tree.registry)) plan.2 _ rfl
      fun _ h cell _ => (registry_store cell.1 cell.2).trans h

/-- Deleting a row keeps the registry. -/
theorem registry_deleteRow (name : String) (key : RowKey) :
    (tree.deleteRow name key).2.registry = tree.registry := by
  unfold deleteRow
  cases tree.planDeletion name key with
  | error e => rfl
  | ok ids =>
    exact List.foldlRecOn (motive := (ObjectTree.registry · = tree.registry)) ids _ rfl
      fun _ h id _ => (registry_clear id).trans h

/-- Setting a cell keeps the registry. -/
theorem registry_setCell (name : String) (column : Nat) (key : RowKey) (value : Value) :
    (tree.setCell name column key value).2.registry = tree.registry := by
  unfold setCell
  cases tree.planCell name column key <;> simp

/-! ### Providers and the registry -/

/-- A table is found under a name exactly when it is registered there. -/
theorem table_eq_ok_iff {table : TableProvider} :
    tree.table name = .ok table ↔
      ∃ registration, tree.registration? name = some registration ∧
        registration.spec = .table table := by
  unfold ObjectTree.table provider?
  rcases tree.registration? name with _ | ⟨_ | _, _⟩ <;> simp

/-- A scalar is found under a name exactly when it is registered there. -/
theorem scalar_eq_ok_iff {provider : ScalarProvider} :
    tree.scalar name = .ok provider ↔
      ∃ registration, tree.registration? name = some registration ∧
        registration.spec = .scalar provider := by
  unfold ObjectTree.scalar provider?
  rcases tree.registration? name with _ | ⟨_ | _, _⟩ <;> simp

/-- Trees with the same registry find the same registrations. -/
theorem registration?_congr (hregistry : after.registry = tree.registry) (name : String) :
    after.registration? name = tree.registration? name := by
  rw [registration?, registration?, hregistry]

/-- Trees with the same registry find the same tables. -/
theorem table_congr (hregistry : after.registry = tree.registry) (name : String) :
    after.table name = tree.table name := by
  rw [table, table, provider?, provider?, registration?_congr hregistry]

/-- What is attached is registered behind all others. -/
theorem registration?_attach (tree : ObjectTree) (spec : ProviderSpec) (name : String) :
    (tree.attach spec).1.registration? name =
      (tree.registration? name).or
        (if spec.name = name then some ⟨spec, (tree.attach spec).2⟩ else none) := by
  have hregistry : (tree.attach spec).1.registry =
      tree.registry ++ [⟨spec, (tree.attach spec).2⟩] := by
    simp [attach]
  rw [registration?, hregistry, List.find?_append, ← registration?]
  by_cases hname : spec.name = name
  · simp [hname]
  · simp [hname]

/-- What is registered under a name stays so while others are registered. -/
theorem registration?_register (hfound : tree.registration? name = some registration)
    (spec : ProviderSpec) : (tree.register spec).2.registration? name = some registration := by
  rcases tree.register_cases spec with ⟨e, hresult⟩ | ⟨settled, _, _, hresult⟩
  · rw [hresult]
    exact hfound
  · rw [hresult, registration?_attach, hfound]
    rfl

/-- A registration is still found when more providers are registered. -/
theorem registration?_registerAll (hfound : tree.registration? name = some registration)
    (specs : List ProviderSpec) :
    (tree.registerAll specs).2.registration? name = some registration :=
  registerAll_induction (motive := fun tree => tree.registration? name = some registration) hfound
    (fun _ spec hfound => registration?_register hfound spec) specs

/-- Unregistering a provider takes away its own registration at most. -/
theorem registration?_unregister (hfound : tree.registration? name = some registration)
    (other : String) :
    (tree.unregister other).2.registration? name = some registration ∨
      (tree.unregister other).2.registration? name = none := by
  rcases tree.unregister_cases other with ⟨e, hresult⟩ | ⟨gone, hgone, _, hresult⟩
  · left
    rw [hresult]
    exact hfound
  · have hregistry : (tree.detach gone).registry =
        tree.registry.filter fun kept => kept.spec.name ≠ gone.spec.name := by
      simp [detach]
    rw [hresult]
    by_cases hname : gone.spec.name = name
    · right
      rw [registration?_eq_none_iff, hregistry, ← hname]
      exact fun kept hkept => by simpa using (List.mem_filter.mp hkept).2
    · left
      rw [← hfound, registration?, registration?, hregistry, List.find?_filter]
      refine congrArg (fun p => tree.registry.find? p) (funext fun kept => ?_)
      by_cases hkept : kept.spec.name = name
      · simp [hkept, Ne.symm hname]
      · simp [hkept]

/-- An operation leaves what is registered under a name, unless it takes it away. -/
theorem registration?_apply (hfound : tree.registration? name = some registration)
    (operation : Operation) :
    (tree.apply operation).registration? name = some registration ∨
      (tree.apply operation).registration? name = none := by
  have hkeep (hregistry : (tree.apply operation).registry = tree.registry) :
      (tree.apply operation).registration? name = some registration := by
    rw [registration?_congr hregistry, hfound]
  cases operation with
  | register spec => exact Or.inl (registration?_register hfound spec)
  | registerAll specs => exact Or.inl (registration?_registerAll hfound specs)
  | unregister other => exact registration?_unregister hfound other
  | materialize oid => exact Or.inl (hkeep (registry_materialize oid))
  | setScalar name value => exact Or.inl (hkeep (registry_setScalar name value))
  | clearScalar name => exact Or.inl (hkeep (registry_clearScalar name))
  | addRow name values => exact Or.inl (hkeep (registry_addRow name values))
  | deleteRow name key => exact Or.inl (hkeep (registry_deleteRow name key))
  | setCell name column key value => exact Or.inl (hkeep (registry_setCell name column key value))

/-- A provider that is found under its name after every operation of a run is the one that was found
before it. -/
theorem registration?_run (hfound : tree.registration? name = some registration)
    (operations : List Operation)
    (hstays : ∀ count, ((tree.run (operations.take count)).provider? name).isSome) :
    (tree.run operations).registration? name = some registration := by
  induction operations generalizing tree with
  | nil => exact hfound
  | cons operation rest ih =>
    refine ih ?_ fun count => hstays (count + 1)
    rcases registration?_apply hfound operation with hkept | hgone
    · exact hkept
    · have hfirst : ((tree.apply operation).provider? name).isSome := hstays 1
      rw [provider?, hgone] at hfirst
      cases hfirst

/-- A table that is found under its name after every operation of a run is the one from before. -/
theorem table_run {table : TableProvider} (htable : tree.table name = .ok table)
    (operations : List Operation)
    (hstays : ∀ count, ((tree.run (operations.take count)).provider? name).isSome) :
    (tree.run operations).table name = .ok table := by
  obtain ⟨registration, hfound, hspec⟩ := table_eq_ok_iff.mp htable
  exact table_eq_ok_iff.mpr ⟨registration, registration?_run hfound operations hstays, hspec⟩

end Smi.ObjectTree
