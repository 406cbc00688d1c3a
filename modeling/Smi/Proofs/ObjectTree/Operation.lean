import Smi.ObjectTree.Row
import Smi.ObjectTree.Scalar
import Smi.Proofs.ObjectTree.Registered

/-!
# Operations on an object tree

Every operation first settles what it will write and then writes it, or fails and leaves the tree as
it is. What is written is made of five changes: an address is materialized, a provider is attached
or detached, a value is stored, or a node is cleared or gets another value.
-/

namespace Smi

/-- A call that may change an object tree. -/
inductive Operation where
  | materialize (oid : Oid)
  | register (spec : ProviderSpec)
  | registerAll (specs : List ProviderSpec)
  | unregister (name : String)
  | setScalar (name : String) (value : Value)
  | clearScalar (name : String)
  | addRow (name : String) (values : List Value)
  | deleteRow (name : String) (key : RowKey)
  | setCell (name : String) (column : Nat) (key : RowKey) (value : Value)

namespace ObjectTree

variable {tree : ObjectTree} {spec settled : ProviderSpec} {name : String}

/-- The tree after an operation, whether it succeeds or fails. -/
def apply (tree : ObjectTree) : Operation → ObjectTree
  | .materialize oid => (tree.materialize oid).1
  | .register spec => (tree.register spec).2
  | .registerAll specs => (tree.registerAll specs).2
  | .unregister name => (tree.unregister name).2
  | .setScalar name value => (tree.setScalar name value).2
  | .clearScalar name => (tree.clearScalar name).2
  | .addRow name values => (tree.addRow name values).2
  | .deleteRow name key => (tree.deleteRow name key).2
  | .setCell name column key value => (tree.setCell name column key value).2

/-! ### What an operation writes -/

/-- Registering attaches the settled provider if it can be attached. -/
theorem register_cases (tree : ObjectTree) (spec : ProviderSpec) :
    (∃ e, tree.register spec = (.error e, tree)) ∨
      ∃ settled, tree.settle spec = .ok settled ∧ tree.checkAttach settled = .ok () ∧
        tree.register spec = (.ok (tree.attach settled).2, (tree.attach settled).1) := by
  unfold register
  cases hsettle : tree.settle spec with
  | error e => exact Or.inl ⟨e, rfl⟩
  | ok settled =>
    cases hcheck : tree.checkAttach settled with
    | error e =>
      left
      refine ⟨e, ?_⟩
      simp [bind, Except.bind, hcheck]
    | ok =>
      right
      refine ⟨settled, rfl, hcheck, ?_⟩
      simp [bind, Except.bind, hcheck, pure, Except.pure]

/-- Unregistering detaches a registered provider whose node has no children. -/
theorem unregister_cases (tree : ObjectTree) (name : String) :
    (∃ e, tree.unregister name = (.error e, tree)) ∨
      ∃ registration, tree.registration? name = some registration ∧
        (∀ node, tree.node? registration.node = some node → node.isLeaf = true) ∧
        tree.unregister name = (.ok registration.spec, tree.detach registration) := by
  unfold unregister
  cases hcheck : tree.checkDetach name with
  | error e => exact Or.inl ⟨e, rfl⟩
  | ok registration =>
    right
    unfold checkDetach at hcheck
    cases hfound : tree.registration? name with
    | none => simp [hfound] at hcheck
    | some found =>
      simp only [hfound] at hcheck
      cases hinner : (tree.node? found.node).filter fun node => !node.isLeaf with
      | some node => simp [hinner] at hcheck
      | none =>
        simp only [hinner, pure_eq_ok_iff] at hcheck
        obtain rfl := hcheck
        refine ⟨found, rfl, fun node hnode => ?_, rfl⟩
        rw [hnode, Option.filter_eq_none_iff] at hinner
        simpa using hinner

/-! ### Every operation keeps the tree well formed -/

/-- Registering a provider keeps a tree well formed. -/
theorem WellFormed.register (hwf : tree.WellFormed) (spec : ProviderSpec) :
    (tree.register spec).2.WellFormed := by
  rcases tree.register_cases spec with ⟨e, hresult⟩ | ⟨settled, _, hcheck, hresult⟩
  · rw [hresult]
    exact hwf
  · rw [hresult]
    obtain ⟨hname, hfree, _, _⟩ := checkAttach_eq_ok_iff.mp hcheck
    refine hwf.attach hname ?_
    rw [contentAt]
    cases hget : tree.get? settled.oid with
    | none => rfl
    | some node => exact hfree node hget

/-- What registering one provider keeps is kept by registering several of them. -/
theorem registerAll_induction {motive : ObjectTree → Prop} (hstart : motive tree)
    (hstep : ∀ tree spec, motive tree → motive (register tree spec).2)
    (specs : List ProviderSpec) : motive (tree.registerAll specs).2 := by
  induction specs generalizing tree with
  | nil => exact hstart
  | cons spec rest ih =>
    have hfirst := hstep tree spec hstart
    unfold ObjectTree.registerAll
    rcases hresult : tree.register spec with ⟨_ | _, first⟩
    · rw [hresult] at hfirst
      exact hfirst
    · rw [hresult] at hfirst
      exact ih hfirst

/-- Registering several providers keeps a tree well formed. -/
theorem WellFormed.registerAll (hwf : tree.WellFormed) (specs : List ProviderSpec) :
    (tree.registerAll specs).2.WellFormed :=
  registerAll_induction hwf (fun _ spec hwf => hwf.register spec) specs

/-- What registering one provider keeps of a well-formed tree is kept by registering several. -/
theorem WellFormed.registerAll_induction {motive : ObjectTree → Prop} (hwf : tree.WellFormed)
    (hstart : motive tree)
    (hstep : ∀ tree spec, WellFormed tree → motive tree → motive (ObjectTree.register tree spec).2)
    (specs : List ProviderSpec) : motive (tree.registerAll specs).2 := by
  have hboth := ObjectTree.registerAll_induction
    (motive := fun tree => tree.WellFormed ∧ motive tree)
    ⟨hwf, hstart⟩ (fun tree spec h => ⟨h.1.register spec, hstep tree spec h.1 h.2⟩) specs
  exact hboth.2

/-- Unregistering a provider keeps a tree well formed. -/
theorem WellFormed.unregister (hwf : tree.WellFormed) (name : String) :
    (tree.unregister name).2.WellFormed := by
  rcases tree.unregister_cases name with ⟨e, hresult⟩ | ⟨registration, hfound, _, hresult⟩
  · rw [hresult]
    exact hwf
  · rw [hresult]
    exact hwf.detach (mem_of_registration? hfound).1

/-- Setting a scalar keeps a tree well formed. -/
theorem WellFormed.setScalar (hwf : tree.WellFormed) (name : String) (value : Value) :
    (tree.setScalar name value).2.WellFormed := by
  unfold ObjectTree.setScalar
  cases tree.planScalar name value with
  | error e => exact hwf
  | ok plan => exact hwf.store plan.1 plan.2

/-- Clearing a scalar keeps a tree well formed. -/
theorem WellFormed.clearScalar (hwf : tree.WellFormed) (name : String) :
    (tree.clearScalar name).2.WellFormed := by
  unfold ObjectTree.clearScalar
  cases tree.scalarInstance name with
  | error e => exact hwf
  | ok instanceOf =>
    cases hfind : tree.find? instanceOf.2 with
    | none =>
      simp only [hfind]
      exact hwf
    | some id =>
      simp only [hfind]
      exact hwf.clear id

/-- Adding a row keeps a tree well formed. -/
theorem WellFormed.addRow (hwf : tree.WellFormed) (name : String) (values : List Value) :
    (tree.addRow name values).2.WellFormed := by
  unfold ObjectTree.addRow
  cases tree.planRow name values with
  | error e => exact hwf
  | ok plan => exact List.foldlRecOn plan.2 _ hwf fun _ h cell _ => h.store cell.1 cell.2

/-- Deleting a row keeps a tree well formed. -/
theorem WellFormed.deleteRow (hwf : tree.WellFormed) (name : String) (key : RowKey) :
    (tree.deleteRow name key).2.WellFormed := by
  unfold ObjectTree.deleteRow
  cases tree.planDeletion name key with
  | error e => exact hwf
  | ok ids => exact List.foldlRecOn ids _ hwf fun _ h id _ => h.clear id

/-- Setting a cell keeps a tree well formed. -/
theorem WellFormed.setCell (hwf : tree.WellFormed) (name : String) (column : Nat) (key : RowKey)
    (value : Value) : (tree.setCell name column key value).2.WellFormed := by
  unfold ObjectTree.setCell
  cases tree.planCell name column key with
  | error e => exact hwf
  | ok plan => exact hwf.modifyCell plan.1 _

/-- One operation keeps a tree well formed, whether it succeeds or fails. -/
theorem WellFormed.apply (hwf : tree.WellFormed) (operation : Operation) :
    (tree.apply operation).WellFormed := by
  cases operation with
  | materialize oid => exact hwf.materialize oid
  | register spec => exact hwf.register spec
  | registerAll specs => exact hwf.registerAll specs
  | unregister name => exact hwf.unregister name
  | setScalar name value => exact hwf.setScalar name value
  | clearScalar name => exact hwf.clearScalar name
  | addRow name values => exact hwf.addRow name values
  | deleteRow name key => exact hwf.deleteRow name key
  | setCell name column key value => exact hwf.setCell name column key value

end ObjectTree

end Smi
