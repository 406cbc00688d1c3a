import Smi.Proofs.ObjectTree.RowEffect

/-!
# Operations happen as a whole

Whatever has been done to a tree, the next operation does all that it is about or nothing: if it
fails, the slots, the free list, the registry and all nodes are as before. Registering several
providers ends with the first one that fails, and the tree is then the one that registering those
before it leads to.
-/

namespace Smi.ObjectTree

variable {tree after : ObjectTree} {specs : List ProviderSpec} {e : Error}

/-- Registering several providers fails exactly if one of them fails on the tree in which those
before it are registered, and this is the tree that is left. -/
theorem registerAll_eq_error_iff :
    tree.registerAll specs = (.error e, after) ↔
      ∃ done spec rest, specs = done ++ spec :: rest ∧
        tree.registerAll done = (.ok (), after) ∧ after.register spec = (.error e, after) := by
  induction specs generalizing tree with
  | nil => simp [registerAll]
  | cons first others ih =>
    rw [registerAll]
    rcases tree.register_cases first with ⟨failure, hfirst⟩ | ⟨settled, _, _, hfirst⟩
    · rw [hfirst]
      constructor
      · intro h
        obtain ⟨he, rfl⟩ := Prod.mk.inj h
        obtain rfl := Except.error.inj he
        exact ⟨[], first, others, rfl, rfl, hfirst⟩
      · rintro ⟨_ | ⟨head, done⟩, spec, rest, hspecs, hdone, hspec⟩
        · obtain ⟨rfl, rfl⟩ := List.cons.inj hspecs
          obtain rfl := (Prod.mk.inj hdone).2
          rw [hfirst] at hspec
          obtain rfl := Except.error.inj (Prod.mk.inj hspec).1
          rfl
        -- The first provider would have failed before the others came to be registered.
        · obtain ⟨rfl, _⟩ := List.cons.inj hspecs
          simp [registerAll, hfirst] at hdone
    · rw [hfirst]
      refine ih.trans ⟨?_, ?_⟩
      · rintro ⟨done, spec, rest, rfl, hdone, hspec⟩
        exact ⟨first :: done, spec, rest, rfl, by rw [registerAll, hfirst]; exact hdone, hspec⟩
      · rintro ⟨_ | ⟨head, done⟩, spec, rest, hspecs, hdone, hspec⟩
        · obtain ⟨rfl, rfl⟩ := List.cons.inj hspecs
          obtain rfl := (Prod.mk.inj hdone).2
          rw [hfirst] at hspec
          cases (Prod.mk.inj hspec).1
        · obtain ⟨rfl, hothers⟩ := List.cons.inj hspecs
          rw [registerAll, hfirst] at hdone
          exact ⟨done, spec, rest, hothers, hdone, hspec⟩

/-- After every run, an operation that fails leaves the very same tree, and one that succeeds has
done all that it is about. If several providers are registered and one of them fails, the tree is
the one in which exactly those before it are registered. -/
theorem run_empty_all_or_nothing (operations : List Operation) :
    let tree := empty.run operations
    (∀ spec, (tree.register spec).Atomic tree (tree.Registers spec)) ∧
    (∀ name, (tree.unregister name).Atomic tree (tree.Unregisters name)) ∧
    (∀ name value, (tree.setScalar name value).Atomic tree fun _ => tree.SetsScalar name value) ∧
    (∀ name, (tree.clearScalar name).Atomic tree (tree.ClearsScalar name)) ∧
    (∀ name values, (tree.addRow name values).Atomic tree (tree.AddsRow name values)) ∧
    (∀ name key, (tree.deleteRow name key).Atomic tree fun _ => tree.DeletesRow name key) ∧
    (∀ name column key value, (tree.setCell name column key value).Atomic tree
      (tree.SetsCell name column key value)) ∧
    ∀ specs e after, tree.registerAll specs = (.error e, after) ↔
      ∃ done spec rest, specs = done ++ spec :: rest ∧
        tree.registerAll done = (.ok (), after) ∧ after.register spec = (.error e, after) := by
  have hwf := empty_wellFormed.run operations
  exact ⟨hwf.register_atomic, hwf.unregister_atomic, hwf.setScalar_atomic, hwf.clearScalar_atomic,
    hwf.addRow_atomic, hwf.deleteRow_atomic, hwf.setCell_atomic,
    fun _ _ _ => registerAll_eq_error_iff⟩

end Smi.ObjectTree
