import Smi.Proofs.Definition.Store

/-!
# Building modules again

The index of a module follows from its objects, and which modules a collection may hold follows from
their names. So a module is built again from its name, its imports and its objects alone, and a
collection from its modules. What is built in this way always finds its objects, and nothing else
than what does comes out unchanged.
-/

namespace Smi

namespace ModuleDefinition

variable {m other : ModuleDefinition} {objects : List ObjectDefinition}

/-- The module in which the objects of a module are declared one after the other. -/
def rebuilt (m : ModuleDefinition) : ModuleDefinition :=
  { (named m.name).declareAll m.objects with imports := m.imports }

/-- A module that is built again finds its objects by their names. -/
theorem rebuilt_indexed (m : ModuleDefinition) : m.rebuilt.Indexed :=
  ((named_indexed m.name).declareAll m.objects).of_eq rfl rfl

/-- Objects of different names are declared behind one another. -/
theorem objects_declareAll_of_nodup (name : String)
    (hnodup : (objects.map ObjectDefinition.name).Nodup) :
    ((named name).declareAll objects).objects = objects := by
  induction objects using List.reverseRecOn with
  | nil => rfl
  | append_singleton objects object ih =>
    rw [List.map_append, List.nodup_append] at hnodup
    obtain ⟨hbefore, _, hnew⟩ := hnodup
    have hindexed := (named_indexed name).declareAll objects
    have hnone : ((named name).declareAll objects).places.get? object.name = none := by
      rw [hindexed.get?_eq_none_iff, names, ih hbefore]
      exact fun hmem => hnew _ hmem _ (List.mem_singleton_self _) rfl
    rw [declareAll_concat, insert_of_new hnone, ih hbefore]

/-- The objects of a module determine its index. -/
theorem Indexed.places_eq (h : m.Indexed) (hother : other.Indexed)
    (hnames : m.names = other.names) : m.places = other.places := by
  refine OrderedMap.ext_get? fun name => Option.ext fun place => ?_
  rw [h name place, hother name place, hnames]

/-- A module finds its objects exactly when it is the one that is built from them. -/
theorem indexed_iff_rebuilt_eq : m.Indexed ↔ m.rebuilt = m := by
  constructor
  · intro h
    have hobjects := objects_declareAll_of_nodup m.name h.nodup
    have hplaces : m.rebuilt.places = m.places :=
      m.rebuilt_indexed.places_eq h (congrArg (List.map ObjectDefinition.name) hobjects)
    have hname : m.rebuilt.name = m.name := name_declareAll _ _
    have heta : m.rebuilt =
        ⟨m.rebuilt.name, m.rebuilt.imports, m.rebuilt.objects, m.rebuilt.places⟩ := rfl
    rw [heta, hname, hplaces, show m.rebuilt.objects = m.objects from hobjects]
    rfl
  · intro h
    rw [← h]
    exact m.rebuilt_indexed

end ModuleDefinition

namespace ModuleSet

variable {set : ModuleSet} {modules : List ModuleDefinition}

/-- The collection into which the modules of a collection, each built again, come one after the
other. -/
def rebuilt (set : ModuleSet) : ModuleSet :=
  (set.modules.map ModuleDefinition.rebuilt).foldl insert empty

/-- A consistent collection stays so when modules that find their objects are put into it. -/
theorem foldl_insert_consistent (h : set.Consistent) (hmodules : ∀ m ∈ modules, m.Indexed) :
    (modules.foldl insert set).Consistent := by
  induction modules generalizing set with
  | nil => exact h
  | cons m rest ih =>
    obtain ⟨hm, hrest⟩ := List.forall_mem_cons.mp hmodules
    exact ih (h.insert hm) hrest

/-- A collection that is built again is consistent. -/
theorem rebuilt_consistent (set : ModuleSet) : set.rebuilt.Consistent :=
  foldl_insert_consistent empty_consistent
    (List.forall_mem_map.mpr fun m _ => m.rebuilt_indexed)

/-- Modules of different names come in behind one another. -/
theorem foldl_insert_of_nodup (hnodup : (modules.map ModuleDefinition.name).Nodup) :
    modules.foldl insert empty = ⟨modules⟩ := by
  induction modules using List.reverseRecOn with
  | nil => rfl
  | append_singleton modules m ih =>
    rw [List.map_append, List.nodup_append] at hnodup
    obtain ⟨hbefore, _, hnew⟩ := hnodup
    rw [List.foldl_append, ih hbefore, List.foldl_cons, List.foldl_nil, insert, erase,
      List.eraseP_of_forall_not]
    intro other hother hsame
    exact hnew _ (List.mem_map_of_mem hother) _ (List.mem_singleton_self _)
      (of_decide_eq_true hsame)

/-- A collection keeps its promises exactly when it is the one that is built from its modules. -/
theorem consistent_iff_rebuilt_eq : set.Consistent ↔ set.rebuilt = set := by
  constructor
  · intro h
    have hmodules : set.modules.map ModuleDefinition.rebuilt = set.modules :=
      (List.map_congr_left fun m hm =>
        ModuleDefinition.indexed_iff_rebuilt_eq.mp (h.indexed m hm)).trans (List.map_id _)
    rw [rebuilt, hmodules, foldl_insert_of_nodup h.nodup]
  · intro h
    rw [← h]
    exact set.rebuilt_consistent

end ModuleSet

end Smi
