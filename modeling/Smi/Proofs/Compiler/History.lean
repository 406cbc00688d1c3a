import Mathlib.Data.List.Flatten
import Smi.Proofs.Compiler.Unit

/-!
# The units of a run

A run of calls compiles units one after the other. Each module of the collection to which it leads
was compiled from one of these units, and the modules before it were in the collection at that time.
The objects are those that the units declare. Where no name is declared twice along the whole run,
the names are different at every time, and a name has the same clause whenever it has one.
-/

namespace Smi.Compiler

variable {c : Compiler} {table : SymbolTable} {units before : List SymbolTable}
  {m : ModuleDefinition} {earlier later : List ModuleDefinition} {object other : ObjectDefinition}

/-! ### Units -/

/-- The units that calls compile, in this order, if some units are waiting. -/
def unitsFrom (waiting : List SymbolTable) : List Action → List SymbolTable
  | [] => []
  | .addSource unit text :: rest => unitsFrom (waiting ++ [.ofText unit text]) rest
  | .addSymbols table :: rest => unitsFrom (waiting ++ [table]) rest
  | .compileTable table :: rest => table :: unitsFrom waiting rest
  | .compileAll :: rest => waiting ++ unitsFrom [] rest

/-- The units that a run compiles, in this order. -/
def unitsOf (actions : List Action) : List SymbolTable :=
  unitsFrom [] actions

/-- The compiler that has compiled some units one after the other. -/
def ofUnits (units : List SymbolTable) : Compiler :=
  units.foldl compileTable empty

/-- One more unit is compiled behind all others. -/
theorem ofUnits_concat (units : List SymbolTable) (table : SymbolTable) :
    ofUnits (units ++ [table]) = (ofUnits units).compileTable table := by
  rw [ofUnits, List.foldl_append]
  rfl

/-- Compiling units does not depend on the units that are waiting. -/
theorem foldl_compileTable_waiting (c : Compiler) (units waiting : List SymbolTable) :
    units.foldl compileTable { c with pending := waiting } =
      { units.foldl compileTable c with pending := waiting } := by
  induction units generalizing c with
  | nil => rfl
  | cons table rest ih => exact ih (c.compileTable table)

/-- Actions lead to the modules of the units that they compile. -/
theorem modules_foldl_apply (c : Compiler) (actions : List Action) :
    (actions.foldl apply c).modules =
      ((unitsFrom c.pending actions).foldl compileTable c).modules := by
  induction actions generalizing c with
  | nil => rfl
  | cons action rest ih =>
    rw [List.foldl_cons, ih]
    cases action with
    | addSource unit text => rw [apply, queue, foldl_compileTable_waiting, unitsFrom]
    | addSymbols table => rw [apply, queue, foldl_compileTable_waiting, unitsFrom]
    | compileTable table => rfl
    | compileAll =>
      have hall : c.compileAll = { c.pending.foldl Compiler.compileTable c with pending := [] } :=
        foldl_compileTable_waiting c _ _
      rw [apply, hall, foldl_compileTable_waiting, unitsFrom, List.foldl_append]

/-- A run leads to the modules of its units. -/
theorem modules_run (actions : List Action) :
    (run actions).modules = (ofUnits (unitsOf actions)).modules :=
  modules_foldl_apply empty actions

/-! ### Modules -/

/-- Units are compiled to consistent modules. -/
theorem ofUnits_consistent (units : List SymbolTable) : (ofUnits units).modules.Consistent := by
  induction units using List.reverseRecOn with
  | nil => exact ModuleSet.empty_consistent
  | append_singleton units table ih =>
    rw [ofUnits_concat]
    exact compileTable_consistent ih table

/-- One more unit replaces the module of its name and puts its own behind all others. -/
theorem modules_ofUnits_concat (units : List SymbolTable) (table : SymbolTable) :
    (ofUnits (units ++ [table])).modules.modules =
      (ofUnits units).modules.modules.filter (fun m => m.name ≠ table.moduleName) ++
        [(ofUnits units).moduleOf table] := by
  rw [ofUnits_concat, modules_compileTable_eq (ofUnits_consistent units).nodup]

/-- Each module was compiled from a unit, and the modules before it were in the collection then. -/
theorem exists_unit (h : (ofUnits units).modules.modules = earlier ++ m :: later) :
    ∃ before table after, units = before ++ table :: after ∧ m = (ofUnits before).moduleOf table ∧
      ∀ other ∈ earlier, other ∈ (ofUnits (before ++ [table])).modules.modules := by
  induction units using List.reverseRecOn generalizing earlier later with
  | nil => exact absurd h.symm (List.append_ne_nil_of_right_ne_nil _ (List.cons_ne_nil _ _))
  | append_singleton units table ih =>
    rcases List.eq_nil_or_concat later with rfl | ⟨rest, last, rfl⟩
    · have hmodules := h
      rw [modules_ofUnits_concat] at h
      obtain ⟨hfilter, hm⟩ := List.append_inj' h rfl
      refine ⟨units, table, [], rfl, (List.singleton_inj.mp hm).symm, fun other hother => ?_⟩
      rw [hmodules]
      exact List.mem_append_left _ hother
    · rw [modules_ofUnits_concat, List.concat_eq_append, ← List.cons_append,
        ← List.append_assoc] at h
      obtain ⟨hfilter, _⟩ := List.append_inj' h rfl
      obtain ⟨first, second, hsplit, hearlier, hrest⟩ := List.filter_eq_append_iff.mp hfilter
      obtain ⟨passed, others, hsecond, _, _, _⟩ := List.filter_eq_cons_iff.mp hrest
      rw [hsecond, ← List.append_assoc] at hsplit
      obtain ⟨before, unit, after, hunits, hm, hbefore⟩ := ih hsplit
      refine ⟨before, unit, after ++ [table], by simp [hunits], hm, fun other hother => ?_⟩
      rw [← hearlier] at hother
      exact hbefore other (List.mem_append_left _ (List.mem_filter.mp hother).1)

/-- Every module is that of some unit. -/
theorem name_mem_of_mem_modules (hm : m ∈ (ofUnits units).modules.modules) :
    m.name ∈ units.map SymbolTable.moduleName := by
  obtain ⟨earlier, later, hsplit⟩ := List.mem_iff_append.mp hm
  obtain ⟨before, table, after, rfl, rfl, _⟩ := exists_unit hsplit
  rw [name_moduleOf]
  exact List.mem_map_of_mem (by simp)

/-- Modules stay where no module is compiled again. -/
theorem mem_modules_append {after : List SymbolTable}
    (hnodup : ((units ++ after).map SymbolTable.moduleName).Nodup)
    (hm : m ∈ (ofUnits units).modules.modules) :
    m ∈ (ofUnits (units ++ after)).modules.modules := by
  induction after using List.reverseRecOn with
  | nil => rwa [List.append_nil]
  | append_singleton after table ih =>
    rw [← List.append_assoc, List.map_append] at hnodup
    obtain ⟨hbefore, _, hnew⟩ := List.nodup_append.mp hnodup
    have hkept := ih hbefore
    rw [← List.append_assoc, modules_ofUnits_concat]
    refine List.mem_append_left _ (List.mem_filter.mpr ⟨hkept, decide_eq_true ?_⟩)
    exact hnew _ (name_mem_of_mem_modules hkept) _ (List.mem_singleton_self _)

/-! ### Declarations -/

/-- What units declare that a compiler compiles one after the other. -/
def declaredFrom (c : Compiler) : List SymbolTable → List ObjectDefinition
  | [] => []
  | table :: rest =>
    (c.declarations table).map Declaration.object ++ declaredFrom (c.compileTable table) rest

/-- What units declare that are compiled one after the other. -/
def declared (units : List SymbolTable) : List ObjectDefinition :=
  declaredFrom empty units

/-- What units declare is declared by the first and then by the others. -/
theorem declaredFrom_append (c : Compiler) (units after : List SymbolTable) :
    declaredFrom c (units ++ after) =
      declaredFrom c units ++ declaredFrom (units.foldl compileTable c) after := by
  induction units generalizing c with
  | nil => rfl
  | cons table rest ih =>
    rw [List.cons_append, declaredFrom, ih, declaredFrom, List.append_assoc]
    rfl

/-- What units declare from the start is declared by the first and then by the others. -/
theorem declared_append (units after : List SymbolTable) :
    declared (units ++ after) = declared units ++ declaredFrom (ofUnits units) after :=
  declaredFrom_append empty units after

/-- One more unit adds its declarations behind all others. -/
theorem declared_concat (units : List SymbolTable) (table : SymbolTable) :
    declared (units ++ [table]) =
      declared units ++ ((ofUnits units).declarations table).map Declaration.object := by
  rw [declared_append, declaredFrom, declaredFrom, List.append_nil]

/-- The objects of a collection have names that its units declare, in their order. -/
theorem sublist_declared (units : List SymbolTable) :
    List.Sublist ((ofUnits units).modules.objects.map ObjectDefinition.name)
      ((declared units).map ObjectDefinition.name) := by
  induction units using List.reverseRecOn with
  | nil => exact List.Sublist.slnil
  | append_singleton units table ih =>
    rw [ModuleSet.objects, modules_ofUnits_concat, List.flatMap_append, List.flatMap_singleton,
      declared_concat, List.map_append, List.map_append]
    refine List.Sublist.append ?_ ?_
    · exact ((List.filter_sublist.flatMap _).map _).trans ih
    · rw [← ModuleDefinition.names, names_moduleOf]
      exact ModuleDefinition.sublist_names_declareAll _ _

/-- An object has the name and the clause of one that is declared. -/
theorem exists_declared (hobject : object ∈ (ofUnits units).modules.objects) :
    ∃ given ∈ declared units, given.name = object.name ∧ given.clause = object.clause := by
  obtain ⟨m, hm, hmem⟩ := List.mem_flatMap.mp hobject
  obtain ⟨earlier, later, hsplit⟩ := List.mem_iff_append.mp hm
  obtain ⟨before, table, after, rfl, rfl, _⟩ := exists_unit hsplit
  obtain ⟨declaration, hlast, hfinished⟩ :=
    exists_declaration (ofUnits_consistent before).nodup hmem
  obtain ⟨hname, first, rest, hdeclarations, _⟩ := Declaration.exists_of_last? hlast
  refine ⟨declaration.object, ?_, hname, by rw [hfinished, Draft.clause_finished]⟩
  rw [declared_append, declaredFrom, hdeclarations]
  simp

/-! ### Names that are declared once -/

section Once

variable (honce : ((declared units).map ObjectDefinition.name).Nodup)
include honce

/-- Whenever objects have the same name they have the same clause. -/
theorem clause_eq_of_name_eq {first second : List SymbolTable} (hfirst : first <+: units)
    (hsecond : second <+: units) (hobject : object ∈ (ofUnits first).modules.objects)
    (hother : other ∈ (ofUnits second).modules.objects) (hname : object.name = other.name) :
    object.clause = other.clause := by
  have hmem {part : List SymbolTable} (hpart : part <+: units) {given : ObjectDefinition}
      (hgiven : given ∈ declared part) : given ∈ declared units := by
    obtain ⟨after, rfl⟩ := hpart
    rw [declared_append]
    exact List.mem_append_left _ hgiven
  obtain ⟨a, ha, haName, haClause⟩ := exists_declared hobject
  obtain ⟨b, hb, hbName, hbClause⟩ := exists_declared hother
  have hsame : a.name = b.name := by rw [haName, hbName, hname]
  rw [← haClause, ← hbClause,
    List.inj_on_of_nodup_map honce (hmem hfirst ha) (hmem hsecond hb) hsame]

/-- The objects at any point of a compilation have different names. -/
theorem nodup_objects (hbefore : before <+: units) :
    ((ofUnits before).modules.objects.map ObjectDefinition.name).Nodup := by
  obtain ⟨after, rfl⟩ := hbefore
  rw [declared_append, List.map_append] at honce
  exact (sublist_declared before).nodup (List.nodup_append.mp honce).1

/-- The clause of a name is that of its object. -/
theorem lookup_eq_some_iff (hbefore : before <+: units) {key clause : String} :
    (ofUnits before).modules.clauses.lookup key = some clause ↔
      ∃ object ∈ (ofUnits before).modules.objects,
        object.name = key ∧ object.clause = some clause :=
  ObjectDefinition.lookup_clauses (nodup_objects honce hbefore)

/-- Whenever a name has a clause it has the same one. -/
theorem lookup_agree {first second : List SymbolTable} (hfirst : first <+: units)
    (hsecond : second <+: units) {key a b : String}
    (ha : (ofUnits first).modules.clauses.lookup key = some a)
    (hb : (ofUnits second).modules.clauses.lookup key = some b) : a = b := by
  obtain ⟨object, hobject, hobjectName, hobjectClause⟩ := (lookup_eq_some_iff honce hfirst).mp ha
  obtain ⟨other, hother, hotherName, hotherClause⟩ := (lookup_eq_some_iff honce hsecond).mp hb
  refine Option.some.inj ?_
  rw [← hobjectClause, ← hotherClause]
  exact clause_eq_of_name_eq honce hfirst hsecond hobject hother
    (hobjectName.trans hotherName.symm)

end Once

end Smi.Compiler
