import Smi.Proofs.Compiler.Declaration

/-!
# Compiled units

Compiling a unit puts one module at the end of the collection, in place of an earlier module of its
name, and leaves all others as they are. The module holds what the symbols of the unit declare, and
an object whose clause led nowhere when it was declared is given the position to which its clause
leads in the end. What holds of every collection along a run of calls is proved for one unit.
-/

namespace Smi

/-- The clauses of all objects of a collection, in the order of compilation. -/
def ModuleSet.clauses (set : ModuleSet) : OidClause.Clauses :=
  set.objects.filterMap fun object => object.clause.map (object.name, ·)

/-- The clause of a name among objects of different names. -/
theorem ObjectDefinition.lookup_clauses {objects : List ObjectDefinition} {key clause : String}
    (hnodup : (objects.map ObjectDefinition.name).Nodup) :
    (objects.filterMap fun object => object.clause.map (object.name, ·)).lookup key = some clause ↔
      ∃ object ∈ objects, object.name = key ∧ object.clause = some clause := by
  induction objects with
  | nil => simp
  | cons first rest ih =>
    obtain ⟨hfirst, hrest⟩ := List.nodup_cons.mp hnodup
    rw [List.exists_mem_cons_iff, ← ih hrest]
    cases hclause : first.clause with
    | none => simp [hclause]
    | some own =>
      rw [List.filterMap_cons_some (by rw [hclause, Option.map_some]), List.lookup_cons]
      by_cases hkey : key = first.name
      · have hnone : ¬∃ object ∈ rest, object.name = key ∧ object.clause = some clause := by
          rintro ⟨object, hmem, hname, _⟩
          exact hfirst ((hname.trans hkey) ▸ List.mem_map_of_mem hmem)
        rw [hkey, beq_self_eq_true, Option.some.injEq]
        rw [← ih hrest, hkey] at hnone
        simp [hnone]
      · have hne : (key == first.name) = false := by simpa using hkey
        simp [hne, Ne.symm hkey]

/-- Where the names of all objects are different, each of them has the clause of its object. -/
theorem ModuleSet.lookup_clauses {set : ModuleSet} {object : ObjectDefinition}
    (hnodup : (set.objects.map ObjectDefinition.name).Nodup) (hobject : object ∈ set.objects) :
    set.clauses.lookup object.name = object.clause := by
  refine Option.ext fun clause => ?_
  rw [clauses, ObjectDefinition.lookup_clauses hnodup]
  constructor
  · rintro ⟨other, hother, hname, hclause⟩
    rwa [List.inj_on_of_nodup_map hnodup hobject hother hname.symm]
  · exact fun hclause => ⟨object, hobject, rfl, hclause⟩

namespace Draft

variable {others : ModuleSet} {d : Draft} {object : ObjectDefinition}
  {known : OidClause.Clauses}

/-- An object of a finished module. -/
def finished (known : OidClause.Clauses) (object : ObjectDefinition) : ObjectDefinition :=
  match object.oid, object.clause with
  | none, some clause => settle known clause object
  | _, _ => object

/-- Finishing a draft finishes each of its objects over the clauses of all modules. -/
theorem finish_eq (others : ModuleSet) (d : Draft) : d.finish others = { d.current with
    objects := d.current.objects.map (finished (clauses others d.current)) } :=
  rfl

/-- Finishing changes nothing but the position of an object. -/
theorem finished_eq (known : OidClause.Clauses) (object : ObjectDefinition) :
    ∃ oid nameSpace, finished known object =
      { object with oid := oid, nameSpace := nameSpace } := by
  unfold finished
  split
  · exact settle_eq known _ object
  · exact ⟨object.oid, object.nameSpace, rfl⟩

/-- A finished object keeps its name. -/
theorem name_finished (known : OidClause.Clauses) (object : ObjectDefinition) :
    (finished known object).name = object.name := by
  obtain ⟨_, _, heq⟩ := finished_eq known object
  rw [heq]

/-- A finished object keeps its clause. -/
theorem clause_finished (known : OidClause.Clauses) (object : ObjectDefinition) :
    (finished known object).clause = object.clause := by
  obtain ⟨_, _, heq⟩ := finished_eq known object
  rw [heq]

/-- A finished object leads to where it led before. -/
theorem leadsTo?_finished (clauses known : OidClause.Clauses) (object : ObjectDefinition) :
    (finished known object).leadsTo? clauses = object.leadsTo? clauses := by
  rw [ObjectDefinition.leadsTo?, ObjectDefinition.leadsTo?, clause_finished, name_finished]

/-- An object that stands where its clause led keeps its place, and another one is put where its
clause leads in the end. -/
theorem finished_standsAt (known : OidClause.Clauses) {earlier : OidClause.Clauses}
    (h : object.StandsAt (object.leadsTo? earlier)) :
    (finished known object).StandsAt (object.leadsTo? earlier <|> object.leadsTo? known) := by
  unfold finished
  cases hearlier : object.leadsTo? earlier with
  | some position =>
    rw [hearlier] at h
    have hoid : object.oid = some position.1 := h.1
    simp only [hoid]
    exact h
  | none =>
    rw [hearlier] at h
    have hoid : object.oid = none := h.1
    cases hclause : object.clause with
    | none =>
      simp only [hoid]
      simpa [ObjectDefinition.leadsTo?, hclause] using h
    | some clause =>
      -- The null object identifier has a position from the start, so this clause is another one.
      have hnull : clause ≠ "0 0" := fun hnull => by
        simp [ObjectDefinition.leadsTo?, hclause, hnull] at hearlier
      simp only [hoid, ObjectDefinition.leadsTo?, hclause, Option.bind_some, if_neg hnull]
      exact settle_standsAt h.1 h.2

/-- The clauses of a module are the same before and after it is finished. -/
theorem clauses_finish (others : ModuleSet) (d : Draft) :
    clauses others (d.finish others) = clauses others d.current := by
  rw [finish_eq, clauses, clauses, List.filterMap_append, List.filterMap_append,
    List.filterMap_map]
  congr 1
  refine List.filterMap_congr fun object _ => ?_
  rw [Function.comp_apply, name_finished, clause_finished]

end Draft

namespace Compiler

variable {c : Compiler} {table : SymbolTable}

/-! ### One unit -/

/-- The draft of the module of a unit when all its symbols have been read. -/
def draft (c : Compiler) (table : SymbolTable) : Draft :=
  Draft.readAll (c.modules.erase table.moduleName) (.start table.moduleName c.macros) []
    table.compileSequence

/-- The declarations of a unit, in their order. -/
def declarations (c : Compiler) (table : SymbolTable) : List Declaration :=
  Draft.declarations (c.modules.erase table.moduleName) (.start table.moduleName c.macros) []
    table.compileSequence

/-- The module to which a unit is compiled. -/
def moduleOf (c : Compiler) (table : SymbolTable) : ModuleDefinition :=
  (c.draft table).finish (c.modules.erase table.moduleName)

/-- Compiling a unit takes the old module of its name out and puts the new one behind the others. -/
theorem modules_compileTable (c : Compiler) (table : SymbolTable) :
    (c.compileTable table).modules =
      (c.modules.erase table.moduleName).insert (c.moduleOf table) :=
  rfl

/-- A compiled module is one of the modules. -/
theorem moduleOf_mem (c : Compiler) (table : SymbolTable) :
    c.moduleOf table ∈ (c.compileTable table).modules.modules :=
  List.mem_append_right _ (List.mem_singleton_self _)

/-- Apart from its imports, the draft of a unit is the empty module with the declared objects. -/
theorem exists_current_draft (c : Compiler) (table : SymbolTable) :
    ∃ imports, (c.draft table).current =
      { (ModuleDefinition.named table.moduleName).declareAll
          ((c.declarations table).map Declaration.object) with imports := imports } :=
  Draft.current_readAll _ _ _ _

/-- The objects of the draft of a unit are those it declares, one after the other. -/
theorem objects_draft (c : Compiler) (table : SymbolTable) : (c.draft table).current.objects =
    ((ModuleDefinition.named table.moduleName).declareAll
      ((c.declarations table).map Declaration.object)).objects := by
  obtain ⟨_, hcurrent⟩ := c.exists_current_draft table
  rw [hcurrent]

/-- The objects of a compiled module are the finished ones of its draft. -/
theorem objects_moduleOf (c : Compiler) (table : SymbolTable) :
    (c.moduleOf table).objects = (c.draft table).current.objects.map
      (Draft.finished (Draft.clauses (c.modules.erase table.moduleName)
        (c.draft table).current)) :=
  rfl

/-- A compiled module has the name of its unit. -/
theorem name_moduleOf (c : Compiler) (table : SymbolTable) :
    (c.moduleOf table).name = table.moduleName := by
  obtain ⟨_, hcurrent⟩ := c.exists_current_draft table
  rw [moduleOf, Draft.finish_eq, hcurrent]
  exact ModuleDefinition.name_declareAll _ _

/-- The names of a compiled module are those its unit declares. -/
theorem names_moduleOf (c : Compiler) (table : SymbolTable) : (c.moduleOf table).names =
    ((ModuleDefinition.named table.moduleName).declareAll
      ((c.declarations table).map Declaration.object)).names := by
  rw [ModuleDefinition.names, objects_moduleOf, objects_draft, List.map_map]
  exact List.map_congr_left fun object _ => Draft.name_finished _ object

/-- A compiled module finds its objects by their names. -/
theorem moduleOf_indexed (c : Compiler) (table : SymbolTable) : (c.moduleOf table).Indexed := by
  obtain ⟨_, hcurrent⟩ := c.exists_current_draft table
  have hindexed := (ModuleDefinition.named_indexed table.moduleName).declareAll
    ((c.declarations table).map Declaration.object)
  refine hindexed.of_eq (c.names_moduleOf table) ?_
  rw [moduleOf, Draft.finish_eq, hcurrent]

/-- The clauses that are known when all objects of a unit are declared are those of the collection
to which it is compiled. -/
theorem clauses_compileTable (hnodup : (c.modules.modules.map ModuleDefinition.name).Nodup)
    (table : SymbolTable) : (c.compileTable table).modules.clauses =
      Draft.clauses (c.modules.erase table.moduleName) (c.draft table).current := by
  have hfree : ∀ m ∈ (c.modules.erase table.moduleName).modules,
      ¬m.name = (c.moduleOf table).name := fun m hm => by
    rw [name_moduleOf]
    exact ModuleSet.name_ne_of_mem_erase hnodup hm
  have herase : (c.modules.erase table.moduleName).erase (c.moduleOf table).name =
      c.modules.erase table.moduleName := by
    rw [ModuleSet.erase, List.eraseP_of_forall_not (by simpa using hfree)]
  rw [← Draft.clauses_finish, modules_compileTable, ModuleSet.insert, herase, ModuleSet.clauses,
    ModuleSet.objects, List.flatMap_append, List.flatMap_singleton]
  rfl

/-- Each object is what was declared last under its name, stands where that name was declared first
and is finished when all objects are known. -/
theorem objects_moduleOf_eq (hnodup : (c.modules.modules.map ModuleDefinition.name).Nodup)
    (table : SymbolTable) : (c.moduleOf table).objects.map some =
      ((c.declarations table).map fun declaration => declaration.object.name).eraseDups.map
        fun name => (Declaration.last? (c.declarations table) name).map fun declaration =>
          Draft.finished (c.compileTable table).modules.clauses declaration.object := by
  rw [objects_moduleOf, objects_draft, ← clauses_compileTable hnodup]
  generalize (c.compileTable table).modules.clauses = known
  have hobjects := congrArg (List.map (Option.map (Draft.finished known)))
    (ModuleDefinition.objects_declareAll table.moduleName
      ((c.declarations table).map Declaration.object))
  rw [List.map_map, List.map_map, List.map_map] at hobjects
  rw [List.map_map]
  refine Eq.trans ?_ (hobjects.trans (List.map_congr_left fun name _ => ?_))
  · exact List.map_congr_left fun object _ => rfl
  · rw [Function.comp_apply, Declaration.lastNamed?_map, Option.map_map]
    rfl

/-- Every object of a compiled module is finished from the last declaration of its name. -/
theorem exists_declaration (hnodup : (c.modules.modules.map ModuleDefinition.name).Nodup)
    {object : ObjectDefinition} (hobject : object ∈ (c.moduleOf table).objects) :
    ∃ declaration, Declaration.last? (c.declarations table) object.name = some declaration ∧
      object = Draft.finished (c.compileTable table).modules.clauses declaration.object := by
  have hmem := List.mem_map_of_mem (f := some) hobject
  rw [objects_moduleOf_eq hnodup] at hmem
  obtain ⟨name, _, hname⟩ := List.mem_map.mp hmem
  obtain ⟨declaration, hlast, rfl⟩ := Option.map_eq_some_iff.mp hname
  refine ⟨declaration, ?_, rfl⟩
  have hsame := List.find?_some hlast
  rw [Draft.name_finished, of_decide_eq_true hsame, hlast]

/-- An object of a unit comes from its last declaration and stands where its clause led then, or
else where it leads in the end. -/
theorem exists_declaration_standsAt (hnodup : (c.modules.modules.map ModuleDefinition.name).Nodup)
    {object : ObjectDefinition} (hobject : object ∈ (c.moduleOf table).objects) :
    ∃ before declaration after, c.declarations table = before ++ declaration :: after ∧
      declaration.object.name = object.name ∧ declaration.object.clause = object.clause ∧
      (∀ later ∈ after, later.object.name ≠ object.name) ∧
      object.StandsAt (object.leadsTo? declaration.known <|>
        object.leadsTo? (c.compileTable table).modules.clauses) := by
  obtain ⟨declaration, hlast, hfinished⟩ := exists_declaration hnodup hobject
  obtain ⟨hname, before, after, hsplit, hafter⟩ := Declaration.exists_of_last? hlast
  have hmem : declaration ∈ c.declarations table := by simp [hsplit]
  have hstands := Draft.finished_standsAt (c.compileTable table).modules.clauses
    (Draft.standsAt_of_mem_declarations hmem)
  simp only [← Draft.leadsTo?_finished _ (c.compileTable table).modules.clauses
    declaration.object, ← hfinished] at hstands
  exact ⟨before, declaration, after, hsplit, hname, by rw [hfinished, Draft.clause_finished],
    hafter, hstands⟩

/-! ### Runs -/

/-- A call on a compiler. Compiling one unit is what compiling all of them does with each. -/
inductive Action where
  | addSource (unit text : String)
  | addSymbols (table : SymbolTable)
  | compileTable (table : SymbolTable)
  | compileAll

/-- The compiler after a call. -/
def apply (c : Compiler) : Action → Compiler
  | .addSource unit text => c.queue (.ofText unit text)
  | .addSymbols table => c.queue table
  | .compileTable table => c.compileTable table
  | .compileAll => c.compileAll

/-- The compiler to which calls lead from the one without modules and macros. -/
def run (actions : List Action) : Compiler :=
  actions.foldl apply empty

/-- Compiling all units keeps what compiling one unit keeps. -/
theorem modules_compileAll_induction {motive : ModuleSet → Prop}
    (hcompile : ∀ c table, motive (modules c) → motive (compileTable c table).modules)
    (h : motive c.modules) : motive c.compileAll.modules := by
  have hfold (tables : List SymbolTable) (c : Compiler) (h : motive c.modules) :
      motive (tables.foldl compileTable c).modules := by
    induction tables generalizing c with
    | nil => exact h
    | cons table rest ih => exact ih (c.compileTable table) (hcompile c table h)
  exact hfold c.pending _ h

/-- What compiling one unit keeps is kept along a run. -/
theorem modules_run_induction {motive : ModuleSet → Prop} (hempty : motive .empty)
    (hcompile : ∀ c table, motive (modules c) → motive (compileTable c table).modules)
    (actions : List Action) : motive (run actions).modules := by
  induction actions using List.reverseRecOn with
  | nil => exact hempty
  | append_singleton actions action ih =>
    rw [run, List.foldl_append]
    cases action with
    | addSource unit text => exact ih
    | addSymbols table => exact ih
    | compileTable table => exact hcompile _ table ih
    | compileAll => exact modules_compileAll_induction hcompile ih

/-- Compiling a unit keeps a collection consistent. -/
theorem compileTable_consistent (h : c.modules.Consistent) (table : SymbolTable) :
    (c.compileTable table).modules.Consistent :=
  (h.erase table.moduleName).insert (c.moduleOf_indexed table)

/-- The modules of a compiler are consistent after any calls. -/
theorem run_consistent (actions : List Action) : (run actions).modules.Consistent :=
  modules_run_induction ModuleSet.empty_consistent
    (fun _ table h => compileTable_consistent h table) actions

/-- The module of a unit comes last, and the modules of other names stay in their order. -/
theorem modules_compileTable_eq (hnodup : (c.modules.modules.map ModuleDefinition.name).Nodup)
    (table : SymbolTable) : (c.compileTable table).modules.modules =
      c.modules.modules.filter (fun m => m.name ≠ table.moduleName) ++ [c.moduleOf table] := by
  have hnodup' : ((c.modules.erase table.moduleName).modules.map ModuleDefinition.name).Nodup :=
    hnodup.sublist (List.eraseP_sublist.map _)
  rw [modules_compileTable, ModuleSet.modules_insert hnodup', name_moduleOf,
    ModuleSet.modules_erase hnodup, List.filter_filter]
  simp

end Compiler

/-! ### Collections of modules -/

/-- A collection of modules that calls lead to. Modules come from compilers, or they are new and
empty, and they may be put into any collection. -/
inductive ModuleSet.Obtained : ModuleSet → Prop where
  | compiled (actions : List Compiler.Action) : Obtained (Compiler.run actions).modules
  | insert {set source : ModuleSet} {m : ModuleDefinition} (hset : Obtained set)
      (hsource : Obtained source) (hm : m ∈ source.modules) : Obtained (set.insert m)
  | insertNew {set : ModuleSet} (hset : Obtained set) (name : String) :
      Obtained (set.insert (.named name))
  | erase {set : ModuleSet} (hset : Obtained set) (name : String) : Obtained (set.erase name)

/-- Every collection that calls lead to is consistent. -/
theorem ModuleSet.Obtained.consistent {set : ModuleSet} (h : set.Obtained) : set.Consistent := by
  induction h with
  | compiled actions => exact Compiler.run_consistent actions
  | insert _ _ hm ihset ihsource => exact ihset.insert (ihsource.indexed _ hm)
  | insertNew _ name ih => exact ih.insert (ModuleDefinition.named_indexed name)
  | erase _ name ih => exact ih.erase name

/-- In every collection the modules have different names, and in every module the objects have
different names and each is found at the place that the index gives. Compiling a unit leaves the
other modules as they are and in their order and puts the module of the unit last, in which each
object stands where its name was declared first and is what was declared last. -/
theorem obtained_store {set : ModuleSet} (h : set.Obtained) (actions : List Compiler.Action)
    (table : SymbolTable) :
    ((set.modules.map ModuleDefinition.name).Nodup ∧
      ∀ m ∈ set.modules, m.names.Nodup ∧
        (∀ name place, m.places.get? name = some place ↔ m.names[place]? = some name) ∧
        (∀ name place, m.places.get? name = some place → place < m.size) ∧
        ∀ name object, m.object? name = some object ↔
          object ∈ m.objects ∧ object.name = name) ∧
    let c := Compiler.run actions
    let later := (c.compileTable table).modules
    later.Obtained ∧ ∃ m, m.name = table.moduleName ∧
      later.modules = c.modules.modules.filter (fun other => other.name ≠ table.moduleName) ++ [m] ∧
      m.objects.map some =
        ((c.declarations table).map fun declaration => declaration.object.name).eraseDups.map
          fun name => (Declaration.last? (c.declarations table) name).map fun declaration =>
            Draft.finished later.clauses declaration.object := by
  refine ⟨⟨h.consistent.nodup, fun m hm => ?_⟩, ?_⟩
  · have hindexed := h.consistent.indexed m hm
    exact ⟨hindexed.nodup, hindexed, fun _ _ => hindexed.lt_size,
      fun _ _ => hindexed.object?_eq_some_iff⟩
  · have hnodup := (Compiler.run_consistent actions).nodup
    refine ⟨?_, (Compiler.run actions).moduleOf table, Compiler.name_moduleOf _ table,
      Compiler.modules_compileTable_eq hnodup table, Compiler.objects_moduleOf_eq hnodup table⟩
    have hrun : Compiler.run (actions ++ [.compileTable table]) =
        (Compiler.run actions).compileTable table := by
      rw [Compiler.run, List.foldl_append]
      rfl
    exact hrun ▸ .compiled (actions ++ [.compileTable table])

/-- A unit that declares a name again, behind an object that stands below it. -/
def SymbolTable.readings : SymbolTable where
  unit := "READINGS-MIB"
  declaredName := none
  symbols := [
    "size", "OBJECT IDENTIFIER", "::=", "{ iso 1 }",
    "rate", "OBJECT IDENTIFIER", "::=", "{ size 5 }",
    "size", "OBJECT IDENTIFIER", "::=", "{ iso 2 }"].map (⟨·, .origin⟩)

/-- A module that is compiled again moves behind the other one and holds two objects. -/
theorem obtained_store_readings :
    let set := (Compiler.run [.compileTable .readings]).modules.insert (.named "NOTES-MIB")
    let c := Compiler.run [.compileTable .readings, .compileTable ⟨"NOTES-MIB", none, []⟩]
    set.Obtained ∧ (set.modules.map ModuleDefinition.name).Nodup ∧
      ∃ m, (c.compileTable .readings).modules.modules = [.named "NOTES-MIB", m] ∧
        m.objects.map (fun object => (object.name, object.clause)) =
          [("size", some "iso 2"), ("rate", some "size 5")] := by
  intro set c
  have hset : set.Obtained := .insertNew (.compiled _) _
  obtain ⟨⟨hnames, _⟩, _, m, _, hmodules, hobjects⟩ := obtained_store hset
    [.compileTable .readings, .compileTable ⟨"NOTES-MIB", none, []⟩] .readings
  have hkept : c.modules.modules.filter (fun m => m.name ≠ SymbolTable.readings.moduleName) =
      [.named "NOTES-MIB"] := by decide +kernel
  refine ⟨hset, hnames, m, hmodules.trans (congrArg (· ++ [m]) hkept), ?_⟩
  have hpairs := congrArg (List.map (Option.map fun object => (object.name, object.clause)))
    hobjects
  rw [List.map_map] at hpairs
  refine (List.map_inj_right fun _ _ => Option.some.inj).mp ?_
  rw [List.map_map]
  exact hpairs.trans (by decide +kernel)

end Smi
