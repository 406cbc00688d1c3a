import Mathlib.Data.List.Forall2
import Smi.Compiler.Basic
import Smi.Proofs.Compiler.AssignmentText

/-!
# Compiling assignments

A module of assignments is compiled to one object for each of them, in their order. An object has
the position to which the path of its assignment leads, whether its ancestors are assigned before it
or behind it, and no position if there is no path.
-/

namespace Smi

namespace Draft

variable {others : ModuleSet} {d : Draft} {behind rest : List String} {symbol : String}

/-- The symbols that act outside imports and macro definitions. -/
def actingSymbols : List String :=
  ["::=", "IMPORTS"]

/-- Any other symbol does nothing outside imports and macro definitions. -/
theorem read_eq_self (himporting : d.importing = .none) (hscope : d.scope = none)
    (hsymbol : symbol ∉ actingSymbols) : d.read others behind symbol rest = d := by
  unfold read
  rw [if_neg (by simp [himporting])]
  split
  · exact absurd (by decide) hsymbol
  · rw [endScope, hscope]
  · exact absurd (by decide) hsymbol
  · rfl

end Draft

namespace OidAssignment

variable {moduleName : String} {all done : List OidAssignment} {a : OidAssignment}
  {others : ModuleSet} {d : Draft} {behind rest : List String} {path : List PathStep}

/-- The object of an assignment in a module, at the end of a path if there is one. -/
def object (moduleName : String) (a : OidAssignment) (path : Option (List PathStep)) :
    ObjectDefinition where
  name := a.name
  moduleName := moduleName
  macroName := none
  clause := some a.clause
  oid := path.map OidClause.dottedNumbers
  nameSpace := path.map OidClause.dottedNames
  fields := .empty

/-! ### Reading an assignment -/

/-- The clause of an assignment is what stands in its braces. -/
theorem trim_braced (a : OidAssignment) :
    Text.trim (Text.removeFirst '}' (Text.removeFirst '{' a.braced)) = a.clause := by
  have hbrace : '}' ∉ ' ' :: a.clause.toList ++ [' '] := fun hmem => by
    have hbody := mem_body hmem
    revert hbody
    decide
  have hopened : (Text.removeFirst '{' a.braced).toList =
      ' ' :: a.clause.toList ++ [' '] ++ ['}'] := by
    rw [Text.removeFirst, String.toList_ofList, braced_toList]
    rfl
  have hclosed : (Text.removeFirst '}' (Text.removeFirst '{' a.braced)).toList =
      [' '] ++ a.clause.toList ++ [' '] := by
    rw [Text.removeFirst, String.toList_ofList, hopened, List.erase_append_right _ hbrace]
    simp
  have hhead : ∀ c ∈ a.clause.toList.head?, Text.isBlank c = false := fun c hc => by
    rw [clause_toList, List.head?_append_of_ne_nil _ a.parent_identifier.nonempty] at hc
    exact a.parent_identifier.isBlank_eq_false (List.mem_of_mem_head? hc)
  have hlast : ∀ c ∈ a.clause.toList.getLast?, Text.isBlank c = false := fun c hc => by
    rw [clause_toList, List.append_cons,
      List.getLast?_append_of_ne_nil _ (Text.toString_ne_nil _)] at hc
    exact Text.isBlank_of_isAlphanum (Text.isAlphanum_of_mem_toString (List.mem_of_mem_getLast? hc))
  have hspace : ∀ c ∈ [' '], Text.isBlank c = true := List.all_eq_true.mp rfl
  rw [Text.trim, hclosed, Text.trimChars_append hspace hspace
    (by simp [clause_toList]) hhead hlast, String.ofList_toList]

/-- The clause of an assignment is not that of the null identifier. -/
theorem clause_ne_null (a : OidAssignment) : a.clause ≠ "0 0" := fun hnull => by
  have hhead : a.clause.toList.head? = a.parent.toList.head? := by
    rw [clause_toList, List.head?_append_of_ne_nil _ a.parent_identifier.nonempty]
  rw [hnull] at hhead
  exact a.parent_identifier.head?_ne (c := '0') (by decide) hhead.symm

/-- The object that a clause is settled to is at the end of the path, if there is one. -/
theorem settle_eq (clauses : OidClause.Clauses) (a : OidAssignment) (moduleName : String) :
    { Draft.settle clauses a.clause (.bare a.name moduleName) with clause := some a.clause } =
      a.object moduleName (OidClause.path? clauses a.clause a.name) := by
  have hname : (ObjectDefinition.bare a.name moduleName).name = a.name := rfl
  rw [Draft.settle, hname]
  cases OidClause.path? clauses a.clause a.name <;> rfl

/-- Settling an object without a position puts it at the end of the path, if there is one. -/
theorem settle_object (clauses : OidClause.Clauses) (a : OidAssignment) (moduleName : String) :
    Draft.settle clauses a.clause (a.object moduleName none) =
      a.object moduleName (OidClause.path? clauses a.clause a.name) := by
  have hname : (a.object moduleName none).name = a.name := rfl
  rw [Draft.settle, hname]
  cases OidClause.path? clauses a.clause a.name <;> rfl

/-- Reading `::=` between the keyword and the braces declares the object of an assignment. -/
theorem read_assign (himporting : d.importing = .none) (hscope : d.scope = none) :
    d.read others ("OBJECT IDENTIFIER" :: a.name :: behind) "::=" (a.braced :: rest) =
      d.declare (a.object d.current.name
        (OidClause.path? (Draft.clauses others d.current) a.clause a.name)) := by
  have hbrace : Text.beginsWith '{' a.braced = true := by
    rw [Text.beginsWith, braced_toList]
    rfl
  have hsubject : d.subject? ("OBJECT IDENTIFIER" :: a.name :: behind) = some ⟨a.name, none⟩ := rfl
  have hread : d.read others ("OBJECT IDENTIFIER" :: a.name :: behind) "::=" (a.braced :: rest) =
      Draft.assignClause others d ("OBJECT IDENTIFIER" :: a.name :: behind) a.braced := by
    rw [Draft.read, if_neg (by simp [himporting])]
    simp only [Draft.assign, hbrace, if_true]
  rw [hread, Draft.assignClause, hsubject, trim_braced]
  simp only [hscope, if_neg a.clause_ne_null, settle_eq]

/-- The symbols of an assignment declare its object. -/
theorem readAll_symbols (himporting : d.importing = .none) (hscope : d.scope = none) :
    Draft.readAll others d behind (a.symbols ++ rest) =
      Draft.readAll others (d.declare (a.object d.current.name
        (OidClause.path? (Draft.clauses others d.current) a.clause a.name)))
        (a.symbols.reverse ++ behind) rest := by
  have hname : a.name ∉ Draft.actingSymbols := a.name_identifier.not_mem_of_head? (by decide)
  have hbraced : a.braced ∉ Draft.actingSymbols := braced_not_mem (by decide)
  simp only [symbols, List.cons_append, List.nil_append, Draft.readAll]
  rw [Draft.read_eq_self himporting hscope hname,
    Draft.read_eq_self himporting hscope (by decide : "OBJECT IDENTIFIER" ∉ Draft.actingSymbols),
    read_assign himporting hscope,
    Draft.read_eq_self (d := d.declare _) himporting hscope hbraced]
  rfl

/-! ### Reading all assignments -/

/-- Whether an object is that of an assignment, with a position only where the path leads. -/
def IsDraft (all : List OidAssignment) (moduleName : String) (a : OidAssignment)
    (o : ObjectDefinition) : Prop :=
  ∃ position, o = a.object moduleName position ∧ ∀ path ∈ position, Path all a path

/-- Whether the first assignments of all have been read: each of them has its object, in their
order. -/
structure Drafted (all : List OidAssignment) (moduleName : String) (done : List OidAssignment)
    (d : Draft) : Prop where
  importing : d.importing = .none
  scope : d.scope = none
  named : d.current.name = moduleName
  objects : List.Forall₂ (IsDraft all moduleName) done d.current.objects
  places : ∀ key ∉ done.map OidAssignment.name, d.current.places.get? key = none

/-- The clauses of the objects of assignments are those of the assignments. -/
theorem clauses_eq {m : ModuleDefinition}
    (hobjects : List.Forall₂ (IsDraft all moduleName) done m.objects) :
    Draft.clauses .empty m = done.map fun a => (a.name, a.clause) := by
  have hobjectsOnly : Draft.clauses .empty m =
      m.objects.filterMap fun o => o.clause.map (o.name, ·) := rfl
  rw [hobjectsOnly]
  generalize m.objects = objects at hobjects
  induction hobjects with
  | nil => rfl
  | cons hfirst _ ih =>
    obtain ⟨position, rfl, _⟩ := hfirst
    rw [List.filterMap_cons, ih]
    rfl

/-- What a clause of some of the assignments is found for. -/
theorem exists_of_lookup (hsub : ∀ b ∈ done, b ∈ all) (key clause : String)
    (h : (done.map fun b => (b.name, b.clause)).lookup key = some clause) :
    ∃ b ∈ all, b.name = key ∧ b.clause = clause := by
  obtain ⟨_, _, hsplit, _⟩ := List.lookup_eq_some_iff.mp h
  have hmem : (key, clause) ∈ done.map fun b => (b.name, b.clause) := by simp [hsplit]
  obtain ⟨b, hb, hpair⟩ := List.mem_map.mp hmem
  obtain ⟨hname, hclause⟩ := Prod.mk.inj hpair
  exact ⟨b, hsub b hb, hname, hclause⟩

/-- One more assignment is read. -/
theorem Drafted.declare (h : Drafted all moduleName done d) (hsub : ∀ b ∈ done, b ∈ all)
    (hnew : a.name ∉ done.map OidAssignment.name) :
    Drafted all moduleName (done ++ [a]) (d.declare (a.object d.current.name
      (OidClause.path? (Draft.clauses .empty d.current) a.clause a.name))) := by
  have hdraft : IsDraft all moduleName a (a.object d.current.name
      (OidClause.path? (Draft.clauses .empty d.current) a.clause a.name)) := by
    refine ⟨_, by rw [h.named], fun path hpath => ?_⟩
    rw [clauses_eq h.objects] at hpath
    exact path_of_leads (exists_of_lookup hsub) (OidClause.path?_eq_some_iff.mp hpath)
  have hplace : d.current.places.get? a.name = none := h.places a.name hnew
  generalize a.object d.current.name _ = object at hdraft
  obtain ⟨position, rfl, _⟩ := id hdraft
  have hinsert : d.current.insert (a.object moduleName position) = { d.current with
      objects := d.current.objects ++ [a.object moduleName position]
      places := d.current.places.insert a.name d.current.objects.length } := by
    rw [ModuleDefinition.insert, show (a.object moduleName position).name = a.name from rfl, hplace]
  refine ⟨h.importing, h.scope, ?_, ?_, fun key hkey => ?_⟩
  · rw [Draft.declare, hinsert, h.named]
  · rw [Draft.declare, hinsert]
    exact List.rel_append h.objects (.cons hdraft .nil)
  · simp only [List.map_append, List.map_cons, List.map_nil, List.mem_append, List.mem_singleton,
      not_or] at hkey
    rw [Draft.declare, hinsert]
    exact (OrderedMap.get?_insert _ _ _ _).trans (by rw [if_neg hkey.2, h.places key hkey.1])

/-- The symbols of all assignments that remain are read. -/
theorem Drafted.readAll {remaining : List OidAssignment} (h : Drafted all moduleName done d)
    (hall : done ++ remaining = all) (hdistinct : (all.map OidAssignment.name).Nodup)
    (behind rest : List String) :
    ∃ last behind', Drafted all moduleName all last ∧
      Draft.readAll .empty d behind (remaining.flatMap symbols ++ rest) =
        Draft.readAll .empty last behind' rest := by
  induction remaining generalizing done d behind with
  | nil =>
    rw [List.append_nil] at hall
    exact ⟨d, behind, hall ▸ h, rfl⟩
  | cons a others ih =>
    have hnew : a.name ∉ done.map OidAssignment.name := fun hmem => by
      rw [← hall, List.map_append, List.map_cons] at hdistinct
      exact (List.nodup_append.mp hdistinct).2.2 _ hmem _ List.mem_cons_self rfl
    have hsub : ∀ b ∈ done, b ∈ all := fun b hb => hall ▸ List.mem_append_left _ hb
    have hnext := h.declare (a := a) hsub hnew
    rw [List.flatMap_cons, List.append_assoc, readAll_symbols h.importing h.scope]
    exact ih hnext (by rw [List.append_assoc, List.singleton_append, hall]) _

/-! ### The compiled module -/

/-- Whether an object is compiled from an assignment: it has the clause of the assignment, the
position at the end of its path if there is one, and no position if the ancestors come back or leave
the assignments. -/
structure IsCompiled (all : List OidAssignment) (moduleName : String) (a : OidAssignment)
    (o : ObjectDefinition) : Prop where
  name : o.name = a.name
  moduleName : o.moduleName = moduleName
  macroName : o.macroName = none
  clause : o.clause = some a.clause
  fields : o.fields = .empty
  placed : ∀ path, Path all a path →
    o.oid = some (OidClause.dottedNumbers path) ∧ o.nameSpace = some (OidClause.dottedNames path)
  unplaced : a.IsCyclic all ∨ a.IsDangling all → o.oid = none ∧ o.nameSpace = none

/-- Where the names are different, the clause of an assignment is found under its name. -/
theorem lookup_of_mem (hdistinct : (all.map name).Nodup) (ha : a ∈ all) :
    (all.map fun b => (b.name, b.clause)).lookup a.name = some a.clause := by
  obtain ⟨before, behind, rfl⟩ := List.append_of_mem ha
  refine List.lookup_eq_some_iff.mpr ⟨before.map fun b => (b.name, b.clause),
    behind.map fun b => (b.name, b.clause), by simp, fun pair hpair => ?_⟩
  obtain ⟨b, hb, rfl⟩ := List.mem_map.mp hpair
  rw [List.map_append, List.map_cons] at hdistinct
  have hne := (List.nodup_append.mp hdistinct).2.2 _ (List.mem_map_of_mem hb) _ List.mem_cons_self
  simpa using hne.symm

/-- The object at the end of the path is compiled from its assignment. -/
theorem isCompiled_object (hdistinct : (all.map name).Nodup) {position : Option (List PathStep)}
    (hposition : ∀ path, position = some path ↔ Path all a path) :
    IsCompiled all moduleName a (a.object moduleName position) where
  name := rfl
  moduleName := rfl
  macroName := rfl
  clause := rfl
  fields := rfl
  placed path hpath := by
    rw [(hposition path).mpr hpath]
    exact ⟨rfl, rfl⟩
  unplaced hnot := by
    have hnone : position = none := Option.eq_none_iff_forall_ne_some.mpr fun path hpath =>
      (exists_path_iff hdistinct).mp ⟨path, (hposition path).mp hpath⟩ hnot
    rw [hnone]
    exact ⟨rfl, rfl⟩

/-- Along the clauses of all assignments just the path of an assignment is found. -/
theorem path?_eq_some_iff (hdistinct : (all.map name).Nodup) :
    OidClause.path? (all.map fun b => (b.name, b.clause)) a.clause a.name = some path ↔
      Path all a path :=
  OidClause.path?_eq_some_iff.trans ⟨path_of_leads (exists_of_lookup fun _ hb => hb),
    Path.leads fun _ hb => lookup_of_mem hdistinct hb⟩

/-- A draft whose position is looked for once more, along the clauses of all assignments, is
compiled. -/
theorem IsDraft.isCompiled (hdistinct : (all.map name).Nodup) {o : ObjectDefinition}
    (h : IsDraft all moduleName a o) :
    IsCompiled all moduleName a (match o.oid, o.clause with
      | none, some clause => Draft.settle (all.map fun b => (b.name, b.clause)) clause o
      | _, _ => o) := by
  obtain ⟨position, rfl, hposition⟩ := h
  cases position with
  | some path =>
    have hpath := hposition path rfl
    exact isCompiled_object hdistinct fun other => ⟨fun hother => Option.some.inj hother ▸ hpath,
      fun hother => by rw [hpath.unique hdistinct hother]⟩
  | none =>
    have hcompiled : IsCompiled all moduleName a (Draft.settle (all.map fun b => (b.name, b.clause))
        a.clause (a.object moduleName none)) := by
      rw [settle_object]
      exact isCompiled_object hdistinct fun _ => path?_eq_some_iff hdistinct
    exact hcompiled

/-- At the start no assignment has been read. -/
theorem start_drafted (all : List OidAssignment) (moduleName : String) :
    Drafted all moduleName [] (.start moduleName .empty) :=
  ⟨rfl, rfl, rfl, .nil, fun _ _ => rfl⟩

/-- The symbols of the first line declare nothing. -/
theorem readAll_header (hname : IsIdentifier Char.isUpper moduleName)
    (himports : moduleName ≠ "IMPORTS") (rest : List String) :
    Draft.readAll .empty (.start moduleName .empty) []
        (moduleName :: "DEFINITIONS" :: "::=" :: "BEGIN" :: rest) =
      Draft.readAll .empty (.start moduleName .empty)
        ["BEGIN", "::=", "DEFINITIONS", moduleName] rest := by
  have hassign : moduleName ∉ ["::="] := hname.not_mem_of_head? (by decide)
  have hmodule : moduleName ∉ Draft.actingSymbols := by
    simpa [Draft.actingSymbols, himports] using hassign
  have hread : (Draft.start moduleName .empty).read .empty ["DEFINITIONS", moduleName] "::="
      ("BEGIN" :: rest) = .start moduleName .empty := rfl
  simp only [Draft.readAll]
  rw [Draft.read_eq_self rfl rfl hmodule,
    Draft.read_eq_self rfl rfl (by decide : "DEFINITIONS" ∉ Draft.actingSymbols), hread,
    Draft.read_eq_self rfl rfl (by decide : "BEGIN" ∉ Draft.actingSymbols)]

/-- The symbols of the text are read from first to last. -/
theorem readAll_drafted (hname : IsIdentifier Char.isUpper moduleName)
    (himports : moduleName ≠ "IMPORTS") (hdistinct : (all.map name).Nodup) :
    Drafted all moduleName all (Draft.readAll .empty (.start moduleName .empty) []
      (moduleName :: "DEFINITIONS" :: "::=" :: "BEGIN" :: (all.flatMap symbols ++ ["END"]))) := by
  obtain ⟨last, behind, hlast, hread⟩ := (start_drafted all moduleName).readAll
    (List.nil_append all) hdistinct ["BEGIN", "::=", "DEFINITIONS", moduleName] ["END"]
  rw [readAll_header hname himports, hread, Draft.readAll, Draft.readAll,
    Draft.read_eq_self hlast.importing hlast.scope (by decide : "END" ∉ Draft.actingSymbols)]
  exact hlast

/-- A single unit is compiled to a single module. -/
theorem compileAll_queue_empty (table : SymbolTable) :
    (Compiler.empty.queue table).compileAll.modules =
      ⟨[Draft.finish .empty (Draft.readAll .empty (.start table.moduleName .empty) []
        table.compileSequence)]⟩ :=
  rfl

/-- The printed module is compiled to one module of its name with the objects of the assignments in
their order. -/
theorem compile_moduleText (hname : IsIdentifier Char.isUpper moduleName)
    (himports : moduleName ≠ "IMPORTS") (hdistinct : (all.map name).Nodup) (unit : String) :
    ∃ m, (Compiler.empty.queue (.ofText unit (moduleText moduleName all))).compileAll.modules =
        ⟨[m]⟩ ∧
      m.name = moduleName ∧ List.Forall₂ (IsCompiled all moduleName) all m.objects := by
  obtain ⟨hmoduleName, hsymbols⟩ := scan_moduleText hname all unit
  have hdrafted := readAll_drafted hname himports hdistinct
  rw [compileAll_queue_empty, hmoduleName, hsymbols]
  generalize Draft.readAll .empty (.start moduleName .empty) [] _ = draft at hdrafted
  refine ⟨draft.finish .empty, rfl, hdrafted.named, ?_⟩
  rw [Draft.finish, clauses_eq hdrafted.objects]
  exact List.forall₂_map_right_iff.mpr (hdrafted.objects.imp fun _ _ h => h.isCompiled hdistinct)

/-- A product whose vendor is assigned behind it. -/
def router : OidAssignment :=
  ⟨"acme-router", "acme", 3, by decide, by decide, by decide⟩

/-- A vendor right below a root, with the greatest number. -/
def vendor : OidAssignment :=
  ⟨"acme", "iso", 4294967295, by decide, by decide, by decide⟩

/-- One of two assignments that are each other's parents. -/
def inner : OidAssignment :=
  ⟨"inner", "outer", 1, by decide, by decide, by decide⟩

/-- The other of two assignments that are each other's parents. -/
def outer : OidAssignment :=
  ⟨"outer", "inner", 2, by decide, by decide, by decide⟩

/-- An assignment whose parent is not assigned. -/
def stray : OidAssignment :=
  ⟨"stray", "enterprises", 7, by decide, by decide, by decide⟩

/-- The product and its vendor have positions, and the others have none. -/
theorem compile_vendor :
    ∃ m, (Compiler.empty.queue (.ofText "acme.mib" (moduleText "ACME-MIB"
        [router, vendor, inner, outer, stray]))).compileAll.modules = ⟨[m]⟩ ∧
      m.name = "ACME-MIB" ∧ m.objects.map (fun o => (o.name, o.clause, o.oid, o.nameSpace)) =
        [("acme-router", some "acme 3", some "1.4294967295.3", some "iso.acme.acme-router"),
          ("acme", some "iso 4294967295", some "1.4294967295", some "iso.acme"),
          ("inner", some "outer 1", none, none), ("outer", some "inner 2", none, none),
          ("stray", some "enterprises 7", none, none)] := by
  have hname : IsIdentifier Char.isUpper "ACME-MIB" := by decide
  have hdistinct : ([router, vendor, inner, outer, stray].map name).Nodup := by decide
  obtain ⟨m, hm, hmoduleName, hobjects⟩ :=
    compile_moduleText hname (by decide) hdistinct "acme.mib"
  have hvendor : Path [router, vendor, inner, outer, stray] vendor [⟨1, "iso"⟩, vendor.step] :=
    .root (by decide) rfl
  have hrouter : Path [router, vendor, inner, outer, stray] router
      ([⟨1, "iso"⟩, vendor.step] ++ [router.step]) := .child ⟨by simp, rfl⟩ hvendor
  have hinner : IsParent [router, vendor, inner, outer, stray] inner outer := ⟨by simp, rfl⟩
  have houter : IsParent [router, vendor, inner, outer, stray] outer inner := ⟨by simp, rfl⟩
  have hstray : stray.IsDangling [router, vendor, inner, outer, stray] :=
    ⟨stray, .refl, by decide, by decide⟩
  simp only [List.forall₂_cons_left_iff, List.forall₂_nil_left_iff] at hobjects
  obtain ⟨first, _, hfirst, ⟨second, _, hsecond, ⟨third, _, hthird, ⟨fourth, _, hfourth,
    ⟨fifth, _, hfifth, rfl, rfl⟩, rfl⟩, rfl⟩, rfl⟩, hlist⟩ := hobjects
  obtain ⟨hthirdOid, hthirdName⟩ :=
    hthird.unplaced (.inl ⟨inner, .refl, .tail (.single hinner) houter⟩)
  obtain ⟨hfourthOid, hfourthName⟩ :=
    hfourth.unplaced (.inl ⟨outer, .refl, .tail (.single houter) hinner⟩)
  refine ⟨m, hm, hmoduleName, ?_⟩
  simp only [hlist, List.map_cons, List.map_nil, hfirst.name, hfirst.clause,
    hfirst.placed _ hrouter, hsecond.name, hsecond.clause, hsecond.placed _ hvendor, hthird.name,
    hthird.clause, hthirdOid, hthirdName, hfourth.name, hfourth.clause, hfourthOid, hfourthName,
    hfifth.name, hfifth.clause, hfifth.unplaced (.inr hstray)]
  rfl

end OidAssignment

end Smi
