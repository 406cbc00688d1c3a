import Smi.Proofs.Compiler.History
import Smi.Proofs.Compiler.Resolution

/-!
# Positions below a parent

An object is placed by climbing along clauses, and so is the object that its clause names. Where no
name is declared twice the two climbs meet the same clauses, so the object stands below the other
one by the arcs of its clause. Only a climb that does not come to an end tells the two apart: the
null object identifier has its position from its own clause and not from a climb, and a module above
the parent may have been compiled again, without the objects to which the parent owes its position.
-/

namespace Smi

/-! ### Positions -/

namespace OidClause

variable {clauses : Clauses} {clause above name parent : String} {arcs : List ClauseArc}
  {position : String × String}

/-- The position of an object below a position: behind this one the numbers of some arcs, and their
labels, where the name of the object stands for the last one. -/
def below (position : String × String) (arcs : List ClauseArc) (name : String) : String × String :=
  (position.1 ++ "." ++ Oid.dottedArcs (arcs.map ClauseArc.number),
    position.2 ++ "." ++ ".".intercalate
      (arcs.dropLast.map (fun arc => (ClauseArc.step arc).name) ++ [name]))

/-- A clause below an object leads below its position. -/
theorem position?_below (hread : read? clause = some ⟨parent, arcs⟩) (harcs : arcs ≠ [])
    (hroot : rootNumber? parent = none) (habove : clauses.lookup parent = some above) :
    position? clauses clause name =
      (position? clauses above parent).map fun position => below position arcs name := by
  obtain ⟨first, last, rfl⟩ := (List.eq_nil_or_concat arcs).resolve_left harcs
  rw [List.concat_eq_append] at *
  have hsteps : steps? ⟨parent, first ++ [last]⟩ name =
      some (first.map ClauseArc.step ++ [⟨last.number, name⟩]) := by
    simp [steps?]
  rw [position?, position?, path?_below hread hroot habove, hsteps]
  cases hpath : path? clauses above parent with
  | none => rfl
  | some path =>
    have hne : path ≠ [] := by
      obtain ⟨_, _, _, _, rfl⟩ := (path?_eq_some_iff.mp hpath).exists_root
      exact List.cons_ne_nil _ _
    simp [below, dottedNumbers, dottedNames, Oid.dottedArcs, ClauseArc.step, hne,
      Function.comp_def, String.intercalate_append_of_ne_nil]

/-- The names of a path begin with those of a root. -/
theorem head?_dottedNames {number : ℕ} {root : String} {steps : List PathStep}
    (hroot : rootNumber? root = some number) :
    (dottedNames (⟨number, root⟩ :: steps)).toList.head? = root.toList.head? := by
  have hne : root.toList ≠ [] := by
    unfold rootNumber? at hroot
    split at hroot
    · decide
    · decide
    · decide
    · cases hroot
  rw [dottedNames, List.map_cons]
  cases steps.map PathStep.name with
  | nil => rw [String.intercalate_singleton]
  | cons first rest =>
    rw [String.intercalate_cons_cons, String.toList_append, String.toList_append,
      List.append_assoc, List.head?_append_of_ne_nil _ hne]

/-- The names of a path begin with those of a root, and so they are not below the null object
identifier. -/
theorem position?_ne_below_null (arcs : List ClauseArc) :
    position? clauses clause name ≠ some (below ("0.0", "null") arcs name) := by
  intro h
  obtain ⟨path, hpath, hposition⟩ := Option.map_eq_some_iff.mp h
  obtain ⟨number, root, steps, hroot, rfl⟩ := (path?_eq_some_iff.mp hpath).exists_root
  have hhead : (dottedNames (⟨number, root⟩ :: steps)).toList.head? = root.toList.head? :=
    head?_dottedNames hroot
  rw [(Prod.mk.inj hposition).2] at hhead
  unfold rootNumber? at hroot
  split at hroot
  · simp at hhead
  · simp at hhead
  · simp at hhead
  · cases hroot

end OidClause

namespace ObjectDefinition

variable {object parent : ObjectDefinition} {clauses : OidClause.Clauses} {arcs : List ClauseArc}
  {position : String × String}

/-- Whether the clause of an object names another one, which is no root, and arcs below it. -/
def HangsBelow (object parent : ObjectDefinition) (arcs : List ClauseArc) : Prop :=
  arcs ≠ [] ∧ OidClause.rootNumber? parent.name = none ∧
    object.clause.bind OidClause.read? = some ⟨parent.name, arcs⟩

/-- Whether an object has the numbers and the names of another one, with those of arcs behind them
and its own name for the last arc. -/
def StandsBelow (object parent : ObjectDefinition) (arcs : List ClauseArc) : Prop :=
  ∃ position, parent.StandsAt (some position) ∧
    object.StandsAt (some (OidClause.below position arcs object.name))

/-- The null clause leads to the null identifier. -/
theorem leadsTo?_of_null (hclause : object.clause = some "0 0") :
    object.leadsTo? clauses = some ("0.0", "null") := by
  rw [leadsTo?, hclause]
  rfl

/-- The clause of an object leads below another one if the clause of that one leads anywhere. -/
theorem HangsBelow.leadsTo?_eq (h : object.HangsBelow parent arcs)
    (hobject : object.clause ≠ some "0 0") (hparent : parent.clause ≠ some "0 0")
    (hlookup : clauses.lookup parent.name = parent.clause) (hclause : parent.clause.isSome) :
    object.leadsTo? clauses =
      (parent.leadsTo? clauses).map fun position => OidClause.below position arcs object.name := by
  obtain ⟨harcs, hroot, hread⟩ := h
  obtain ⟨clause, hclause', hread⟩ := Option.bind_eq_some_iff.mp hread
  obtain ⟨above, habove⟩ := Option.isSome_iff_exists.mp hclause
  rw [habove] at hlookup
  rw [hclause', ne_eq, Option.some.injEq] at hobject
  rw [habove, ne_eq, Option.some.injEq] at hparent
  rw [leadsTo?, leadsTo?, hclause', habove, Option.bind_some, Option.bind_some, if_neg hobject,
    if_neg hparent, OidClause.position?_below hread harcs hroot hlookup]

/-- An object at the null position stands below no other one, because its names have one part. -/
theorem StandsBelow.ne_null (h : object.StandsBelow parent arcs) :
    object.nameSpace ≠ some "null" := by
  obtain ⟨position, _, _, hnames⟩ := h
  rw [hnames]
  intro hnull
  have hdot : '.' ∈ "null".toList := by
    rw [← Option.some.inj hnull]
    simp [OidClause.below]
  exact absurd hdot (by decide)

end ObjectDefinition

namespace Compiler

variable {c : Compiler} {table : SymbolTable} {units first second after : List SymbolTable}
  {object : ObjectDefinition}

/-- An object of a unit that declares no name twice stands where its clause leads in the end. -/
theorem standsAt_compileTable (hnodup : (c.modules.modules.map ModuleDefinition.name).Nodup)
    (honce : (((c.declarations table).map Declaration.object).map ObjectDefinition.name).Nodup)
    (hobject : object ∈ (c.moduleOf table).objects) :
    object.StandsAt (object.leadsTo? (c.compileTable table).modules.clauses) := by
  obtain ⟨before, declaration, after, hsplit, hname, hclause, _, hstands⟩ :=
    exists_declaration_standsAt hnodup hobject
  have hfresh : ∀ earlier ∈ before, ∀ later ∈ declaration :: after,
      later.object.name ≠ earlier.object.name := by
    rw [hsplit, List.map_append, List.map_append] at honce
    intro earlier hearlier later hlater heq
    exact (List.nodup_append.mp honce).2.2 _ (List.mem_map_of_mem (List.mem_map_of_mem hearlier)) _
      (List.mem_map_of_mem (List.mem_map_of_mem hlater)) heq.symm
  cases hknown : object.leadsTo? declaration.known with
  | none =>
    rw [hknown] at hstands
    exact hstands
  | some position =>
    rw [hknown] at hstands
    have hfinal : object.leadsTo? (c.compileTable table).modules.clauses = some position := by
      obtain ⟨clause, hown, hposition⟩ := Option.bind_eq_some_iff.mp hknown
      rw [ObjectDefinition.leadsTo?, hown, Option.bind_some]
      split at hposition
      next hnull => rw [if_pos hnull, hposition]
      next hnull =>
        rw [if_neg hnull]
        exact position?_final hnodup hsplit hposition fun earlier hearlier later hlater hsame =>
          absurd hsame (hfresh earlier hearlier later hlater)
    rw [hfinal]
    exact hstands

/-- An object of the last unit stands where its clause leads. -/
theorem standsAt_last (honce : ((declared (units ++ [table])).map ObjectDefinition.name).Nodup)
    (hobject : object ∈ ((ofUnits units).moduleOf table).objects) :
    object.StandsAt (object.leadsTo? (ofUnits (units ++ [table])).modules.clauses) := by
  rw [ofUnits_concat]
  refine standsAt_compileTable (ofUnits_consistent units).nodup ?_ hobject
  rw [declared_concat, List.map_append] at honce
  exact (List.nodup_append.mp honce).2.1

section Once

variable (honce : ((declared units).map ObjectDefinition.name).Nodup)
include honce

/-- An object of a module stands where its clause led when the module had been compiled. -/
theorem standsAt_of_mem (hobject : object ∈ (ofUnits units).modules.objects) :
    ∃ before table after, units = before ++ [table] ++ after ∧
      object.StandsAt (object.leadsTo? (ofUnits (before ++ [table])).modules.clauses) := by
  obtain ⟨m, hm, hmem⟩ := List.mem_flatMap.mp hobject
  obtain ⟨earlier, later, hsplit⟩ := List.mem_iff_append.mp hm
  obtain ⟨before, table, after, rfl, rfl, _⟩ := exists_unit hsplit
  have hunits : before ++ table :: after = before ++ [table] ++ after := by simp
  refine ⟨before, table, after, hunits, ?_⟩
  rw [hunits, declared_append, List.map_append] at honce
  exact standsAt_last (List.nodup_append.mp honce).1 hmem

/-- Whenever the clause of an object leads anywhere it leads to the same position. -/
theorem leadsTo?_agree (hfirst : first <+: units) (hsecond : second <+: units)
    {p q : String × String} (hp : object.leadsTo? (ofUnits first).modules.clauses = some p)
    (hq : object.leadsTo? (ofUnits second).modules.clauses = some q) : p = q := by
  obtain ⟨clause, hclause, hp⟩ := Option.bind_eq_some_iff.mp hp
  rw [ObjectDefinition.leadsTo?, hclause, Option.bind_some] at hq
  split at hp
  next hnull =>
    rw [if_pos hnull] at hq
    exact Option.some.inj (hp.symm.trans hq)
  next hnull =>
    rw [if_neg hnull] at hq
    obtain ⟨path, hpath, rfl⟩ := Option.map_eq_some_iff.mp hp
    obtain ⟨other, hother, rfl⟩ := Option.map_eq_some_iff.mp hq
    rw [(OidClause.path?_eq_some_iff.mp hpath).eq_of_agree (OidClause.path?_eq_some_iff.mp hother)
      fun key a b => lookup_agree honce hfirst hsecond]

end Once

/-- Where no name is declared twice and no module is compiled again, a clause that leads anywhere
does so later on. -/
theorem leadsTo?_append
    (honce : ((declared (units ++ after)).map ObjectDefinition.name).Nodup)
    (hmodules : ((units ++ after).map SymbolTable.moduleName).Nodup) {position : String × String}
    (h : object.leadsTo? (ofUnits units).modules.clauses = some position) :
    object.leadsTo? (ofUnits (units ++ after)).modules.clauses = some position := by
  obtain ⟨clause, hclause, hposition⟩ := Option.bind_eq_some_iff.mp h
  rw [ObjectDefinition.leadsTo?, hclause, Option.bind_some]
  split at hposition
  next hnull => rw [if_pos hnull, hposition]
  next hnull =>
    rw [if_neg hnull]
    refine OidClause.position?_of_lookup hposition fun key above _ hlookup => ?_
    rw [lookup_eq_some_iff honce (List.prefix_append _ _)] at hlookup
    rw [lookup_eq_some_iff honce List.prefix_rfl]
    obtain ⟨other, hother, hnamed⟩ := hlookup
    obtain ⟨m, hm, hmem⟩ := List.mem_flatMap.mp hother
    exact ⟨other, List.mem_flatMap.mpr ⟨m, mem_modules_append hmodules hm, hmem⟩, hnamed⟩

/-! ### Objects and their parents -/

section Parent

variable {parent : ObjectDefinition} {arcs : List ClauseArc}
  (honce : ((declared (units ++ [table])).map ObjectDefinition.name).Nodup)
  (hparent : parent ∈ (ofUnits (units ++ [table])).modules.objects)
  (hoid : parent.oid.isSome)
include honce hparent hoid

/-- A parent that has a position has it from its clause, when its own module had been compiled. -/
theorem exists_leadsTo?_parent : ∃ before unit after position,
    units ++ [table] = before ++ [unit] ++ after ∧
      parent.leadsTo? (ofUnits (before ++ [unit])).modules.clauses = some position ∧
      parent.StandsAt (some position) := by
  obtain ⟨before, unit, after, hunits, hstands⟩ := standsAt_of_mem honce hparent
  have hposition := hoid
  rw [hstands.1, Option.isSome_map, Option.isSome_iff_exists] at hposition
  obtain ⟨position, hposition⟩ := hposition
  exact ⟨before, unit, after, position, hunits, hposition, hposition ▸ hstands⟩

/-- An object of the last unit stands below its parent when neither of them is the null object
identifier and the clause of the parent still leads to a root. -/
theorem standsBelow_iff (hobject : object ∈ ((ofUnits units).moduleOf table).objects)
    (hhangs : object.HangsBelow parent arcs) :
    object.StandsBelow parent arcs ↔ object.clause ≠ some "0 0" ∧ parent.clause ≠ some "0 0" ∧
      (parent.leadsTo? (ofUnits (units ++ [table])).modules.clauses).isSome := by
  obtain ⟨before, unit, after, position, hunits, hleadsParent, hparentStands⟩ :=
    exists_leadsTo?_parent honce hparent hoid
  have hstands := standsAt_last honce hobject
  have hlookup := ModuleSet.lookup_clauses (nodup_objects honce List.prefix_rfl) hparent
  have hclause : parent.clause.isSome := by
    obtain ⟨clause, hclause, _⟩ := Option.bind_eq_some_iff.mp hleadsParent
    rw [hclause]
    rfl
  constructor
  · intro hbelow
    have hobjectNull : object.clause ≠ some "0 0" := fun hnull => hbelow.ne_null <| by
      rw [hstands.2, ObjectDefinition.leadsTo?_of_null hnull]
      rfl
    obtain ⟨given, hgiven, hobjectStands⟩ := hbelow
    obtain rfl := Option.some.inj (hparentStands.unique hgiven)
    have hleads := hstands.unique hobjectStands
    have hparentNull : parent.clause ≠ some "0 0" := fun hnull => by
      rw [ObjectDefinition.leadsTo?_of_null hnull] at hleadsParent
      obtain rfl := Option.some.inj hleadsParent
      obtain ⟨clause, hown, hposition⟩ := Option.bind_eq_some_iff.mp hleads
      have hclauseNull : clause ≠ "0 0" := fun heq => hobjectNull (hown.trans (congrArg some heq))
      rw [if_neg hclauseNull] at hposition
      exact OidClause.position?_ne_below_null arcs hposition
    rw [hhangs.leadsTo?_eq hobjectNull hparentNull hlookup hclause] at hleads
    obtain ⟨_, hposition, _⟩ := Option.map_eq_some_iff.mp hleads
    exact ⟨hobjectNull, hparentNull, Option.isSome_of_eq_some hposition⟩
  · rintro ⟨hobjectNull, hparentNull, hsome⟩
    obtain ⟨other, hother⟩ := Option.isSome_iff_exists.mp hsome
    obtain rfl := leadsTo?_agree honce ⟨after, hunits.symm⟩ List.prefix_rfl hleadsParent hother
    refine ⟨position, hparentStands, ?_⟩
    rwa [hhangs.leadsTo?_eq hobjectNull hparentNull hlookup hclause, hother] at hstands

/-- The clause of a parent still leads to a root if its module is the last one, or if no module has
been compiled twice. -/
theorem isSome_leadsTo?_parent
    (hkept : parent ∈ ((ofUnits units).moduleOf table).objects ∨
      ((units ++ [table]).map SymbolTable.moduleName).Nodup) :
    (parent.leadsTo? (ofUnits (units ++ [table])).modules.clauses).isSome := by
  rcases hkept with hlast | hmodules
  · rwa [(standsAt_last honce hlast).1, Option.isSome_map] at hoid
  · obtain ⟨before, unit, after, position, hunits, hposition, _⟩ :=
      exists_leadsTo?_parent honce hparent hoid
    rw [hunits] at honce hmodules ⊢
    rw [leadsTo?_append honce hmodules hposition]
    rfl

end Parent

end Compiler

/-- The objects of a run along which no name is declared twice. Let the clause of an object name
another one, which is no root, in the same module or in one that was compiled before, and arcs below
it. If this parent has a position, the object has the one below it, the numbers and labels of the
arcs behind those of the parent and its own name last, exactly when neither clause is that of the
null object identifier and the clause of the parent led to a root when the module of the object had
been compiled. It did if the parent is in the same module or if no module is compiled twice. -/
theorem compiled_standsBelow (actions : List Compiler.Action)
    (honce : ((Compiler.declared (Compiler.unitsOf actions)).map ObjectDefinition.name).Nodup) :
    let units := Compiler.unitsOf actions
    ∀ earlier m later, (Compiler.run actions).modules.modules = earlier ++ m :: later →
      ∃ before table after, units = before ++ [table] ++ after ∧
        m = (Compiler.ofUnits before).moduleOf table ∧
        let known := (Compiler.ofUnits (before ++ [table])).modules.clauses
        ∀ object ∈ m.objects, ∀ parent arcs, object.HangsBelow parent arcs →
          (parent ∈ m.objects ∨ ∃ other ∈ earlier, parent ∈ other.objects) →
          parent.oid.isSome →
          (object.StandsBelow parent arcs ↔ object.clause ≠ some "0 0" ∧
            parent.clause ≠ some "0 0" ∧ (parent.leadsTo? known).isSome) ∧
          (parent ∈ m.objects ∨ (units.map SymbolTable.moduleName).Nodup →
            (parent.leadsTo? known).isSome) := by
  intro units earlier m later hsplit
  rw [Compiler.modules_run] at hsplit
  obtain ⟨before, table, after, hunits, rfl, hearlier⟩ := Compiler.exists_unit hsplit
  have hunits : units = before ++ [table] ++ after := by simp [units, hunits]
  refine ⟨before, table, after, hunits, rfl, ?_⟩
  intro known object hobject parent arcs hhangs hparent hoid
  have honceBefore :
      ((Compiler.declared (before ++ [table])).map ObjectDefinition.name).Nodup := by
    rw [show Compiler.unitsOf actions = _ from hunits, Compiler.declared_append,
      List.map_append] at honce
    exact (List.nodup_append.mp honce).1
  have hparentMem : parent ∈ (Compiler.ofUnits (before ++ [table])).modules.objects := by
    rcases hparent with hparent | ⟨other, hother, hparent⟩
    · refine List.mem_flatMap.mpr ⟨_, ?_, hparent⟩
      rw [Compiler.modules_ofUnits_concat]
      exact List.mem_append_right _ (List.mem_singleton_self _)
    · exact List.mem_flatMap.mpr ⟨other, hearlier other hother, hparent⟩
  refine ⟨Compiler.standsBelow_iff honceBefore hparentMem hoid hobject hhangs, fun hkept => ?_⟩
  refine Compiler.isSome_leadsTo?_parent honceBefore hparentMem hoid (hkept.imp_right fun h => ?_)
  rw [hunits, List.map_append] at h
  exact (List.nodup_append.mp h).1

/-- A unit with one place below a root. -/
def SymbolTable.places : SymbolTable where
  unit := "PLACES-MIB"
  declaredName := none
  symbols := ["places", "OBJECT IDENTIFIER", "::=", "{ iso 5 }"].map (⟨·, .origin⟩)

/-- A unit with a room two arcs below the places. -/
def SymbolTable.rooms : SymbolTable where
  unit := "ROOMS-MIB"
  declaredName := none
  symbols := ["room", "OBJECT IDENTIFIER", "::=", "{ places floor(2) 3 }"].map (⟨·, .origin⟩)

/-- The room stands on its floor below the places of the other module. -/
theorem compiled_standsBelow_rooms :
    let set := (Compiler.run [.compileTable .places, .compileTable .rooms]).modules
    let places : ObjectDefinition :=
      { (ObjectDefinition.bare "places" "PLACES-MIB").placed "1.5" "iso.places" with
        clause := some "iso 5" }
    let room : ObjectDefinition :=
      { (ObjectDefinition.bare "room" "ROOMS-MIB").placed "1.5.2.3" "iso.places.floor.room" with
        clause := some "places floor(2) 3" }
    set.objects = [places, room] ∧ room.StandsBelow places [⟨some "floor", 2⟩, ⟨none, 3⟩] := by
  intro set places room
  have hmodules : set.modules = [(Compiler.ofUnits []).moduleOf .places] ++
      (Compiler.ofUnits [.places]).moduleOf .rooms :: [] := by decide +kernel
  have hplaces : places ∈ ((Compiler.ofUnits []).moduleOf .places).objects := by decide +kernel
  have hroom : room ∈ ((Compiler.ofUnits [.places]).moduleOf .rooms).objects := by decide +kernel
  have hhangs : room.HangsBelow places [⟨some "floor", 2⟩, ⟨none, 3⟩] :=
    ⟨List.cons_ne_nil _ _, rfl, by decide +kernel⟩
  obtain ⟨_, _, _, _, _, hbelow⟩ :=
    compiled_standsBelow [.compileTable .places, .compileTable .rooms] (by decide +kernel) _ _ _
      hmodules
  obtain ⟨hiff, hleads⟩ := hbelow room hroom places _ hhangs
    (.inr ⟨_, List.mem_singleton_self _, hplaces⟩) rfl
  exact ⟨by decide +kernel,
    hiff.mpr ⟨by decide, by decide, hleads (.inr (by decide +kernel))⟩⟩

/-- A unit with the null object identifier and an object below it. -/
def SymbolTable.nulls : SymbolTable where
  unit := "NULL-MIB"
  declaredName := none
  symbols := [
    "zeroDotZero", "OBJECT IDENTIFIER", "::=", "{ 0 0 }",
    "unknown", "OBJECT IDENTIFIER", "::=", "{ zeroDotZero 1 }"].map (⟨·, .origin⟩)

/-- The null object identifier has a position, and the object below it has none. -/
theorem compiled_nulls_unplaced :
    let set := (Compiler.run [.compileTable .nulls]).modules
    let zeroDotZero : ObjectDefinition :=
      { (ObjectDefinition.bare "zeroDotZero" "NULL-MIB").placed "0.0" "null" with
        clause := some "0 0" }
    let unknown : ObjectDefinition :=
      { ObjectDefinition.bare "unknown" "NULL-MIB" with clause := some "zeroDotZero 1" }
    ((Compiler.declared (Compiler.unitsOf [.compileTable .nulls])).map
        ObjectDefinition.name).Nodup ∧
      set.modules.map ModuleDefinition.objects = [[zeroDotZero, unknown]] ∧
      unknown.HangsBelow zeroDotZero [⟨none, 1⟩] ∧ zeroDotZero.oid = some "0.0" ∧
      unknown.oid = none ∧ ¬unknown.StandsBelow zeroDotZero [⟨none, 1⟩] := by
  intro set zeroDotZero unknown
  refine ⟨by decide +kernel, by decide +kernel, ⟨List.cons_ne_nil _ _, rfl, by decide +kernel⟩,
    rfl, rfl, ?_⟩
  rintro ⟨position, _, hoid, _⟩
  cases hoid

end Smi
