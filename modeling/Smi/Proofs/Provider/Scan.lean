import Smi.Provider.Derivation

/-!
# Scans of tables

A scan is an open table that keeps the objects taken for children of its entry in place of the
columns that are made of them. The tables derived from objects are those of the scans of these
objects, in the order in which the scans are opened.
-/

namespace Smi

/-- A table while it is open, with the children of its entry in the order of their declaration. -/
structure TableScan where
  tableName : String
  entry : Option ObjectDefinition
  children : List ObjectDefinition
  deriving DecidableEq

namespace TableScan

variable {conventions : Conventions} {scan : TableScan} {object : ObjectDefinition}

/-- The scan opened by an object. -/
def named (tableName : String) : TableScan :=
  ⟨tableName, none, []⟩

/-- The scan with one more object, or nothing if the object ends it. -/
def accept? (scan : TableScan) (object : ObjectDefinition) : Option TableScan :=
  match object.clauseParent? with
  | none => some scan
  | some parent =>
    if object.macroName = some "SEQUENCE" then some scan
    else if parent = scan.tableName then some { scan with entry := some object }
    else match scan.entry with
      | some entry =>
        if parent = entry.name then some { scan with children := scan.children ++ [object] }
        else none
      | none => none

/-- The column that a child of an entry declares, if its number can be read. -/
def column? (conventions : Conventions) (child : ObjectDefinition) : Option TableColumn :=
  child.clauseArc?.map fun number =>
    ⟨number, child.name, child.type?.bind conventions.typeOf?⟩

/-- The open table of a scan. -/
def table (conventions : Conventions) (scan : TableScan) : OpenTable :=
  ⟨scan.tableName, scan.entry, scan.children.filterMap (column? conventions)⟩

/-- The provider of a scan that has found an entry. -/
def provider? (conventions : Conventions) (scan : TableScan) : Option TableProvider :=
  (scan.table conventions).close?

/-- An open table has the name of its scan. -/
@[simp] theorem tableName_table : (scan.table conventions).tableName = scan.tableName :=
  rfl

/-- An open table has the entry of its scan. -/
@[simp] theorem entry_table : (scan.table conventions).entry = scan.entry :=
  rfl

/-- A child adds its column to the table. -/
theorem addColumn_table (conventions : Conventions) (scan : TableScan)
    (object : ObjectDefinition) : (scan.table conventions).addColumn conventions object =
      ({ scan with children := scan.children ++ [object] } : TableScan).table conventions := by
  unfold OpenTable.addColumn table
  rw [List.filterMap_append]
  cases harc : object.clauseArc? <;> simp [column?, harc]

/-- A scan takes the same objects as its table. -/
theorem accept?_table (conventions : Conventions) (scan : TableScan) (object : ObjectDefinition) :
    (scan.table conventions).accept? conventions object =
      (scan.accept? object).map (table conventions) := by
  unfold OpenTable.accept? accept?
  cases object.clauseParent? with
  | none => rfl
  | some parent =>
    dsimp only
    by_cases hsequence : object.macroName = some "SEQUENCE"
    · rw [if_pos hsequence, if_pos hsequence]
      rfl
    rw [if_neg hsequence, if_neg hsequence]
    rw [tableName_table, entry_table]
    by_cases htable : parent = scan.tableName
    · rw [if_pos htable, if_pos htable]
      rfl
    rw [if_neg htable, if_neg htable]
    cases hentry : scan.entry with
    | none => rfl
    | some entry =>
      dsimp only
      by_cases hparent : parent = entry.name
      · rw [if_pos hparent, if_pos hparent, addColumn_table, Option.map_some, hentry]
      · rw [if_neg hparent, if_neg hparent, Option.map_none]

/-- The scan that an object outside scans opens. -/
def opened? (object : ObjectDefinition) : Option TableScan :=
  if DerivedProviders.opensTable object then some (named object.name) else none

/-- Read one object, with the closed scans and the one that is open before it and after it. -/
def read (state : List TableScan × Option TableScan) (object : ObjectDefinition) :
    List TableScan × Option TableScan :=
  match state.2 with
  | none => (state.1, opened? object)
  | some scan =>
    match scan.accept? object with
    | some scan => (state.1, some scan)
    | none => (state.1 ++ [scan], opened? object)

/-- The scans of objects in the order of their declaration. -/
def ofObjects (objects : List ObjectDefinition) : List TableScan :=
  let (closed, last) := objects.foldl read ([], none)
  closed ++ last.toList

/-- Whether providers and an open table are what scans have found so far. -/
structure Simulates (conventions : Conventions) (derived : DerivedProviders × Option OpenTable)
    (state : List TableScan × Option TableScan) : Prop where
  tables : derived.1.tables = state.1.filterMap (provider? conventions)
  last : derived.2 = state.2.map (table conventions)

/-- An object outside tables opens one in the scans if it does so among the providers. -/
theorem Simulates.look {derived : DerivedProviders} {closed : List TableScan}
    (h : derived.tables = closed.filterMap (provider? conventions)) (object : ObjectDefinition) :
    Simulates conventions (DerivedProviders.look conventions derived object)
      (closed, opened? object) := by
  unfold DerivedProviders.look opened?
  split
  · exact ⟨h, rfl⟩
  · exact ⟨h, rfl⟩

/-- Reading one object finds the same tables as scanning it. -/
theorem Simulates.read {derived : DerivedProviders × Option OpenTable}
    {state : List TableScan × Option TableScan} (h : Simulates conventions derived state)
    (object : ObjectDefinition) :
    Simulates conventions (DerivedProviders.read conventions derived object)
      (TableScan.read state object) := by
  obtain ⟨derived, t⟩ := derived
  obtain ⟨closed, open?⟩ := state
  obtain ⟨htables, hlast⟩ := h
  dsimp only at htables hlast
  subst hlast
  unfold DerivedProviders.read TableScan.read
  cases open? with
  | none => exact .look htables object
  | some scan =>
    simp only [Option.map_some, accept?_table]
    cases scan.accept? object with
    | some next => exact ⟨htables, rfl⟩
    | none =>
      -- The object ends the table and is looked at outside of it.
      refine .look ?_ object
      rw [List.filterMap_append, ← htables, DerivedProviders.addTable]
      rfl

/-- The derived tables are those of the scans. -/
theorem tables_ofObjects (conventions : Conventions) (objects : List ObjectDefinition) :
    (DerivedProviders.ofObjects conventions objects).tables =
      (ofObjects objects).filterMap (provider? conventions) := by
  have h : Simulates conventions (objects.foldl (DerivedProviders.read conventions) (.empty, none))
      (objects.foldl TableScan.read ([], none)) :=
    List.foldl_rel ⟨rfl, rfl⟩ fun object _ _ _ h => h.read object
  unfold DerivedProviders.ofObjects ofObjects
  generalize objects.foldl (DerivedProviders.read conventions) (.empty, none) = derived at h
  generalize objects.foldl TableScan.read ([], none) = state at h
  obtain ⟨derived, t⟩ := derived
  obtain ⟨closed, last⟩ := state
  obtain ⟨htables, hlast⟩ := h
  dsimp only at htables hlast ⊢
  subst hlast
  cases last with
  | none => simpa using htables
  | some scan =>
    rw [List.filterMap_append, ← htables]
    rfl

/-! ### The objects of a scan -/

/-- Whether the entry and the children of a scan are among objects. -/
structure Within (objects : List ObjectDefinition) (scan : TableScan) : Prop where
  entry : ∀ entry ∈ scan.entry, entry ∈ objects
  children : ∀ child ∈ scan.children, child ∈ objects

/-- A scan that accepts an object stays within the objects. -/
theorem Within.accept? {objects : List ObjectDefinition} {next : TableScan}
    (h : scan.Within objects) (hobject : object ∈ objects)
    (hnext : scan.accept? object = some next) : next.Within objects := by
  unfold TableScan.accept? at hnext
  split at hnext
  · exact Option.some.inj hnext ▸ h
  · split at hnext
    · exact Option.some.inj hnext ▸ h
    · split at hnext
      · obtain rfl := Option.some.inj hnext
        exact ⟨fun entry hentry => Option.some.inj hentry ▸ hobject, h.children⟩
      · split at hnext
        · split at hnext
          · obtain rfl := Option.some.inj hnext
            refine ⟨h.entry, fun child hchild => ?_⟩
            rcases List.mem_append.mp hchild with hchild | hchild
            · exact h.children child hchild
            · exact List.mem_singleton.mp hchild ▸ hobject
          · cases hnext
        · cases hnext

/-- A scan that has just been opened is within any objects. -/
theorem within_named (objects : List ObjectDefinition) (tableName : String) :
    (named tableName).Within objects :=
  ⟨fun _ h => (nomatch h), fun _ h => (nomatch h)⟩

/-- The scans of objects are made of these objects. -/
theorem within_ofObjects {objects : List ObjectDefinition} (hscan : scan ∈ ofObjects objects) :
    scan.Within objects := by
  have hopened (object : ObjectDefinition) : ∀ scan ∈ (opened? object).toList,
      scan.Within objects := fun scan hscan => by
    unfold opened? at hscan
    split at hscan
    · exact List.mem_singleton.mp hscan ▸ within_named objects object.name
    · cases hscan
  have hall : ∀ scan ∈ (objects.foldl read ([], none)).1 ++
      (objects.foldl read ([], none)).2.toList, scan.Within objects := by
    refine List.foldlRecOn objects read (b := ([], none)) (motive := fun state =>
      ∀ scan ∈ state.1 ++ state.2.toList, scan.Within objects) (by simp) ?_
    rintro ⟨closed, last⟩ ih object hobject
    rw [List.forall_mem_append] at ih
    obtain ⟨hclosed, hlast⟩ := ih
    unfold read
    cases last with
    | none => exact List.forall_mem_append.mpr ⟨hclosed, hopened object⟩
    | some scan =>
      have hwithin : scan.Within objects := hlast scan (List.mem_singleton_self _)
      dsimp only
      cases hnext : scan.accept? object with
      | some next =>
        refine List.forall_mem_append.mpr ⟨hclosed, fun other hother => ?_⟩
        exact List.mem_singleton.mp hother ▸ hwithin.accept? hobject hnext
      | none =>
        refine List.forall_mem_append.mpr ⟨List.forall_mem_append.mpr ⟨hclosed, ?_⟩,
          hopened object⟩
        exact fun other hother => List.mem_singleton.mp hother ▸ hwithin
  exact hall scan hscan

end TableScan

end Smi
