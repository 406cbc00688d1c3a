import Mathlib.Data.List.Forall2
import Smi.Proofs.ObjectTree.Owner
import Smi.Proofs.RowKey.RoundTrip

/-!
# What an index entry stands for

An index entry may give the name of a column, its number, or both. When its table is registered the
entry is settled on one column that has what is given: on one of the table that is named if this is
another one, and otherwise on one of the table itself or else of the first other table that has such
a column. The settled entry carries the name, the number and the type of this column and is foreign
exactly if the column is. So a registered table finds the columns of its own index entries again
whenever a row is added.
-/

namespace Smi

namespace IndexEntry

/-- Whether a column has the name and the number that an index entry gives. -/
def Means (entry : IndexEntry) (column : TableColumn) : Prop :=
  (∀ name ∈ entry.columnName, column.name = name) ∧
    ∀ number ∈ entry.columnNumber, column.number = number

instance (entry : IndexEntry) (column : TableColumn) : Decidable (entry.Means column) :=
  inferInstanceAs (Decidable (_ ∧ _))

/-- The column of a table that an index entry means, the first one if there are several. -/
def columnOf? (entry : IndexEntry) (table : TableProvider) : Option TableColumn :=
  table.columns.find? fun column => entry.Means column

/-- Whether an index entry has the name, the number and the type of a column. -/
def Carries (entry : IndexEntry) (column : TableColumn) : Prop :=
  entry.columnName = some column.name ∧ entry.columnNumber = some column.number ∧
    entry.type = column.type

end IndexEntry

namespace ObjectTree

variable {tree after : ObjectTree} {table other : TableProvider} {position : Nat}
  {entry settled : IndexEntry} {column : TableColumn} {name : String} {owner : Option String}
  {values : List Value}

/-- The registered tables in the order of their registration. -/
def tables (tree : ObjectTree) : List TableProvider :=
  tree.providers.filterMap (·.table?)

/-- What becomes of an index entry when its table is registered. -/
structure Settles (tree : ObjectTree) (table : TableProvider) (given settled : IndexEntry) :
    Prop where
  complete : given.columnName.isSome ∨ given.columnNumber.isSome
  implied : settled.implied = given.implied
  length : settled.length = given.length
  own : settled.foreign = none →
    ∃ column, given.columnOf? table = some column ∧ settled.Carries column
  foreign (owner : String) : settled.foreign = some owner → owner ≠ table.name ∧
    ∃ other column, tree.table owner = .ok other ∧ given.columnOf? other = some column ∧
      settled.Carries column
  /-- A table that is named, and is another one, is the owner. -/
  named (owner : String) : given.foreign = some owner → owner ≠ table.name →
    settled.foreign = some owner
  /-- Otherwise the table itself comes first, and then the others in the order of their
  registration. -/
  searched (owner : String) : (∀ other ∈ given.foreign, other = table.name) →
    settled.foreign = some owner →
    given.columnOf? table = none ∧ ∃ other,
      tree.tables.find? (fun other => (given.columnOf? other).isSome) = some other ∧
        other.name = owner

/-! ### Matching columns -/

/-- What is found first is still found first by a stronger test that it passes. -/
theorem find?_eq_some_of_imp {α : Type} {p q : α → Bool} {xs : List α} {x : α}
    (himp : ∀ x, q x = true → p x = true) (hfound : xs.find? p = some x) (hx : q x = true) :
    xs.find? q = some x := by
  obtain ⟨_, before, rest, rfl, hbefore⟩ := List.find?_eq_some_iff_append.mp hfound
  refine List.find?_eq_some_iff_append.mpr ⟨hx, before, rest, rfl, fun other hother => ?_⟩
  have hnot := hbefore other hother
  rw [Bool.not_eq_true'] at hnot ⊢
  exact Bool.eq_false_iff.mpr fun hq => Bool.eq_false_iff.mp hnot (himp other hq)

/-- A match that succeeds finds the column that is meant. -/
theorem columnOf?_of_matchColumn (hcomplete : entry.columnName.isSome ∨ entry.columnNumber.isSome)
    {found : Option TableColumn}
    (hmatch : matchColumn name position entry other.columns = .ok found) :
    entry.columnOf? other = found := by
  unfold matchColumn at hmatch
  cases hgiven : entry.columnName with
  | none =>
    obtain ⟨number, hnumber⟩ :=
      Option.isSome_iff_exists.mp (hcomplete.resolve_left (by simp [hgiven]))
    simp only [hgiven, hnumber] at hmatch
    rw [← Except.ok.inj hmatch]
    exact congrArg (other.columns.find? ·) (funext fun column => by
      simp [IndexEntry.Means, hgiven, hnumber])
  -- A column that is meant has the name, so that looking for the name alone finds no later one.
  | some columnName =>
    have himp (column : TableColumn) (hmeans : decide (entry.Means column) = true) :
        decide (column.name = columnName) = true :=
      decide_eq_true ((of_decide_eq_true hmeans).1 columnName hgiven)
    simp only [hgiven] at hmatch
    cases hname : other.columns.find? fun column => column.name = columnName with
    | none =>
      simp only [hname] at hmatch
      rw [← Except.ok.inj hmatch, IndexEntry.columnOf?, List.find?_eq_none]
      exact fun column hcolumn hmeans =>
        List.find?_eq_none.mp hname column hcolumn (himp column hmeans)
    | some column =>
      have hcolumn : column.name = columnName := by simpa using List.find?_some hname
      cases hnumber : entry.columnNumber with
      | none =>
        simp only [hname, hnumber] at hmatch
        rw [← Except.ok.inj hmatch]
        exact find?_eq_some_of_imp himp hname (by simp [IndexEntry.Means, hgiven, hnumber, hcolumn])
      | some number =>
        simp only [hname, hnumber] at hmatch
        by_cases hsame : number = column.number
        · rw [if_pos hsame] at hmatch
          rw [← Except.ok.inj hmatch]
          exact find?_eq_some_of_imp himp hname
            (by simp [IndexEntry.Means, hgiven, hnumber, hcolumn, hsame])
        · simp [if_neg hsame] at hmatch

/-- A match among other tables finds the first one that has the column that is meant. -/
theorem find?_of_matchForeign (hcomplete : entry.columnName.isSome ∨ entry.columnNumber.isSome)
    {others : List TableProvider} (hothers : ∀ other ∈ others, other.name ≠ name)
    (hmatch : matchForeign name position entry others = .ok (some (column, owner))) :
    ∃ other, others.find? (fun other => (entry.columnOf? other).isSome) = some other ∧
      entry.columnOf? other = some column ∧ owner = some other.name := by
  induction others with
  | nil => simp [matchForeign] at hmatch
  | cons first rest ih =>
    obtain ⟨hfirst, hrest⟩ := List.forall_mem_cons.mp hothers
    simp only [matchForeign, if_neg hfirst, bind_eq_ok_iff] at hmatch
    obtain ⟨found, hfound, hmatch⟩ := hmatch
    obtain rfl := columnOf?_of_matchColumn hcomplete hfound
    rw [List.find?_cons]
    cases hcolumn : entry.columnOf? first with
    | none =>
      rw [hcolumn] at hmatch
      exact ih hrest hmatch
    | some found =>
      rw [hcolumn] at hmatch
      obtain ⟨rfl, rfl⟩ := Prod.mk.inj (Option.some.inj (pure_eq_ok_iff.mp hmatch))
      exact ⟨first, rfl, hcolumn, rfl⟩

/-! ### Settling an index -/

/-- The registered tables are those among the providers. -/
theorem mem_tables_iff : other ∈ tree.tables ↔ .table other ∈ tree.providers := by
  rw [tables, List.mem_filterMap]
  constructor
  · rintro ⟨_ | _, hmem, h⟩
    · cases h
    · rwa [← Option.some.inj h]
  · exact fun hmem => ⟨_, hmem, rfl⟩

/-- A registered table is found under its name. -/
theorem WellFormed.table_of_mem_tables (hwf : tree.WellFormed) (hother : other ∈ tree.tables) :
    tree.table other.name = .ok other := by
  obtain ⟨registration, hmem, hspec⟩ := List.mem_map.mp (mem_tables_iff.mp hother)
  refine table_eq_ok_iff.mpr ⟨registration, ?_, hspec⟩
  exact hwf.registered.registration?_eq_some_iff.mpr ⟨hmem, by rw [hspec]; rfl⟩

/-- No registered table has a name under which nothing is registered. -/
theorem name_ne_of_mem_tables (hnew : tree.registration? name = none)
    (hother : other ∈ tree.tables) : other.name ≠ name := by
  obtain ⟨registration, hmem, hspec⟩ := List.mem_map.mp (mem_tables_iff.mp hother)
  have hne := registration?_eq_none_iff.mp hnew registration hmem
  rwa [hspec] at hne

/-- An entry that is settled gives a name or a number, and it gets a column that is matched. -/
theorem settleEntry_eq_ok_iff :
    tree.settleEntry table position entry = .ok settled ↔
      (entry.columnName.isSome ∨ entry.columnNumber.isSome) ∧ ∃ column owner,
        tree.matchEntry table position entry = .ok (some (column, owner)) ∧
          { entry with
            columnName := some column.name
            columnNumber := some column.number
            type := column.type
            foreign := owner } = settled := by
  unfold settleEntry
  by_cases hcomplete : entry.columnName.isSome ∨ entry.columnNumber.isSome
  · have hgiven : (entry.columnName.isNone && entry.columnNumber.isNone) = false := by
      rcases hcomplete with h | h <;> simp [Option.isNone_eq_false_iff.mpr h]
    rcases hmatch : tree.matchEntry table position entry with e | _ | ⟨column, owner⟩
    all_goals simp [hgiven, hcomplete, bind, Except.bind, pure, Except.pure]
  · have hgiven : (entry.columnName.isNone && entry.columnNumber.isNone) = true := by
      simpa using hcomplete
    simp [hgiven, hcomplete]

/-- A match is found in the table that is named, in the table itself, or in another one. -/
theorem matchEntry_cases (hcomplete : entry.columnName.isSome ∨ entry.columnNumber.isSome)
    (hnew : tree.registration? table.name = none)
    (hmatch : tree.matchEntry table position entry = .ok (some (column, owner))) :
    (∃ named other, entry.foreign = some named ∧ named ≠ table.name ∧ owner = some named ∧
      tree.table named = .ok other ∧ entry.columnOf? other = some column) ∨
    ((∀ named ∈ entry.foreign, named = table.name) ∧ owner = none ∧
      entry.columnOf? table = some column) ∨
    ((∀ named ∈ entry.foreign, named = table.name) ∧ entry.columnOf? table = none ∧
      ∃ other, tree.tables.find? (fun other => (entry.columnOf? other).isSome) = some other ∧
        owner = some other.name ∧ entry.columnOf? other = some column) := by
  unfold matchEntry at hmatch
  cases hnamed : entry.foreign.filter fun owner => owner ≠ table.name with
  | some named =>
    obtain ⟨hforeign, hne⟩ := Option.filter_eq_some_iff.mp hnamed
    simp only [hnamed, bind_eq_ok_iff, pure_eq_ok_iff, Option.map_eq_some_iff,
      Prod.mk.injEq] at hmatch
    obtain ⟨other, hother, found, hfound, _, hcolumn, rfl, rfl⟩ := hmatch
    left
    refine ⟨named, other, hforeign, of_decide_eq_true hne, rfl, hother, ?_⟩
    rw [columnOf?_of_matchColumn hcomplete hfound, hcolumn]
  | none =>
    right
    have hown : ∀ named ∈ entry.foreign, named = table.name := fun named hmem => by
      simpa using Option.filter_eq_none_iff.mp hnamed named hmem
    simp only [hnamed, bind_eq_ok_iff] at hmatch
    obtain ⟨found, hfound, hmatch⟩ := hmatch
    have hcolumn := columnOf?_of_matchColumn hcomplete hfound
    cases found with
    | some own =>
      obtain ⟨rfl, rfl⟩ := Prod.mk.inj (Option.some.inj (pure_eq_ok_iff.mp hmatch))
      exact Or.inl ⟨hown, rfl, hcolumn⟩
    | none =>
      obtain ⟨other, hother, hotherColumn, howner⟩ := find?_of_matchForeign hcomplete
        (fun other hother => name_ne_of_mem_tables hnew hother) hmatch
      exact Or.inr ⟨hown, hcolumn, other, hother, howner, hotherColumn⟩

/-- An entry of a table with a new name is settled on the column that it means. -/
theorem WellFormed.settles_of_settleEntry (hwf : tree.WellFormed)
    (hnew : tree.registration? table.name = none)
    (hsettle : tree.settleEntry table position entry = .ok settled) :
    tree.Settles table entry settled := by
  obtain ⟨hcomplete, column, owner, hmatch, rfl⟩ := settleEntry_eq_ok_iff.mp hsettle
  rcases matchEntry_cases hcomplete hnew hmatch with
    ⟨named, other, hforeign, hne, rfl, hother, hcolumn⟩ | ⟨hown, rfl, hcolumn⟩ |
    ⟨hown, hnone, other, hother, rfl, hcolumn⟩
  · refine ⟨hcomplete, rfl, rfl, fun h => ?_, fun owner h => ?_, fun owner h _ => ?_,
      fun owner h _ => absurd (h named hforeign) hne⟩
    · cases h
    · obtain rfl := Option.some.inj h
      exact ⟨hne, other, column, hother, hcolumn, rfl, rfl, rfl⟩
    · rw [← h, hforeign]
  · refine ⟨hcomplete, rfl, rfl, fun _ => ⟨column, hcolumn, rfl, rfl, rfl⟩, fun owner h => ?_,
      fun owner h hne => absurd (hown owner h) hne, fun owner _ h => ?_⟩
    · cases h
    · cases h
  · have hmem := List.mem_of_find?_eq_some hother
    refine ⟨hcomplete, rfl, rfl, fun h => ?_, fun owner h => ?_,
      fun owner h hne => absurd (hown owner h) hne, fun owner _ h => ?_⟩
    · cases h
    · obtain rfl := Option.some.inj h
      exact ⟨name_ne_of_mem_tables hnew hmem, other, column, hwf.table_of_mem_tables hmem, hcolumn,
        rfl, rfl, rfl⟩
    · exact ⟨hnone, other, hother, Option.some.inj h⟩

/-- Entries that are settled are settled one by one, as the registered tables say. -/
theorem WellFormed.settles_of_settleEntries (hwf : tree.WellFormed)
    (hnew : tree.registration? table.name = none) {entries index : List IndexEntry}
    (hsettle : tree.settleEntries table position entries = .ok index) :
    List.Forall₂ (tree.Settles table) entries index := by
  induction entries generalizing position index with
  | nil =>
    obtain rfl := Except.ok.inj hsettle
    exact .nil
  | cons first rest ih =>
    simp only [settleEntries, bind_eq_ok_iff, pure_eq_ok_iff] at hsettle
    obtain ⟨settled, hfirst, others, hothers, rfl⟩ := hsettle
    exact .cons (hwf.settles_of_settleEntry hnew hfirst) (ih hothers)

/-! ### Registered tables -/

/-- Whether the entries of an index that are not foreign have columns of the table. -/
def FindsOwnColumns (table : TableProvider) : Prop :=
  ∀ entry ∈ table.localIndex, ∃ column ∈ table.columns, entry.columnNumber = some column.number

/-- Each item of the second of two related lists is related to one of the first. -/
theorem exists_of_mem_right {α β : Type} {r : α → β → Prop} {xs : List α} {ys : List β}
    (h : List.Forall₂ r xs ys) {y : β} (hy : y ∈ ys) : ∃ x ∈ xs, r x y := by
  induction h with
  | nil => cases hy
  | cons hfirst _ ih =>
    rcases List.mem_cons.mp hy with rfl | hy
    · exact ⟨_, List.mem_cons_self, hfirst⟩
    · obtain ⟨x, hx, hxy⟩ := ih hy
      exact ⟨x, List.mem_cons_of_mem _ hx, hxy⟩

/-- Whichever index a table is registered with, its own entries have columns of the table. -/
theorem WellFormed.findsOwnColumns_of_settleIndex (hwf : tree.WellFormed)
    (hnew : tree.registration? table.name = none) {index : List IndexEntry}
    (hsettle : tree.settleIndex table = .ok index) :
    FindsOwnColumns { table with index } := by
  intro entry hentry
  obtain ⟨hmem, hlocal⟩ := List.mem_filter.mp hentry
  rw [Option.isNone_iff_eq_none] at hlocal
  unfold settleIndex at hsettle
  cases haugments : table.augments with
  | some base =>
    simp only [haugments] at hsettle
    split at hsettle
    · cases hsettle
    · split at hsettle
      · obtain rfl := Except.ok.inj hsettle
        obtain ⟨given, _, rfl⟩ := List.mem_map.mp hmem
        cases hlocal
      · cases hsettle
  | none =>
    simp only [haugments] at hsettle
    obtain ⟨given, _, hsettles⟩ :=
      exists_of_mem_right (hwf.settles_of_settleEntries hnew hsettle) hmem
    obtain ⟨column, hcolumn, _, hnumber, _⟩ := hsettles.own hlocal
    exact ⟨column, List.mem_of_find?_eq_some hcolumn, hnumber⟩

/-- Whether each provider was registered in a reachable tree and is still as it was then. -/
def Recorded (tree : ObjectTree) : Prop :=
  ∀ spec ∈ tree.providers, ∃ moment given id after, Reachable moment ∧
    moment.register given = (.ok id, after) ∧ after.provider? given.name = some spec

/-- Providers are still recorded when some of them are gone. -/
theorem Recorded.of_subset (hrecorded : tree.Recorded)
    (hsubset : ∀ spec ∈ after.providers, spec ∈ tree.providers) : after.Recorded :=
  fun spec hspec => hrecorded spec (hsubset spec hspec)

/-- Providers are recorded after another one is registered. -/
theorem Recorded.register (hrecorded : tree.Recorded) (hreachable : tree.Reachable)
    (given : ProviderSpec) : (tree.register given).2.Recorded := by
  rcases tree.register_cases given with ⟨_, hresult⟩ | ⟨_, _, _, hresult⟩
  · rwa [hresult]
  · obtain ⟨spec, _, _, hfound, hproviders⟩ := registration?_of_register hresult
    rw [hresult]
    intro found hmem
    rw [hproviders, List.mem_append, List.mem_singleton] at hmem
    rcases hmem with hold | rfl
    · exact hrecorded found hold
    · exact ⟨tree, given, _, _, hreachable, hresult, by rw [provider?, hfound]; rfl⟩

/-- Providers are recorded after any operation. -/
theorem Recorded.apply (hrecorded : tree.Recorded) (hreachable : tree.Reachable)
    (operation : Operation) : (tree.apply operation).Recorded := by
  have hkeep (hregistry : (tree.apply operation).registry = tree.registry) :
      (tree.apply operation).Recorded :=
    hrecorded.of_subset fun _ => (mem_providers_congr hregistry).mp
  cases operation with
  | register given => exact hrecorded.register hreachable given
  | registerAll specs =>
    have hboth := registerAll_induction (motive := fun tree => tree.Reachable ∧ tree.Recorded)
      ⟨hreachable, hrecorded⟩
      (fun _ given h => ⟨h.1.apply (.register given), h.2.register h.1 given⟩) specs
    exact hboth.2
  | unregister name =>
    rcases (hreachable.wellFormed.unregister_atomic name).cases with hsame | ⟨_, hdone⟩
    · exact hkeep (by rw [ObjectTree.apply, hsame])
    · exact hrecorded.of_subset fun _ hspec => (hdone.mem_providers_iff.mp hspec).1
  | materialize oid => exact hkeep (registry_materialize oid)
  | setScalar name value => exact hkeep (registry_setScalar name value)
  | clearScalar name => exact hkeep (registry_clearScalar name)
  | addRow name values => exact hkeep (registry_addRow name values)
  | deleteRow name key => exact hkeep (registry_deleteRow name key)
  | setCell name column key value => exact hkeep (registry_setCell name column key value)

/-- Providers are recorded in every reachable tree. -/
theorem Reachable.recorded (hreachable : tree.Reachable) : tree.Recorded := by
  obtain ⟨operations, rfl⟩ := hreachable
  have hboth : (empty.run operations).Reachable ∧ (empty.run operations).Recorded :=
    empty_wellFormed.run_induction (motive := fun tree => tree.Reachable ∧ tree.Recorded)
      ⟨⟨[], rfl⟩, fun _ hspec => absurd hspec List.not_mem_nil⟩
      fun _ operation _ _ h => ⟨h.1.apply operation, h.2.apply h.1 operation⟩
  exact hboth.2

/-- A table was registered in a reachable tree and is still as it was then. -/
theorem Reachable.exists_register (hreachable : tree.Reachable)
    (htable : tree.table name = .ok table) :
    ∃ moment given id after, Reachable moment ∧ moment.register (.table given) = (.ok id, after) ∧
      given.name = name ∧ after.table name = .ok table := by
  obtain ⟨hmem, rfl⟩ := mem_providers_of_table htable
  obtain ⟨moment, given, id, after, hmoment, hregister, hfound⟩ := hreachable.recorded _ hmem
  have hname : table.name = given.name := (mem_providers_of_provider? hfound).2
  obtain ⟨registration, hregistration, hspec⟩ := Option.map_eq_some_iff.mp hfound
  have hafter : after.table table.name = .ok table :=
    table_eq_ok_iff.mpr ⟨registration, hname ▸ hregistration, hspec⟩
  cases given with
  | scalar provider =>
    obtain ⟨spec, hsettle, _, hsettled, _⟩ := registration?_of_register hregister
    obtain rfl := Except.ok.inj hsettle
    rw [Option.some.inj (hregistration.symm.trans hsettled)] at hspec
    cases hspec
  | table given => exact ⟨moment, given, id, after, hmoment, hregister, hname.symm, hafter⟩

/-- A registered table finds the columns of its own index entries. -/
theorem Reachable.findsOwnColumns (hreachable : tree.Reachable)
    (htable : tree.table name = .ok table) : FindsOwnColumns table := by
  obtain ⟨moment, given, id, after, hmoment, hregister, rfl, hafter⟩ :=
    hreachable.exists_register htable
  obtain ⟨spec, hsettle, hnew, hfound, _⟩ := registration?_of_register hregister
  obtain ⟨index, hindex, hsettled⟩ := bind_eq_ok_iff.mp hsettle
  obtain ⟨registration, hregistration, hspec⟩ := table_eq_ok_iff.mp hafter
  obtain rfl := Option.some.inj (hregistration.symm.trans hfound)
  obtain rfl := ProviderSpec.table.inj ((pure_eq_ok_iff.mp hsettled).trans hspec)
  exact hmoment.wellFormed.findsOwnColumns_of_settleIndex hnew hindex

/-! ### How adding a row can fail -/

/-- A cell without an address is an error of validation. -/
theorem kind_of_cellAddress_eq_error {number : Nat} {suffix : List Nat} {e : Error}
    (h : cellAddress table number suffix = .error e) : e.kind = .validation := by
  rcases bind_eq_error_iff.mp h with hcolumn | ⟨_, _, hsuffix⟩
  · exact Oid.kind_of_extend_eq_error hcolumn
  · exact Oid.kind_of_extend_eq_error hsuffix

/-- A place that cannot hold a value is an error of the structure. -/
theorem kind_of_checkSlotFrom_eq_error {id : NodeId} {arcs : List Nat} {e : Error}
    (h : tree.checkSlotFrom id arcs = .error e) : e.kind = .structural := by
  induction arcs generalizing id with
  | nil =>
    unfold checkSlotFrom at h
    split at h
    · split at h
      · cases h
      · obtain rfl := Except.error.inj h
        rfl
    · cases h
  | cons arc rest ih =>
    unfold checkSlotFrom at h
    split at h
    · split at h
      · obtain rfl := Except.error.inj h
        rfl
      · split at h
        · exact ih h
        · cases h
    · cases h

/-- A row that cannot be placed is an error of validation or of the structure. -/
theorem kind_of_planCells_eq_error {suffix : List Nat} {planned : List (TableColumn × Value)}
    {e : Error} (h : tree.planCells table suffix planned = .error e) :
    e.kind = .validation ∨ e.kind = .structural := by
  induction planned with
  | nil => cases h
  | cons first rest ih =>
    rcases bind_eq_error_iff.mp h with haddress | ⟨_, _, h⟩
    · exact Or.inl (kind_of_cellAddress_eq_error haddress)
    rcases bind_eq_error_iff.mp h with hslot | ⟨_, _, h⟩
    · exact Or.inr (kind_of_checkSlotFrom_eq_error hslot)
    rcases bind_eq_error_iff.mp h with hrest | ⟨_, _, h⟩
    · exact ih hrest
    · cases h

/-- Where the columns of the own index entries are found, a row of values has a key. -/
theorem FindsOwnColumns.exists_keyOfValues (hcolumns : FindsOwnColumns table)
    (hlength : values.length = table.foreignIndex.length + table.columns.length) :
    ∃ key, keyOfValues table values = .ok key := by
  simp only [keyOfValues, bind_eq_ok_iff, pure_eq_ok_iff]
  rw [exists_comm]
  simp only [exists_and_left, exists_eq', and_true]
  refine exists_mapM_iff.mpr fun entry hentry => ?_
  obtain ⟨column, hcolumn, hnumber⟩ := hcolumns entry hentry
  obtain ⟨i, hi⟩ : ∃ i, table.columnPosition? column.number = some i := by
    rw [← Option.isSome_iff_exists, TableProvider.columnPosition?, List.findIdx?_isSome,
      List.any_eq_true]
    exact ⟨column, hcolumn, decide_eq_true rfl⟩
  have hbound : i < table.columns.length := (List.findIdx?_eq_some_iff_findIdx_eq.mp hi).1
  have hvalue : table.foreignIndex.length + i < values.length := by omega
  exact ⟨values[table.foreignIndex.length + i], by simp [hnumber, hi, hvalue]⟩

/-- Adding a row never fails for want of an index column: no table of the name is registered, or the
values or the tree do not admit the row. -/
theorem Reachable.kind_of_addRow_eq_error (hreachable : tree.Reachable) {e : Error}
    (hadd : (tree.addRow name values).1 = .error e) :
    tree.table name = .error e ∨ e.kind = .validation ∨ e.kind = .structural := by
  have hplan : tree.planRow name values = .error e := by
    unfold addRow at hadd
    rcases hplan : tree.planRow name values with cause | ⟨key, cells⟩
    · rw [hplan] at hadd
      rw [Except.error.inj hadd]
    · rw [hplan] at hadd
      cases hadd
  rcases bind_eq_error_iff.mp hplan with htable | ⟨table, htable, hplan⟩
  · exact Or.inl htable
  right
  by_cases hlength : values.length = table.foreignIndex.length + table.columns.length
  · rw [if_neg (not_not_intro hlength)] at hplan
    obtain ⟨key, hkey⟩ := (hreachable.findsOwnColumns htable).exists_keyOfValues hlength
    simp only [hkey, bind_eq_error_iff, Except.ok.injEq, exists_eq_left', reduceCtorEq,
      false_or] at hplan
    rcases hplan with hsuffix | ⟨suffix, _, hplan⟩
    · rcases RowKey.refused_of_suffix_eq_error hsuffix with rfl | ⟨_, _, _, rfl⟩
      · exact Or.inl rfl
      · exact Or.inl rfl
    · rcases hplan with hcells | ⟨_, _, hplan⟩
      · exact kind_of_planCells_eq_error hcells
      · cases hplan
  · rw [if_pos hlength] at hplan
    obtain rfl := Except.error.inj hplan
    exact Or.inl rfl

/-- In a tree that any operations lead to, a table that is registered with an index of its own gets
an index with one entry for each given one, settled on the column that this one means, and it keeps
this index for as long as it stays registered. Every table of the tree was registered so in such a
tree. So every row of values has a key, and adding one never fails because the column of an index
entry is not found. -/
theorem run_empty_settles (operations : List Operation) :
    let tree := empty.run operations
    (∀ given id after, tree.register (.table given) = (.ok id, after) →
      given.augments = none → given.index ≠ [] →
      ∃ index, List.Forall₂ (tree.Settles given) given.index index ∧
        after.table given.name = .ok { given with index } ∧
        ∀ later, (∀ count, ((after.run (later.take count)).provider? given.name).isSome) →
          (after.run later).table given.name = .ok { given with index }) ∧
    (∀ name table, tree.table name = .ok table → ∃ moment given id after, Reachable moment ∧
      moment.register (.table given) = (.ok id, after) ∧ given.name = name ∧
      after.table name = .ok table) ∧
    (∀ name table values, tree.table name = .ok table →
      values.length = table.foreignIndex.length + table.columns.length →
      ∃ key, keyOfValues table values = .ok key) ∧
    ∀ name values table column,
      (tree.addRow name values).1 ≠ .error (.unresolvedIndexColumn table column) := by
  intro tree
  have hreachable : tree.Reachable := ⟨operations, rfl⟩
  refine ⟨fun given id after hregister haugments hindex => ?_,
    fun _ _ htable => hreachable.exists_register htable,
    fun _ _ _ htable => (hreachable.findsOwnColumns htable).exists_keyOfValues,
    fun name values table column hadd => ?_⟩
  · obtain ⟨spec, hsettle, hnew, hfound, _⟩ := registration?_of_register hregister
    obtain ⟨index, hsettled, hspec⟩ := bind_eq_ok_iff.mp hsettle
    obtain rfl := pure_eq_ok_iff.mp hspec
    have hentries : tree.settleEntries given 0 given.index = .ok index := by
      rw [settleIndex, haugments] at hsettled
      simpa [hindex] using hsettled
    have htable : after.table given.name = .ok { given with index } :=
      table_eq_ok_iff.mpr ⟨_, hfound, rfl⟩
    exact ⟨index, hreachable.wellFormed.settles_of_settleEntries hnew hentries, htable,
      table_run htable⟩
  · rcases hreachable.kind_of_addRow_eq_error hadd with htable | hkind | hkind
    · unfold ObjectTree.table at htable
      split at htable <;> cases htable
    · cases hkind
    · cases hkind

/-- A table of visits by their own numbers and the addresses of the hosts. -/
def visits : TableProvider where
  name := "visit"
  tableName := none
  oid := ⟨[1, 3, 11], by decide⟩
  columns := [⟨1, "number", some .integer⟩]
  index := [.ofName "number", .ofName "address"]
  augments := none

/-- The index of the visits is settled on their numbers and on the addresses of the hosts, stays as
it is when a visit is added, and gives every visit a key. -/
theorem run_empty_settles_visits :
    let tree := empty.run [.register (.table hosts)]
    let after := empty.run [.register (.table hosts), .register (.table visits)]
    let values : List Value := [.ipAddress ⟨10, 0, 0, 1⟩, .integer 7]
    (∃ index, List.Forall₂ (tree.Settles visits) visits.index index ∧
      after.table "visit" = .ok { visits with index } ∧
      (after.run [.addRow "visit" values]).table "visit" = .ok { visits with index } ∧
      ∃ key, keyOfValues { visits with index } values = .ok key) ∧
    ∀ name column,
      (after.addRow "visit" values).1 ≠ .error (.unresolvedIndexColumn name column) := by
  intro tree after values
  have hregister : tree.register (.table visits) = (.ok 4, after) :=
    Prod.ext (by decide +kernel) rfl
  have hkept : ∀ count, ((after.run (List.take count [.addRow "visit" values])).provider?
      "visit").isSome := by
    rintro (_ | count)
    · decide +kernel
    · rw [List.take_succ_cons, List.take_nil]
      decide +kernel
  obtain ⟨index, hsettles, htable, hlater⟩ :=
    (run_empty_settles [.register (.table hosts)]).1 visits 4 after hregister rfl (by decide)
  obtain ⟨_, _, hkey, hresolved⟩ :=
    run_empty_settles [.register (.table hosts), .register (.table visits)]
  have hforeign : (after.table visits.name).toOption.map (·.foreignIndex.length) = some 1 := by
    decide +kernel
  rw [htable] at hforeign
  have hwidth : values.length =
      ({ visits with index } : TableProvider).foreignIndex.length + visits.columns.length :=
    congrArg (· + 1) (Option.some.inj hforeign).symm
  exact ⟨⟨index, hsettles, htable, hlater _ hkept, hkey "visit" _ values htable hwidth⟩,
    hresolved "visit" values⟩

end ObjectTree

end Smi
