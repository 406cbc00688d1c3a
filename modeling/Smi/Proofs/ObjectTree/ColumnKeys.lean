import Smi.Proofs.ObjectTree.Grouping
import Smi.Proofs.RowKey.Legible

/-!
# The keys of a column

A column is read together with the keys of its rows, and these have to be read from the suffixes of
the cells. A table that meets no other provider has only rows that were written for one of its own
keys. So its columns are read as long as the suffixes of its keys can be read.
-/

namespace Smi.ObjectTree

variable {tree : ObjectTree} {name : String} {table : TableProvider} {column : TableColumn}
  {number : Nat} {suffix : List Nat} {key : RowKey} {pairs : List (RowKey × Value)}

/-! ### Rows and their keys -/

/-- Whether a row of a table stands at a suffix: some column has a value there. -/
def HasRow (tree : ObjectTree) (table : TableProvider) (suffix : List Nat) : Prop :=
  ∃ column ∈ table.columns, (tree.cellValue? table column.number suffix).isSome

/-- A row of a table of whole rows stands wherever one of the columns has a value. -/
theorem HoldsWholeRows.hasRow_iff (hwhole : tree.HoldsWholeRows table)
    (hcolumn : column ∈ table.columns) :
    tree.HasRow table suffix ↔ (tree.cellValue? table column.number suffix).isSome := by
  constructor
  · rintro ⟨other, hother, hvalue⟩
    exact hwhole suffix other hother column hcolumn hvalue
  · exact fun hvalue => ⟨column, hcolumn, hvalue⟩

/-- A row of a table that meets no other provider stands at the suffix of one of its keys. -/
theorem Owned.exists_instanceSuffix (howned : tree.Owned) (htable : tree.table name = .ok table)
    (halone : tree.Alone (.table table)) (hrow : tree.HasRow table suffix) :
    ∃ key, tree.instanceSuffix name key = .ok suffix := by
  obtain ⟨column, _, hvalue⟩ := hrow
  obtain ⟨address, hcell, hheld⟩ := isSome_cellValue?_iff.mp hvalue
  obtain ⟨other, _, key, written, hwritten, hother⟩ :=
    howned.owns_of_alone halone hheld (List.prefix_refl _) ⟨_, hcell.symm⟩
  obtain ⟨_, rfl⟩ := (isCell_iff_of_isCell hother).mp hcell
  exact ⟨key, (instanceSuffix_eq htable key).trans hwritten⟩

/-- The numbers of a suffix at which a row stands are arcs. -/
theorem le_maxArc_of_isCell {address : Oid} (hcell : table.IsCell number suffix address) :
    ∀ n ∈ suffix, n ≤ Oid.maxArc := by
  intro n hn
  have hadmissible := address.admissible
  rw [hcell] at hadmissible
  exact Oid.le_maxArc_of_admissibleFrom hadmissible n
    (List.mem_append_right _ (List.mem_cons_of_mem _ hn))

/-! ### Reading a column -/

/-- The key and the value of an instance of a column. -/
def keyed (table : TableProvider) (cell : Oid × Cell) : Except Error (RowKey × Value) := do
  let key ← RowKey.ofSuffix table (suffixOf table cell.1)
  return (key, cell.2.value)

/-- A column is read if its instances are found and the key of each of them can be told. -/
theorem getColumn_eq_ok_iff (htable : tree.table name = .ok table) :
    tree.getColumn name number = .ok pairs ↔
      ∃ found, tree.columnInstances name number = .ok found ∧
        found.mapM (keyed table) = .ok pairs := by
  rw [getColumn, htable]
  simp only [bind_eq_ok_iff, Except.ok.injEq, exists_eq_left']
  exact Iff.rfl

/-- An instance is read as the key that its suffix stands for and its value. -/
theorem keyed_eq_ok_iff (htable : tree.table name = .ok table) {cell : Oid × Cell}
    {pair : RowKey × Value} :
    keyed table cell = .ok pair ↔
      tree.rowKeyOfSuffix name (suffixOf table cell.1) = .ok pair.1 ∧ cell.2.value = pair.2 := by
  rw [rowKeyOfSuffix_eq htable, keyed]
  simp only [bind_eq_ok_iff, pure_eq_ok_iff]
  constructor
  · rintro ⟨key, hkey, rfl⟩
    exact ⟨hkey, rfl⟩
  · rintro ⟨hkey, hvalue⟩
    exact ⟨pair.1, hkey, Prod.ext rfl hvalue⟩

/-- A declared column is read exactly if it has an address and the keys of all its cells are
read. -/
theorem Linked.exists_getColumn_iff (hlinked : tree.Linked) (htable : tree.table name = .ok table)
    (hcolumn : column ∈ table.columns) :
    (∃ pairs, tree.getColumn name column.number = .ok pairs) ↔
      (∃ columnOid, table.oid.child column.number = .ok columnOid) ∧
        ∀ suffix, (tree.cellValue? table column.number suffix).isSome →
          ∃ key, tree.rowKeyOfSuffix name suffix = .ok key := by
  have hkeys : ∀ found, tree.columnInstances name column.number = .ok found →
      ((∃ pairs, found.mapM (keyed table) = .ok pairs) ↔
        ∀ suffix, (tree.cellValue? table column.number suffix).isSome →
          ∃ key, tree.rowKeyOfSuffix name suffix = .ok key) := by
    intro found hfound
    obtain ⟨_, hmem, _⟩ := hlinked.suffixesOf_spec htable hfound
    simp only [exists_mapM_iff, ← hmem, suffixesOf, List.forall_mem_map, keyed_eq_ok_iff htable,
      Prod.exists, exists_and_left, exists_eq', and_true]
  simp only [getColumn_eq_ok_iff htable]
  constructor
  · rintro ⟨pairs, found, hfound, hpairs⟩
    obtain ⟨_, columnOid, hchild, _⟩ := (columnInstances_eq_ok_iff htable).mp hfound
    exact ⟨⟨columnOid, hchild⟩, (hkeys found hfound).mp ⟨pairs, hpairs⟩⟩
  · rintro ⟨⟨columnOid, hchild⟩, hall⟩
    have hfound := (columnInstances_eq_ok_iff htable).mpr
      ⟨column?_isSome hcolumn, columnOid, hchild, rfl⟩
    obtain ⟨pairs, hpairs⟩ := (hkeys _ hfound).mpr hall
    exact ⟨pairs, _, hfound, hpairs⟩

/-- The pairs of a column belong to its suffixes in ascending order: each key is written in its
suffix, and each value is the one of the cell. -/
theorem Linked.getColumn_spec (hlinked : tree.Linked) (htable : tree.table name = .ok table)
    (hread : tree.getColumn name number = .ok pairs) :
    ∃ suffixes : List (List Nat), suffixes.Pairwise (· < ·) ∧
      (∀ suffix, suffix ∈ suffixes ↔ (tree.cellValue? table number suffix).isSome) ∧
      (pairs.map (fun pair => tree.instanceSuffix name pair.1) = suffixes.map .ok) ∧
      pairs.map (fun pair => some pair.2) = suffixes.map (tree.cellValue? table number) := by
  obtain ⟨found, hfound, hpairs⟩ := (getColumn_eq_ok_iff htable).mp hread
  obtain ⟨hsorted, hmem, hvalues⟩ := hlinked.suffixesOf_spec htable hfound
  refine ⟨suffixesOf table found, hsorted, hmem, ?_, ?_⟩
  · rw [suffixesOf, List.map_map]
    refine map_eq_of_mapM_eq_ok hpairs fun cell hcell pair hpair => ?_
    obtain ⟨hkey, _⟩ := (keyed_eq_ok_iff htable).mp hpair
    obtain ⟨address, haddress, _⟩ := isSome_cellValue?_iff.mp
      ((hmem (suffixOf table cell.1)).mp (List.mem_map_of_mem hcell))
    exact instanceSuffix_of_rowKeyOfSuffix htable (le_maxArc_of_isCell haddress) hkey
  · rw [suffixesOf, List.map_map]
    refine map_eq_of_mapM_eq_ok hpairs fun cell hcell pair hpair => ?_
    rw [← ((keyed_eq_ok_iff htable).mp hpair).2]
    exact (hvalues cell hcell).symm

/-- Where no two providers ever meet, a declared column of a registered table is read if its number
can follow the identifier of the table and the index is legible. It has one pair for each row, in
ascending order of the suffixes, with a key that is written in the suffix of the row and the value
of the cell. For any other index the column is read exactly as long as the suffixes of all rows can
be read, and an index is legible exactly if this is so of the suffixes of all keys. -/
theorem run_empty_getColumn (operations : List Operation)
    (hdisjoint : ∀ count, (empty.run (operations.take count)).Disjoint) {name : String}
    {table : TableProvider} (htable : (empty.run operations).table name = .ok table)
    {column : TableColumn} (hcolumn : column ∈ table.columns) :
    let tree := empty.run operations
    (RowKey.Legible table.keyIndex →
      (∃ columnOid, table.oid.child column.number = .ok columnOid) →
      ∃ pairs, tree.getColumn name column.number = .ok pairs) ∧
    (∀ pairs, tree.getColumn name column.number = .ok pairs →
      ∃ suffixes : List (List Nat), suffixes.Pairwise (· < ·) ∧
        (∀ suffix, suffix ∈ suffixes ↔ tree.HasRow table suffix) ∧
        (pairs.map (fun pair => tree.instanceSuffix name pair.1) = suffixes.map .ok) ∧
        pairs.map (fun pair => some pair.2) =
          suffixes.map (tree.cellValue? table column.number)) ∧
    ((∃ pairs, tree.getColumn name column.number = .ok pairs) ↔
      (∃ columnOid, table.oid.child column.number = .ok columnOid) ∧
        ∀ suffix, tree.HasRow table suffix →
          ∃ key, tree.rowKeyOfSuffix name suffix = .ok key) ∧
    (RowKey.Legible table.keyIndex ↔ ∀ key suffix, tree.instanceSuffix name key = .ok suffix →
      ∃ read, tree.rowKeyOfSuffix name suffix = .ok read) := by
  intro tree
  have hwf : tree.WellFormed := empty_wellFormed.run operations
  have howned : tree.Owned := empty_owned.run empty_wellFormed operations
  have hspec := (mem_providers_of_table htable).1
  have hwhole : tree.HoldsWholeRows table :=
    empty_complete.run empty_wellFormed hdisjoint table hspec
  have halone : tree.Alone (.table table) := by
    have hlast := hdisjoint operations.length
    rw [List.take_length] at hlast
    exact hlast _ hspec
  have hlegible := legible_keyIndex_iff htable
  have hreads : (∃ pairs, tree.getColumn name column.number = .ok pairs) ↔
      (∃ columnOid, table.oid.child column.number = .ok columnOid) ∧
        ∀ suffix, tree.HasRow table suffix →
          ∃ key, tree.rowKeyOfSuffix name suffix = .ok key := by
    simp only [hwhole.hasRow_iff hcolumn]
    exact hwf.shaped.linked.exists_getColumn_iff htable hcolumn
  refine ⟨fun hindex hchild => hreads.mpr ⟨hchild, fun suffix hrow => ?_⟩, fun pairs hread => ?_,
    hreads, hlegible⟩
  · obtain ⟨key, hkey⟩ := howned.exists_instanceSuffix htable halone hrow
    exact hlegible.mp hindex key suffix hkey
  · simp only [hwhole.hasRow_iff hcolumn]
    exact hwf.shaped.linked.getColumn_spec htable hread

/-- The labels of two hosts are read with their keys. -/
theorem run_empty_getColumn_hosts :
    let tree := empty.run hostRun
    ∃ pairs, tree.getColumn "host" 2 = .ok pairs ∧
      ∃ suffixes : List (List Nat), suffixes.Pairwise (· < ·) ∧
        [10, 0, 0, 1, 1, 97, 1, 3] ∈ suffixes ∧
        pairs.map (fun pair => tree.instanceSuffix "host" pair.1) = suffixes.map .ok := by
  intro tree
  have hcolumn : ⟨2, "label", some .octetString⟩ ∈ hosts.columns := by decide
  have hrow : tree.HasRow { hosts with index := hostIndex } [10, 0, 0, 1, 1, 97, 1, 3] :=
    ⟨_, hcolumn, by decide +kernel⟩
  obtain ⟨hread, hspec, _⟩ := run_empty_getColumn hostRun hostRun_disjoint table_hostRun hcolumn
  obtain ⟨pairs, hpairs⟩ := hread (by decide) ⟨⟨[1, 3, 6, 2], by decide⟩, rfl⟩
  obtain ⟨suffixes, hsorted, hmem, hkeys, _⟩ := hspec pairs hpairs
  exact ⟨pairs, hpairs, suffixes, hsorted, (hmem _).mpr hrow, hkeys⟩

/-- A table of groups by their labels. -/
def groups : TableProvider where
  name := "group"
  tableName := none
  oid := ⟨[1, 3, 9], by decide⟩
  columns := [⟨1, "label", some .octetString⟩]
  index := [{ IndexEntry.ofName "label" with implied := true }]
  augments := none

/-- A table of members by their own numbers and the labels of their groups. -/
def members : TableProvider where
  name := "member"
  tableName := none
  oid := ⟨[1, 3, 10], by decide⟩
  columns := [⟨1, "number", some .integer⟩]
  index := [.ofName "number", { IndexEntry.ofName "label" with implied := true }]
  augments := none

/-- Groups and members are registered, and a member is added. -/
def memberRun : List Operation :=
  [.register (.table groups), .register (.table members),
    .addRow "member" [.octetString "ab", .integer 7]]

/-- The label of the group is written before the number of the member, with nothing to show its end.
So the key of a member that was added cannot be read back, and the column cannot be read. -/
theorem getColumn_members :
    let tree := empty.run memberRun
    let key : RowKey := [.octetString "ab", .integer 7]
    (∀ count, (empty.run (memberRun.take count)).Disjoint) ∧
      ((empty.run (memberRun.take 2)).addRow "member" key).1 = .ok key ∧
      tree.instanceSuffix "member" key = .ok [97, 98, 7] ∧
      tree.getColumn "member" 1 = .error (.malformedSuffix "member" "97.98.7") := by
  intro tree key
  exact ⟨forall_run_take (by decide +kernel), by rfl, by rfl, by rfl⟩

end Smi.ObjectTree
