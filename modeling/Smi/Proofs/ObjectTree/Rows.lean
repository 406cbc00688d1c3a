import Smi.Proofs.ObjectTree.RowEffect
import Smi.Proofs.RowKey.RoundTrip

/-!
# A table as a map from suffixes to rows

Where the columns of a table have different numbers, two cells of it share an address only if they
stand in the same column and at the same suffix. So a row that was added is read back as it was
given, deleting it takes all of it away, replacing a cell changes that cell, and none of them
touches a row at another suffix.
-/

namespace Smi.ObjectTree

variable {tree after : ObjectTree} {oid address : Oid} {name : String} {table : TableProvider}
  {column other : TableColumn} {suffix : List Nat} {key : RowKey} {values : List Value}
  {value : Value} {planned : List (TableColumn × Value)}

/-! ### Cells do not collide -/

/-- An address is a cell of a table in one column and at one suffix only. -/
theorem isCell_iff_of_isCell {number number' : Nat} {suffix' : List Nat}
    (hcell : table.IsCell number suffix oid) :
    table.IsCell number' suffix' oid ↔ number' = number ∧ suffix' = suffix := by
  rw [TableProvider.IsCell, hcell, List.append_cancel_left_eq, List.cons.injEq, eq_comm,
    eq_comm (a := suffix)]

/-- Where the numbers differ, each column is given the value that stands at its place. -/
theorem plannedCell?_of_mem (hdistinct : (planned.map fun cell => cell.1.number).Nodup)
    (hmem : (column, value) ∈ planned) (hcell : table.IsCell column.number suffix oid) :
    plannedCell? table suffix planned oid =
      some ⟨value, column.type.getD value.naturalType⟩ := by
  induction planned with
  | nil => cases hmem
  | cons first rest ih =>
    obtain ⟨hfirst, hrest⟩ := List.nodup_cons.mp hdistinct
    have hsplit : plannedCell? table suffix (first :: rest) oid =
        (plannedCell? table suffix rest oid).or (plannedCell? table suffix [first] oid) := by
      rw [plannedCell?, List.reverse_cons, List.find?_append, Option.map_or]
      rfl
    rw [hsplit]
    rcases List.mem_cons.mp hmem with rfl | hmem
    · have hnone : plannedCell? table suffix rest oid = none := by
        rw [plannedCell?, Option.map_eq_none_iff, List.find?_eq_none]
        intro cell hcellMem
        rw [decide_eq_true_eq, isCell_iff_of_isCell hcell]
        rintro ⟨hnumber, -⟩
        exact hfirst (List.mem_map.mpr ⟨cell, List.mem_reverse.mp hcellMem, hnumber⟩)
      rw [hnone, Option.none_or]
      simp [plannedCell?, hcell]
    · rw [ih hrest hmem, Option.some_or]

/-- A row puts nothing at an address that is no cell of it. -/
theorem plannedCell?_eq_none
    (hother : ∀ cell ∈ planned, ¬table.IsCell cell.1.number suffix oid) :
    plannedCell? table suffix planned oid = none := by
  rw [plannedCell?, Option.map_eq_none_iff, List.find?_eq_none]
  intro cell hcell
  simpa using hother cell (List.mem_reverse.mp hcell)

/-! ### Reading cells and rows -/

/-- A number has a column if one of the columns has it. -/
theorem column?_isSome (hcolumn : column ∈ table.columns) :
    (table.column? column.number).isSome := by
  rw [TableProvider.column?, List.find?_isSome]
  exact ⟨column, hcolumn, by simp⟩

/-- A cell is located by the table, the suffix of the key and the number of a column. -/
theorem locateCell_eq_ok_iff (htable : tree.table name = .ok table) {number : Nat} :
    tree.locateCell name number key = .ok (suffix, address) ↔
      (table.column? number).isSome ∧ RowKey.suffix table key = .ok suffix ∧
        table.IsCell number suffix address := by
  rw [locateCell, htable, ← cellAddress_eq_ok_iff]
  simp only [bind_eq_ok_iff, Except.ok.injEq, exists_eq_left']
  cases hcolumn : table.column? number with
  | none => simp
  | some found =>
    simp only [Option.isNone_some, Bool.false_eq_true, if_false, bind_eq_ok_iff, pure_eq_ok_iff,
      Prod.mk.injEq, Option.isSome_some, true_and]
    constructor
    · rintro ⟨_, hsuffix, _, haddress, rfl, rfl⟩
      exact ⟨hsuffix, haddress⟩
    · rintro ⟨hsuffix, haddress⟩
      exact ⟨suffix, hsuffix, address, haddress, rfl, rfl⟩

/-- A cell is read at its address. -/
theorem getCell_eq (htable : tree.table name = .ok table) (hcolumn : column ∈ table.columns)
    (hsuffix : RowKey.suffix table key = .ok suffix)
    (hcell : table.IsCell column.number suffix address) :
    tree.getCell name column.number key =
      match tree.valueAt? address with
      | some value => .ok value
      | none => .error (missingRow name suffix) := by
  have hlocate : tree.locateCell name column.number key = .ok (suffix, address) :=
    (locateCell_eq_ok_iff htable).mpr ⟨column?_isSome hcolumn, hsuffix, hcell⟩
  rw [getCell, hlocate]
  cases hvalue : tree.valueAt? address with
  | none =>
    simp only [Bind.bind, Except.bind, hvalue]
    rfl
  | some value =>
    simp only [Bind.bind, Except.bind, hvalue]
    rfl

/-- A row is read if each of its cells is, and its values are theirs. -/
theorem getRow_eq_ok_iff (htable : tree.table name = .ok table) :
    tree.getRow name key = .ok values ↔
      table.columns.length = values.length ∧
        ∀ cell ∈ table.columns.zip values, tree.getCell name cell.1.number key = .ok cell.2 := by
  rw [getRow, htable]
  exact mapM_eq_ok_iff

/-- Trees with the same registry find a cell at the same address. -/
theorem locateCell_congr (hregistry : after.registry = tree.registry) (name : String)
    (number : Nat) (key : RowKey) :
    after.locateCell name number key = tree.locateCell name number key := by
  rw [locateCell, locateCell, table_congr hregistry]

/-- A cell is read alike from trees with the same tables and the same content at its address. -/
theorem getCell_congr (hregistry : after.registry = tree.registry) {number : Nat}
    (hcontent : ∀ suffix address, tree.locateCell name number key = .ok (suffix, address) →
      after.contentAt address = tree.contentAt address) :
    after.getCell name number key = tree.getCell name number key := by
  rw [getCell, getCell, locateCell_congr hregistry]
  cases hlocate : tree.locateCell name number key with
  | error e => rfl
  | ok found =>
    obtain ⟨suffix, address⟩ := found
    have hvalue : after.valueAt? address = tree.valueAt? address := by
      rw [valueAt?_eq, valueAt?_eq, hcontent suffix address hlocate]
    simp only [Bind.bind, Except.bind, hvalue]

/-! ### Changes of one row -/

/-- Whether the rows of a table at other suffixes than that of a key are read alike from another
tree, as a whole and cell by cell. -/
def KeepsOtherRows (tree : ObjectTree) (name : String) (key : RowKey) (after : ObjectTree) : Prop :=
  ∀ other, tree.instanceSuffix name other ≠ tree.instanceSuffix name key →
    after.getRow name other = tree.getRow name other ∧
      ∀ number, after.getCell name number other = tree.getCell name number other

/-- A change of contents at the suffix of a key keeps the rows at other suffixes. -/
theorem keepsOtherRows_of_contentAt (htable : tree.table name = .ok table)
    (hsuffix : RowKey.suffix table key = .ok suffix) (hregistry : after.registry = tree.registry)
    (hcontents : ∀ oid, (∀ number, ¬table.IsCell number suffix oid) →
      after.contentAt oid = tree.contentAt oid) :
    tree.KeepsOtherRows name key after := by
  intro other hother
  rw [instanceSuffix_eq htable, instanceSuffix_eq htable, hsuffix] at hother
  have hcells : ∀ number, after.getCell name number other = tree.getCell name number other := by
    refine fun number => getCell_congr hregistry fun suffix' address hlocate => ?_
    obtain ⟨_, hsuffix', hcell⟩ := (locateCell_eq_ok_iff htable).mp hlocate
    refine hcontents address fun number' hcell' => hother ?_
    rw [hsuffix', ((isCell_iff_of_isCell hcell').mp hcell).2]
  refine ⟨?_, hcells⟩
  rw [getRow, getRow, table_congr hregistry, htable]
  exact mapM_congr fun column _ => hcells column.number

/-- Where the columns have different numbers, the row that was added is read back, and the rows at
other suffixes are kept. -/
theorem WellFormed.getRow_of_addRow (hwf : tree.WellFormed) (htable : tree.table name = .ok table)
    (hdistinct : (table.columns.map TableColumn.number).Nodup)
    (hadd : tree.addRow name values = (.ok key, after)) :
    after.getRow name key = .ok (values.drop table.foreignIndex.length) ∧
      (∀ cell ∈ table.columns.zip (values.drop table.foreignIndex.length),
        after.getCell name cell.1.number key = .ok cell.2) ∧
      tree.KeepsOtherRows name key after := by
  have hrow := hwf.addRow_atomic name values
  rw [hadd] at hrow
  obtain ⟨_, suffix, htable', hlength, hsuffix, hregistry, haddresses, hcontents⟩ := hrow
  obtain rfl := Except.ok.inj (htable.symm.trans htable')
  have htableAfter := (table_congr hregistry name).trans htable
  have hwidth : table.columns.length = (values.drop table.foreignIndex.length).length := by
    rw [List.length_drop]
    omega
  have hcolumns : (table.columns.zip (values.drop table.foreignIndex.length)).map Prod.fst =
      table.columns := List.map_fst_zip (Nat.le_of_eq hwidth)
  rw [← hcolumns, List.map_map] at hdistinct
  have hcells : ∀ cell ∈ table.columns.zip (values.drop table.foreignIndex.length),
      after.getCell name cell.1.number key = .ok cell.2 := by
    rintro ⟨column, value⟩ hmem
    have hcolumn : column ∈ table.columns := (List.of_mem_zip hmem).1
    obtain ⟨address, hcell⟩ := haddresses column hcolumn
    have hplanned := plannedCell?_of_mem hdistinct hmem hcell
    rw [getCell_eq htableAfter hcolumn hsuffix hcell, valueAt?_eq, hcontents, hplanned]
    rfl
  refine ⟨(getRow_eq_ok_iff htableAfter).mpr ⟨hwidth, hcells⟩, hcells,
    keepsOtherRows_of_contentAt htable hsuffix hregistry fun oid hoid => ?_⟩
  rw [hcontents, plannedCell?_eq_none fun cell _ => hoid cell.1.number, Option.none_or]
  rfl

/-- A row can be deleted exactly if each column has a value in it. -/
theorem WellFormed.exists_deleteRow_iff (hwf : tree.WellFormed)
    (htable : tree.table name = .ok table) :
    (∃ after, tree.deleteRow name key = (.ok (), after)) ↔
      ∃ suffix, tree.instanceSuffix name key = .ok suffix ∧
        ∀ column ∈ table.columns, ∃ value, tree.getCell name column.number key = .ok value := by
  rw [instanceSuffix_eq htable]
  constructor
  · rintro ⟨after, hdelete⟩
    have hrow := hwf.deleteRow_atomic name key
    rw [hdelete] at hrow
    obtain ⟨_, suffix, htable', hsuffix, hvalues, _⟩ := hrow
    obtain rfl := Except.ok.inj (htable.symm.trans htable')
    refine ⟨suffix, hsuffix, fun column hcolumn => ?_⟩
    obtain ⟨address, hcell, hvalue⟩ := hvalues column hcolumn
    obtain ⟨value, hvalue⟩ := Option.isSome_iff_exists.mp hvalue
    exact ⟨value, by rw [getCell_eq htable hcolumn hsuffix hcell, hvalue]⟩
  · rintro ⟨suffix, hsuffix, hvalues⟩
    refine exists_deleteRow htable hsuffix fun column hcolumn => ?_
    obtain ⟨value, hget⟩ := hvalues column hcolumn
    obtain ⟨⟨suffix', address⟩, hlocate, _⟩ := bind_eq_ok_iff.mp hget
    obtain ⟨_, hsuffix', hcell⟩ := (locateCell_eq_ok_iff htable).mp hlocate
    obtain rfl := Except.ok.inj (hsuffix.symm.trans hsuffix')
    rw [getCell_eq htable hcolumn hsuffix hcell] at hget
    refine ⟨address, hcell, ?_⟩
    cases hvalue : tree.valueAt? address with
    | none => simp [hvalue] at hget
    | some found => rfl

/-- After a row was deleted none of its cells is there, and the rows at other suffixes are kept. -/
theorem WellFormed.getCell_of_deleteRow (hwf : tree.WellFormed)
    (htable : tree.table name = .ok table)
    (hdelete : tree.deleteRow name key = (.ok (), after)) :
    (∃ suffix, tree.instanceSuffix name key = .ok suffix ∧ ∀ column ∈ table.columns,
      after.getCell name column.number key = .error (missingRow name suffix)) ∧
      tree.KeepsOtherRows name key after := by
  have hrow := hwf.deleteRow_atomic name key
  rw [hdelete] at hrow
  obtain ⟨_, suffix, htable', hsuffix, hvalues, hregistry, hcontents⟩ := hrow
  obtain rfl := Except.ok.inj (htable.symm.trans htable')
  have htableAfter := (table_congr hregistry name).trans htable
  refine ⟨⟨suffix, (instanceSuffix_eq htable key).trans hsuffix, fun column hcolumn => ?_⟩,
    keepsOtherRows_of_contentAt htable hsuffix hregistry fun oid hoid => ?_⟩
  · obtain ⟨address, hcell, _⟩ := hvalues column hcolumn
    rw [getCell_eq htableAfter hcolumn hsuffix hcell, valueAt?_eq, hcontents,
      if_pos ⟨column, hcolumn, hcell⟩]
    rfl
  · rw [hcontents, if_neg fun ⟨column, _, hcell⟩ => hoid column.number hcell]

/-- A cell that is there is replaced: the old value is answered, the new one is read back, and no
other address changes. -/
theorem WellFormed.exists_setCell (hwf : tree.WellFormed) {number : Nat} {old : Value}
    (hget : tree.getCell name number key = .ok old) (value : Value) :
    ∃ suffix address after, tree.locateCell name number key = .ok (suffix, address) ∧
      tree.setCell name number key value = (.ok old, after) ∧
      after.getCell name number key = .ok value ∧ after.registry = tree.registry ∧
      ∀ oid, oid ≠ address → after.contentAt oid = tree.contentAt oid := by
  obtain ⟨after, hset⟩ := ObjectTree.exists_setCell hget value
  have hcell := hwf.setCell_atomic name number key value
  rw [hset] at hcell
  obtain ⟨suffix, address, cell, hlocate, _, _, hregistry, hchange⟩ := hcell
  refine ⟨suffix, address, after, hlocate, hset, ?_, hregistry, fun oid hoid => ?_⟩
  · have hvalue : after.valueAt? address = some value := by
      rw [valueAt?_eq, hchange, if_pos rfl]
      rfl
    rw [getCell, locateCell_congr hregistry, hlocate]
    simp only [Bind.bind, Except.bind, hvalue]
    rfl
  · rw [hchange, if_neg hoid]

/-- A table whose columns have different numbers is a map from suffixes to rows. A row that was
added is read back as it was given, as a whole and cell by cell. A row is deleted exactly if it is
there with all its cells, and then none of them is left. Replacing a cell answers the old value and
changes nothing at any other address. All the while the rows at other suffixes stay as they are. -/
theorem table_maps_suffixes_to_rows (hreachable : tree.Reachable)
    (htable : tree.table name = .ok table)
    (hdistinct : (table.columns.map TableColumn.number).Nodup) :
    (∀ values key after, tree.addRow name values = (.ok key, after) →
      after.getRow name key = .ok (values.drop table.foreignIndex.length) ∧
      (∀ cell ∈ table.columns.zip (values.drop table.foreignIndex.length),
        after.getCell name cell.1.number key = .ok cell.2) ∧
      tree.KeepsOtherRows name key after) ∧
    (∀ key, (∃ after, tree.deleteRow name key = (.ok (), after)) ↔
      ∃ suffix, tree.instanceSuffix name key = .ok suffix ∧
        ∀ column ∈ table.columns, ∃ value, tree.getCell name column.number key = .ok value) ∧
    (∀ key after, tree.deleteRow name key = (.ok (), after) →
      (∃ suffix, tree.instanceSuffix name key = .ok suffix ∧ ∀ column ∈ table.columns,
        after.getCell name column.number key = .error (missingRow name suffix)) ∧
      tree.KeepsOtherRows name key after) ∧
    ∀ number key value old, tree.getCell name number key = .ok old →
      ∃ suffix address after, tree.locateCell name number key = .ok (suffix, address) ∧
        tree.setCell name number key value = (.ok old, after) ∧
        after.getCell name number key = .ok value ∧ after.registry = tree.registry ∧
        ∀ oid, oid ≠ address → after.contentAt oid = tree.contentAt oid := by
  have hwf := hreachable.wellFormed
  exact ⟨fun values key after hadd => hwf.getRow_of_addRow htable hdistinct hadd,
    fun key => hwf.exists_deleteRow_iff htable,
    fun key after hdelete => hwf.getCell_of_deleteRow htable hdelete,
    fun number key value old hget => hwf.exists_setCell hget value⟩

/-- A host that was added is read back, and can then be deleted. -/
theorem hosts_hold_added_row :
    let row : RowKey := [.ipAddress ⟨10, 0, 0, 1⟩, .octetString "ab",
      .objectIdentifier ⟨[1, 3], by decide⟩]
    let after := (hostTree.addRow "host" row).2
    hostTree.addRow "host" row = (.ok row, after) ∧ after.getRow "host" row = .ok row ∧
      ∃ last, after.deleteRow "host" row = (.ok (), last) := by
  intro row after
  have htable : hostTree.table "host" = .ok { hosts with index := hostIndex } := by rfl
  have htableAfter : after.table "host" = .ok { hosts with index := hostIndex } := by rfl
  have hadd : hostTree.addRow "host" row = (.ok row, after) := by rfl
  have hreachable : hostTree.Reachable := ⟨[.register (.table hosts)], rfl⟩
  have hreachableAfter : after.Reachable :=
    ⟨[.register (.table hosts), .addRow "host" row], rfl⟩
  have hrows := table_maps_suffixes_to_rows hreachable htable (by decide)
  have hrowsAfter := table_maps_suffixes_to_rows hreachableAfter htableAfter (by decide)
  obtain ⟨hrow, hcells, _⟩ := hrows.1 row row after hadd
  refine ⟨hadd, hrow, (hrowsAfter.2.1 row).mpr ⟨_, rfl, ?_⟩⟩
  simpa [hosts] using ⟨⟨_, hcells _ (.head _)⟩, ⟨_, hcells _ (.tail _ (.head _))⟩,
    ⟨_, hcells _ (.tail _ (.tail _ (.head _)))⟩⟩

end Smi.ObjectTree
