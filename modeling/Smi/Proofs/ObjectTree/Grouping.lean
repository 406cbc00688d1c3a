import Smi.Proofs.ObjectTree.Augment
import Smi.Proofs.ObjectTree.Complete
import Smi.Proofs.ObjectTree.NextInstance

/-!
# Cells by column and by row

The instances of a column are its cells, in the order of their suffixes. Grouped by row, the values
of all columns are gathered behind their suffixes, one column after the other. Where every row is
whole, the columns have the same suffixes, and each way of grouping is the transpose of the other.
-/

namespace Smi.ObjectTree

variable {tree : ObjectTree} {oid address : Oid} {name : String} {table : TableProvider}
  {column : TableColumn} {number : Nat} {suffix : List Nat} {key : RowKey} {value : Value}
  {found : List (Oid × Cell)}

/-! ### The instances of a column -/

/-- The suffix of a cell is what follows the number of its column. -/
theorem suffixOf_eq (hcell : table.IsCell number suffix address) :
    suffixOf table address = suffix := by
  rw [suffixOf, hcell, Oid.length, List.drop_append]
  simp

/-- The address of a column is given if one of its cells has an address. -/
theorem exists_child_of_isCell (hcell : table.IsCell number suffix address) :
    ∃ columnOid, table.oid.child number = .ok columnOid := by
  obtain ⟨columnOid, hcolumn, _⟩ := bind_eq_ok_iff.mp (cellAddress_eq_ok_iff.mpr hcell)
  exact ⟨columnOid, hcolumn⟩

/-- The instances of a declared column are those below its address. -/
theorem columnInstances_eq_ok_iff (htable : tree.table name = .ok table) :
    tree.columnInstances name number = .ok found ↔
      (table.column? number).isSome ∧ ∃ columnOid, table.oid.child number = .ok columnOid ∧
        found = ((tree.find? columnOid).map fun id => instances (tree.preorder id)).getD [] := by
  rw [columnInstances, htable]
  simp only [bind_eq_ok_iff, Except.ok.injEq, exists_eq_left']
  cases hcolumn : table.column? number with
  | none => simp
  | some column =>
    simp only [Option.isNone_some, Bool.false_eq_true, if_false, bind_eq_ok_iff,
      Option.isSome_some, true_and]
    refine exists_congr fun columnOid => and_congr_right fun _ => ?_
    cases tree.find? columnOid <;> exact pure_eq_ok_iff.trans eq_comm

/-- The instances of a column are its cells with their values, in the order of their addresses. -/
theorem Linked.columnInstances_spec (hlinked : tree.Linked) (htable : tree.table name = .ok table)
    (hfound : tree.columnInstances name number = .ok found) :
    found.Pairwise (fun a b => a.1 < b.1) ∧ ∀ address cell, (address, cell) ∈ found ↔
      (∃ suffix, table.IsCell number suffix address) ∧
        (tree.contentAt address).cell = some cell := by
  obtain ⟨_, columnOid, hchild, rfl⟩ := (columnInstances_eq_ok_iff htable).mp hfound
  have harcs := Oid.child_eq_ok_iff.mp hchild
  have hbelow : ∀ address : Oid, columnOid.arcs <+: address.arcs ↔
      ∃ suffix, table.IsCell number suffix address := by
    intro address
    simp only [List.IsPrefix, harcs, List.append_assoc, List.singleton_append,
      TableProvider.IsCell, eq_comm]
  cases hfind : tree.find? columnOid with
  | none =>
    refine ⟨List.Pairwise.nil, fun address cell => ⟨fun h => absurd h List.not_mem_nil, ?_⟩⟩
    rintro ⟨hcell, hheld⟩
    obtain ⟨id, node, hnode, rfl, _⟩ := hlinked.cell_contentAt_iff.mp hheld
    obtain ⟨columnId, columnNode, hcolumnNode, hcolumnAddress⟩ :=
      hlinked.live_of_prefix ⟨id, node, hnode, rfl⟩ ((hbelow _).mpr hcell)
    rw [hlinked.find?_eq_some_iff.mpr ⟨columnNode, hcolumnNode, hcolumnAddress⟩] at hfind
    cases hfind
  | some id =>
    obtain ⟨node, hnode, rfl⟩ := hlinked.find?_eq_some_iff.mp hfind
    refine ⟨hlinked.instances_pairwise id, fun address cell => ?_⟩
    rw [← hbelow]
    exact hlinked.mem_instances_iff hnode

/-- The suffixes of the instances of a column. -/
def suffixesOf (table : TableProvider) (found : List (Oid × Cell)) : List (List Nat) :=
  found.map fun cell => suffixOf table cell.1

/-- Lists with the same beginning are in the order of what follows it. -/
theorem lt_of_append_left_lt {first second third : List Nat}
    (h : first ++ second < first ++ third) : second < third := by
  induction first with
  | nil => exact h
  | cons arc rest ih =>
    rcases List.cons_lt_cons_iff.mp h with hlt | ⟨_, hlt⟩
    · exact absurd hlt (Nat.lt_irrefl arc)
    · exact ih hlt

/-- The suffixes of a column are those at which it has a value, in ascending order. -/
theorem Linked.suffixesOf_spec (hlinked : tree.Linked) (htable : tree.table name = .ok table)
    (hfound : tree.columnInstances name number = .ok found) :
    (suffixesOf table found).Pairwise (· < ·) ∧
      (∀ suffix, suffix ∈ suffixesOf table found ↔
        (tree.cellValue? table number suffix).isSome) ∧
      ∀ cell ∈ found,
        tree.cellValue? table number (suffixOf table cell.1) = some cell.2.value := by
  obtain ⟨hsorted, hmem⟩ := hlinked.columnInstances_spec htable hfound
  have hisCell : ∀ cell ∈ found, table.IsCell number (suffixOf table cell.1) cell.1 := by
    intro cell hcell
    obtain ⟨⟨suffix, hsuffix⟩, _⟩ := (hmem cell.1 cell.2).mp hcell
    rwa [suffixOf_eq hsuffix]
  refine ⟨?_, fun suffix => ?_, fun cell hcell => ?_⟩
  · refine List.pairwise_map.mpr (hsorted.imp_of_mem fun {a b} ha hb hlt => ?_)
    have hlt' : a.1.arcs < b.1.arcs := hlt
    rw [hisCell a ha, hisCell b hb] at hlt'
    exact lt_of_append_left_lt
      (show [number] ++ _ < [number] ++ _ from lt_of_append_left_lt hlt')
  · rw [isSome_cellValue?_iff, suffixesOf, List.mem_map]
    constructor
    · rintro ⟨cell, hcell, rfl⟩
      refine ⟨cell.1, hisCell cell hcell, ?_⟩
      rw [((hmem cell.1 cell.2).mp hcell).2]
      exact Option.some_ne_none cell.2
    · rintro ⟨address, hsuffix, hheld⟩
      obtain ⟨cell, hcell⟩ := Option.ne_none_iff_exists'.mp hheld
      exact ⟨(address, cell), (hmem address cell).mpr ⟨⟨suffix, hsuffix⟩, hcell⟩,
        suffixOf_eq hsuffix⟩
  · rw [cellValue?_eq (hisCell cell hcell), valueAt?_eq, ((hmem cell.1 cell.2).mp hcell).2]
    rfl

/-! ### Gathering rows -/

/-- The values of those cells that stand at a suffix. -/
def gathered (table : TableProvider) (cells : List (Oid × Cell)) (suffix : List Nat) : List Value :=
  (cells.filter fun cell => suffixOf table cell.1 = suffix).map fun cell => cell.2.value

/-- The rows in which the values of cells are gathered behind their suffixes. -/
def gatherRows (table : TableProvider) (rows : OrderedMap (List Nat) (List Value))
    (cells : List (Oid × Cell)) : OrderedMap (List Nat) (List Value) :=
  cells.foldl (fun rows cell => addToRow rows (suffixOf table cell.1) cell.2.value) rows

/-- The values at a suffix begin with that of the first cell, if it stands there. -/
theorem gathered_cons (first : Oid × Cell) (cells : List (Oid × Cell)) :
    gathered table (first :: cells) suffix =
      (if suffixOf table first.1 = suffix then [first.2.value] else []) ++
        gathered table cells suffix := by
  rw [gathered, List.filter_cons]
  by_cases hsuffix : suffixOf table first.1 = suffix <;> simp [hsuffix, gathered]

/-- The values of a row come behind those that it already had, in the order of the cells. -/
theorem get?_gatherRows (rows : OrderedMap (List Nat) (List Value)) (cells : List (Oid × Cell))
    (suffix : List Nat) :
    (gatherRows table rows cells).get? suffix =
      if gathered table cells suffix = [] then rows.get? suffix
      else some ((rows.get? suffix).getD [] ++ gathered table cells suffix) := by
  induction cells generalizing rows with
  | nil => rfl
  | cons first rest ih =>
    have hstep : gatherRows table rows (first :: rest) =
        gatherRows table (addToRow rows (suffixOf table first.1) first.2.value) rest := rfl
    rw [hstep, ih, gathered_cons, addToRow, OrderedMap.get?_insert]
    by_cases hsuffix : suffixOf table first.1 = suffix
    · subst hsuffix
      by_cases hrest : gathered table rest (suffixOf table first.1) = [] <;> simp [hrest]
    · simp [hsuffix, Ne.symm hsuffix]

/-- Values are gathered behind those suffixes at which a cell stands. -/
theorem gathered_ne_nil_iff :
    gathered table found suffix ≠ [] ↔ suffix ∈ suffixesOf table found := by
  simp [gathered, suffixesOf]

/-- The values of gathered rows are those at each suffix, in ascending order of the suffixes. -/
theorem gatherRows_values {suffixes : List (List Nat)} (hsorted : suffixes.Pairwise (· < ·))
    (hmem : ∀ suffix, suffix ∈ suffixes ↔ suffix ∈ suffixesOf table found) :
    (gatherRows table .empty found).values = suffixes.map (gathered table found) := by
  have hget : ∀ suffix, (gatherRows table .empty found).get? suffix =
      if gathered table found suffix = [] then none else some (gathered table found suffix) :=
    fun suffix => get?_gatherRows .empty found suffix
  have hkeys : (gatherRows table .empty found).keys = suffixes := by
    refine OrderedMap.eq_of_mem_iff (OrderedMap.keys_pairwise _) hsorted fun suffix => ?_
    rw [OrderedMap.mem_keys_iff, hget, hmem, ← gathered_ne_nil_iff]
    by_cases hempty : gathered table found suffix = [] <;> simp [hempty]
  rw [← hkeys]
  refine OrderedMap.values_eq_map_keys _ fun suffix hsuffix => ?_
  rw [hkeys, hmem, ← gathered_ne_nil_iff] at hsuffix
  rw [hget, if_neg hsuffix]

/-- A column has one value at each of its suffixes. -/
theorem gathered_of_mem (hnodup : (suffixesOf table found).Nodup) {cell : Oid × Cell}
    (hcell : cell ∈ found) : gathered table found (suffixOf table cell.1) = [cell.2.value] := by
  induction found with
  | nil => cases hcell
  | cons first rest ih =>
    obtain ⟨hfirst, hrest⟩ := List.nodup_cons.mp hnodup
    rw [gathered_cons]
    rcases List.mem_cons.mp hcell with rfl | hcell
    · have hnone : gathered table rest (suffixOf table cell.1) = [] :=
        Decidable.not_not.mp (mt gathered_ne_nil_iff.mp hfirst)
      rw [if_pos rfl, hnone, List.append_nil]
    · have hne : suffixOf table first.1 ≠ suffixOf table cell.1 := fun hsame =>
        hfirst (List.mem_map.mpr ⟨cell, hcell, hsame.symm⟩)
      rw [if_neg hne, List.nil_append, ih hrest hcell]

/-- Values of several columns are gathered one column after the other. -/
theorem gathered_flatten (columns : List (List (Oid × Cell))) (suffix : List Nat) :
    gathered table columns.flatten suffix =
      (columns.map fun cells => gathered table cells suffix).flatten := by
  rw [gathered, List.filter_flatten, List.map_flatten, List.map_map]
  rfl

/-- The rows of columns that have the same suffixes hold one value of each column. -/
theorem gatherRows_flatten {suffixes : List (List Nat)} {columns : List TableColumn}
    {cells : TableColumn → List (Oid × Cell)} {valueOf : TableColumn → List Nat → Value}
    (hsorted : suffixes.Pairwise (· < ·)) (hcolumn : column ∈ columns)
    (hsuffixes : ∀ other ∈ columns, suffixesOf table (cells other) = suffixes)
    (hvalues : ∀ other ∈ columns, ∀ cell ∈ cells other,
      valueOf other (suffixOf table cell.1) = cell.2.value) :
    (gatherRows table .empty (columns.map cells).flatten).values =
      suffixes.map fun suffix => columns.map fun other => valueOf other suffix := by
  have hmem : ∀ suffix, suffix ∈ suffixes ↔
      suffix ∈ suffixesOf table (columns.map cells).flatten := by
    intro suffix
    rw [suffixesOf, List.map_flatten, List.map_map, List.mem_flatten]
    constructor
    · intro hsuffix
      rw [← hsuffixes column hcolumn] at hsuffix
      exact ⟨_, List.mem_map_of_mem hcolumn, hsuffix⟩
    · rintro ⟨_, hlist, hsuffix⟩
      obtain ⟨other, hother, rfl⟩ := List.mem_map.mp hlist
      rw [← hsuffixes other hother]
      exact hsuffix
  rw [gatherRows_values hsorted hmem]
  refine List.map_congr_left fun suffix hsuffix => ?_
  have hone : ∀ other ∈ columns, gathered table (cells other) suffix = [valueOf other suffix] := by
    intro other hother
    rw [← hsuffixes other hother] at hsuffix
    obtain ⟨cell, hcell, rfl⟩ := List.mem_map.mp hsuffix
    rw [hvalues other hother cell hcell]
    exact gathered_of_mem (hsuffixes other hother ▸ OrderedMap.nodup_of_pairwise hsorted) hcell
  rw [gathered_flatten, List.map_map, Function.comp_def, List.map_congr_left hone,
    ← List.flatMap_def, ← List.map_eq_flatMap]

/-! ### Both ways of grouping -/

/-- Whether the rows of one list of lists are the columns of another one. -/
def Transposed {α : Type} (rows columns : List (List α)) : Prop :=
  ∀ i j : Nat, (rows[i]?.bind fun row => row[j]?) = (columns[j]?.bind fun column => column[i]?)

/-- The values of a function of two lists, taken the one way, are the transpose of those taken the
other way. -/
theorem transposed_map {α β γ : Type} (first : List α) (second : List β) (f : α → β → γ) :
    Transposed (first.map fun a => second.map fun b => f a b)
      (second.map fun b => first.map fun a => f a b) := by
  intro i j
  cases hfirst : first[i]? <;> cases hsecond : second[j]? <;>
    simp [List.getElem?_map, hfirst, hsecond]

/-- Where rows are whole and one of them is there, the instances of every column are found, and all
columns have the same suffixes. -/
theorem WellFormed.exists_columns (hwf : tree.WellFormed) (htable : tree.table name = .ok table)
    (hwhole : tree.HoldsWholeRows table) (hcolumn : column ∈ table.columns)
    (hvalue : (tree.cellValue? table column.number suffix).isSome) :
    ∃ (cells : TableColumn → List (Oid × Cell)) (suffixes : List (List Nat)),
      (∀ other ∈ table.columns, tree.columnInstances name other.number = .ok (cells other) ∧
        suffixesOf table (cells other) = suffixes) ∧
      suffixes.Pairwise (· < ·) ∧
      ∀ suffix, suffix ∈ suffixes ↔ (tree.cellValue? table column.number suffix).isSome := by
  have hfound : ∀ other ∈ table.columns, ∃ found,
      tree.columnInstances name other.number = .ok found := by
    intro other hother
    obtain ⟨address, hcell, _⟩ :=
      isSome_cellValue?_iff.mp (hwhole suffix column hcolumn other hother hvalue)
    obtain ⟨columnOid, hchild⟩ := exists_child_of_isCell hcell
    exact ⟨_, (columnInstances_eq_ok_iff htable).mpr
      ⟨column?_isSome hother, columnOid, hchild, rfl⟩⟩
  have hcells : ∀ other ∈ table.columns, tree.columnInstances name other.number =
      .ok ((tree.columnInstances name other.number).toOption.getD []) := by
    intro other hother
    obtain ⟨found, hok⟩ := hfound other hother
    rw [hok]
    rfl
  obtain ⟨hsorted, hmem, _⟩ :=
    hwf.shaped.linked.suffixesOf_spec htable (hcells column hcolumn)
  refine ⟨fun other => (tree.columnInstances name other.number).toOption.getD [], _,
    fun other hother => ⟨hcells other hother, ?_⟩, hsorted, hmem⟩
  obtain ⟨hotherSorted, hotherMem, _⟩ :=
    hwf.shaped.linked.suffixesOf_spec htable (hcells other hother)
  refine OrderedMap.eq_of_mem_iff hotherSorted hsorted fun suffix => ?_
  rw [hotherMem, hmem]
  exact ⟨hwhole suffix other hother column hcolumn, hwhole suffix column hcolumn other hother⟩

/-- Columns with the same suffixes are listed by column and by row in the order of the suffixes. -/
theorem allCells_of_columns {cells : TableColumn → List (Oid × Cell)} {suffixes : List (List Nat)}
    {valueOf : TableColumn → List Nat → Value} (htable : tree.table name = .ok table)
    (hcolumn : column ∈ table.columns) (hsorted : suffixes.Pairwise (· < ·))
    (hcells : ∀ other ∈ table.columns, tree.columnInstances name other.number = .ok (cells other) ∧
      suffixesOf table (cells other) = suffixes)
    (hvalues : ∀ other ∈ table.columns, ∀ cell ∈ cells other,
      valueOf other (suffixOf table cell.1) = cell.2.value) :
    tree.allCells name .byColumn =
        .ok (table.columns.map fun other => suffixes.map fun suffix => valueOf other suffix) ∧
      tree.allCells name .byRow =
        .ok (suffixes.map fun suffix => table.columns.map fun other => valueOf other suffix) := by
  have hfound : (table.columns.mapM fun other => tree.columnInstances name other.number) =
      .ok (table.columns.map cells) :=
    mapM_eq_ok_map fun other hother => (hcells other hother).1
  simp only [allCells, htable, bind_eq_ok_iff, Except.ok.injEq, exists_eq_left', hfound,
    pure_eq_ok_iff, List.map_map]
  constructor
  · refine List.map_congr_left fun other hother => ?_
    rw [← (hcells other hother).2, suffixesOf, List.map_map]
    exact List.map_congr_left fun cell hcell => (hvalues other hother cell hcell).symm
  · exact gatherRows_flatten hsorted hcolumn (fun other hother => (hcells other hother).2) hvalues

/-- Where rows are whole and one of them is there, all cells are listed by column and by row, in
ascending order of the suffixes and in the order of the columns. -/
theorem WellFormed.allCells_spec (hwf : tree.WellFormed) (htable : tree.table name = .ok table)
    (hwhole : tree.HoldsWholeRows table) (hcolumn : column ∈ table.columns)
    (hvalue : (tree.cellValue? table column.number suffix).isSome) :
    ∃ (suffixes : List (List Nat)) (byColumn byRow : List (List Value)),
      tree.allCells name .byColumn = .ok byColumn ∧ tree.allCells name .byRow = .ok byRow ∧
      suffixes.Pairwise (· < ·) ∧
      (∀ suffix, suffix ∈ suffixes ↔ (tree.cellValue? table column.number suffix).isSome) ∧
      (byColumn.map (·.map some) = table.columns.map fun other =>
        suffixes.map fun suffix => tree.cellValue? table other.number suffix) ∧
      (byRow.map (·.map some) = suffixes.map fun suffix =>
        table.columns.map fun other => tree.cellValue? table other.number suffix) ∧
      Transposed byRow byColumn := by
  obtain ⟨cells, suffixes, hcells, hsorted, hmem⟩ :=
    hwf.exists_columns htable hwhole hcolumn hvalue
  let valueOf (other : TableColumn) (suffix : List Nat) : Value :=
    (tree.cellValue? table other.number suffix).getD .null
  have hvalues : ∀ other ∈ table.columns, ∀ cell ∈ cells other,
      valueOf other (suffixOf table cell.1) = cell.2.value := by
    intro other hother cell hcell
    obtain ⟨_, _, hsome⟩ := hwf.shaped.linked.suffixesOf_spec htable (hcells other hother).1
    simp only [valueOf, hsome cell hcell, Option.getD_some]
  have hsome : ∀ other ∈ table.columns, ∀ suffix ∈ suffixes,
      some (valueOf other suffix) = tree.cellValue? table other.number suffix := by
    intro other hother suffix hsuffix
    obtain ⟨value, hother⟩ := Option.isSome_iff_exists.mp
      (hwhole suffix column hcolumn other hother ((hmem suffix).mp hsuffix))
    simp only [valueOf, hother, Option.getD_some]
  obtain ⟨hbyColumn, hbyRow⟩ := allCells_of_columns htable hcolumn hsorted hcells hvalues
  refine ⟨suffixes, _, _, hbyColumn, hbyRow, hsorted, hmem, ?_, ?_,
    transposed_map suffixes table.columns fun suffix other => valueOf other suffix⟩
  · rw [List.map_map]
    refine List.map_congr_left fun other hother => ?_
    rw [Function.comp_apply, List.map_map]
    exact List.map_congr_left fun suffix hsuffix => hsome other hother suffix hsuffix
  · rw [List.map_map]
    refine List.map_congr_left fun suffix hsuffix => ?_
    rw [Function.comp_apply, List.map_map]
    exact List.map_congr_left fun other hother => hsome other hother suffix hsuffix

/-! ### Reading whole rows -/

/-- Whether the instances of a column include one at a suffix. -/
def Lists (tree : ObjectTree) (name : String) (table : TableProvider) (number : Nat)
    (suffix : List Nat) : Prop :=
  ∃ found, tree.columnInstances name number = .ok found ∧ suffix ∈ suffixesOf table found

/-- The instances of a declared column are its cells with a value. -/
theorem Linked.lists_iff (hlinked : tree.Linked) (htable : tree.table name = .ok table)
    (hcolumn : column ∈ table.columns) :
    tree.Lists name table column.number suffix ↔
      (tree.cellValue? table column.number suffix).isSome := by
  constructor
  · rintro ⟨found, hfound, hsuffix⟩
    exact ((hlinked.suffixesOf_spec htable hfound).2.1 suffix).mp hsuffix
  · intro hvalue
    obtain ⟨address, hcell, _⟩ := isSome_cellValue?_iff.mp hvalue
    obtain ⟨columnOid, hchild⟩ := exists_child_of_isCell hcell
    have hfound := (columnInstances_eq_ok_iff htable).mpr
      ⟨column?_isSome hcolumn, columnOid, hchild, rfl⟩
    exact ⟨_, hfound, ((hlinked.suffixesOf_spec htable hfound).2.1 suffix).mpr hvalue⟩

/-- A cell is read exactly if its key is written and it has a value. -/
theorem exists_getCell_iff (htable : tree.table name = .ok table)
    (hcolumn : column ∈ table.columns) :
    (∃ value, tree.getCell name column.number key = .ok value) ↔
      ∃ suffix, tree.instanceSuffix name key = .ok suffix ∧
        (tree.cellValue? table column.number suffix).isSome := by
  rw [instanceSuffix_eq htable]
  simp only [Option.isSome_iff_exists, cellValue?_eq_some_iff]
  constructor
  · rintro ⟨value, hget⟩
    obtain ⟨⟨suffix, address⟩, hlocate, _⟩ := bind_eq_ok_iff.mp hget
    obtain ⟨_, hsuffix, hcell⟩ := (locateCell_eq_ok_iff htable).mp hlocate
    rw [getCell_eq htable hcolumn hsuffix hcell] at hget
    split at hget
    · rename_i stored hvalue
      exact ⟨suffix, hsuffix, stored, address, hcell, hvalue⟩
    · cases hget
  · rintro ⟨suffix, hsuffix, value, address, hcell, hvalue⟩
    exact ⟨value, by rw [getCell_eq htable hcolumn hsuffix hcell, hvalue]⟩

/-- A row of a table that has columns is read exactly if its key is written and every column has a
value there. -/
theorem exists_getRow_iff (htable : tree.table name = .ok table)
    (hcolumn : column ∈ table.columns) :
    (∃ values, tree.getRow name key = .ok values) ↔
      ∃ suffix, tree.instanceSuffix name key = .ok suffix ∧
        ∀ other ∈ table.columns, (tree.cellValue? table other.number suffix).isSome := by
  have hcells : (∃ values, tree.getRow name key = .ok values) ↔
      ∀ other ∈ table.columns, ∃ value, tree.getCell name other.number key = .ok value := by
    rw [getRow, htable]
    exact exists_mapM_iff
  rw [hcells]
  constructor
  · intro hget
    obtain ⟨suffix, hsuffix, _⟩ := (exists_getCell_iff htable hcolumn).mp (hget column hcolumn)
    refine ⟨suffix, hsuffix, fun other hother => ?_⟩
    obtain ⟨found, hfound, hvalue⟩ := (exists_getCell_iff htable hother).mp (hget other hother)
    rwa [Except.ok.inj (hsuffix.symm.trans hfound)]
  · rintro ⟨suffix, hsuffix, hvalues⟩ other hother
    exact (exists_getCell_iff htable hother).mpr ⟨suffix, hsuffix, hvalues other hother⟩

/-- Where no two providers ever meet, rows are whole: a suffix has a value under one column of a
registered table exactly if it has one under every other column. If there is a row, all cells are
listed by column and by row, with the suffixes of the rows in ascending order and the columns as
they are declared, and the one list is the transpose of the other. In a table with columns a row is
read for exactly those keys that are written and whose suffix is among the instances of some column,
or of every column. -/
theorem run_empty_rows_whole (operations : List Operation)
    (hdisjoint : ∀ count, (empty.run (operations.take count)).Disjoint) {name : String}
    {table : TableProvider} (htable : (empty.run operations).table name = .ok table) :
    let tree := empty.run operations
    (∀ suffix, ∀ first ∈ table.columns, ∀ second ∈ table.columns,
      ((tree.cellValue? table first.number suffix).isSome ↔
        (tree.cellValue? table second.number suffix).isSome)) ∧
    (∀ column ∈ table.columns, ∀ suffix, (tree.cellValue? table column.number suffix).isSome →
      ∃ (suffixes : List (List Nat)) (byColumn byRow : List (List Value)),
        tree.allCells name .byColumn = .ok byColumn ∧ tree.allCells name .byRow = .ok byRow ∧
        suffixes.Pairwise (· < ·) ∧
        (∀ suffix, suffix ∈ suffixes ↔ (tree.cellValue? table column.number suffix).isSome) ∧
        (byColumn.map (·.map some) = table.columns.map fun other =>
          suffixes.map fun suffix => tree.cellValue? table other.number suffix) ∧
        (byRow.map (·.map some) = suffixes.map fun suffix =>
          table.columns.map fun other => tree.cellValue? table other.number suffix) ∧
        Transposed byRow byColumn) ∧
    (table.columns ≠ [] → ∀ key,
      ((∃ values, tree.getRow name key = .ok values) ↔
        ∃ suffix, tree.instanceSuffix name key = .ok suffix ∧
          ∃ column ∈ table.columns, tree.Lists name table column.number suffix) ∧
      ((∃ values, tree.getRow name key = .ok values) ↔
        ∃ suffix, tree.instanceSuffix name key = .ok suffix ∧
          ∀ column ∈ table.columns, tree.Lists name table column.number suffix)) := by
  intro tree
  have hwf : tree.WellFormed := empty_wellFormed.run operations
  have hwhole : tree.HoldsWholeRows table :=
    empty_complete.run empty_wellFormed hdisjoint table (mem_providers_of_table htable).1
  refine ⟨fun suffix first hfirst second hsecond =>
      ⟨hwhole suffix first hfirst second hsecond, hwhole suffix second hsecond first hfirst⟩,
    fun column hcolumn suffix hvalue => hwf.allCells_spec htable hwhole hcolumn hvalue,
    fun hcolumns key => ?_⟩
  obtain ⟨column, hcolumn⟩ := List.exists_mem_of_ne_nil _ hcolumns
  have hlists : ∀ {other : TableColumn} {suffix : List Nat}, other ∈ table.columns →
      (tree.Lists name table other.number suffix ↔
        (tree.cellValue? table other.number suffix).isSome) := hwf.shaped.linked.lists_iff htable
  rw [exists_getRow_iff htable hcolumn]
  constructor <;> refine exists_congr fun suffix => and_congr_right fun _ => ?_
  · constructor
    · intro hvalues
      exact ⟨column, hcolumn, (hlists hcolumn).mpr (hvalues column hcolumn)⟩
    · rintro ⟨first, hfirst, hlisted⟩ other hother
      exact hwhole suffix first hfirst other hother ((hlists hfirst).mp hlisted)
  · exact forall_congr' fun other => forall_congr' fun hother => (hlists hother).symm

/-- The values of a host with a label. -/
def hostRow (label : String) : List Value :=
  [.ipAddress ⟨10, 0, 0, 1⟩, .octetString label, .objectIdentifier ⟨[1, 3], by decide⟩]

/-- Two hosts, and a session beside them. -/
def hostRun : List Operation :=
  [.register (.table hosts), .addRow "host" (hostRow "b"), .register (.table sessions),
    .addRow "session" [.ipAddress ⟨10, 0, 0, 1⟩, .integer 7], .addRow "host" (hostRow "a")]

/-- Hosts and sessions stand beside each other. -/
theorem hostRun_disjoint : ∀ count, (empty.run (hostRun.take count)).Disjoint :=
  forall_run_take (by decide +kernel)

/-- The table of hosts has its settled index after the run. -/
theorem table_hostRun :
    (empty.run hostRun).table "host" = .ok { hosts with index := hostIndex } := by
  rfl

/-- The hosts are listed by column and by row, and each of them is read. -/
theorem run_empty_rows_whole_hosts :
    let tree := empty.run hostRun
    let table := { hosts with index := hostIndex }
    (∀ count, (empty.run (hostRun.take count)).Disjoint) ∧
      (∃ (suffixes : List (List Nat)) (byColumn byRow : List (List Value)),
        tree.allCells "host" .byColumn = .ok byColumn ∧ tree.allCells "host" .byRow = .ok byRow ∧
          [10, 0, 0, 1, 1, 98, 1, 3] ∈ suffixes ∧ Transposed byRow byColumn) ∧
      tree.Lists "host" table 1 [10, 0, 0, 1, 1, 97, 1, 3] ∧
      ∃ values, tree.getRow "host" (hostRow "a") = .ok values := by
  intro tree table
  obtain ⟨_, hgrouped, hread⟩ := run_empty_rows_whole hostRun hostRun_disjoint table_hostRun
  have hlinked : tree.Linked := (empty_wellFormed.run hostRun).shaped.linked
  have haddress : ⟨1, "address", some .ipAddress⟩ ∈ table.columns := by decide
  have hlisted : tree.Lists "host" table 1 [10, 0, 0, 1, 1, 97, 1, 3] :=
    (hlinked.lists_iff table_hostRun haddress).mpr (by decide +kernel)
  refine ⟨hostRun_disjoint, ?_, hlisted, ?_⟩
  · have hvalue : (tree.cellValue? table 2 [10, 0, 0, 1, 1, 98, 1, 3]).isSome := by
      decide +kernel
    obtain ⟨suffixes, byColumn, byRow, hbyColumn, hbyRow, _, hmem, _, _, htransposed⟩ :=
      hgrouped ⟨2, "label", some .octetString⟩ (by decide) _ hvalue
    exact ⟨suffixes, byColumn, byRow, hbyColumn, hbyRow, (hmem _).mpr hvalue, htransposed⟩
  · have hsuffix : tree.instanceSuffix "host" (hostRow "a") = .ok [10, 0, 0, 1, 1, 97, 1, 3] :=
      (instanceSuffix_eq table_hostRun (hostRow "a")).trans rfl
    exact (hread (by decide) (hostRow "a")).1.mpr ⟨_, hsuffix, _, haddress, hlisted⟩

end Smi.ObjectTree
