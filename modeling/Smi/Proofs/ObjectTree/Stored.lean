import Smi.Proofs.ObjectTree.Operation
import Smi.Proofs.Oid.Admissible

/-!
# Where values are stored

Storing a value changes the tree at its address alone. A row that is added has a value in each of
its columns, at the suffix of the key that is answered.
-/

namespace Smi.ObjectTree

variable {tree after : ObjectTree} {oid address : Oid} {cell : Cell} {name : String}
  {table : TableProvider} {suffix : List Nat} {values : List Value} {key : RowKey}

/-- Storing a value changes what is held at its address and nothing else. -/
theorem Shaped.contentAt_store (hshaped : tree.Shaped) (oid : Oid) (cell : Cell) (other : Oid) :
    (tree.store oid cell).contentAt other =
      if other = oid then { tree.contentAt oid with cell := some cell }
      else tree.contentAt other := by
  obtain ⟨hkeeps, node, hnode, haddress⟩ := hshaped.materialize oid
  have hself := hkeeps.shaped.linked.contentAt_address hnode
  rw [haddress, hkeeps.contentAt hshaped] at hself
  have hmodify := hkeeps.shaped.linked.contentAt_modify hnode
    (f := fun node => { node with cell := some cell }) (fun _ => rfl) other
  rw [haddress, hkeeps.contentAt hshaped] at hmodify
  rw [hself]
  exact hmodify

/-- A stored value is found at its address, and all others where they were. -/
theorem Shaped.valueAt?_store (hshaped : tree.Shaped) (oid : Oid) (cell : Cell) (other : Oid) :
    (tree.store oid cell).valueAt? other =
      if other = oid then some cell.value else tree.valueAt? other := by
  rw [valueAt?_eq, hshaped.contentAt_store]
  by_cases hother : other = oid
  · rw [if_pos hother, if_pos hother]
    rfl
  · rw [if_neg hother, if_neg hother, valueAt?_eq]

/-- Where values have been stored one after the other a value is found. -/
theorem WellFormed.valueAt?_storeAll (hwf : tree.WellFormed) {cells : List (Oid × Cell)}
    (hstored : (∃ cell, (address, cell) ∈ cells) ∨ (tree.valueAt? address).isSome) :
    ((cells.foldl (fun tree cell => tree.store cell.1 cell.2) tree).valueAt? address).isSome := by
  induction cells generalizing tree with
  | nil =>
    rcases hstored with ⟨_, hmem⟩ | hvalue
    · cases hmem
    · exact hvalue
  | cons first rest ih =>
    refine ih (hwf.store first.1 first.2) ?_
    rw [hwf.shaped.valueAt?_store]
    by_cases hfirst : address = first.1
    · rw [if_pos hfirst]
      exact Or.inr rfl
    · rw [if_neg hfirst]
      refine hstored.imp_left fun ⟨cell, hmem⟩ => ⟨cell, ?_⟩
      rcases List.mem_cons.mp hmem with rfl | hmem
      · exact absurd rfl hfirst
      · exact hmem

/-! ### Adding a row -/

/-- The cell of a row stands below its table, behind the number of its column and the suffix. -/
theorem arcs_of_cellAddress {column : Nat}
    (haddress : cellAddress table column suffix = .ok address) :
    address.arcs = table.oid.arcs ++ column :: suffix := by
  obtain ⟨columnOid, hcolumn, hsuffix⟩ := bind_eq_ok_iff.mp haddress
  rw [Oid.extend_eq_ok_iff.mp hsuffix, Oid.child_eq_ok_iff.mp hcolumn, List.append_assoc,
    List.singleton_append]

/-- Every planned value has a cell at its address. -/
theorem exists_mem_of_planCells {planned : List (TableColumn × Value)} {cells : List (Oid × Cell)}
    (hplan : tree.planCells table suffix planned = .ok cells) {column : TableColumn} {value : Value}
    (hmem : (column, value) ∈ planned) :
    ∃ address cell, cellAddress table column.number suffix = .ok address ∧
      (address, cell) ∈ cells := by
  induction planned generalizing cells with
  | nil => cases hmem
  | cons first rest ih =>
    obtain ⟨firstColumn, firstValue⟩ := first
    simp only [planCells, bind_eq_ok_iff, pure_eq_ok_iff] at hplan
    obtain ⟨address, haddress, _, _, others, hothers, rfl⟩ := hplan
    rcases List.mem_cons.mp hmem with heq | hmem
    · obtain ⟨rfl, rfl⟩ := Prod.mk.inj heq
      exact ⟨address, _, haddress, List.mem_cons_self⟩
    · obtain ⟨found, cell, hfound, hcell⟩ := ih hothers hmem
      exact ⟨found, cell, hfound, List.mem_cons_of_mem _ hcell⟩

/-- The cells of a planned row are those of its columns at the suffix of its key. -/
theorem planCells_of_planRow {cells : List (Oid × Cell)} (htable : tree.table name = .ok table)
    (hplan : tree.planRow name values = .ok (key, cells)) :
    values.length = table.foreignIndex.length + table.columns.length ∧
      keyOfValues table values = .ok key ∧ ∃ suffix, RowKey.suffix table key = .ok suffix ∧
        tree.planCells table suffix
          (table.columns.zip (values.drop table.foreignIndex.length)) = .ok cells := by
  unfold planRow at hplan
  simp only [htable, bind_eq_ok_iff, Except.ok.injEq, exists_eq_left'] at hplan
  by_cases hlength : values.length = table.foreignIndex.length + table.columns.length
  · rw [if_neg (not_not_intro hlength)] at hplan
    simp only [bind_eq_ok_iff, pure_eq_ok_iff, Prod.mk.injEq] at hplan
    obtain ⟨_, hkey, suffix, hsuffix, _, hcells, rfl, rfl⟩ := hplan
    exact ⟨hlength, hkey, suffix, hsuffix, hcells⟩
  · simp [if_pos hlength] at hplan

/-- In a row of values there is one for each column. -/
theorem exists_mem_zip_of_mem_columns {column : TableColumn}
    (hlength : values.length = table.foreignIndex.length + table.columns.length)
    (hcolumn : column ∈ table.columns) :
    ∃ value, (column, value) ∈ table.columns.zip (values.drop table.foreignIndex.length) := by
  have hcolumns : (table.columns.zip (values.drop table.foreignIndex.length)).map Prod.fst =
      table.columns := List.map_fst_zip (by rw [List.length_drop]; omega)
  rw [← hcolumns] at hcolumn
  obtain ⟨⟨_, value⟩, hmem, rfl⟩ := List.mem_map.mp hcolumn
  exact ⟨value, hmem⟩

/-- A row that was added has a value in each column, at the suffix of its key. -/
theorem WellFormed.valueAt?_addRow (hwf : tree.WellFormed) (htable : tree.table name = .ok table)
    (hadd : tree.addRow name values = (.ok key, after)) :
    ∃ suffix, tree.instanceSuffix name key = .ok suffix ∧
      ∀ column ∈ table.columns, ∃ address,
        address.arcs = table.oid.arcs ++ column.number :: suffix ∧
          (after.valueAt? address).isSome := by
  unfold ObjectTree.addRow at hadd
  rcases hplan : tree.planRow name values with e | ⟨found, cells⟩
  · rw [hplan] at hadd
    cases (Prod.mk.inj hadd).1
  rw [hplan] at hadd
  obtain ⟨hkey, rfl⟩ := Prod.mk.inj hadd
  obtain rfl := Except.ok.inj hkey
  obtain ⟨hlength, _, suffix, hsuffix, hcells⟩ := planCells_of_planRow htable hplan
  refine ⟨suffix, by rw [instanceSuffix, htable]; exact hsuffix, fun column hcolumn => ?_⟩
  obtain ⟨value, hmem⟩ := exists_mem_zip_of_mem_columns hlength hcolumn
  obtain ⟨address, cell, haddress, hcell⟩ := exists_mem_of_planCells hcells hmem
  exact ⟨address, arcs_of_cellAddress haddress, hwf.valueAt?_storeAll (Or.inl ⟨cell, hcell⟩)⟩

end Smi.ObjectTree
