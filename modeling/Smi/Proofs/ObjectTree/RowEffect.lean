import Smi.Proofs.ObjectTree.Effect

/-!
# What row operations do to the contents

The cells of a row stand at one address for each column, behind the number of the column and the
suffix of the key. Adding and deleting a row change what is found at these addresses, and replacing
a cell what is found at one of them. Each operation fails and changes nothing, or it changes all
that it is about.
-/

namespace Smi

/-- Whether an address is that of a cell of a table, in the column of a number and at a suffix. -/
def TableProvider.IsCell (table : TableProvider) (column : Nat) (suffix : List Nat) (oid : Oid) :
    Prop :=
  oid.arcs = table.oid.arcs ++ column :: suffix

instance (table : TableProvider) (column : Nat) (suffix : List Nat) (oid : Oid) :
    Decidable (table.IsCell column suffix oid) :=
  inferInstanceAs (Decidable (_ = _))

namespace ObjectTree

variable {tree : ObjectTree} {oid address : Oid} {name : String} {table : TableProvider}
  {column : Nat} {suffix : List Nat} {key : RowKey} {values : List Value}
  {columns : List TableColumn} {ids : List NodeId} {planned : List (TableColumn × Value)}
  {cells : List (Oid × Cell)}

/-! ### The addresses of cells -/

/-- The address of a cell is that of its table, its column and its suffix. -/
theorem cellAddress_eq_ok_iff :
    cellAddress table column suffix = .ok address ↔ table.IsCell column suffix address := by
  refine ⟨arcs_of_cellAddress, fun harcs => ?_⟩
  have hsplit : address.arcs = (table.oid.arcs ++ [column]) ++ suffix := by
    rw [show address.arcs = _ from harcs, List.append_assoc, List.singleton_append]
  have hadmissible := address.admissible
  rw [hsplit] at hadmissible
  refine bind_eq_ok_iff.mpr
    ⟨⟨table.oid.arcs ++ [column], (Oid.admissibleFrom_append.mp hadmissible).1⟩, ?_, ?_⟩
  · exact Oid.child_eq_ok_iff.mpr rfl
  · exact Oid.extend_eq_ok_iff.mpr hsplit

/-! ### Adding a row -/

/-- What a row of values puts at an address. Where several columns have one number the last of them
counts. -/
def plannedCell? (table : TableProvider) (suffix : List Nat)
    (planned : List (TableColumn × Value)) (oid : Oid) : Option Cell :=
  (planned.reverse.find? fun cell => table.IsCell cell.1.number suffix oid).map fun cell =>
    ⟨cell.2, cell.1.type.getD cell.2.naturalType⟩

/-- The planned cells are those of the columns at the suffix. -/
theorem lookup_reverse_of_planCells (hplan : tree.planCells table suffix planned = .ok cells)
    (oid : Oid) : cells.reverse.lookup oid = plannedCell? table suffix planned oid := by
  induction planned generalizing cells with
  | nil =>
    obtain rfl := Except.ok.inj hplan
    rfl
  | cons first rest ih =>
    obtain ⟨column, value⟩ := first
    simp only [planCells, bind_eq_ok_iff, pure_eq_ok_iff] at hplan
    obtain ⟨address, haddress, _, _, others, hothers, rfl⟩ := hplan
    have hcell := cellAddress_eq_ok_iff.mp haddress
    have hrest := ih hothers
    simp only [plannedCell?] at hrest ⊢
    rw [List.reverse_cons, List.reverse_cons, List.lookup_append, List.find?_append, hrest,
      Option.map_or]
    congr 1
    by_cases hoid : oid = address
    · subst hoid
      simp [hcell]
    · have hne : (oid == address) = false := by simpa using hoid
      have hother : ¬table.IsCell column.number suffix oid :=
        fun h => hoid (Oid.ext (h.trans hcell.symm))
      simp [List.lookup_cons, hne, hother]

/-- What adding a row does: it stores the values behind those of the foreign index entries at the
cells of the columns, at the suffix of the answered key. -/
def AddsRow (tree : ObjectTree) (name : String) (values : List Value) (key : RowKey)
    (after : ObjectTree) : Prop :=
  ∃ table suffix, tree.table name = .ok table ∧
    values.length = table.foreignIndex.length + table.columns.length ∧
    RowKey.suffix table key = .ok suffix ∧ after.registry = tree.registry ∧
    (∀ column ∈ table.columns, ∃ address, table.IsCell column.number suffix address) ∧
    ∀ oid, after.contentAt oid =
      (tree.contentAt oid).withCell ((plannedCell? table suffix
        (table.columns.zip (values.drop table.foreignIndex.length)) oid).or
          (tree.contentAt oid).cell)

/-- Adding a row does all it says or nothing. -/
theorem WellFormed.addRow_atomic (hwf : tree.WellFormed) (name : String) (values : List Value) :
    (tree.addRow name values).Atomic tree (tree.AddsRow name values) := by
  have hregistry : (tree.addRow name values).2.registry = tree.registry :=
    registry_addRow name values
  unfold ObjectTree.addRow at hregistry ⊢
  rcases hplan : tree.planRow name values with e | ⟨key, cells⟩
  · rfl
  · rw [hplan] at hregistry
    obtain ⟨table, htable, _⟩ := bind_eq_ok_iff.mp hplan
    obtain ⟨hlength, _, suffix, hsuffix, hcells⟩ := planCells_of_planRow htable hplan
    refine ⟨table, suffix, htable, hlength, hsuffix, hregistry, fun column hcolumn => ?_,
      fun oid => ?_⟩
    · obtain ⟨value, hmem⟩ := exists_mem_zip_of_mem_columns hlength hcolumn
      obtain ⟨address, _, haddress, _⟩ := exists_mem_of_planCells hcells hmem
      exact ⟨address, cellAddress_eq_ok_iff.mp haddress⟩
    · rw [hwf.contentAt_storeAll, lookup_reverse_of_planCells hcells]

/-! ### Deleting a row -/

/-- The nodes of a row are those of its cells, in the order of the columns; each has a value. -/
theorem rowNodes_cons_eq_ok_iff {first : TableColumn} :
    tree.rowNodes table suffix (first :: columns) = .ok ids ↔
      ∃ address id others, table.IsCell first.number suffix address ∧
        tree.find? address = some id ∧ (tree.valueAt? address).isSome ∧
        tree.rowNodes table suffix columns = .ok others ∧ id :: others = ids := by
  have hvalue {address : Oid} {id : NodeId} (hfind : tree.find? address = some id) :
      tree.valueAt? address = (tree.node? id).bind Node.value? := by
    rw [valueAt?, get?, hfind, Option.bind_some]
  rw [rowNodes, bind_eq_ok_iff]
  constructor
  · rintro ⟨address, haddress, hnodes⟩
    split at hnodes
    · rename_i id hfound
      obtain ⟨others, hothers, hnodes⟩ := bind_eq_ok_iff.mp hnodes
      obtain ⟨hfind, hhas⟩ := Option.filter_eq_some_iff.mp hfound
      rw [← hvalue hfind] at hhas
      exact ⟨address, id, others, cellAddress_eq_ok_iff.mp haddress, hfind, hhas, hothers,
        pure_eq_ok_iff.mp hnodes⟩
    · simp at hnodes
  · rintro ⟨address, id, others, hcell, hfind, hhas, hothers, rfl⟩
    rw [hvalue hfind] at hhas
    refine ⟨address, cellAddress_eq_ok_iff.mpr hcell, ?_⟩
    rw [Option.filter_eq_some_iff.mpr ⟨hfind, hhas⟩]
    exact bind_eq_ok_iff.mpr ⟨others, hothers, rfl⟩

/-- The nodes of a row are found when each column has a value at the suffix. -/
theorem exists_rowNodes_iff :
    (∃ ids, tree.rowNodes table suffix columns = .ok ids) ↔
      ∀ column ∈ columns, ∃ address, table.IsCell column.number suffix address ∧
        (tree.valueAt? address).isSome := by
  induction columns with
  | nil => simp [rowNodes]
  | cons first rest ih =>
    rw [List.forall_mem_cons, ← ih]
    simp only [rowNodes_cons_eq_ok_iff]
    constructor
    · rintro ⟨_, address, id, others, hcell, _, hhas, hothers, _⟩
      exact ⟨⟨address, hcell, hhas⟩, others, hothers⟩
    · rintro ⟨⟨address, hcell, hhas⟩, others, hothers⟩
      cases hfind : tree.find? address with
      | none => simp [valueAt?, get?, hfind] at hhas
      | some id => exact ⟨_, address, id, others, hcell, hfind, hhas, hothers, rfl⟩

/-- The nodes of a row are those at the addresses of its cells. -/
theorem Linked.exists_mem_rowNodes_iff (hlinked : tree.Linked)
    (hnodes : tree.rowNodes table suffix columns = .ok ids) :
    (∃ id ∈ ids, tree.find? oid = some id) ↔
      ∃ column ∈ columns, table.IsCell column.number suffix oid := by
  induction columns generalizing ids with
  | nil =>
    obtain rfl := Except.ok.inj hnodes
    simp
  | cons first rest ih =>
    obtain ⟨address, id, others, hcell, hfind, _, hothers, rfl⟩ :=
      rowNodes_cons_eq_ok_iff.mp hnodes
    have hself : tree.find? oid = some id ↔ table.IsCell first.number suffix oid := by
      constructor
      · intro h
        rw [hlinked.address_eq_of_find? h hfind]
        exact hcell
      · intro h
        rw [Oid.ext (h.trans hcell.symm), hfind]
    simp only [List.mem_cons, exists_eq_or_imp, hself, ih hothers]

/-- What deleting a row does: each column has a value at the suffix of the key, and all these values
are removed. -/
def DeletesRow (tree : ObjectTree) (name : String) (key : RowKey) (after : ObjectTree) : Prop :=
  ∃ table suffix, tree.table name = .ok table ∧ RowKey.suffix table key = .ok suffix ∧
    (∀ column ∈ table.columns, ∃ address, table.IsCell column.number suffix address ∧
      (tree.valueAt? address).isSome) ∧
    after.registry = tree.registry ∧
    ∀ oid, after.contentAt oid =
      if ∃ column ∈ table.columns, table.IsCell column.number suffix oid then
        (tree.contentAt oid).withCell none
      else tree.contentAt oid

/-- Deleting a row does all it says or nothing. -/
theorem WellFormed.deleteRow_atomic (hwf : tree.WellFormed) (name : String) (key : RowKey) :
    (tree.deleteRow name key).Atomic tree fun _ => tree.DeletesRow name key := by
  have hregistry : (tree.deleteRow name key).2.registry = tree.registry :=
    registry_deleteRow name key
  unfold ObjectTree.deleteRow at hregistry ⊢
  rcases hplan : tree.planDeletion name key with e | ids
  · rfl
  · rw [hplan] at hregistry
    obtain ⟨table, htable, hplan⟩ := bind_eq_ok_iff.mp hplan
    obtain ⟨suffix, hsuffix, hnodes⟩ := bind_eq_ok_iff.mp hplan
    refine ⟨table, suffix, htable, hsuffix, exists_rowNodes_iff.mp ⟨ids, hnodes⟩, hregistry,
      fun oid => ?_⟩
    rw [hwf.contentAt_clearAll]
    simp only [hwf.shaped.linked.exists_mem_rowNodes_iff hnodes]

/-- A row in which each column has a value can be deleted. -/
theorem exists_deleteRow (htable : tree.table name = .ok table)
    (hsuffix : RowKey.suffix table key = .ok suffix)
    (hvalues : ∀ column ∈ table.columns, ∃ address, table.IsCell column.number suffix address ∧
      (tree.valueAt? address).isSome) :
    ∃ after, tree.deleteRow name key = (.ok (), after) := by
  obtain ⟨ids, hnodes⟩ := exists_rowNodes_iff.mpr hvalues
  have hplan : tree.planDeletion name key = .ok ids :=
    bind_eq_ok_iff.mpr ⟨table, htable, bind_eq_ok_iff.mpr ⟨suffix, hsuffix, hnodes⟩⟩
  exact ⟨_, by rw [deleteRow, hplan]⟩

/-! ### Replacing a cell -/

/-- What replacing a cell does: it answers the value of the cell and puts the new one in its place,
with the type that the cell has. -/
def SetsCell (tree : ObjectTree) (name : String) (column : Nat) (key : RowKey)
    (value old : Value) (after : ObjectTree) : Prop :=
  ∃ suffix address cell, tree.locateCell name column key = .ok (suffix, address) ∧
    (tree.contentAt address).cell = some cell ∧ old = cell.value ∧
    after.registry = tree.registry ∧
    tree.ChangesAt after address (·.withCell (some { cell with value }))

/-- Setting a cell does all it says or nothing. -/
theorem WellFormed.setCell_atomic (hwf : tree.WellFormed) (name : String) (column : Nat)
    (key : RowKey) (value : Value) :
    (tree.setCell name column key value).Atomic tree (tree.SetsCell name column key value) := by
  unfold ObjectTree.setCell
  rcases hplan : tree.planCell name column key with e | ⟨id, cell⟩
  · rfl
  · obtain ⟨⟨suffix, address⟩, hlocate, hplan⟩ := bind_eq_ok_iff.mp hplan
    dsimp only at hplan
    split at hplan
    · rename_i found hfound
      obtain rfl := pure_eq_ok_iff.mp hplan
      obtain ⟨_, hfind, hfound⟩ := Option.bind_eq_some_iff.mp hfound
      obtain ⟨held, hheld, hpair⟩ := Option.map_eq_some_iff.mp hfound
      obtain ⟨rfl, rfl⟩ := Prod.mk.inj hpair
      obtain ⟨node, hnode, hcell⟩ := Option.bind_eq_some_iff.mp hheld
      obtain ⟨_, hsome, rfl⟩ := hwf.shaped.linked.find?_eq_some_iff.mp hfind
      obtain rfl := Option.some.inj (hnode.symm.trans hsome)
      have hself := hwf.shaped.linked.contentAt_address hnode
      refine ⟨suffix, _, held, hlocate, by rw [hself]; exact hcell, rfl, registry_modify _, ?_⟩
      exact hwf.shaped.linked.changesAt_modify hnode (fun _ => rfl) rfl
    · simp at hplan

/-- A cell that has a value can be replaced. -/
theorem exists_setCell {found : Value} (hget : tree.getCell name column key = .ok found)
    (value : Value) : ∃ after, tree.setCell name column key value = (.ok found, after) := by
  obtain ⟨⟨suffix, address⟩, hlocate, hget⟩ := bind_eq_ok_iff.mp hget
  dsimp only at hget
  split at hget
  · rename_i stored hvalue
    obtain rfl := pure_eq_ok_iff.mp hget
    obtain ⟨node, hnode, hstored⟩ := Option.bind_eq_some_iff.mp hvalue
    obtain ⟨id, hfind, hnode⟩ := Option.bind_eq_some_iff.mp hnode
    obtain ⟨cell, hcell, rfl⟩ := Option.map_eq_some_iff.mp hstored
    have hplan : tree.planCell name column key = .ok (id, cell) := by
      refine bind_eq_ok_iff.mpr ⟨_, hlocate, ?_⟩
      simp only [hfind, hnode, Option.bind_some, hcell, Option.map_some]
      rfl
    exact ⟨_, by rw [setCell, hplan]⟩
  · simp at hget

end ObjectTree

end Smi
