import Mathlib.Data.List.Forall2
import Smi.Proofs.ObjectTree.Rows
import Smi.Proofs.ObjectTree.Transition

/-!
# The tree as a map from addresses

A tree stands for a finite map from addresses to a provider and a value with its type. Each
operation that succeeds is a change of this map at the few addresses that it names: a provider is
set or taken away at its own identifier, and a value at the instance of a scalar or at the cells of
a row. Materializing is no change at all. Which nodes are created, pruned and put into other slots
on the way cannot be seen in the map.
-/

namespace Smi

/-- A map from addresses to what is found there. -/
abbrev Contents := Oid → Content

/-- The map with a change at one address. -/
def Contents.modify (contents : Contents) (address : Oid) (f : Content → Content) : Contents :=
  fun oid => if oid = address then f (contents oid) else contents oid

namespace ObjectTree

variable {tree after : ObjectTree} {oid : Oid} {name : String} {table : TableProvider}
  {suffix : List Nat} {key : RowKey} {values : List Value} {cells : List (Oid × Cell)}
  {planned : List (TableColumn × Value)}

/-- The map that a tree stands for. -/
def contents (tree : ObjectTree) : Contents :=
  tree.contentAt

/-- Whether a map has at the address of each live node what this node holds, and nothing anywhere
else. -/
structure Represents (tree : ObjectTree) (contents : Contents) : Prop where
  held (id : NodeId) (node : Node) : tree.node? id = some node →
    contents node.address = node.content
  blank (oid : Oid) : ¬tree.Live oid → contents oid = .blank

/-- A tree has at its nodes what its map has, and the map has nothing elsewhere. -/
theorem Linked.represents (hlinked : tree.Linked) : tree.Represents tree.contents where
  held _ _ hnode := hlinked.contentAt_address hnode
  blank _ hlive := Decidable.byContradiction fun hblank =>
    hlive (hlinked.live_of_contentAt hblank)

/-- The map is finite: something is found at the addresses of a list and nowhere else. -/
theorem Linked.exists_addresses (hlinked : tree.Linked) :
    ∃ addresses : List Oid, ∀ oid, oid ∈ addresses ↔ tree.contents oid ≠ .blank := by
  refine ⟨((List.range tree.slots.size).filterMap tree.held?).map Prod.fst, fun oid => ?_⟩
  rw [List.mem_map]
  constructor
  · rintro ⟨⟨_, content⟩, hheld, rfl⟩
    obtain ⟨id, _, hid⟩ := List.mem_filterMap.mp hheld
    obtain ⟨hblank, _⟩ := held?_eq_some_iff.mp hid
    rw [contents, (hlinked.contentAt_eq_iff hblank).mpr ⟨id, hid⟩]
    exact hblank
  · intro hblank
    obtain ⟨id, hid⟩ := (hlinked.contentAt_eq_iff hblank).mp rfl
    obtain ⟨_, node, hnode, _⟩ := held?_eq_some_iff.mp hid
    exact ⟨_, List.mem_filterMap.mpr ⟨id, List.mem_range.mpr (lt_size_of_node? hnode), hid⟩, rfl⟩

/-- A change at one address is one of the map. -/
theorem ChangesAt.contents_eq {address : Oid} {f : Content → Content}
    (h : tree.ChangesAt after address f) : after.contents = tree.contents.modify address f :=
  funext h

/-! ### Rows -/

/-- What a value of a row is stored as: in the cell of its column at the suffix of the row, with the
declared type of the column or else the natural type of the value. -/
def StoredAs (table : TableProvider) (suffix : List Nat) (given : TableColumn × Value)
    (stored : Oid × Cell) : Prop :=
  table.IsCell given.1.number suffix stored.1 ∧
    stored.2 = ⟨given.2, given.1.type.getD given.2.naturalType⟩

/-- The cells of a row that is planned are those of its values, one by one. -/
theorem forall₂_of_planCells (hplan : tree.planCells table suffix planned = .ok cells) :
    List.Forall₂ (StoredAs table suffix) planned cells := by
  induction planned generalizing cells with
  | nil =>
    obtain rfl := Except.ok.inj hplan
    exact .nil
  | cons first rest ih =>
    simp only [planCells, bind_eq_ok_iff, pure_eq_ok_iff] at hplan
    obtain ⟨address, haddress, _, _, others, hothers, rfl⟩ := hplan
    exact .cons ⟨cellAddress_eq_ok_iff.mp haddress, rfl⟩ (ih hothers)

/-- Storing values one after the other changes the map at their addresses in the same order. -/
theorem WellFormed.contents_storeAll (hwf : tree.WellFormed) (cells : List (Oid × Cell)) :
    (cells.foldl (fun tree cell => tree.store cell.1 cell.2) tree).contents =
      cells.foldl (fun contents cell => contents.modify cell.1 (·.withCell (some cell.2)))
        tree.contents := by
  induction cells generalizing tree with
  | nil => rfl
  | cons first rest ih =>
    have hfirst : (tree.store first.1 first.2).contents =
        tree.contents.modify first.1 (·.withCell (some first.2)) := by
      funext oid
      rw [contents, hwf.shaped.contentAt_store, Contents.modify]
      by_cases hoid : oid = first.1
      · rw [if_pos hoid, if_pos hoid, hoid]
        rfl
      · rw [if_neg hoid, if_neg hoid]
        rfl
    rw [List.foldl_cons, List.foldl_cons, ih (hwf.store first.1 first.2), hfirst]

/-- Removing values at some addresses leaves none of them and all others. -/
theorem foldl_modify_withCell_none (contents : Contents) (addresses : List Oid) (oid : Oid) :
    addresses.foldl (fun contents address => contents.modify address (·.withCell none)) contents
        oid =
      if oid ∈ addresses then (contents oid).withCell none else contents oid := by
  induction addresses generalizing contents with
  | nil => simp
  | cons first rest ih =>
    rw [List.foldl_cons, ih, Contents.modify]
    by_cases hfirst : oid = first
    · simp [hfirst, Content.withCell]
    · simp [hfirst]

/-- The addresses of the cells of a row, one for each column. -/
theorem exists_addresses_of_columns {p : Oid → Prop} {columns : List TableColumn}
    (hcells : ∀ column ∈ columns,
      ∃ address, table.IsCell column.number suffix address ∧ p address) :
    ∃ addresses, List.Forall₂ (fun column address =>
      table.IsCell column.number suffix address ∧ p address) columns addresses := by
  induction columns with
  | nil => exact ⟨[], .nil⟩
  | cons first rest ih =>
    obtain ⟨⟨address, haddress⟩, hrest⟩ := List.forall_mem_cons.mp hcells
    obtain ⟨addresses, haddresses⟩ := ih hrest
    exact ⟨address :: addresses, .cons haddress haddresses⟩

/-- The addresses of the cells of a row are those of its columns. -/
theorem mem_addresses_iff {p : Oid → Prop} {columns : List TableColumn} {addresses : List Oid}
    (haddresses : List.Forall₂ (fun column address =>
      table.IsCell column.number suffix address ∧ p address) columns addresses) :
    oid ∈ addresses ↔ ∃ column ∈ columns, table.IsCell column.number suffix oid := by
  induction haddresses with
  | nil => simp
  | cons hfirst _ ih =>
    have hself : ∀ {column : TableColumn} {address : Oid},
        table.IsCell column.number suffix address →
        (oid = address ↔ table.IsCell column.number suffix oid) := fun hcell =>
      ⟨fun h => h ▸ hcell, fun h => Oid.ext (h.trans hcell.symm)⟩
    rw [List.mem_cons, ih, hself hfirst.1]
    simp

/-! ### Every operation -/

variable {value old : Value} {column : Nat}

/-- Setting a scalar puts the value and its type at the instance of the scalar and changes nothing
else. -/
theorem WellFormed.contents_setScalar (hwf : tree.WellFormed)
    (hset : tree.setScalar name value = (.ok (), after)) :
    ∃ scalar address, tree.scalar name = .ok scalar ∧ address.arcs = scalar.oid.arcs ++ [0] ∧
      after.contents = tree.contents.modify address
        (·.withCell (some ⟨value, scalar.type.getD value.naturalType⟩)) := by
  have hdone := hwf.setScalar_atomic name value
  rw [hset] at hdone
  obtain ⟨scalar, address, hinstance, _, hchange⟩ := hdone
  obtain ⟨hscalar, haddress⟩ := scalarInstance_eq_ok_iff.mp hinstance
  exact ⟨scalar, address, hscalar, haddress, hchange.contents_eq⟩

/-- Clearing a scalar answers the value at its instance, removes it and changes nothing else. -/
theorem WellFormed.contents_clearScalar (hwf : tree.WellFormed) {found : Option Value}
    (hclear : tree.clearScalar name = (.ok found, after)) :
    ∃ scalar address, tree.scalar name = .ok scalar ∧ address.arcs = scalar.oid.arcs ++ [0] ∧
      found = (tree.contents address).cell.map Cell.value ∧
      after.contents = tree.contents.modify address (·.withCell none) := by
  have hdone := hwf.clearScalar_atomic name
  rw [hclear] at hdone
  obtain ⟨scalar, address, hinstance, hfound, _, hchange⟩ := hdone
  obtain ⟨hscalar, haddress⟩ := scalarInstance_eq_ok_iff.mp hinstance
  exact ⟨scalar, address, hscalar, haddress, hfound.trans (valueAt?_eq tree address),
    hchange.contents_eq⟩

/-- Adding a row puts each value with its type at the cell of its column and changes nothing else.
-/
theorem WellFormed.contents_addRow (hwf : tree.WellFormed)
    (hadd : tree.addRow name values = (.ok key, after)) :
    ∃ table suffix cells, tree.table name = .ok table ∧
      values.length = table.foreignIndex.length + table.columns.length ∧
      keyOfValues table values = .ok key ∧ tree.instanceSuffix name key = .ok suffix ∧
      List.Forall₂ (StoredAs table suffix)
        (table.columns.zip (values.drop table.foreignIndex.length)) cells ∧
      after.contents = cells.foldl
        (fun contents cell => contents.modify cell.1 (·.withCell (some cell.2)))
        tree.contents := by
  unfold ObjectTree.addRow at hadd
  rcases hplan : tree.planRow name values with e | ⟨found, cells⟩
  · rw [hplan] at hadd
    cases (Prod.mk.inj hadd).1
  rw [hplan] at hadd
  obtain ⟨hkey, rfl⟩ := Prod.mk.inj hadd
  obtain rfl := Except.ok.inj hkey
  obtain ⟨table, htable, _⟩ := bind_eq_ok_iff.mp hplan
  obtain ⟨hlength, hkey, suffix, hsuffix, hcells⟩ := planCells_of_planRow htable hplan
  exact ⟨table, suffix, cells, htable, hlength, hkey,
    (instanceSuffix_eq htable found).trans hsuffix,
    forall₂_of_planCells hcells, hwf.contents_storeAll cells⟩

/-- Deleting a row removes the value of each column, all of them present, and changes nothing else.
-/
theorem WellFormed.contents_deleteRow (hwf : tree.WellFormed)
    (hdelete : tree.deleteRow name key = (.ok (), after)) :
    ∃ table suffix addresses, tree.table name = .ok table ∧
      tree.instanceSuffix name key = .ok suffix ∧
      List.Forall₂ (fun column address => table.IsCell column.number suffix address ∧
        (tree.contents address).cell ≠ none) table.columns addresses ∧
      after.contents = addresses.foldl
        (fun contents address => contents.modify address (·.withCell none)) tree.contents := by
  have hdone := hwf.deleteRow_atomic name key
  rw [hdelete] at hdone
  obtain ⟨table, suffix, htable, hsuffix, hvalues, _, hcontents⟩ := hdone
  have hcells : ∀ column ∈ table.columns, ∃ address,
      table.IsCell column.number suffix address ∧ (tree.contents address).cell ≠ none := by
    intro column hcolumn
    obtain ⟨address, hcell, hvalue⟩ := hvalues column hcolumn
    rw [valueAt?_eq, Option.isSome_map] at hvalue
    exact ⟨address, hcell, Option.isSome_iff_ne_none.mp hvalue⟩
  obtain ⟨addresses, haddresses⟩ := exists_addresses_of_columns hcells
  refine ⟨table, suffix, addresses, htable, (instanceSuffix_eq htable key).trans hsuffix,
    haddresses, funext fun oid => ?_⟩
  rw [foldl_modify_withCell_none, contents, hcontents oid]
  simp only [mem_addresses_iff haddresses]
  rfl

/-- Setting a cell answers the old value, puts the new one in its place with the old type and
changes nothing else. -/
theorem WellFormed.contents_setCell (hwf : tree.WellFormed)
    (hset : tree.setCell name column key value = (.ok old, after)) :
    ∃ table suffix address cell, tree.table name = .ok table ∧ (table.column? column).isSome ∧
      tree.instanceSuffix name key = .ok suffix ∧ table.IsCell column suffix address ∧
      (tree.contents address).cell = some cell ∧ old = cell.value ∧
      after.contents = tree.contents.modify address (·.withCell (some { cell with value })) := by
  have hdone := hwf.setCell_atomic name column key value
  rw [hset] at hdone
  obtain ⟨suffix, address, cell, hlocate, hcell, hold, _, hchange⟩ := hdone
  obtain ⟨table, htable, _⟩ := bind_eq_ok_iff.mp hlocate
  obtain ⟨hcolumn, hsuffix, haddress⟩ := (locateCell_eq_ok_iff htable).mp hlocate
  exact ⟨table, suffix, address, cell, htable, hcolumn,
    (instanceSuffix_eq htable key).trans hsuffix, haddress, hcell, hold, hchange.contents_eq⟩

/-- After every run the tree stands for a finite map from addresses to a provider and a value with
its type. Materializing leaves this map as it is, and every other operation that succeeds changes it
at its own targets alone: registering and unregistering the provider at the identifier, setting and
clearing a scalar the value and the type at its instance, adding and deleting a row those at its
cells, column by column, and replacing a cell the value there. -/
theorem run_empty_contents (operations : List Operation) :
    let tree := empty.run operations
    tree.Represents tree.contents ∧
    (∃ addresses : List Oid, ∀ oid, oid ∈ addresses ↔ tree.contents oid ≠ .blank) ∧
    (∀ oid, (tree.materialize oid).1.contents = tree.contents) ∧
    (∀ spec id after, tree.register spec = (.ok id, after) →
      after.contents = tree.contents.modify spec.oid (·.withProvider (some spec.name))) ∧
    (∀ name spec after, tree.unregister name = (.ok spec, after) →
      tree.provider? name = some spec ∧
        after.contents = tree.contents.modify spec.oid (·.withProvider none)) ∧
    (∀ name value after, tree.setScalar name value = (.ok (), after) →
      ∃ scalar address, tree.scalar name = .ok scalar ∧ address.arcs = scalar.oid.arcs ++ [0] ∧
        after.contents = tree.contents.modify address
          (·.withCell (some ⟨value, scalar.type.getD value.naturalType⟩))) ∧
    (∀ name found after, tree.clearScalar name = (.ok found, after) →
      ∃ scalar address, tree.scalar name = .ok scalar ∧ address.arcs = scalar.oid.arcs ++ [0] ∧
        found = (tree.contents address).cell.map Cell.value ∧
        after.contents = tree.contents.modify address (·.withCell none)) ∧
    (∀ name values key after, tree.addRow name values = (.ok key, after) →
      ∃ table suffix cells, tree.table name = .ok table ∧
        values.length = table.foreignIndex.length + table.columns.length ∧
        keyOfValues table values = .ok key ∧ tree.instanceSuffix name key = .ok suffix ∧
        List.Forall₂ (StoredAs table suffix)
          (table.columns.zip (values.drop table.foreignIndex.length)) cells ∧
        after.contents = cells.foldl
          (fun contents cell => contents.modify cell.1 (·.withCell (some cell.2)))
          tree.contents) ∧
    (∀ name key after, tree.deleteRow name key = (.ok (), after) →
      ∃ table suffix addresses, tree.table name = .ok table ∧
        tree.instanceSuffix name key = .ok suffix ∧
        List.Forall₂ (fun column address => table.IsCell column.number suffix address ∧
          (tree.contents address).cell ≠ none) table.columns addresses ∧
        after.contents = addresses.foldl
          (fun contents address => contents.modify address (·.withCell none)) tree.contents) ∧
    ∀ name column key value old after, tree.setCell name column key value = (.ok old, after) →
      ∃ table suffix address cell, tree.table name = .ok table ∧ (table.column? column).isSome ∧
        tree.instanceSuffix name key = .ok suffix ∧ table.IsCell column suffix address ∧
        (tree.contents address).cell = some cell ∧ old = cell.value ∧
        after.contents = tree.contents.modify address (·.withCell (some { cell with value })) := by
  intro tree
  have hwf : tree.WellFormed := empty_wellFormed.run operations
  refine ⟨hwf.shaped.linked.represents, hwf.shaped.linked.exists_addresses, fun oid => ?_,
    fun spec id after hregister => ?_, fun name spec after hunregister => ?_,
    fun _ _ _ => hwf.contents_setScalar, fun _ _ _ => hwf.contents_clearScalar,
    fun _ _ _ _ => hwf.contents_addRow, fun _ _ _ => hwf.contents_deleteRow,
    fun _ _ _ _ _ _ => hwf.contents_setCell⟩
  · exact funext ((hwf.shaped.materialize oid).1.contentAt hwf.shaped)
  · have hdone := hwf.register_atomic spec
    rw [hregister] at hdone
    obtain ⟨_, _, _, _, hchange⟩ := hdone
    exact hchange.contents_eq
  · have hdone := hwf.unregister_atomic name
    rw [hunregister] at hdone
    obtain ⟨hfound, _, hchange⟩ := hdone
    exact ⟨hfound, hchange.contents_eq⟩

end ObjectTree

end Smi
