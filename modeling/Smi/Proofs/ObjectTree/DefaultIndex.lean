import Smi.Proofs.ObjectTree.IndexResolution

/-!
# The index of a table without one

A table without an index is indexed by the column numbered 1. This column is looked up like any
other one that an index entry gives by its number: among the columns of the table itself and then
among those of the other registered tables in the order of their registration. So a table that has
such a column gets it as its own, whatever else is registered, and a table that has none gets the
column of another table or is refused.
-/

namespace Smi

/-- The settled entry of a column: without an owner of the table itself, and otherwise of the
owner. -/
def IndexEntry.ofColumn (column : TableColumn) (owner : Option String) : IndexEntry where
  columnName := some column.name
  columnNumber := some column.number
  type := column.type
  implied := false
  length := none
  foreign := owner

namespace ObjectTree

variable {tree after : ObjectTree} {table other : TableProvider} {spec : ProviderSpec}
  {column : TableColumn} {name : String} {position number : ℕ}

/-! ### Entries that give a number -/

/-- An entry of a number alone is matched with the column of that number. -/
theorem matchColumn_ofNumber (name : String) (position number : ℕ) (table : TableProvider) :
    matchColumn name position (.ofNumber number) table.columns = .ok (table.column? number) := by
  simp [matchColumn, IndexEntry.ofNumber, TableProvider.column?]

/-- The column of a number in the first table that has one, and the name of this table. -/
def firstNumbered? (tables : List TableProvider) (number : ℕ) :
    Option (TableColumn × Option String) :=
  (tables.find? fun other => (other.column? number).isSome).bind fun other =>
    (other.column? number).map (·, some other.name)

/-- Among other tables, an entry of a number alone is matched with the first that has such a column.
-/
theorem matchForeign_ofNumber (name : String) (position number : ℕ) (others : List TableProvider) :
    matchForeign name position (.ofNumber number) others =
      .ok (firstNumbered? (others.filter fun other => other.name ≠ name) number) := by
  induction others with
  | nil => rfl
  | cons first rest ih =>
    rw [matchForeign]
    by_cases hname : first.name = name
    · rw [if_pos hname, ih, List.filter_cons_of_neg (by simpa using hname)]
    · rw [if_neg hname, List.filter_cons_of_pos (by simpa using hname), matchColumn_ofNumber,
        firstNumbered?, List.find?_cons]
      cases hcolumn : first.column? number with
      | none => exact ih
      | some column => simp [hcolumn, bind, Except.bind, pure, Except.pure]

/-- The column of a number in a table itself, or else in the first other table that has one. -/
def numbered? (tree : ObjectTree) (table : TableProvider) (number : ℕ) :
    Option (TableColumn × Option String) :=
  ((table.column? number).map (·, none)).or
    (firstNumbered? (tree.tables.filter fun other => other.name ≠ table.name) number)

/-- An entry of a number alone is matched in the table itself before the others. -/
theorem matchEntry_ofNumber (tree : ObjectTree) (table : TableProvider) (position number : ℕ) :
    tree.matchEntry table position (.ofNumber number) = .ok (tree.numbered? table number) := by
  have hforeign : (IndexEntry.ofNumber number).foreign.filter (fun owner => owner ≠ table.name) =
      none := rfl
  rw [matchEntry, numbered?, hforeign]
  simp only [matchColumn_ofNumber]
  cases hcolumn : table.column? number with
  | some column => rfl
  | none => exact matchForeign_ofNumber table.name position number tree.tables

/-- A table that has a column of the number has it itself, whatever else is registered. -/
theorem numbered?_of_own (hcolumn : table.column? number = some column) :
    tree.numbered? table number = some (column, none) := by
  rw [numbered?, hcolumn]
  rfl

/-- Under a new name, a table that has no column of the number is given the one of the first
registered table that has one. -/
theorem numbered?_of_none (hnew : tree.registration? table.name = none)
    (hcolumn : table.column? number = none) :
    tree.numbered? table number = firstNumbered? tree.tables number := by
  rw [numbered?, hcolumn, List.filter_eq_self.mpr fun other hother =>
    decide_eq_true (name_ne_of_mem_tables hnew hother)]
  rfl

/-- A column of a number is found if any of the tables has one. -/
theorem isSome_firstNumbered? {tables : List TableProvider} :
    (firstNumbered? tables number).isSome ↔ ∃ other ∈ tables, (other.column? number).isSome := by
  rw [firstNumbered?, ← List.find?_isSome]
  cases hfound : tables.find? fun other => (other.column? number).isSome with
  | none => rfl
  | some other => simpa using List.find?_some hfound

/-! ### Registering without an index -/

/-- A provider that cannot be settled is not registered, and the tree stays as it is. -/
theorem register_of_settle_eq_error {e : Error} (h : tree.settle spec = .error e) :
    tree.register spec = (.error e, tree) := by
  rw [register, h]
  rfl

/-- The index of a table without one is settled on its column of the number 1 as this is found. -/
theorem settle_default (hindex : table.index = []) (haugments : table.augments = none) :
    tree.settle (.table table) =
      match tree.numbered? table 1 with
      | some (column, owner) => .ok (.table { table with index := [.ofColumn column owner] })
      | none => .error (.unresolvedIndexColumn table.name "1") := by
  rw [settle, settleIndex, haugments, hindex]
  simp only [List.isEmpty_nil, if_true, settleEntries, settleEntry, matchEntry_ofNumber]
  rcases tree.numbered? table 1 with _ | ⟨column, owner⟩
  · rfl
  · rfl

/-- Registering a table without an index succeeds if a column of the number 1 is found and the table
can be attached. -/
theorem exists_register_default_iff (hindex : table.index = [])
    (haugments : table.augments = none) :
    (∃ id after, tree.register (.table table) = (.ok id, after)) ↔
      tree.checkAttach (.table table) = .ok () ∧ (tree.numbered? table 1).isSome := by
  rw [register, settle_default hindex haugments]
  rcases tree.numbered? table 1 with _ | ⟨column, owner⟩
  · simp [bind, Except.bind]
  · have hattach : tree.checkAttach (.table { table with index := [.ofColumn column owner] }) =
        tree.checkAttach (.table table) := rfl
    cases hcheck : tree.checkAttach (.table table) with
    | error e => simp [bind, Except.bind, hattach, hcheck]
    | ok _ => simp [bind, Except.bind, hattach, hcheck, pure, Except.pure]

/-- A table that is registered without an index has the one of the column that is found. -/
theorem table_of_register_default (hindex : table.index = []) (haugments : table.augments = none)
    {id : NodeId} (hregister : tree.register (.table table) = (.ok id, after)) :
    ∃ column owner, tree.numbered? table 1 = some (column, owner) ∧
      after.table table.name = .ok { table with index := [.ofColumn column owner] } := by
  obtain ⟨settled, hsettle, _, hfound, _⟩ := registration?_of_register hregister
  rw [settle_default hindex haugments] at hsettle
  rcases hnumbered : tree.numbered? table 1 with _ | ⟨column, owner⟩
  · rw [hnumbered] at hsettle
    cases hsettle
  · rw [hnumbered] at hsettle
    obtain rfl := Except.ok.inj hsettle
    exact ⟨column, owner, rfl, table_eq_ok_iff.mpr ⟨_, hfound, rfl⟩⟩

/-- In a tree that any operations lead to, a table with no index that augments none is registered if
it can be attached and there is a column of the number 1, in the table itself or in another one. A
column of its own makes the index then, without an owner, whatever else is registered. A table that
has none is indexed by the column of the first registered table that has one, and where there is
none the registration fails and leaves the tree. -/
theorem register_default_index (operations : List Operation) (table : TableProvider)
    (hindex : table.index = []) (haugments : table.augments = none) :
    let tree := empty.run operations
    ((∃ id after, tree.register (.table table) = (.ok id, after)) ↔
      tree.checkAttach (.table table) = .ok () ∧
        ((table.column? 1).isSome ∨ ∃ other ∈ tree.tables, (other.column? 1).isSome)) ∧
    (∀ column, table.column? 1 = some column →
      ∀ id after, tree.register (.table table) = (.ok id, after) →
        after.table table.name = .ok { table with index := [.ofColumn column none] }) ∧
    (table.column? 1 = none →
      (∀ id after, tree.register (.table table) = (.ok id, after) →
        ∃ owner column, tree.tables.find? (fun other => (other.column? 1).isSome) = some owner ∧
          tree.table owner.name = .ok owner ∧ owner.name ≠ table.name ∧
          owner.column? 1 = some column ∧
          after.table table.name =
            .ok { table with index := [.ofColumn column (some owner.name)] }) ∧
      ((∀ other ∈ tree.tables, other.name ≠ table.name → other.column? 1 = none) →
        tree.register (.table table) =
          (.error (.unresolvedIndexColumn table.name "1"), tree))) := by
  intro tree
  have hwf : tree.WellFormed := Reachable.wellFormed ⟨operations, rfl⟩
  refine ⟨?_, fun column hcolumn id after hregister => ?_, fun hcolumn =>
    ⟨fun id after hregister => ?_, fun hothers => ?_⟩⟩
  · rw [exists_register_default_iff hindex haugments]
    refine and_congr_right fun hcheck => ?_
    have hnew : tree.registration? table.name = none := (checkAttach_eq_ok_iff.mp hcheck).1
    cases hcolumn : table.column? 1 with
    | some column => simp [numbered?_of_own hcolumn]
    | none => simp [numbered?_of_none hnew hcolumn, isSome_firstNumbered?]
  · obtain ⟨found, owner, hfound, htable⟩ := table_of_register_default hindex haugments hregister
    rw [numbered?_of_own hcolumn] at hfound
    cases hfound
    exact htable
  · obtain ⟨found, owner, hfound, htable⟩ := table_of_register_default hindex haugments hregister
    obtain ⟨_, _, hnew, _⟩ := registration?_of_register hregister
    rw [numbered?_of_none hnew hcolumn, firstNumbered?, Option.bind_eq_some_iff] at hfound
    obtain ⟨other, hother, hfound⟩ := hfound
    obtain ⟨_, hcolumn, hpair⟩ := Option.map_eq_some_iff.mp hfound
    cases hpair
    have hmem := List.mem_of_find?_eq_some hother
    exact ⟨other, found, hother, hwf.table_of_mem_tables hmem, name_ne_of_mem_tables hnew hmem,
      hcolumn, htable⟩
  · refine register_of_settle_eq_error ?_
    have hnone : firstNumbered? (tree.tables.filter fun other => other.name ≠ table.name) 1 =
        none := by
      rw [← Option.not_isSome_iff_eq_none, isSome_firstNumbered?]
      rintro ⟨other, hother, hsome⟩
      obtain ⟨hmem, hname⟩ := List.mem_filter.mp hother
      rw [hothers other hmem (of_decide_eq_true hname)] at hsome
      cases hsome
    rw [settle_default hindex haugments, numbered?, hcolumn, hnone]
    rfl

/-- A table of remarks without an index and without a column of the number 1. -/
def remarks : TableProvider where
  name := "remark"
  tableName := none
  oid := ⟨[1, 3, 12], by decide⟩
  columns := [⟨2, "text", some .octetString⟩]
  index := []
  augments := none

/-- Hosts do not change which index a table with a column of the number 1 gets. -/
theorem register_default_index_remarks :
    let numbered := { remarks with columns := [⟨1, "number", some .integer⟩] }
    let tree := empty.run [.register (.table hosts)]
    ∃ id after, tree.register (.table numbered) = (.ok id, after) ∧
      after.table "remark" =
        .ok { numbered with index := [.ofColumn ⟨1, "number", some .integer⟩ none] } := by
  intro numbered tree
  obtain ⟨hregisters, hown, _⟩ :=
    register_default_index [.register (.table hosts)] numbered rfl rfl
  obtain ⟨id, after, hregister⟩ := hregisters.mpr ⟨by rfl, Or.inl rfl⟩
  exact ⟨id, after, hregister, hown _ rfl id after hregister⟩

/-- Without a column of the number 1, remarks are registered as indexed by the addresses of hosts,
and without any hosts they are refused. -/
theorem remarks_indexed_by_hosts :
    let tree := empty.run [.register (.table hosts)]
    remarks.index = [] ∧ remarks.augments = none ∧ remarks.column? 1 = none ∧
      (tree.register (.table remarks)).1.toOption.isSome ∧
      ((tree.register (.table remarks)).2.table "remark").toOption.map (·.index) =
        some [.ofColumn ⟨1, "address", some .ipAddress⟩ (some "host")] ∧
      empty.register (.table remarks) =
        (.error (.unresolvedIndexColumn "remark" "1"), empty) := by
  decide +kernel

end ObjectTree

end Smi
