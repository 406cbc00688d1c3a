import Smi.Proofs.ObjectTree.Augment
import Smi.Proofs.ObjectTree.Tidy
import Smi.Proofs.RowKey.Overlap

/-!
# Rows beside each other

The cells of two rows of a table stand in each other's way only if the suffix of one row begins that
of the other. If the ends of all index values can be seen and the table shares its place with no
other provider, nothing is left that could keep a row out.
-/

namespace Smi.ObjectTree

variable {tree : ObjectTree} {oid : Oid} {name : String} {table : TableProvider} {column : Nat}
  {suffix : List Nat} {key : RowKey} {values : List Value} {allowed : Oid → Prop}
  {planned : List (TableColumn × Value)}

/-- A table with visible ends has no two cells one of which stands above the other. -/
theorem eq_of_owns (hclosed : ∀ entry ∈ table.keyIndex, entry.isOpen = false) {other : Oid}
    (howns : (ProviderSpec.table table).Owns oid)
    (hotherOwns : (ProviderSpec.table table).Owns other)
    (hway : oid.arcs <+: other.arcs) : oid = other := by
  obtain ⟨column, _, key, suffix, hsuffix, hcell⟩ := howns
  obtain ⟨otherColumn, _, otherKey, otherSuffix, hotherSuffix, hotherCell⟩ := hotherOwns
  obtain ⟨hlength, hwrite⟩ := RowKey.suffix_eq_ok_iff.mp hsuffix
  obtain ⟨hotherLength, hotherWrite⟩ := RowKey.suffix_eq_ok_iff.mp hotherSuffix
  have hbegins := hway
  rw [hcell, hotherCell, List.prefix_append_right_inj, List.cons_prefix_cons] at hbegins
  obtain rfl : suffix = otherSuffix :=
    RowKey.eq_of_isPrefix hclosed hlength hotherLength hwrite hotherWrite hbegins.2
  refine Oid.ext ?_
  rw [hcell, hotherCell, hbegins.1]

/-- In a table with visible ends that meets no other provider and has no idle nodes below it, a
value may be stored in every cell of a row. -/
theorem WellFormed.checkSlot_of_owns (hwf : tree.WellFormed) (howned : tree.Owned)
    (htidy : tree.Tidy allowed) (halone : tree.Alone (.table table))
    (hclosed : ∀ entry ∈ table.keyIndex, entry.isOpen = false)
    (hidle : ∀ oid, allowed oid → tree.Live oid → table.oid.arcs <+: oid.arcs → oid = table.oid)
    (howns : (ProviderSpec.table table).Owns oid) : tree.checkSlot oid = .ok () := by
  obtain ⟨arc, rest, harcs⟩ := howns.below
  have hbelow : table.oid.arcs <+: oid.arcs := ⟨arc :: rest, harcs.symm⟩
  refine hwf.shaped.linked.checkSlot_eq_ok_iff.mpr
    ⟨fun count hcount => ?_, fun other hlive hway => ?_⟩
  · -- A value strictly above would be in another cell of the table.
    refine Decidable.byContradiction fun hcell => ?_
    have habove : (oid.take count).arcs <+: oid.arcs := List.take_prefix count oid.arcs
    have hsame := eq_of_owns hclosed (howned.owns_of_alone halone hcell habove hbelow) howns habove
    have hlength := congrArg Oid.length hsame
    simp only [Oid.length, Oid.take, List.length_take] at hlength hcount
    omega
  · rcases htidy.way_of_live hwf.shaped.linked hlive with rfl | ⟨last, hlast, hlastLive, hheld⟩
    · exact Oid.ext (List.prefix_nil.mp hway).symm
    · have hoidLast : oid.arcs <+: last.arcs := hway.trans hlast
      have htableLast : table.oid.arcs <+: last.arcs := hbelow.trans hoidLast
      -- The branch that goes on below the cell ends at the cell itself or at the table above it.
      have hends : last = oid ∨ last = table.oid := by
        rcases hheld with hcontent | hallowed
        · rcases hwf.holder_of_contentAt hcontent with ⟨spec, hspec, rfl⟩ | hvalue
          · exact Or.inr (congrArg ProviderSpec.oid (halone spec hspec (Or.inr htableLast)))
          · rw [valueAt?_eq, Option.isSome_map, Option.isSome_iff_ne_none] at hvalue
            have hlastOwns :=
              howned.owns_of_alone halone hvalue (List.prefix_refl _) htableLast
            exact Or.inl (eq_of_owns hclosed howns hlastOwns hoidLast).symm
        · exact Or.inr (hidle last hallowed hlastLive htableLast)
      rcases hends with rfl | rfl
      · exact Oid.ext (hlast.eq_of_length (Nat.le_antisymm hlast.length_le hway.length_le))
      · have hlength := hoidLast.length_le
        rw [show oid.arcs = table.oid.arcs ++ arc :: rest from harcs, List.length_append,
          List.length_cons] at hlength
        omega

/-- The cells of a row are planned if every one of them may be stored. -/
theorem exists_planCells (hslot : ∀ cell ∈ planned, ∃ address,
      cellAddress table cell.1.number suffix = .ok address ∧ tree.checkSlot address = .ok ()) :
    ∃ cells, tree.planCells table suffix planned = .ok cells := by
  induction planned with
  | nil => exact ⟨[], rfl⟩
  | cons first rest ih =>
    obtain ⟨⟨address, haddress, hfree⟩, hrest⟩ := List.forall_mem_cons.mp hslot
    obtain ⟨cells, hcells⟩ := ih hrest
    refine ⟨(address, ⟨first.2, first.1.type.getD first.2.naturalType⟩) :: cells, ?_⟩
    exact bind_eq_ok_iff.mpr ⟨address, haddress, bind_eq_ok_iff.mpr ⟨(), hfree,
      bind_eq_ok_iff.mpr ⟨cells, hcells, rfl⟩⟩⟩

/-- A row whose cells may all be stored is added. -/
theorem exists_addRow (htable : tree.table name = .ok table)
    (hlength : values.length = table.foreignIndex.length + table.columns.length)
    (hkey : keyOfValues table values = .ok key) (hsuffix : RowKey.suffix table key = .ok suffix)
    (hslot : ∀ column ∈ table.columns, ∃ address,
      cellAddress table column.number suffix = .ok address ∧ tree.checkSlot address = .ok ()) :
    ∃ after, tree.addRow name values = (.ok key, after) := by
  obtain ⟨cells, hcells⟩ : ∃ cells, tree.planCells table suffix
      (table.columns.zip (values.drop table.foreignIndex.length)) = .ok cells :=
    exists_planCells fun cell hcell => hslot cell.1 (List.of_mem_zip hcell).1
  have hplan : tree.planRow name values = .ok (key, cells) := by
    refine bind_eq_ok_iff.mpr ⟨table, htable, ?_⟩
    rw [if_neg (not_not_intro hlength)]
    exact bind_eq_ok_iff.mpr ⟨key, hkey, bind_eq_ok_iff.mpr ⟨suffix, hsuffix,
      bind_eq_ok_iff.mpr ⟨cells, hcells, rfl⟩⟩⟩
  exact ⟨_, by rw [addRow, hplan]⟩

/-- In a registered table in whose key only the last value may have no visible end, keys have the
same suffix exactly if their canonical forms are the same, and one suffix properly begins another
one exactly if the keys agree up to such a last value and its numbers properly begin those of the
other one. If every value has a visible end, the table meets no other provider and nothing was
materialized below it, every row of the right length is added whose key is written and whose cells
have addresses. -/
theorem rows_of_table_coexist (operations : List Operation) {name : String}
    {table : TableProvider} (htable : (empty.run operations).table name = .ok table) :
    let tree := empty.run operations
    ((∀ entry ∈ table.keyIndex.dropLast, entry.isOpen = false) →
      ∀ key other suffix otherSuffix, tree.instanceSuffix name key = .ok suffix →
        tree.instanceSuffix name other = .ok otherSuffix →
        (suffix = otherSuffix ↔
          RowKey.canonical table.keyIndex key = RowKey.canonical table.keyIndex other) ∧
        (suffix <+: otherSuffix ∧ suffix ≠ otherSuffix ↔
          RowKey.Begins table.keyIndex key other)) ∧
    ((∀ entry ∈ table.keyIndex, entry.isOpen = false) → tree.Alone (.table table) →
      (∀ oid, .materialize oid ∈ operations → tree.Live oid → table.oid.arcs <+: oid.arcs →
        oid = table.oid) →
      ∀ values key suffix, values.length = table.foreignIndex.length + table.columns.length →
        keyOfValues table values = .ok key → tree.instanceSuffix name key = .ok suffix →
        (∀ column ∈ table.columns, ∃ address,
          cellAddress table column.number suffix = .ok address) →
        ∃ after, tree.addRow name values = (.ok key, after)) := by
  intro tree
  constructor
  · intro hopen key other suffix otherSuffix hsuffix hotherSuffix
    rw [instanceSuffix_eq htable, RowKey.suffix_eq_ok_iff] at hsuffix hotherSuffix
    exact ⟨RowKey.eq_iff_canonical_eq hsuffix.1 hotherSuffix.1 hopen hsuffix.2 hotherSuffix.2,
      RowKey.begins_iff hsuffix.1 hotherSuffix.1 hopen hsuffix.2 hotherSuffix.2⟩
  · intro hclosed halone hidle values key suffix hlength hkey hsuffix haddresses
    have hwf : tree.WellFormed := empty_wellFormed.run operations
    have howned : tree.Owned := empty_owned.run empty_wellFormed operations
    rw [instanceSuffix_eq htable] at hsuffix
    refine exists_addRow htable hlength hkey hsuffix fun column hcolumn => ?_
    obtain ⟨address, haddress⟩ := haddresses column hcolumn
    refine ⟨address, haddress, hwf.checkSlot_of_owns howned (run_empty_tidy operations) halone
      hclosed hidle ?_⟩
    exact ⟨column, hcolumn, key, suffix, hsuffix, cellAddress_eq_ok_iff.mp haddress⟩

/-- The index of the sessions as it is settled. -/
def sessionIndex : List IndexEntry :=
  [⟨some "number", some 1, some .integer, false, none, none⟩,
    ⟨some "address", some 1, some .ipAddress, false, none, some "host"⟩]

/-- The place of a host begins the place of another one with the same address and label, so that
the suffix of the one begins that of the other. A second session of a host is added beside the
first, also after the place of the sessions was materialized. -/
theorem rows_of_table_coexist_sessions :
    let operations : List Operation :=
      [.register (.table hosts), .register (.table sessions), .materialize sessions.oid,
        .addRow "session" [.ipAddress ⟨10, 0, 0, 1⟩, .integer 7]]
    let tree := empty.run operations
    let key : Oid → RowKey := fun place =>
      [.ipAddress ⟨10, 0, 0, 1⟩, .octetString "ab", .objectIdentifier place]
    RowKey.Begins hostIndex (key ⟨[1], by decide⟩) (key ⟨[1, 3], by decide⟩) ∧
      ∃ after, tree.addRow "session" [.ipAddress ⟨10, 0, 0, 1⟩, .integer 8] =
        (.ok [.ipAddress ⟨10, 0, 0, 1⟩, .integer 8], after) := by
  intro operations tree key
  constructor
  · have htable : tree.table "host" = .ok { hosts with index := hostIndex } := by rfl
    have hsuffix : tree.instanceSuffix "host" (key ⟨[1], by decide⟩) =
        .ok [10, 0, 0, 1, 2, 97, 98, 1] := by rfl
    have hotherSuffix : tree.instanceSuffix "host" (key ⟨[1, 3], by decide⟩) =
        .ok [10, 0, 0, 1, 2, 97, 98, 1, 3] := by rfl
    refine ((rows_of_table_coexist operations htable).1 (by decide) _ _ _ _ hsuffix
      hotherSuffix).2.mp ⟨⟨[3], rfl⟩, by decide⟩
  · have htable : tree.table "session" = .ok { sessions with index := sessionIndex } := by rfl
    have halone : tree.Alone (.table { sessions with index := sessionIndex }) := by
      decide +kernel
    have hidle : ∀ oid, .materialize oid ∈ operations → tree.Live oid →
        sessions.oid.arcs <+: oid.arcs → oid = sessions.oid := by
      simp [operations]
    have haddresses : ∀ column ∈ sessions.columns, ∃ address,
        cellAddress { sessions with index := sessionIndex } column.number [10, 0, 0, 1, 8] =
          .ok address :=
      List.forall_mem_singleton.mpr
        ⟨⟨[1, 3, 7, 1, 10, 0, 0, 1, 8], by decide⟩, by rfl⟩
    exact (rows_of_table_coexist operations htable).2 (by decide) halone hidle _ _
      [10, 0, 0, 1, 8] rfl rfl rfl haddresses

end Smi.ObjectTree
