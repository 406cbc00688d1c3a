import Smi.Proofs.RowKey.Legible

/-!
# Suffixes that lead back to themselves

The components of a suffix are numbers of 32 bits, and a number that is an index value is written
only if it can be an arc. Reading does not look at this bound. So a key that was read from a suffix
leads back to this suffix exactly if none of its values is a number above the largest arc, and
exactly then any key at all is written in this suffix.
-/

namespace Smi

variable {items written suffix : List Nat} {value : Value}

/-- A number above the largest arc is read, but not written. -/
theorem KeyForm.items_eq_error_of_value? {form : KeyForm} (hvalue : form.value? items = some value)
    (hbound : ∀ n ∈ items, n < Text.bound32) (hunfit : ¬value.FitsArc) :
    form.items value = .error .integerOutOfRange := by
  by_cases hwidth : form.width? = some 1
  · obtain ⟨n, rfl⟩ := exists_number_of_value? hwidth hvalue
    have hinteger := integer?_of_value? hwidth hvalue (hbound n List.mem_cons_self)
    have hlarge : ¬n ≤ Oid.maxArc := fun hn => hunfit fun m hm => by
      obtain rfl := Option.some.inj (hinteger.symm.trans hm)
      exact Int.ofNat_le.mpr hn
    rw [items_of_integer? hwidth hinteger, if_neg hlarge]
  · refine absurd (fun m hm => ?_) hunfit
    rw [integer?_eq_none_of_value? hwidth hvalue] at hm
    cases hm

namespace IndexEntry

variable {entry : IndexEntry} {rest : List Nat}

/-- A value that is read but fits no arc cannot be written again. -/
theorem write_eq_error_of_read? (hread : entry.read? suffix = some (value, rest))
    (hbound : ∀ n ∈ suffix, n < Text.bound32) (hunfit : ¬value.FitsArc) :
    entry.write value = .error .integerOutOfRange := by
  obtain ⟨items, written, hvalue, _, hsubset, rfl⟩ := exists_items_of_read? hread hbound
  have hitems : ∀ n ∈ items, n < Text.bound32 := fun n hn =>
    hbound n (List.mem_append_left rest (hsubset hn))
  rw [write_eq, Layout.write, layout, KeyForm.items_eq_error_of_value? hvalue hitems hunfit]
  rfl

/-- A value without a visible end is no number. -/
theorem integer?_eq_none_of_read? (hopen : entry.isOpen = true)
    (hread : entry.read? suffix = some (value, rest)) : value.integer? = none ∧ rest = [] := by
  have hframing := isOpen_iff.mp hopen
  have hwidth : entry.form.width? = none := Vanishes.width?_eq_none (Or.inl hframing)
  rw [read?_eq_of_toEnd hframing] at hread
  obtain ⟨found, hfound, hpair⟩ := Option.map_eq_some_iff.mp hread
  obtain ⟨rfl, rfl⟩ := Prod.mk.inj hpair
  exact ⟨KeyForm.integer?_eq_none_of_value? (by rw [hwidth]; decide) hfound, rfl⟩

end IndexEntry

namespace RowKey

variable {entries : List IndexEntry} {key other : RowKey}

/-- What is read from a suffix in which some key is written has no numbers above the largest arc. In
front of the first value without a visible end the values of this key are found, and that value
leaves nothing for the others. -/
theorem fitsArc_of_writeValues (hlength : other.length = entries.length)
    (hwrite : writeValues entries other = .ok suffix)
    (hread : readValues? entries suffix = some key) : ∀ value ∈ key, value.FitsArc := by
  induction entries generalizing other suffix key with
  | nil =>
    obtain ⟨_, rfl⟩ := readValues?_nil_eq_some_iff.mp hread
    exact fun _ hmem => absurd hmem List.not_mem_nil
  | cons entry others ih =>
    cases other with
    | nil => cases hlength
    | cons first values =>
      obtain ⟨found, rest, tail, hfirst, htail, rfl⟩ := readValues?_cons_eq_some_iff.mp hread
      obtain ⟨written, hwritten, left, hleft, rfl⟩ := writeValues_cons_eq_ok_iff.mp hwrite
      by_cases hopen : entry.isOpen = true
      · obtain ⟨hnone, rfl⟩ := IndexEntry.integer?_eq_none_of_read? hopen hfirst
        refine List.forall_mem_cons.mpr ⟨fun n hn => ?_, fitsArc_of_readValues? htail (by simp)⟩
        rw [hnone] at hn
        cases hn
      · rw [IndexEntry.read?_append hwritten fun h => absurd h hopen] at hfirst
        obtain ⟨rfl, rfl⟩ := Prod.mk.inj (Option.some.inj hfirst)
        exact List.forall_mem_cons.mpr
          ⟨IndexEntry.fitsArc_of_write (IndexEntry.write_canonical hwritten),
            ih (Nat.succ.inj hlength) hleft htail⟩

/-- A key with a number above the largest arc is refused at the first such number. -/
theorem writeValues_eq_error_of_readValues? (hread : readValues? entries suffix = some key)
    (hbound : ∀ n ∈ suffix, n < Text.bound32) (hunfit : ∃ value ∈ key, ¬value.FitsArc) :
    ∃ entry ∈ entries,
      writeValues entries key = .error (.invalidIndexValue entry.label .integerOutOfRange) := by
  induction entries generalizing suffix key with
  | nil =>
    obtain ⟨_, rfl⟩ := readValues?_nil_eq_some_iff.mp hread
    obtain ⟨_, hmem, _⟩ := hunfit
    cases hmem
  | cons entry others ih =>
    obtain ⟨found, rest, tail, hfirst, htail, rfl⟩ := readValues?_cons_eq_some_iff.mp hread
    by_cases hfits : found.FitsArc
    · obtain ⟨written, hwrite, rfl⟩ := IndexEntry.write_of_read? hfirst hbound hfits
      have htailUnfit : ∃ value ∈ tail, ¬value.FitsArc := by simpa [hfits] using hunfit
      obtain ⟨refused, hrefused, herror⟩ :=
        ih htail (fun n hn => hbound n (List.mem_append_right _ hn)) htailUnfit
      refine ⟨refused, List.mem_cons_of_mem entry hrefused, ?_⟩
      rw [writeValues, hwrite, herror]
      rfl
    · refine ⟨entry, List.mem_cons_self, ?_⟩
      rw [writeValues, IndexEntry.write_eq_error_of_read? hfirst hbound hfits]
      rfl

end RowKey

namespace ObjectTree

variable {tree : ObjectTree} {name : String} {table : TableProvider} {key : RowKey}

/-- A key that was read from a suffix of 32-bit numbers is written in this suffix exactly if none of
its values is a number above the largest arc, and exactly then any key is written in this suffix. A
key with such a number cannot be written at all. -/
theorem instanceSuffix_rowKeyOfSuffix_iff (htable : tree.table name = .ok table)
    (hbound : ∀ n ∈ suffix, n < Text.bound32) (hread : tree.rowKeyOfSuffix name suffix = .ok key) :
    (tree.instanceSuffix name key = .ok suffix ↔ ∀ value ∈ key, value.FitsArc) ∧
    ((∃ other, tree.instanceSuffix name other = .ok suffix) ↔ ∀ value ∈ key, value.FitsArc) ∧
    ((∃ value ∈ key, ¬value.FitsArc) → ∃ entry ∈ table.index, tree.instanceSuffix name key =
      .error (.invalidIndexValue entry.label .integerOutOfRange)) := by
  rw [rowKeyOfSuffix_eq htable, RowKey.ofSuffix_eq_ok_iff] at hread
  have hlength := RowKey.length_of_readValues? hread
  simp only [instanceSuffix_eq htable, RowKey.suffix_eq_ok_iff]
  have hfits : ∀ other : RowKey, other.length = table.keyIndex.length ∧
      RowKey.writeValues table.keyIndex other = .ok suffix → ∀ value ∈ key, value.FitsArc :=
    fun other h => RowKey.fitsArc_of_writeValues h.1 h.2 hread
  have hwrite : (∀ value ∈ key, value.FitsArc) →
      key.length = table.keyIndex.length ∧
        RowKey.writeValues table.keyIndex key = .ok suffix :=
    fun h => ⟨hlength, RowKey.writeValues_of_readValues? hread hbound h⟩
  refine ⟨⟨hfits key, hwrite⟩, ⟨fun ⟨other, h⟩ => hfits other h, fun h => ⟨key, hwrite h⟩⟩,
    fun hunfit => ?_⟩
  obtain ⟨entry, hentry, herror⟩ := RowKey.writeValues_eq_error_of_readValues? hread hbound hunfit
  refine ⟨entry, table.keyIndex_perm.mem_iff.mp hentry, ?_⟩
  rw [RowKey.suffix, if_pos (hlength.trans table.keyIndex_perm.length_eq), herror]

/-- A table of ports by their numbers. -/
def ports : TableProvider where
  name := "port"
  tableName := none
  oid := ⟨[1, 3, 5], by decide⟩
  columns := [⟨1, "number", some .integer⟩, ⟨2, "label", some .octetString⟩]
  index := [.ofName "number"]
  augments := none

/-- The tree in which the ports are registered. -/
def portTree : ObjectTree :=
  (empty.register (.table ports)).2

/-- The index of the ports as it is settled. -/
def portIndex : List IndexEntry :=
  [⟨some "number", some 1, some .integer, false, none, none⟩]

/-- The largest number that can be an arc leads back to its suffix. -/
theorem instanceSuffix_rowKeyOfSuffix_ports :
    portTree.rowKeyOfSuffix "port" [2147483647] = .ok [.integer 2147483647] ∧
      portTree.instanceSuffix "port" [.integer 2147483647] = .ok [2147483647] := by
  have htable : portTree.table "port" = .ok { ports with index := portIndex } := by rfl
  have hread : portTree.rowKeyOfSuffix "port" [2147483647] = .ok [.integer 2147483647] := by rfl
  exact ⟨hread, (instanceSuffix_rowKeyOfSuffix_iff htable (by decide) hread).1.mpr (by decide)⟩

/-- The number above it is read from a suffix in which no key is written. -/
theorem instanceSuffix_ports_out_of_range :
    (empty.register (.table ports)).1.isOk = true ∧
      portTree.rowKeyOfSuffix "port" [2147483648] = .ok [.integer 2147483648] ∧
      portTree.instanceSuffix "port" [.integer 2147483648] =
        .error (.invalidIndexValue "number" .integerOutOfRange) :=
  ⟨rfl, rfl, rfl⟩

end ObjectTree

end Smi
