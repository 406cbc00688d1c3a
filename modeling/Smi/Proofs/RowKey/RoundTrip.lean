import Smi.ObjectTree.Row
import Smi.Proofs.RowKey.Layout

/-!
# Reading back what was written

Every index value is written so that its end can be seen, unless it is an implied sequence of no
fixed length. So the values of a key are read back from its suffix if only the last of them may be
such a sequence. What is read back is the key in its canonical form, where a number has the form of
its column and an address written as a string is an address.
-/

namespace Smi

namespace IndexEntry

variable {entry : IndexEntry} {value : Value} {written rest : List Nat}

/-- Whether nothing shows where a value of an entry ends. -/
def isOpen (entry : IndexEntry) : Bool :=
  entry.implied && entry.length.isNone && entry.form.width?.isNone

/-- The value that is read back for a written one. -/
def canonical (entry : IndexEntry) (value : Value) : Value :=
  entry.form.canonical value

/-- Nothing shows where a value ends if it goes on to the end of the suffix. -/
theorem isOpen_iff : entry.isOpen = true ↔ entry.framing = .toEnd := by
  unfold isOpen framing
  cases entry.form.width? <;> cases entry.length <;> cases entry.implied <;> simp

/-- A written value is read back in its canonical form with the rest behind it, unless nothing shows
its end. -/
theorem read?_append (hwrite : entry.write value = .ok written)
    (hend : entry.isOpen = true → rest = []) :
    entry.read? (written ++ rest) = some (entry.canonical value, rest) := by
  rw [write_eq] at hwrite
  rw [read?_eq]
  exact Layout.read?_append hwrite fun htoEnd => hend (isOpen_iff.mpr htoEnd)

end IndexEntry

namespace RowKey

variable {entries : List IndexEntry} {key : RowKey} {suffix : List Nat}

/-- The key that is read back for a written one, value by value. -/
def canonical (entries : List IndexEntry) (key : RowKey) : RowKey :=
  List.zipWith IndexEntry.canonical entries key

/-- The first value of a key is written before the others. -/
theorem writeValues_cons_eq_ok_iff {entry : IndexEntry} {value : Value} {written : List Nat} :
    writeValues (entry :: entries) (value :: key) = .ok written ↔
      ∃ first, entry.write value = .ok first ∧
        ∃ others, writeValues entries key = .ok others ∧ first ++ others = written := by
  simp only [writeValues, bind_eq_ok_iff, pure_eq_ok_iff, mapError_eq_ok_iff]

/-- Written values are read back in their canonical form if only the last of them may have no
visible end. -/
theorem readValues?_of_writeValues (hlength : key.length = entries.length)
    (hopen : ∀ entry ∈ entries.dropLast, entry.isOpen = false)
    (hwrite : writeValues entries key = .ok suffix) :
    readValues? entries suffix = some (canonical entries key) := by
  induction entries generalizing key suffix with
  | nil =>
    obtain rfl := List.length_eq_zero_iff.mp hlength
    obtain rfl := Except.ok.inj hwrite
    rfl
  | cons entry rest ih =>
    cases key with
    | nil => cases hlength
    | cons value values =>
      obtain ⟨first, hfirst, others, hothers, rfl⟩ := writeValues_cons_eq_ok_iff.mp hwrite
      have hlength' : values.length = rest.length := Nat.succ.inj hlength
      have hrest : ∀ other ∈ rest.dropLast, other.isOpen = false := fun other hother => by
        cases rest with
        | nil => cases hother
        | cons next tail => exact hopen other (List.mem_cons_of_mem entry hother)
      have hend : entry.isOpen = true → others = [] := fun hisOpen => by
        cases rest with
        | nil =>
          obtain rfl := List.length_eq_zero_iff.mp hlength'
          exact (Except.ok.inj hothers).symm
        | cons next tail =>
          rw [hopen entry List.mem_cons_self] at hisOpen
          cases hisOpen
      have hothersRead := ih hlength' hrest hothers
      simp only [readValues?, IndexEntry.read?_append hfirst hend, Option.bind_some, hothersRead]
      rfl

/-- Values are refused for one of the entries, and the error names it. -/
theorem refused_of_writeValues_eq_error {e : Error} (h : writeValues entries key = .error e) :
    ∃ entry ∈ entries, ∃ fault, e = .invalidIndexValue entry.label fault := by
  induction entries generalizing key with
  | nil => cases h
  | cons entry rest ih =>
    cases key with
    | nil => cases h
    | cons value others =>
      rcases bind_eq_error_iff.mp h with hfirst | ⟨_, _, h⟩
      · cases hwrite : entry.write value with
        | error fault =>
          rw [hwrite] at hfirst
          exact ⟨entry, List.mem_cons_self, fault, (Except.error.inj hfirst).symm⟩
        | ok _ =>
          rw [hwrite] at hfirst
          cases hfirst
      · rcases bind_eq_error_iff.mp h with hrest | ⟨_, _, h⟩
        · obtain ⟨refused, hmem, hfault⟩ := ih hrest
          exact ⟨refused, List.mem_cons_of_mem entry hmem, hfault⟩
        · cases h

/-- A key is refused for its length or for one of the index entries. -/
theorem refused_of_suffix_eq_error {table : TableProvider} {e : Error}
    (h : RowKey.suffix table key = .error e) :
    e = .rowKeyLengthMismatch table.name table.index.length key.length ∨
      ∃ entry ∈ table.keyIndex, ∃ fault, e = .invalidIndexValue entry.label fault := by
  unfold RowKey.suffix at h
  split at h
  · exact Or.inr (refused_of_writeValues_eq_error h)
  · exact Or.inl (Except.error.inj h).symm

end RowKey

/-- The entries in the order of a key are those of the index. -/
theorem TableProvider.keyIndex_perm (table : TableProvider) : table.keyIndex.Perm table.index := by
  have hlocal : table.localIndex = table.index.filter fun entry => !entry.foreign.isSome := by
    simp only [localIndex, Option.not_isSome]
  rw [keyIndex, foreignIndex, hlocal]
  exact List.filter_append_perm _ _

/-- A key of a table has a suffix when there is a value for each index entry and all of them are
written. -/
theorem RowKey.suffix_eq_ok_iff {table : TableProvider} {key : RowKey} {written : List Nat} :
    suffix table key = .ok written ↔
      key.length = table.keyIndex.length ∧ writeValues table.keyIndex key = .ok written := by
  rw [suffix, table.keyIndex_perm.length_eq]
  by_cases hlength : key.length = table.index.length <;> simp [hlength]

/-- A key of a table is read from a suffix when a value is found for each index entry. -/
theorem RowKey.ofSuffix_eq_ok_iff {table : TableProvider} {suffix : List Nat} {key : RowKey} :
    ofSuffix table suffix = .ok key ↔ readValues? table.keyIndex suffix = some key := by
  rw [ofSuffix]
  cases readValues? table.keyIndex suffix <;> simp

namespace ObjectTree

variable {tree : ObjectTree} {name : String} {table : TableProvider} {key : RowKey}
  {suffix : List Nat}

/-- The suffix of a key in a tree is the one in its registered table. -/
theorem instanceSuffix_eq (htable : tree.table name = .ok table) (key : RowKey) :
    tree.instanceSuffix name key = RowKey.suffix table key := by
  rw [instanceSuffix, htable]
  rfl

/-- The key of a suffix in a tree is the one in its registered table. -/
theorem rowKeyOfSuffix_eq (htable : tree.table name = .ok table) (suffix : List Nat) :
    tree.rowKeyOfSuffix name suffix = RowKey.ofSuffix table suffix := by
  rw [rowKeyOfSuffix, htable]
  rfl

/-- The canonical form of a key is read back from the suffix of the key, for every registered table
in whose key only the last value may have no visible end. -/
theorem rowKeyOfSuffix_instanceSuffix (htable : tree.table name = .ok table)
    (hopen : ∀ entry ∈ table.keyIndex.dropLast, entry.isOpen = false)
    (hsuffix : tree.instanceSuffix name key = .ok suffix) :
    tree.rowKeyOfSuffix name suffix = .ok (RowKey.canonical table.keyIndex key) := by
  rw [instanceSuffix_eq htable, RowKey.suffix] at hsuffix
  by_cases hlength : key.length = table.index.length
  · rw [if_pos hlength] at hsuffix
    have hkeyIndex : key.length = table.keyIndex.length := by
      rw [hlength, table.keyIndex_perm.length_eq]
    rw [rowKeyOfSuffix_eq htable, RowKey.ofSuffix,
      RowKey.readValues?_of_writeValues hkeyIndex hopen hsuffix]
  · rw [if_neg hlength] at hsuffix
    cases hsuffix

/-- A table of hosts by their addresses, labels and places in the object tree. -/
def hosts : TableProvider where
  name := "host"
  tableName := none
  oid := ⟨[1, 3, 6], by decide⟩
  columns := [⟨1, "address", some .ipAddress⟩, ⟨2, "label", some .octetString⟩,
    ⟨3, "place", some .objectIdentifier⟩]
  index := [.ofName "address", .ofName "label", { IndexEntry.ofName "place" with implied := true }]
  augments := none

/-- The tree in which the hosts are registered. -/
def hostTree : ObjectTree :=
  (empty.register (.table hosts)).2

/-- The index of the hosts as it is settled. -/
def hostIndex : List IndexEntry :=
  [⟨some "address", some 1, some .ipAddress, false, none, none⟩,
    ⟨some "label", some 2, some .octetString, false, none, none⟩,
    ⟨some "place", some 3, some .objectIdentifier, true, none, none⟩]

/-- An address that was written as a string is read back as an address, before a string with its
length and a place without one. -/
theorem rowKeyOfSuffix_hosts :
    let place : Value := .objectIdentifier ⟨[1, 3], by decide⟩
    hostTree.instanceSuffix "host" [.octetString "10.0.0.1", .octetString "ab", place] =
        .ok [10, 0, 0, 1, 2, 97, 98, 1, 3] ∧
      hostTree.rowKeyOfSuffix "host" [10, 0, 0, 1, 2, 97, 98, 1, 3] =
        .ok [.ipAddress ⟨10, 0, 0, 1⟩, .octetString "ab", place] := by
  have hsuffix : hostTree.instanceSuffix "host" [.octetString "10.0.0.1", .octetString "ab",
      .objectIdentifier ⟨[1, 3], by decide⟩] = .ok [10, 0, 0, 1, 2, 97, 98, 1, 3] := by rfl
  have htable : hostTree.table "host" = .ok { hosts with index := hostIndex } := by rfl
  exact ⟨hsuffix, rowKeyOfSuffix_instanceSuffix htable (by decide) hsuffix⟩

end ObjectTree

end Smi
