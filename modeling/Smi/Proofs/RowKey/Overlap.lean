import Smi.Proofs.RowKey.Rewriting

/-!
# How suffixes overlap

Where only the last value of a key may have no visible end, keys have the same suffix only if their
canonical forms are the same. And one suffix begins another one only through such a last value: all
values before it are the same, and its numbers begin those of the other one.
-/

namespace Smi.RowKey

variable {entries others : List IndexEntry} {key other values : RowKey}
  {suffix otherSuffix rest otherRest : List Nat}

/-- Whether two keys agree up to a last value without a visible end, and the numbers of the one
begin those of the other. -/
def Begins (entries : List IndexEntry) (key other : RowKey) : Prop :=
  ∃ front last, entries = front ++ [last] ∧ last.isOpen = true ∧
    ∃ before value otherBefore otherValue, key = before ++ [value] ∧
      other = otherBefore ++ [otherValue] ∧ canonical front before = canonical front otherBefore ∧
      ∃ items more, last.form.items value = .ok items ∧ last.form.items otherValue = .ok more ∧
        items <+: more ∧ items ≠ more

/-- The first values of a key are written before the others. -/
theorem writeValues_append_eq_ok_iff (hlength : key.length = entries.length) :
    writeValues (entries ++ others) (key ++ values) = .ok suffix ↔
      ∃ first, writeValues entries key = .ok first ∧
        ∃ second, writeValues others values = .ok second ∧ first ++ second = suffix := by
  induction entries generalizing key suffix with
  | nil =>
    obtain rfl := List.length_eq_zero_iff.mp hlength
    simp [writeValues]
  | cons entry tail ih =>
    cases key with
    | nil => cases hlength
    | cons value left =>
      simp only [List.cons_append, writeValues_cons_eq_ok_iff, ih (Nat.succ.inj hlength)]
      constructor
      · rintro ⟨first, hfirst, _, ⟨middle, hmiddle, second, hsecond, rfl⟩, rfl⟩
        exact ⟨first ++ middle, ⟨first, hfirst, middle, hmiddle, rfl⟩, second, hsecond,
          List.append_assoc first middle second⟩
      · rintro ⟨_, ⟨first, hfirst, middle, hmiddle, rfl⟩, second, hsecond, rfl⟩
        exact ⟨first, hfirst, middle ++ second, ⟨middle, hmiddle, second, hsecond, rfl⟩,
          (List.append_assoc first middle second).symm⟩

/-- A single value is written as its entry writes it. -/
theorem writeValues_singleton_eq_ok_iff {entry : IndexEntry} {value : Value} :
    writeValues [entry] [value] = .ok suffix ↔ entry.write value = .ok suffix := by
  rw [writeValues_cons_eq_ok_iff]
  simp [writeValues]

/-- Keys whose values all have a visible end can be told apart whatever follows them. -/
theorem eq_of_append_eq (hclosed : ∀ entry ∈ entries, entry.isOpen = false)
    (hkey : key.length = entries.length) (hother : other.length = entries.length)
    (hwrite : writeValues entries key = .ok suffix)
    (hotherWrite : writeValues entries other = .ok otherSuffix)
    (happend : suffix ++ rest = otherSuffix ++ otherRest) :
    canonical entries key = canonical entries other ∧ suffix = otherSuffix ∧ rest = otherRest := by
  induction entries generalizing key other suffix otherSuffix with
  | nil =>
    obtain rfl := List.length_eq_zero_iff.mp hkey
    obtain rfl := List.length_eq_zero_iff.mp hother
    obtain rfl := Except.ok.inj hwrite
    obtain rfl := Except.ok.inj hotherWrite
    exact ⟨rfl, rfl, happend⟩
  | cons entry tail ih =>
    match key, other, hkey, hother with
    | value :: left, otherValue :: otherLeft, hkey, hother =>
      obtain ⟨first, hfirst, second, hsecond, rfl⟩ := writeValues_cons_eq_ok_iff.mp hwrite
      obtain ⟨otherFirst, hotherFirst, otherSecond, hotherSecond, rfl⟩ :=
        writeValues_cons_eq_ok_iff.mp hotherWrite
      obtain ⟨hentry, htail⟩ := List.forall_mem_cons.mp hclosed
      have hnotOpen : ∀ left : List Nat, entry.isOpen = true → left = [] := fun _ hopen => by
        rw [hentry] at hopen
        cases hopen
      -- Reading the first value from the front gives the canonical value and what follows it.
      have hread : entry.read? (first ++ (second ++ rest)) =
          some (entry.canonical value, second ++ rest) :=
        IndexEntry.read?_append hfirst (hnotOpen _)
      have hotherRead : entry.read? (otherFirst ++ (otherSecond ++ otherRest)) =
          some (entry.canonical otherValue, otherSecond ++ otherRest) :=
        IndexEntry.read?_append hotherFirst (hnotOpen _)
      rw [← List.append_assoc, happend, List.append_assoc, hotherRead] at hread
      obtain ⟨hvalue, hrest⟩ := Prod.mk.inj (Option.some.inj hread)
      obtain ⟨hleft, hsame, hafter⟩ := ih htail (Nat.succ.inj hkey) (Nat.succ.inj hother) hsecond
        hotherSecond hrest.symm
      have hfirstSame : first = otherFirst := by
        have hcanonical := IndexEntry.write_canonical hotherFirst
        rw [hvalue, IndexEntry.write_canonical hfirst] at hcanonical
        exact Except.ok.inj hcanonical
      refine ⟨?_, by rw [hfirstSame, hsame], hafter⟩
      exact List.cons_eq_cons.mpr ⟨hvalue.symm, hleft⟩

/-- Where every value has a visible end, no suffix begins another one. -/
theorem eq_of_isPrefix (hclosed : ∀ entry ∈ entries, entry.isOpen = false)
    (hkey : key.length = entries.length) (hother : other.length = entries.length)
    (hwrite : writeValues entries key = .ok suffix)
    (hotherWrite : writeValues entries other = .ok otherSuffix)
    (hbegins : suffix <+: otherSuffix) : suffix = otherSuffix := by
  obtain ⟨rest, hrest⟩ := hbegins
  rw [← List.append_nil otherSuffix] at hrest
  exact (eq_of_append_eq hclosed hkey hother hwrite hotherWrite hrest).2.1

/-- Keys have the same suffix exactly when their canonical forms are the same. -/
theorem eq_iff_canonical_eq (hkey : key.length = entries.length)
    (hother : other.length = entries.length)
    (hopen : ∀ entry ∈ entries.dropLast, entry.isOpen = false)
    (hwrite : writeValues entries key = .ok suffix)
    (hotherWrite : writeValues entries other = .ok otherSuffix) :
    suffix = otherSuffix ↔ canonical entries key = canonical entries other := by
  constructor
  · rintro rfl
    have hread := readValues?_of_writeValues hkey hopen hwrite
    rw [readValues?_of_writeValues hother hopen hotherWrite] at hread
    exact (Option.some.inj hread).symm
  · intro hcanonical
    have hsame := writeValues_canonical hwrite
    rw [hcanonical, writeValues_canonical hotherWrite] at hsame
    exact (Except.ok.inj hsame).symm

/-- The last value of a key is written behind the others. -/
theorem writeValues_concat_eq_ok_iff {entry : IndexEntry} {value : Value}
    (hlength : key.length = entries.length) :
    writeValues (entries ++ [entry]) (key ++ [value]) = .ok suffix ↔
      ∃ first, writeValues entries key = .ok first ∧
        ∃ last, entry.write value = .ok last ∧ first ++ last = suffix := by
  simp only [writeValues_append_eq_ok_iff hlength, writeValues_singleton_eq_ok_iff]

/-- A key for one entry more than others has a last value. -/
theorem exists_eq_concat {entry : IndexEntry} (hlength : key.length = (entries ++ [entry]).length) :
    ∃ before value, key = before ++ [value] ∧ before.length = entries.length := by
  rw [List.length_append, List.length_singleton] at hlength
  rcases List.eq_nil_or_concat key with rfl | ⟨before, value, heq⟩
  · cases hlength
  · rw [List.concat_eq_append] at heq
    subst heq
    exact ⟨before, value, rfl, by simpa using hlength⟩

/-- A suffix properly begins another one exactly when the keys agree up to a last value without a
visible end and its numbers properly begin those of the other one. -/
theorem begins_iff (hkey : key.length = entries.length) (hother : other.length = entries.length)
    (hopen : ∀ entry ∈ entries.dropLast, entry.isOpen = false)
    (hwrite : writeValues entries key = .ok suffix)
    (hotherWrite : writeValues entries other = .ok otherSuffix) :
    suffix <+: otherSuffix ∧ suffix ≠ otherSuffix ↔ Begins entries key other := by
  constructor
  · rintro ⟨⟨rest, hrest⟩, hne⟩
    rcases List.eq_nil_or_concat entries with rfl | ⟨front, last, heq⟩
    · exact absurd ((Except.ok.inj hwrite).symm.trans (Except.ok.inj hotherWrite)) hne
    · rw [List.concat_eq_append] at heq
      subst heq
      rw [List.dropLast_concat] at hopen
      cases hlast : last.isOpen with
      | false =>
        have hclosed : ∀ entry ∈ front ++ [last], entry.isOpen = false :=
          List.forall_mem_append.mpr ⟨hopen, List.forall_mem_singleton.mpr hlast⟩
        exact absurd (eq_of_isPrefix hclosed hkey hother hwrite hotherWrite ⟨rest, hrest⟩) hne
      | true =>
        obtain ⟨before, value, rfl, hbefore⟩ := exists_eq_concat hkey
        obtain ⟨otherBefore, otherValue, rfl, hotherBefore⟩ := exists_eq_concat hother
        obtain ⟨first, hfirst, items, hitems, rfl⟩ :=
          (writeValues_concat_eq_ok_iff hbefore).mp hwrite
        obtain ⟨otherFirst, hotherFirst, more, hmore, rfl⟩ :=
          (writeValues_concat_eq_ok_iff hotherBefore).mp hotherWrite
        rw [List.append_assoc] at hrest
        obtain ⟨hcanonical, rfl, hitemsRest⟩ :=
          eq_of_append_eq hopen hbefore hotherBefore hfirst hotherFirst hrest
        rw [IndexEntry.write_eq_of_toEnd (IndexEntry.isOpen_iff.mp hlast)] at hitems hmore
        exact ⟨front, last, rfl, hlast, before, value, otherBefore, otherValue, rfl, rfl,
          hcanonical, items, more, hitems, hmore, ⟨rest, hitemsRest⟩, fun h => hne (by rw [h])⟩
  · rintro ⟨front, last, rfl, hlast, before, value, otherBefore, otherValue, rfl, rfl, hcanonical,
      items, more, hitems, hmore, ⟨rest, hrest⟩, hne⟩
    have hbefore : before.length = front.length := by simpa using hkey
    have hotherBefore : otherBefore.length = front.length := by simpa using hother
    rw [List.dropLast_concat] at hopen
    obtain ⟨first, hfirst, second, hsecond, rfl⟩ :=
      (writeValues_concat_eq_ok_iff hbefore).mp hwrite
    obtain ⟨otherFirst, hotherFirst, otherSecond, hotherSecond, rfl⟩ :=
      (writeValues_concat_eq_ok_iff hotherBefore).mp hotherWrite
    have hfront : ∀ entry ∈ front.dropLast, entry.isOpen = false := fun entry hentry =>
      hopen entry ((List.dropLast_sublist front).subset hentry)
    obtain rfl : first = otherFirst :=
      (eq_iff_canonical_eq hbefore hotherBefore hfront hfirst hotherFirst).mpr hcanonical
    rw [IndexEntry.write_eq_of_toEnd (IndexEntry.isOpen_iff.mp hlast)] at hsecond hotherSecond
    obtain rfl : items = second := Except.ok.inj (hitems.symm.trans hsecond)
    obtain rfl : more = otherSecond := Except.ok.inj (hmore.symm.trans hotherSecond)
    exact ⟨⟨rest, by rw [List.append_assoc, hrest]⟩, fun h => hne (List.append_cancel_left h)⟩

end Smi.RowKey
