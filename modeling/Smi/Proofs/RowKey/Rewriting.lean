import Smi.Proofs.RowKey.RoundTrip

/-!
# Writing what was read

A number that is an index value must not be greater than the largest arc. As long as that is so, a
value is written in the very numbers from which it is read. So a key and its canonical form are
written alike, and a key that was read from a suffix of arcs leads back to this suffix.
-/

namespace Smi

variable {items written suffix rest : List Nat} {value : Value}

/-- Whether a value is no number above the largest arc. -/
def Value.FitsArc (value : Value) : Prop :=
  ∀ n ∈ value.integer?, n ≤ Oid.maxArc

instance (value : Value) : Decidable value.FitsArc :=
  inferInstanceAs (Decidable (∀ n ∈ value.integer?, n ≤ (Oid.maxArc : Int)))

namespace KeyForm

variable {form : KeyForm}

/-- The characters of code points have these code points. -/
theorem map_toNat_of_mapM_character? {cs : List Char}
    (h : items.mapM IndexEntry.character? = some cs) : cs.map Char.toNat = items := by
  have hone : ∀ code c, IndexEntry.character? code = some c → c.toNat = code := by
    intro code c hc
    unfold IndexEntry.character? at hc
    split at hc
    · rename_i hvalid
      obtain rfl := Option.some.inj hc
      rw [Char.ofNat, dif_pos hvalid]
      rfl
    · cases hc
  induction items generalizing cs with
  | nil =>
    obtain rfl := Option.some.inj h
    rfl
  | cons code others ih =>
    rw [List.mapM_cons] at h
    obtain ⟨c, hc, h⟩ := Option.bind_eq_some_iff.mp h
    obtain ⟨tail, htail, h⟩ := Option.bind_eq_some_iff.mp h
    obtain rfl := Option.some.inj h
    rw [List.map_cons, hone code c hc, ih htail]

/-- An address that is read from octets consists of them. -/
theorem toList_of_ofList? {address : Ipv4} (h : Ipv4.ofList? items = some address) :
    address.toList = items := by
  unfold Ipv4.ofList? at h
  split at h
  · split at h
    · obtain rfl := Option.some.inj h
      simp [Ipv4.toList]
      omega
    · cases h
  · cases h

/-- A value of a form with the width 1 is found in a single number. -/
theorem exists_number_of_value? (hwidth : form.width? = some 1)
    (hvalue : form.value? items = some value) : ∃ n, items = [n] := by
  cases form with
  | identifier | text | address => cases hwidth
  | unsigned | signed =>
    cases items with
    | nil => cases hvalue
    | cons n others =>
      cases others with
      | nil => exact ⟨n, rfl⟩
      | cons _ _ => cases hvalue

/-- The value of a single number has this number as its content. -/
theorem integer?_of_value? {n : Nat} (hwidth : form.width? = some 1)
    (hvalue : form.value? [n] = some value) (hbound : n < Text.bound32) :
    value.integer? = some (n : Int) := by
  cases form with
  | identifier | text | address => cases hwidth
  | unsigned =>
    obtain rfl := Option.some.inj hvalue
    have hback : (UInt64.ofNat n).toNat = n :=
      UInt64.toNat_ofNat_of_lt' (Nat.lt_of_lt_of_le hbound (by decide))
    rw [Value.integer?, hback, if_pos (Nat.lt_of_lt_of_le hbound (by decide))]
  | signed =>
    obtain rfl := Option.some.inj hvalue
    rw [Value.integer?, Int64.toInt_ofNat_of_lt (Nat.lt_of_lt_of_le hbound (by decide))]

/-- A value in a form of another width is no number. -/
theorem integer?_eq_none_of_value? (hwidth : form.width? ≠ some 1)
    (hvalue : form.value? items = some value) : value.integer? = none := by
  cases form with
  | identifier =>
    obtain ⟨_, _, rfl⟩ := Option.map_eq_some_iff.mp hvalue
    rfl
  | text =>
    obtain ⟨_, _, rfl⟩ := Option.map_eq_some_iff.mp hvalue
    rfl
  | address =>
    obtain ⟨_, _, rfl⟩ := Option.map_eq_some_iff.mp hvalue
    rfl
  | unsigned | signed => exact absurd rfl hwidth

/-- A single number is written as it is, if it can be an arc. -/
theorem items_of_integer? {n : Nat} (hwidth : form.width? = some 1)
    (hinteger : value.integer? = some (n : Int)) :
    form.items value = if n ≤ Oid.maxArc then .ok [n] else .error .integerOutOfRange := by
  have hform : form.items value = unsigned.items value := by
    cases form <;> first | rfl | simp [width?] at hwidth
  rw [hform]
  simp only [KeyForm.items, hinteger, Int.natCast_nonneg, true_and, Int.ofNat_le, Int.toNat_natCast]

/-- A value that numbers stand for is written in these numbers, unless it is itself a number that
cannot be an arc. -/
theorem items_of_value? (hvalue : form.value? items = some value)
    (hbound : ∀ n ∈ items, n < Text.bound32) (hfits : value.FitsArc) :
    form.items value = .ok items := by
  cases form with
  | identifier =>
    obtain ⟨oid, hoid, rfl⟩ := Option.map_eq_some_iff.mp hvalue
    cases hcomponents : Oid.ofComponents (items.map Int.ofNat) with
    | error e =>
      rw [hcomponents] at hoid
      cases hoid
    | ok found =>
      rw [hcomponents] at hoid
      obtain rfl := Option.some.inj hoid
      exact congrArg Except.ok (Oid.arcs_of_ofComponents hcomponents)
  | text =>
    obtain ⟨cs, hcs, rfl⟩ := Option.map_eq_some_iff.mp hvalue
    simp only [KeyForm.items, Value.string?, String.toList_ofList,
      map_toNat_of_mapM_character? hcs]
  | address =>
    obtain ⟨address, haddress, rfl⟩ := Option.map_eq_some_iff.mp hvalue
    exact congrArg Except.ok (toList_of_ofList? haddress)
  | unsigned | signed =>
    obtain ⟨n, rfl⟩ := exists_number_of_value? rfl hvalue
    have hinteger := integer?_of_value? rfl hvalue (hbound n List.mem_cons_self)
    rw [items_of_integer? rfl hinteger, if_pos (Int.ofNat_le.mp (hfits n hinteger))]

/-- A value that arcs stand for is no number above them. -/
theorem fitsArc_of_value? (hvalue : form.value? items = some value)
    (hsmall : ∀ n ∈ items, n ≤ Oid.maxArc) : value.FitsArc := by
  intro m hm
  by_cases hwidth : form.width? = some 1
  · obtain ⟨n, rfl⟩ := exists_number_of_value? hwidth hvalue
    have hn : n ≤ Oid.maxArc := hsmall n List.mem_cons_self
    have hinteger := integer?_of_value? hwidth hvalue (Nat.lt_of_le_of_lt hn (by decide))
    obtain rfl := Option.some.inj (hinteger.symm.trans hm)
    exact Int.ofNat_le.mpr hn
  · rw [integer?_eq_none_of_value? hwidth hvalue] at hm
    cases hm

/-- A value that is written is no number above the largest arc. -/
theorem fitsArc_of_items (hitems : form.items value = .ok items) : value.FitsArc := by
  intro n hn
  cases form with
  | identifier | text =>
    cases value <;>
      simp [KeyForm.items, Value.oid?, Value.string?, Value.integer?] at hitems hn
  | address =>
    obtain ⟨ip, hip, _⟩ := items_address hitems
    cases value <;> simp [IndexEntry.ipv4?, Value.integer?] at hip hn
  | unsigned | signed =>
    obtain ⟨m, hm, _, hle, _⟩ := items_number rfl hitems
    obtain rfl := Option.some.inj (hm.symm.trans hn)
    exact hle

/-- Values are written in numbers that may be arcs. -/
theorem le_maxArc_of_items (hitems : form.items value = .ok items) :
    ∀ n ∈ items, n ≤ Oid.maxArc := by
  cases form with
  | identifier =>
    cases value <;> simp only [KeyForm.items, Value.oid?, reduceCtorEq, Except.ok.injEq] at hitems
    rename_i oid
    exact hitems ▸ Oid.le_maxArc_of_admissibleFrom oid.admissible
  | text =>
    cases value <;>
      simp only [KeyForm.items, Value.string?, reduceCtorEq, Except.ok.injEq] at hitems
    subst hitems
    intro n hn
    obtain ⟨c, _, rfl⟩ := List.mem_map.mp hn
    have hvalid : c.toNat.isValidChar := c.valid
    unfold Nat.isValidChar at hvalid
    unfold Oid.maxArc
    omega
  | address =>
    obtain ⟨ip, _, rfl⟩ := items_address hitems
    have hoctet : ∀ octet : UInt8, octet.toNat ≤ Oid.maxArc := fun octet =>
      Nat.le_trans (Nat.le_of_lt octet.toNat_lt) (by decide)
    simp [Ipv4.toList, hoctet]
  | unsigned | signed =>
    obtain ⟨n, _, _, hle, rfl⟩ := items_number rfl hitems
    exact List.forall_mem_singleton.mpr (by omega)

/-- A value and its canonical form are written in the same numbers. -/
theorem items_canonical (hitems : form.items value = .ok items) :
    form.items (form.canonical value) = .ok items :=
  items_of_value? (value?_of_items hitems)
    (fun n hn => Nat.lt_of_le_of_lt (le_maxArc_of_items hitems n hn) (by decide))
    (fitsArc_of_value? (value?_of_items hitems) (le_maxArc_of_items hitems))

end KeyForm

/-- Numbers that were taken from the front of a suffix are framed as they stood there. -/
theorem Framing.frame_of_unframe {framing : Framing}
    (hunframe : framing.unframe suffix = some (items, rest))
    (hbound : ∀ n ∈ suffix, n < Text.bound32) :
    ∃ written, framing.frame items = .ok written ∧ written ++ rest = suffix := by
  have hsplit : ∀ (count : Nat) (numbers : List Nat),
      IndexEntry.splitItems count numbers = some (items, rest) →
      items.length = count ∧ items ++ rest = numbers := by
    intro count numbers h
    unfold IndexEntry.splitItems at h
    split at h
    · rename_i hcount
      rw [List.splitAt_eq] at h
      obtain ⟨rfl, rfl⟩ := Prod.mk.inj (Option.some.inj h)
      exact ⟨List.length_take_of_le hcount, List.take_append_drop count numbers⟩
    · cases h
  cases framing with
  | fixed length =>
    obtain ⟨hlength, happend⟩ := hsplit length suffix hunframe
    exact ⟨items, by rw [frame, if_pos hlength], happend⟩
  | counted =>
    cases suffix with
    | nil => cases hunframe
    | cons count numbers =>
      obtain ⟨hlength, happend⟩ := hsplit count numbers hunframe
      have hcount : items.length < Text.bound32 := hlength ▸ hbound count List.mem_cons_self
      refine ⟨items.length :: items, by rw [frame, if_pos hcount], ?_⟩
      rw [hlength, List.cons_append, happend]
  | toEnd =>
    obtain ⟨rfl, rfl⟩ := Prod.mk.inj (Option.some.inj hunframe)
    exact ⟨suffix, rfl, List.append_nil _⟩

/-- No number is lost when numbers are framed. -/
theorem Framing.subset_of_frame {framing : Framing} (hframe : framing.frame items = .ok written) :
    items ⊆ written := by
  cases framing with
  | fixed length =>
    by_cases hlength : items.length = length
    · rw [frame, if_pos hlength] at hframe
      exact Except.ok.inj hframe ▸ List.Subset.refl _
    · rw [frame, if_neg hlength] at hframe
      cases hframe
  | counted =>
    by_cases hcount : items.length < Text.bound32
    · rw [frame, if_pos hcount] at hframe
      exact Except.ok.inj hframe ▸ List.subset_cons_self _ _
    · rw [frame, if_neg hcount] at hframe
      cases hframe
  | toEnd => exact Except.ok.inj hframe ▸ List.Subset.refl _

namespace IndexEntry

variable {entry : IndexEntry}

/-- A value is read from numbers at the front of a suffix, which are framed as they stood there. -/
theorem exists_items_of_read? (hread : entry.read? suffix = some (value, rest))
    (hbound : ∀ n ∈ suffix, n < Text.bound32) :
    ∃ items written, entry.form.value? items = some value ∧
      entry.framing.frame items = .ok written ∧ items ⊆ written ∧ written ++ rest = suffix := by
  rw [read?_eq, Layout.read?] at hread
  obtain ⟨⟨items, left⟩, hunframe, hvalue⟩ := Option.bind_eq_some_iff.mp hread
  obtain ⟨found, hfound, hpair⟩ := Option.map_eq_some_iff.mp hvalue
  obtain ⟨rfl, rfl⟩ := Prod.mk.inj hpair
  obtain ⟨written, hframe, happend⟩ := Framing.frame_of_unframe hunframe hbound
  exact ⟨items, written, hfound, hframe, Framing.subset_of_frame hframe, happend⟩

/-- A value that was read from the front of a suffix is written as it stood there, unless it is a
number that cannot be an arc. -/
theorem write_of_read? (hread : entry.read? suffix = some (value, rest))
    (hbound : ∀ n ∈ suffix, n < Text.bound32) (hfits : value.FitsArc) :
    ∃ written, entry.write value = .ok written ∧ written ++ rest = suffix := by
  obtain ⟨items, written, hvalue, hframe, hsubset, rfl⟩ := exists_items_of_read? hread hbound
  have hitems : ∀ n ∈ items, n < Text.bound32 := fun n hn =>
    hbound n (List.mem_append_left rest (hsubset hn))
  refine ⟨written, ?_, rfl⟩
  rw [write_eq]
  exact bind_eq_ok_iff.mpr ⟨items, KeyForm.items_of_value? hvalue hitems hfits, hframe⟩

/-- A value that was read from arcs is no number above them. -/
theorem fitsArc_of_read? (hread : entry.read? suffix = some (value, rest))
    (hsmall : ∀ n ∈ suffix, n ≤ Oid.maxArc) : value.FitsArc := by
  obtain ⟨items, written, hvalue, _, hsubset, rfl⟩ := exists_items_of_read? hread fun n hn =>
    Nat.lt_of_le_of_lt (hsmall n hn) (by decide)
  exact KeyForm.fitsArc_of_value? hvalue fun n hn =>
    hsmall n (List.mem_append_left rest (hsubset hn))

/-- A value that is written is no number above the largest arc. -/
theorem fitsArc_of_write (hwrite : entry.write value = .ok written) : value.FitsArc := by
  rw [write_eq] at hwrite
  obtain ⟨items, hitems, _⟩ := bind_eq_ok_iff.mp hwrite
  exact KeyForm.fitsArc_of_items hitems

/-- A value and its canonical form are written alike. -/
theorem write_canonical (hwrite : entry.write value = .ok written) :
    entry.write (entry.canonical value) = .ok written := by
  rw [write_eq] at hwrite ⊢
  obtain ⟨items, hitems, hframe⟩ := bind_eq_ok_iff.mp hwrite
  exact bind_eq_ok_iff.mpr ⟨items, KeyForm.items_canonical hitems, hframe⟩

end IndexEntry

namespace RowKey

variable {entries : List IndexEntry} {key : RowKey}

/-- For an empty list of entries only the empty key is read, from nothing. -/
theorem readValues?_nil_eq_some_iff :
    readValues? [] suffix = some key ↔ suffix = [] ∧ key = [] := by
  cases suffix <;> simp [readValues?, eq_comm]

/-- The first value of a key is read before the others. -/
theorem readValues?_cons_eq_some_iff {entry : IndexEntry} :
    readValues? (entry :: entries) suffix = some key ↔
      ∃ value rest values, entry.read? suffix = some (value, rest) ∧
        readValues? entries rest = some values ∧ key = value :: values := by
  rw [readValues?, Option.bind_eq_some_iff]
  constructor
  · rintro ⟨⟨value, rest⟩, hfirst, hread⟩
    obtain ⟨values, hvalues, rfl⟩ := Option.map_eq_some_iff.mp hread
    exact ⟨value, rest, values, hfirst, hvalues, rfl⟩
  · rintro ⟨value, rest, values, hfirst, hvalues, rfl⟩
    exact ⟨(value, rest), hfirst, Option.map_eq_some_iff.mpr ⟨values, hvalues, rfl⟩⟩

/-- A key that was read has one value for each entry. -/
theorem length_of_readValues? (hread : readValues? entries suffix = some key) :
    key.length = entries.length := by
  induction entries generalizing suffix key with
  | nil =>
    obtain ⟨_, rfl⟩ := readValues?_nil_eq_some_iff.mp hread
    rfl
  | cons entry others ih =>
    obtain ⟨value, rest, values, _, hvalues, rfl⟩ := readValues?_cons_eq_some_iff.mp hread
    exact congrArg (· + 1) (ih hvalues)

/-- A key that was read from a suffix is written in this suffix, unless one of its values is a
number that cannot be an arc. -/
theorem writeValues_of_readValues? (hread : readValues? entries suffix = some key)
    (hbound : ∀ n ∈ suffix, n < Text.bound32) (hfits : ∀ value ∈ key, value.FitsArc) :
    writeValues entries key = .ok suffix := by
  induction entries generalizing suffix key with
  | nil =>
    obtain ⟨rfl, rfl⟩ := readValues?_nil_eq_some_iff.mp hread
    rfl
  | cons entry others ih =>
    obtain ⟨value, rest, values, hfirst, hvalues, rfl⟩ := readValues?_cons_eq_some_iff.mp hread
    obtain ⟨hvalue, hvaluesFit⟩ := List.forall_mem_cons.mp hfits
    obtain ⟨written, hwrite, rfl⟩ := IndexEntry.write_of_read? hfirst hbound hvalue
    have hrest := ih hvalues (fun n hn => hbound n (List.mem_append_right _ hn)) hvaluesFit
    exact writeValues_cons_eq_ok_iff.mpr ⟨written, hwrite, rest, hrest, rfl⟩

/-- In a suffix of arcs no number above them is read. -/
theorem fitsArc_of_readValues? (hread : readValues? entries suffix = some key)
    (hsmall : ∀ n ∈ suffix, n ≤ Oid.maxArc) : ∀ value ∈ key, value.FitsArc := by
  induction entries generalizing suffix key with
  | nil =>
    obtain ⟨_, rfl⟩ := readValues?_nil_eq_some_iff.mp hread
    exact fun _ hmem => absurd hmem List.not_mem_nil
  | cons entry others ih =>
    obtain ⟨value, rest, values, hfirst, hvalues, rfl⟩ := readValues?_cons_eq_some_iff.mp hread
    have hvalue := IndexEntry.fitsArc_of_read? hfirst hsmall
    obtain ⟨written, _, rfl⟩ := IndexEntry.write_of_read? hfirst
      (fun n hn => Nat.lt_of_le_of_lt (hsmall n hn) (by decide)) hvalue
    exact List.forall_mem_cons.mpr
      ⟨hvalue, ih hvalues fun n hn => hsmall n (List.mem_append_right _ hn)⟩

/-- A key and its canonical form are written alike. -/
theorem writeValues_canonical (hwrite : writeValues entries key = .ok suffix) :
    writeValues entries (canonical entries key) = .ok suffix := by
  induction entries generalizing key suffix with
  | nil => exact hwrite
  | cons entry others ih =>
    cases key with
    | nil => exact hwrite
    | cons value values =>
      obtain ⟨first, hfirst, tail, htail, rfl⟩ := writeValues_cons_eq_ok_iff.mp hwrite
      exact writeValues_cons_eq_ok_iff.mpr
        ⟨first, IndexEntry.write_canonical hfirst, tail, ih htail, rfl⟩

end RowKey

end Smi
