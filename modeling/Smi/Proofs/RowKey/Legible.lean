import Smi.Proofs.RowKey.Comparison
import Smi.Proofs.RowKey.Rewriting

/-!
# Index entries whose suffixes can always be read

A value without a visible end takes all of the suffix when it is read. So behind the first such
value nothing may be written that it cannot hold itself, and every entry behind it has to find its
value in nothing. This is so exactly if each of them has the same layout or writes no numbers at
all. If not, some key is written in a suffix that cannot be read.
-/

namespace Smi

variable {items written suffix rest : List Nat} {value : Value}

/-- Arcs can stand further behind. -/
theorem Oid.admissibleFrom_of_le {position later : Nat} {arcs : List Nat}
    (h : AdmissibleFrom position arcs) (hle : position ≤ later) : AdmissibleFrom later arcs := by
  induction arcs generalizing position later with
  | nil => trivial
  | cons arc rest ih =>
    obtain ⟨⟨hmax, hfirst, hsecond⟩, hrest⟩ := h
    exact ⟨⟨hmax, by omega, by omega⟩, ih hrest (Nat.succ_le_succ hle)⟩

namespace KeyForm

variable {form other : KeyForm}

/-- Numbers are read as an identifier if they are admissible arcs. -/
theorem isSome_value?_identifier_iff :
    (identifier.value? items).isSome ↔ Oid.AdmissibleFrom 0 items := by
  constructor
  · intro hvalue
    obtain ⟨_, hvalue⟩ := Option.isSome_iff_exists.mp hvalue
    obtain ⟨oid, hoid, _⟩ := Option.map_eq_some_iff.mp hvalue
    cases hcomponents : Oid.ofComponents (items.map Int.ofNat) with
    | error e =>
      rw [hcomponents] at hoid
      cases hoid
    | ok found => exact Oid.arcs_of_ofComponents hcomponents ▸ found.admissible
  · intro hadmissible
    simp [value?, Oid.ofComponents_arcs ⟨items, hadmissible⟩, Except.toOption]

/-- Numbers are read as a string if they are code points. -/
theorem isSome_value?_text_iff :
    (text.value? items).isSome ↔ ∀ n ∈ items, n.isValidChar := by
  rw [value?, Option.isSome_map]
  induction items with
  | nil => simp
  | cons n others ih =>
    rw [List.mapM_cons, List.forall_mem_cons, ← ih, IndexEntry.character?]
    by_cases hn : n.isValidChar
    · cases others.mapM IndexEntry.character? <;> simp [hn]
    · simp [hn]

/-- No numbers are those of a value in a form of no fixed width. -/
theorem isSome_value?_nil (hwidth : form.width? = none) : (form.value? []).isSome := by
  cases form with
  | identifier | text => rfl
  | address | unsigned | signed => cases hwidth

/-- What holds the numbers of two values in a form of no fixed width holds both, one behind the
other. -/
theorem isSome_value?_append (hwidth : form.width? = none) (hitems : (form.value? items).isSome)
    (hrest : (form.value? rest).isSome) : (form.value? (items ++ rest)).isSome := by
  cases form with
  | identifier =>
    rw [isSome_value?_identifier_iff] at hitems hrest ⊢
    exact Oid.admissibleFrom_append.mpr
      ⟨hitems, Oid.admissibleFrom_of_le hrest (Nat.zero_le _)⟩
  | text =>
    rw [isSome_value?_text_iff] at hitems hrest ⊢
    exact List.forall_mem_append.mpr ⟨hitems, hrest⟩
  | address | unsigned | signed => cases hwidth

/-- Of two different forms of no fixed width, each writes some value in numbers that the other one
cannot hold. -/
theorem exists_items_value?_eq_none (hwidth : form.width? = none) (hother : other.width? = none)
    (hne : other ≠ form) :
    ∃ value items, other.items value = .ok items ∧ form.value? items = none := by
  cases form <;> cases other <;> first | contradiction | skip
  case identifier.text => exact ⟨.octetString "\x03", [3], rfl, rfl⟩
  -- No character has the code point 55296.
  case text.identifier =>
    exact ⟨.objectIdentifier ⟨[0, 0, 55296], by decide⟩, [0, 0, 55296], rfl, rfl⟩

end KeyForm

namespace IndexEntry

variable {entry later : IndexEntry}

/-- Whether a value of an entry can be found where nothing is left of a suffix: it has no visible
end or it never has any numbers. -/
def Vanishes (entry : IndexEntry) : Prop :=
  entry.framing = .toEnd ∨ entry.framing = .fixed 0

instance (entry : IndexEntry) : Decidable entry.Vanishes :=
  inferInstanceAs (Decidable (_ ∨ _))

/-- No form has the fixed width 0. -/
theorem Vanishes.width?_eq_none (h : entry.Vanishes) : entry.form.width? = none := by
  cases hwidth : entry.form.width? with
  | none => rfl
  | some width =>
    rw [Vanishes, framing_of_width? hwidth] at h
    rcases h with htoEnd | hfixed
    · cases htoEnd
    · obtain rfl := Framing.fixed.inj hfixed
      cases hform : entry.form <;> rw [hform] at hwidth <;> cases hwidth

/-- If values can vanish, one of them is written without numbers. -/
theorem Vanishes.exists_write_nil (h : entry.Vanishes) : ∃ value, entry.write value = .ok [] := by
  refine ⟨entry.form.zeros 0, ?_⟩
  rw [write_zeros, h.width?_eq_none]
  rcases h with htoEnd | hfixed
  · rw [htoEnd]
    rfl
  · rw [hfixed]
    rfl

/-- In nothing a value is found if values can vanish. -/
theorem Vanishes.exists_read?_nil (h : entry.Vanishes) :
    ∃ value, entry.read? [] = some (value, []) := by
  obtain ⟨value, hvalue⟩ :=
    Option.isSome_iff_exists.mp (KeyForm.isSome_value?_nil h.width?_eq_none)
  have hunframe : entry.framing.unframe [] = some ([], []) := by
    rcases h with htoEnd | hfixed
    · rw [htoEnd]
      rfl
    · rw [hfixed]
      rfl
  refine ⟨value, ?_⟩
  rw [read?_eq, Layout.read?, layout, hunframe, Option.bind_some, hvalue]
  rfl

/-- In nothing no value is found if values cannot vanish. -/
theorem read?_nil_eq_none (h : ¬entry.Vanishes) : entry.read? [] = none := by
  have hunframe : entry.framing.unframe [] = none := by
    cases hframing : entry.framing with
    | fixed length =>
      cases length with
      | zero => exact absurd (Or.inr hframing) h
      | succ length => rfl
    | counted => rfl
    | toEnd => exact absurd (Or.inl hframing) h
  rw [read?_eq, Layout.read?, layout, hunframe]
  rfl

/-- Whether values of an entry can be written behind those of another one without a visible end:
they look the same or have no numbers. -/
def Continues (later entry : IndexEntry) : Prop :=
  later.layout = entry.layout ∨ later.framing = .fixed 0

instance (later entry : IndexEntry) : Decidable (later.Continues entry) :=
  inferInstanceAs (Decidable (_ ∨ _))

/-- An entry that can continue one without a visible end vanishes. -/
theorem Continues.vanishes (h : later.Continues entry) (hframing : entry.framing = .toEnd) :
    later.Vanishes :=
  h.imp_left fun hlayout => (congrArg Layout.framing hlayout).trans hframing

/-- What is written to continue a value can be held by it. -/
theorem Continues.isSome_value? (h : later.Continues entry) (hframing : entry.framing = .toEnd)
    (hwrite : later.write value = .ok written) : (entry.form.value? written).isSome := by
  have hvanishes := h.vanishes hframing
  rcases h with hlayout | hfixed
  · have hform : later.form = entry.form := congrArg Layout.form hlayout
    have hlater : later.framing = .toEnd := (congrArg Layout.framing hlayout).trans hframing
    rw [write_eq_of_toEnd hlater, hform] at hwrite
    rw [KeyForm.value?_of_items hwrite]
    rfl
  · have hwidth : entry.form.width? = none := Vanishes.width?_eq_none (Or.inl hframing)
    rw [write_eq, Layout.write, layout, hfixed] at hwrite
    obtain ⟨items, _, hframe⟩ := bind_eq_ok_iff.mp hwrite
    by_cases hnone : items.length = 0
    · rw [Framing.frame, if_pos hnone, List.length_eq_zero_iff.mp hnone] at hframe
      obtain rfl := Except.ok.inj hframe
      exact KeyForm.isSome_value?_nil hwidth
    · rw [Framing.frame, if_neg hnone] at hframe
      cases hframe

end IndexEntry

namespace RowKey

variable {entry later : IndexEntry} {entries : List IndexEntry} {key : RowKey}

/-- Whether behind the first index entry whose values have no visible end every other one can
continue them. -/
def Legible : List IndexEntry → Prop
  | [] => True
  | entry :: rest => if entry.isOpen then ∀ later ∈ rest, later.Continues entry else Legible rest

instance decidableLegible : (entries : List IndexEntry) → Decidable (Legible entries)
  | [] => isTrue trivial
  | _ :: rest =>
    have := decidableLegible rest
    inferInstanceAs (Decidable (ite _ _ _))

/-! ### Reading -/

/-- In nothing a key is found exactly if all its values can vanish. -/
theorem isSome_readValues?_nil_iff :
    (readValues? entries []).isSome ↔ ∀ entry ∈ entries, entry.Vanishes := by
  induction entries with
  | nil => simp [readValues?]
  | cons entry rest ih =>
    rw [List.forall_mem_cons, ← ih, readValues?]
    by_cases hvanishes : entry.Vanishes
    · obtain ⟨value, hread⟩ := hvanishes.exists_read?_nil
      simp [hread, hvanishes]
    · simp [IndexEntry.read?_nil_eq_none hvanishes, hvanishes]

/-- A value without a visible end holds all of a suffix, and the others are found in nothing. -/
theorem isSome_readValues?_of_toEnd (hframing : entry.framing = .toEnd) :
    (readValues? (entry :: entries) suffix).isSome ↔
      (entry.form.value? suffix).isSome ∧ ∀ later ∈ entries, later.Vanishes := by
  rw [← isSome_readValues?_nil_iff, readValues?, IndexEntry.read?_eq_of_toEnd hframing]
  cases entry.form.value? suffix <;> simp

/-- Behind a value with a visible end the others are read as they were written. -/
theorem isSome_readValues?_append (hopen : ¬entry.isOpen)
    (hwrite : entry.write value = .ok written) :
    (readValues? (entry :: entries) (written ++ rest)).isSome ↔
      (readValues? entries rest).isSome := by
  rw [readValues?, IndexEntry.read?_append hwrite fun h => absurd h hopen]
  simp

/-- What is written to continue a value can be held by it. -/
theorem isSome_value?_of_writeValues (hframing : entry.framing = .toEnd)
    (hlater : ∀ later ∈ entries, later.Continues entry)
    (hwrite : writeValues entries key = .ok suffix) : (entry.form.value? suffix).isSome := by
  have hwidth : entry.form.width? = none :=
    IndexEntry.Vanishes.width?_eq_none (Or.inl hframing)
  induction entries generalizing key suffix with
  | nil =>
    obtain rfl := Except.ok.inj hwrite
    exact KeyForm.isSome_value?_nil hwidth
  | cons first others ih =>
    cases key with
    | nil =>
      obtain rfl := Except.ok.inj hwrite
      exact KeyForm.isSome_value?_nil hwidth
    | cons value values =>
      obtain ⟨hfirst, hothers⟩ := List.forall_mem_cons.mp hlater
      obtain ⟨written, hwritten, tail, htail, rfl⟩ := writeValues_cons_eq_ok_iff.mp hwrite
      exact KeyForm.isSome_value?_append hwidth (hfirst.isSome_value? hframing hwritten)
        (ih hothers htail)

/-! ### Writing -/

/-- If all values can vanish, some key is written without numbers. -/
theorem exists_writeValues_nil (hvanish : ∀ entry ∈ entries, entry.Vanishes) :
    ∃ key, key.length = entries.length ∧ writeValues entries key = .ok [] := by
  induction entries with
  | nil => exact ⟨[], rfl, rfl⟩
  | cons entry rest ih =>
    obtain ⟨hfirst, hrest⟩ := List.forall_mem_cons.mp hvanish
    obtain ⟨key, hlength, hwrite⟩ := ih hrest
    obtain ⟨value, hvalue⟩ := hfirst.exists_write_nil
    exact ⟨value :: key, congrArg (· + 1) hlength,
      (writeValues_cons_append_iff hvalue).mpr hwrite⟩

/-- Where all values can vanish, any one of them can be written alone. -/
theorem exists_writeValues_of_mem (hvanish : ∀ entry ∈ entries, entry.Vanishes)
    (hmem : later ∈ entries) (hwrite : later.write value = .ok written) :
    ∃ key, key.length = entries.length ∧ writeValues entries key = .ok written := by
  induction entries with
  | nil => cases hmem
  | cons entry rest ih =>
    obtain ⟨hfirst, hrest⟩ := List.forall_mem_cons.mp hvanish
    rcases List.mem_cons.mp hmem with rfl | hmem
    · obtain ⟨key, hlength, hkey⟩ := exists_writeValues_nil hrest
      exact ⟨value :: key, congrArg (· + 1) hlength,
        writeValues_cons_eq_ok_iff.mpr ⟨written, hwrite, [], hkey, List.append_nil _⟩⟩
    · obtain ⟨key, hlength, hkey⟩ := ih hrest hmem
      obtain ⟨blank, hblank⟩ := hfirst.exists_write_nil
      exact ⟨blank :: key, congrArg (· + 1) hlength,
        (writeValues_cons_append_iff hblank).mpr hkey⟩

/-! ### Exactly the legible entries -/

/-- If the suffixes of all keys can be read behind a value without a visible end, the other entries
can continue it. -/
theorem continues_of_isSome_readValues? (hframing : entry.framing = .toEnd)
    (hread : ∀ key suffix, key.length = entries.length → writeValues entries key = .ok suffix →
      (readValues? (entry :: entries) suffix).isSome) :
    ∀ later ∈ entries, later.Continues entry := by
  intro later hmem
  have hfound : ∀ key suffix, key.length = entries.length → writeValues entries key = .ok suffix →
      (entry.form.value? suffix).isSome ∧ ∀ later ∈ entries, later.Vanishes :=
    fun key suffix hlength hwrite =>
      (isSome_readValues?_of_toEnd hframing).mp (hread key suffix hlength hwrite)
  obtain ⟨key, suffix, hlength, hwrite⟩ := exists_writeValues entries
  have hvanish := (hfound key suffix hlength hwrite).2
  rcases hvanish later hmem with htoEnd | hfixed
  · by_cases hform : later.form = entry.form
    · exact Or.inl (by rw [IndexEntry.layout, IndexEntry.layout, hform, htoEnd, hframing])
    -- A value of the other form is written that the first value cannot hold.
    · obtain ⟨odd, items, hitems, hnone⟩ := KeyForm.exists_items_value?_eq_none
        (IndexEntry.Vanishes.width?_eq_none (Or.inl hframing))
        (hvanish later hmem).width?_eq_none hform
      rw [← IndexEntry.write_eq_of_toEnd htoEnd] at hitems
      obtain ⟨key, hlength, hwrite⟩ := exists_writeValues_of_mem hvanish hmem hitems
      have hsome := (hfound key items hlength hwrite).1
      rw [hnone] at hsome
      cases hsome
  · exact Or.inr hfixed

/-- The suffixes of all keys can be read exactly if the entries are legible. -/
theorem legible_iff :
    Legible entries ↔ ∀ key suffix, key.length = entries.length →
      writeValues entries key = .ok suffix → (readValues? entries suffix).isSome := by
  induction entries with
  | nil =>
    refine ⟨fun _ key suffix hlength hwrite => ?_, fun _ => trivial⟩
    obtain rfl := Except.ok.inj hwrite
    rfl
  | cons entry rest ih =>
    by_cases hopen : entry.isOpen
    · have hframing := IndexEntry.isOpen_iff.mp hopen
      rw [Legible, if_pos hopen]
      constructor
      · intro hlater key suffix hlength hwrite
        have hall : ∀ later ∈ entry :: rest, later.Continues entry :=
          List.forall_mem_cons.mpr ⟨Or.inl rfl, hlater⟩
        exact (isSome_readValues?_of_toEnd hframing).mpr
          ⟨isSome_value?_of_writeValues hframing hall hwrite,
            fun later hmem => (hlater later hmem).vanishes hframing⟩
      · intro hread
        obtain ⟨value, hvalue⟩ := IndexEntry.Vanishes.exists_write_nil (Or.inl hframing)
        exact continues_of_isSome_readValues? hframing fun key suffix hlength hwrite =>
          hread (value :: key) suffix (congrArg (· + 1) hlength)
            ((writeValues_cons_append_iff hvalue).mpr hwrite)
    · rw [Legible, if_neg hopen, ih]
      constructor
      · intro hread key suffix hlength hwrite
        cases key with
        | nil => cases hlength
        | cons first values =>
          obtain ⟨front, hfront, others, hothers, rfl⟩ := writeValues_cons_eq_ok_iff.mp hwrite
          exact (isSome_readValues?_append hopen hfront).mpr
            (hread values others (Nat.succ.inj hlength) hothers)
      · intro hread key suffix hlength hwrite
        obtain ⟨count, written, hvalue⟩ := entry.exists_write
        exact (isSome_readValues?_append hopen hvalue).mp
          (hread (_ :: key) (written ++ suffix) (congrArg (· + 1) hlength)
            ((writeValues_cons_append_iff hvalue).mpr hwrite))

/-- A label without a visible end may stand before another one, but not before a number. -/
example :
    let label : IndexEntry := ⟨some "label", some 1, some .octetString, true, none, none⟩
    let number : IndexEntry := ⟨some "number", some 1, some .integer, false, none, none⟩
    Legible [number, label, label] ∧ ¬Legible [label, number] := by
  decide

end RowKey

namespace ObjectTree

variable {tree : ObjectTree} {name : String} {table : TableProvider} {key : RowKey}

/-- A suffix can be read exactly if values are found in it for all index entries. -/
theorem exists_rowKeyOfSuffix_iff (htable : tree.table name = .ok table) (suffix : List Nat) :
    (∃ key, tree.rowKeyOfSuffix name suffix = .ok key) ↔
      (RowKey.readValues? table.keyIndex suffix).isSome := by
  rw [rowKeyOfSuffix_eq htable, RowKey.ofSuffix]
  cases RowKey.readValues? table.keyIndex suffix <;> simp

/-- The suffixes of all keys of a table can be read exactly if its index is legible. -/
theorem legible_keyIndex_iff (htable : tree.table name = .ok table) :
    RowKey.Legible table.keyIndex ↔ ∀ key suffix, tree.instanceSuffix name key = .ok suffix →
      ∃ read, tree.rowKeyOfSuffix name suffix = .ok read := by
  simp only [exists_rowKeyOfSuffix_iff htable, instanceSuffix_eq htable, RowKey.suffix_eq_ok_iff,
    and_imp, RowKey.legible_iff]

/-- A key that was read from a suffix of arcs is written in this suffix. -/
theorem instanceSuffix_of_rowKeyOfSuffix (htable : tree.table name = .ok table)
    {suffix : List Nat} (hsmall : ∀ n ∈ suffix, n ≤ Oid.maxArc)
    (hread : tree.rowKeyOfSuffix name suffix = .ok key) :
    tree.instanceSuffix name key = .ok suffix := by
  rw [rowKeyOfSuffix_eq htable, RowKey.ofSuffix_eq_ok_iff] at hread
  rw [instanceSuffix_eq htable, RowKey.suffix_eq_ok_iff]
  refine ⟨RowKey.length_of_readValues? hread, RowKey.writeValues_of_readValues? hread
    (fun n hn => Nat.lt_of_le_of_lt (hsmall n hn) (by decide))
    (RowKey.fitsArc_of_readValues? hread hsmall)⟩

end ObjectTree

end Smi
