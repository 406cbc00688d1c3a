import Smi.Proofs.RowKey.RoundTrip

/-!
# Comparing indices by what they write and read

Two lists of index entries write all keys alike exactly when their layouts agree one by one, apart
from the difference between integers and unsigned numbers, which only reading makes. Where layouts
differ there is a value that one entry writes and the other does not, or that both write with
different numbers at the front.
-/

namespace Smi

/-! ### Values of every form -/

/-- Zeros are admissible arcs. -/
theorem Oid.admissibleFrom_zeros (position count : Nat) :
    AdmissibleFrom position (List.replicate count 0) := by
  induction count generalizing position with
  | zero => trivial
  | succ count ih =>
    exact ⟨⟨Nat.zero_le _, fun _ => Nat.zero_le _, fun _ => Nat.zero_le _⟩, ih (position + 1)⟩

namespace KeyForm

variable {form other : KeyForm}

/-- A value that is written in zeros, `count` of them if the form has no width. -/
def zeros : KeyForm → Nat → Value
  | identifier, count =>
    .objectIdentifier ⟨List.replicate count 0, Oid.admissibleFrom_zeros 0 count⟩
  | text, count => .octetString (String.ofList (List.replicate count (Char.ofNat 0)))
  | address, _ => .ipAddress ⟨0, 0, 0, 0⟩
  | unsigned, _ | signed, _ => .integer 0

/-- A value of zeros is written in zeros. -/
theorem items_zeros (form : KeyForm) (count : Nat) :
    form.items (form.zeros count) = .ok (List.replicate (form.width?.getD count) 0) := by
  cases form with
  | identifier => rfl
  | text => simp [items, zeros, Value.string?, width?]
  | address | unsigned | signed => rfl

/-- The form as writing sees it, where integers and unsigned numbers do not differ. -/
def unsigning : KeyForm → KeyForm
  | signed => unsigned
  | form => form

/-- Integers and unsigned numbers are written alike. -/
theorem items_unsigning (form : KeyForm) (value : Value) :
    form.unsigning.items value = form.items value := by
  cases form <;> rfl

/-- Integers and unsigned numbers are written in equally many numbers. -/
theorem width?_unsigning (form : KeyForm) : form.unsigning.width? = form.width? := by
  cases form <;> rfl

/-- A form without a width is another one if both are written alike. -/
theorem eq_of_unsigning_eq (hwidth : form.width? = none)
    (hsame : form.unsigning = other.unsigning) : other = form := by
  cases form with
  | identifier | text => cases other <;> first | rfl | cases hsame
  | address | unsigned | signed => cases hwidth

/-- The values of one form are not written in another one, except for strings in which addresses are
written. -/
theorem items_zeros_of_ne (hne : form.unsigning ≠ other.unsigning)
    (haddress : ¬(form = text ∧ other = address)) (count : Nat) :
    ∃ fault, other.items (form.zeros count) = .error fault := by
  cases form <;> cases other <;>
    first
    | exact absurd rfl hne
    | exact absurd ⟨rfl, rfl⟩ haddress
    | exact ⟨_, rfl⟩

/-- Numbers stand for a value in each of two forms that writing does not tell apart, and for the
same value only if the forms are the same. -/
theorem value?_of_unsigning (hsame : form.unsigning = other.unsigning) {items : List Nat}
    {value : Value} (hvalue : form.value? items = some value) :
    ∃ found, other.value? items = some found ∧ (found = value → form = other) := by
  by_cases hform : form = other
  · rw [← hform]
    exact ⟨value, hvalue, fun _ => rfl⟩
  · cases form <;> cases other <;> first | exact absurd rfl hform | cases hsame
    all_goals
      match items, hvalue with
      | [n], hvalue =>
        refine ⟨_, rfl, fun heq => ?_⟩
        rw [← heq] at hvalue
        cases hvalue

end KeyForm

/-! ### Telling framings apart -/

/-- One of two attempts to write succeeds at least, and no suffix starts with the results of
both. -/
structure Apart (first second : Except IndexFault (List Nat)) : Prop where
  exists_ok : (∃ written, first = .ok written) ∨ ∃ written, second = .ok written
  append_ne {a b : List Nat} : first = .ok a → second = .ok b → ∀ tailA tailB,
    a ++ tailA ≠ b ++ tailB

namespace Apart

variable {first second : Except IndexFault (List Nat)} {written : List Nat} {fault : IndexFault}

/-- Two attempts to write are apart in either order. -/
theorem symm (h : Apart first second) : Apart second first :=
  ⟨h.exists_ok.symm, fun hsecond hfirst tailB tailA =>
    (h.append_ne hfirst hsecond tailA tailB).symm⟩

/-- An attempt that succeeds is apart from one that fails. -/
theorem of_error (hfirst : first = .ok written) (hsecond : second = .error fault) :
    Apart first second :=
  ⟨.inl ⟨written, hfirst⟩, fun _ h => by rw [hsecond] at h; cases h⟩

end Apart

namespace Framing

variable {framing other : Framing}

/-- A sequence of another length tells a fixed length from everything else. -/
theorem exists_apart_fixed (other : Framing) (hother : ∀ n, other ≠ .fixed n) (length : Nat) :
    ∃ count, Apart (other.frame (List.replicate count 0))
      ((fixed length).frame (List.replicate count 0)) := by
  obtain ⟨count, hcount, hsmall⟩ : ∃ count, count ≠ length ∧ count < Text.bound32 := by
    by_cases hlength : length = 0
    · exact ⟨1, by omega, by decide⟩
    · exact ⟨0, by omega, by decide⟩
  have hfault : (fixed length).frame (List.replicate count 0) =
      .error (.wrongLength length count) := by
    simp [frame, hcount]
  refine ⟨count, ?_⟩
  cases other with
  | fixed n => exact absurd rfl (hother n)
  | counted => exact .of_error (by simp [frame, hsmall]; rfl) hfault
  | toEnd => exact .of_error rfl hfault

/-- A single zero is written alone or behind a one. -/
theorem apart_counted_toEnd : Apart (counted.frame [0]) (toEnd.frame [0]) := by
  refine ⟨.inr ⟨_, rfl⟩, fun hcounted htoEnd tailA tailB => ?_⟩
  obtain rfl := Except.ok.inj hcounted
  obtain rfl := Except.ok.inj htoEnd
  simp

/-- Different framings are told apart by some count of zeros. -/
theorem exists_apart (hne : framing ≠ other) :
    ∃ count, Apart (framing.frame (List.replicate count 0))
      (other.frame (List.replicate count 0)) := by
  cases framing with
  | fixed m =>
    cases other with
    | fixed n =>
      have hmn : m ≠ n := fun h => hne (by rw [h])
      exact ⟨m, .of_error (by simp [frame]; rfl) (by simp [frame, hmn]; rfl)⟩
    | counted => exact (exists_apart_fixed counted (by simp) m).imp fun _ h => h.symm
    | toEnd => exact (exists_apart_fixed toEnd (by simp) m).imp fun _ h => h.symm
  | counted =>
    cases other with
    | fixed n => exact exists_apart_fixed _ (by simp) n
    | counted => exact absurd rfl hne
    | toEnd => exact ⟨1, apart_counted_toEnd⟩
  | toEnd =>
    cases other with
    | fixed n => exact exists_apart_fixed _ (by simp) n
    | counted => exact ⟨1, apart_counted_toEnd.symm⟩
    | toEnd => exact absurd rfl hne

end Framing

namespace Layout

/-- The layout as writing sees it, where integers and unsigned numbers do not differ. -/
def unsigning (layout : Layout) : Layout :=
  ⟨layout.form.unsigning, layout.framing⟩

/-- Layouts of integers and of unsigned numbers write alike. -/
theorem write_unsigning (layout : Layout) (value : Value) :
    layout.unsigning.write value = layout.write value := by
  rw [write, unsigning, KeyForm.items_unsigning]
  rfl

end Layout

namespace IndexEntry

variable {entry other : IndexEntry} {value : Value} {suffix rest : List Nat}

/-- Values of a form with a width are framed by it. -/
theorem framing_of_width? {width : Nat} (hwidth : entry.form.width? = some width) :
    entry.framing = .fixed width := by
  rw [framing, hwidth]
  rfl

/-- An entry writes a value of zeros in framed zeros. -/
theorem write_zeros (entry : IndexEntry) (count : Nat) :
    entry.write (entry.form.zeros count) =
      entry.framing.frame (List.replicate (entry.form.width?.getD count) 0) := by
  rw [write_eq, Layout.write]
  simp only [layout, KeyForm.items_zeros]
  rfl

/-- Every entry writes some value. -/
theorem exists_write (entry : IndexEntry) : ∃ count written,
    entry.write (entry.form.zeros count) = .ok written := by
  have hcounted : (0 : Nat) < Text.bound32 := by decide
  cases hwidth : entry.form.width? with
  | some width =>
    refine ⟨0, List.replicate width 0, ?_⟩
    rw [write_zeros, framing_of_width? hwidth, hwidth]
    simp [Framing.frame]
  | none =>
    cases hframing : entry.framing with
    | fixed length =>
      refine ⟨length, List.replicate length 0, ?_⟩
      rw [write_zeros, hframing, hwidth]
      simp [Framing.frame]
    | counted =>
      refine ⟨0, [0], ?_⟩
      rw [write_zeros, hframing, hwidth]
      simp [Framing.frame, hcounted]
    | toEnd =>
      refine ⟨0, [], ?_⟩
      rw [write_zeros, hframing, hwidth]
      rfl

/-- Entries whose layouts differ only in reading write the same. -/
theorem write_congr (hlayout : entry.layout.unsigning = other.layout.unsigning) (value : Value) :
    entry.write value = other.write value := by
  rw [write_eq, write_eq, ← Layout.write_unsigning, hlayout, Layout.write_unsigning]

/-- A fault in the numbers of a value is one of writing it. -/
theorem write_of_items_error {fault : IndexFault} (hitems : entry.form.items value = .error fault) :
    entry.write value = .error fault := by
  rw [write_eq, Layout.write]
  simp only [layout, hitems]
  rfl

/-- Entries with different layouts are told apart by some value, unless the layouts differ only in
reading. -/
theorem exists_apart (hne : entry.layout.unsigning ≠ other.layout.unsigning) :
    ∃ value, Apart (entry.write value) (other.write value) := by
  by_cases hform : entry.form.unsigning = other.form.unsigning
  · have hframing : entry.framing ≠ other.framing := fun h =>
      hne (by simp only [Layout.unsigning, layout, hform, h])
    -- Both entries are of the same sequence form, so that they can write the same zeros.
    have hwidth : entry.form.width? = none := by
      cases hwidth : entry.form.width? with
      | none => rfl
      | some width =>
        have hother : other.form.width? = some width := by
          rw [← KeyForm.width?_unsigning, ← hform, KeyForm.width?_unsigning, hwidth]
        exact absurd ((framing_of_width? hwidth).trans (framing_of_width? hother).symm) hframing
    have hsame : other.form = entry.form := KeyForm.eq_of_unsigning_eq hwidth hform
    obtain ⟨count, hcount⟩ := Framing.exists_apart hframing
    refine ⟨entry.form.zeros count, ?_⟩
    have hother := other.write_zeros count
    rw [hsame] at hother
    rw [write_zeros, hother, hwidth]
    exact hcount
  · by_cases haddress : entry.form = .text ∧ other.form = .address
    · obtain ⟨count, written, hwrite⟩ := other.exists_write
      obtain ⟨fault, hfault⟩ := KeyForm.items_zeros_of_ne (Ne.symm hform)
        (fun h => by rw [haddress.2] at h; cases h.1) count
      exact ⟨_, (Apart.of_error hwrite (write_of_items_error hfault)).symm⟩
    · obtain ⟨count, written, hwrite⟩ := entry.exists_write
      obtain ⟨fault, hfault⟩ := KeyForm.items_zeros_of_ne hform haddress count
      exact ⟨_, Apart.of_error hwrite (write_of_items_error hfault)⟩

/-- Where nothing differs but the sign of numbers, one entry reads what the other one reads, and
reads the same value only if the layouts are the same. -/
theorem read?_of_unsigning (hlayout : entry.layout.unsigning = other.layout.unsigning)
    (hread : entry.read? suffix = some (value, rest)) :
    ∃ found, other.read? suffix = some (found, rest) ∧
      (found = value → entry.layout = other.layout) := by
  obtain ⟨hform, hframing⟩ := Layout.mk.inj hlayout
  rw [read?_eq, Layout.read?, Option.bind_eq_some_iff] at hread
  obtain ⟨⟨items, left⟩, hunframe, hvalue⟩ := hread
  rw [Option.map_eq_some_iff] at hvalue
  obtain ⟨_, hvalue, hpair⟩ := hvalue
  obtain ⟨rfl, rfl⟩ := Prod.mk.inj hpair
  obtain ⟨found, hfound, hsame⟩ := KeyForm.value?_of_unsigning hform hvalue
  refine ⟨found, ?_, fun heq => ?_⟩
  · rw [read?_eq, Layout.read?, ← hframing, hunframe, Option.bind_some, hfound]
    rfl
  · have hsameForm : entry.form = other.form := hsame heq
    have hsameFraming : entry.framing = other.framing := hframing
    rw [layout, layout, hsameForm, hsameFraming]

end IndexEntry

namespace RowKey

variable {entry other : IndexEntry} {entries others : List IndexEntry} {value : Value}
  {key : RowKey} {first suffix : List Nat}

/-! ### What lists of entries write -/

/-- Every list of entries writes some key. -/
theorem exists_writeValues (entries : List IndexEntry) :
    ∃ key suffix, key.length = entries.length ∧ writeValues entries key = .ok suffix := by
  induction entries with
  | nil => exact ⟨[], [], rfl, rfl⟩
  | cons entry rest ih =>
    obtain ⟨count, first, hfirst⟩ := entry.exists_write
    obtain ⟨key, suffix, hlength, hrest⟩ := ih
    exact ⟨entry.form.zeros count :: key, first ++ suffix, by rw [List.length_cons, hlength]; rfl,
      writeValues_cons_eq_ok_iff.mpr ⟨first, hfirst, suffix, hrest, rfl⟩⟩

/-- Behind the numbers of the first value of a key come those of the others. -/
theorem writeValues_cons_append_iff (hvalue : entry.write value = .ok first) :
    writeValues (entry :: entries) (value :: key) = .ok (first ++ suffix) ↔
      writeValues entries key = .ok suffix := by
  rw [writeValues_cons_eq_ok_iff]
  constructor
  · rintro ⟨written, hwritten, tail, htail, heq⟩
    obtain rfl := Except.ok.inj (hvalue.symm.trans hwritten)
    rw [List.append_cancel_left heq] at htail
    exact htail
  · intro htail
    exact ⟨first, hvalue, suffix, htail, rfl⟩

/-- Entries with the same layouts write the same. -/
theorem writeValues_congr
    (hlayouts : entries.map (·.layout.unsigning) = others.map (·.layout.unsigning)) :
    writeValues entries key = .ok suffix ↔ writeValues others key = .ok suffix := by
  induction entries generalizing others key suffix with
  | nil =>
    obtain rfl := List.map_eq_nil_iff.mp hlayouts.symm
    rfl
  | cons entry rest ih =>
    cases others with
    | nil => cases hlayouts
    | cons other left =>
      obtain ⟨hfirst, hrest⟩ := List.cons.inj hlayouts
      cases key with
      | nil => rfl
      | cons value values =>
        simp only [writeValues_cons_eq_ok_iff, IndexEntry.write_congr hfirst, ih hrest]

/-- If one list of entries writes whatever another one does, their first entries write no value
differently. -/
theorem not_apart_of_writeValues
    (hwrite : ∀ key suffix, key.length = entries.length + 1 →
      writeValues (entry :: entries) key = .ok suffix →
      writeValues (other :: others) key = .ok suffix)
    (hvalue : entry.write value = .ok first) : ¬Apart (entry.write value) (other.write value) := by
  intro happart
  obtain ⟨key, tail, hkey, htail⟩ := exists_writeValues entries
  have hwhole := hwrite (value :: key) (first ++ tail) (by rw [List.length_cons, hkey])
    ((writeValues_cons_append_iff hvalue).mpr htail)
  obtain ⟨written, hwritten, tail', _, heq⟩ := writeValues_cons_eq_ok_iff.mp hwhole
  exact happart.append_ne hvalue hwritten tail tail' heq.symm

/-- Entries that write the same have the same layouts, as far as writing sees them. -/
theorem layouts_eq_of_writeValues (hlength : entries.length = others.length)
    (hwrite : ∀ key suffix, key.length = entries.length →
      (writeValues entries key = .ok suffix ↔ writeValues others key = .ok suffix)) :
    entries.map (·.layout.unsigning) = others.map (·.layout.unsigning) := by
  induction entries generalizing others with
  | nil =>
    obtain rfl := List.length_eq_zero_iff.mp hlength.symm
    rfl
  | cons entry rest ih =>
    cases others with
    | nil => cases hlength
    | cons other left =>
      have hlengths : rest.length = left.length := Nat.succ.inj hlength
      have hfirst : entry.layout.unsigning = other.layout.unsigning :=
        Decidable.byContradiction fun hne => by
          obtain ⟨value, happart⟩ := IndexEntry.exists_apart hne
          rcases happart.exists_ok with ⟨written, hvalue⟩ | ⟨written, hvalue⟩
          · exact not_apart_of_writeValues (fun key suffix hkey => (hwrite key suffix hkey).mp)
              hvalue happart
          · exact not_apart_of_writeValues
              (fun key suffix hkey => (hwrite key suffix (by rw [hkey, hlength]; rfl)).mpr)
              hvalue happart.symm
      obtain ⟨count, written, hvalue⟩ := entry.exists_write
      have hother : other.write (entry.form.zeros count) = .ok written := by
        rw [← IndexEntry.write_congr hfirst, hvalue]
      have hrest := ih hlengths fun key suffix hkey =>
        have hboth := hwrite (_ :: key) (written ++ suffix) (congrArg Nat.succ hkey)
        (writeValues_cons_append_iff hvalue).symm.trans
          (hboth.trans (writeValues_cons_append_iff hother))
      exact List.cons_eq_cons.mpr ⟨hfirst, hrest⟩

/-! ### What lists of entries read -/

/-- Entries with the same layouts read the same values. -/
theorem readValues?_congr (hlayouts : entries.map IndexEntry.layout = others.map IndexEntry.layout)
    (suffix : List Nat) : readValues? entries suffix = readValues? others suffix := by
  induction entries generalizing others suffix with
  | nil =>
    obtain rfl := List.map_eq_nil_iff.mp hlayouts.symm
    rfl
  | cons entry rest ih =>
    cases others with
    | nil => cases hlayouts
    | cons other left =>
      obtain ⟨hfirst, hrest⟩ := List.cons.inj hlayouts
      simp only [readValues?, IndexEntry.read?_eq, hfirst, ih hrest]

/-- Where nothing differs but the sign of numbers, one list of entries reads what the other one
reads, and reads the same key only if all layouts are the same. -/
theorem readValues?_of_unsigning
    (hlayouts : entries.map (·.layout.unsigning) = others.map (·.layout.unsigning))
    (hread : readValues? entries suffix = some key) :
    ∃ found, readValues? others suffix = some found ∧
      (found = key → entries.map IndexEntry.layout = others.map IndexEntry.layout) := by
  induction entries generalizing others key suffix with
  | nil =>
    obtain rfl := List.map_eq_nil_iff.mp hlayouts.symm
    exact ⟨key, hread, fun _ => rfl⟩
  | cons entry rest ih =>
    cases others with
    | nil => cases hlayouts
    | cons other left =>
      obtain ⟨hfirst, hrest⟩ := List.cons.inj hlayouts
      rw [readValues?, Option.bind_eq_some_iff] at hread
      obtain ⟨⟨value, tail⟩, hvalue, htail⟩ := hread
      obtain ⟨values, hvalues, rfl⟩ := Option.map_eq_some_iff.mp htail
      obtain ⟨found, hfound, hsame⟩ := IndexEntry.read?_of_unsigning hfirst hvalue
      obtain ⟨founds, hfounds, hsames⟩ := ih hrest hvalues
      refine ⟨found :: founds, ?_, fun heq => ?_⟩
      · simp only [readValues?, hfound, Option.bind_some, hfounds, Option.map_some]
      · obtain ⟨heqFirst, heqRest⟩ := List.cons.inj heq
        rw [List.map_cons, List.map_cons, hsame heqFirst, hsames heqRest]

end RowKey

end Smi
