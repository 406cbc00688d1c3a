import Smi.Proofs.Outcome
import Smi.Proofs.RowKey.Form

/-!
# The layout of index values

What a value becomes in a suffix depends on its index entry only through the form of its numbers and
the way in which their end is seen: there may always be as many of them, their count may stand
before them, or they may go on to the end of the suffix.
-/

namespace Smi

variable {items written suffix rest : List Nat} {value : Value}

/-- How the end of the numbers of a value is seen. -/
inductive Framing where
  /-- There are always as many of them. -/
  | fixed (length : Nat)
  /-- Their count stands before them. -/
  | counted
  /-- They go on to the end of the suffix. -/
  | toEnd
  deriving DecidableEq

namespace Framing

/-- Put the count of numbers before them where it is needed. -/
def frame : Framing → List Nat → Except IndexFault (List Nat)
  | fixed length, items =>
    if items.length = length then .ok items else .error (.wrongLength length items.length)
  | counted, items =>
    if items.length < Text.bound32 then .ok (items.length :: items) else .error .tooLong
  | toEnd, items => .ok items

/-- Take the numbers of one value from the front of a suffix. -/
def unframe : Framing → List Nat → Option (List Nat × List Nat)
  | fixed length, suffix => IndexEntry.splitItems length suffix
  | counted, count :: rest => IndexEntry.splitItems count rest
  | counted, [] => none
  | toEnd, suffix => some (suffix, [])

variable {framing : Framing}

/-- As many numbers as are asked for are taken from the front. -/
theorem splitItems_append (items rest : List Nat) :
    IndexEntry.splitItems items.length (items ++ rest) = some (items, rest) := by
  simp [IndexEntry.splitItems]

/-- Framed numbers are taken back with the rest behind them, unless nothing shows their end. -/
theorem unframe_append (hframe : framing.frame items = .ok written)
    (hend : framing = .toEnd → rest = []) :
    framing.unframe (written ++ rest) = some (items, rest) := by
  cases framing with
  | fixed length =>
    by_cases hitems : items.length = length
    · rw [frame, if_pos hitems] at hframe
      obtain rfl := Except.ok.inj hframe
      rw [← hitems]
      exact splitItems_append items rest
    · rw [frame, if_neg hitems] at hframe
      cases hframe
  | counted =>
    by_cases hcount : items.length < Text.bound32
    · rw [frame, if_pos hcount] at hframe
      obtain rfl := Except.ok.inj hframe
      exact splitItems_append items rest
    · rw [frame, if_neg hcount] at hframe
      cases hframe
  | toEnd =>
    obtain rfl := Except.ok.inj hframe
    rw [hend rfl, List.append_nil]
    rfl

end Framing

/-- The form of the numbers of a value and how their end is seen. -/
structure Layout where
  form : KeyForm
  framing : Framing
  deriving DecidableEq

namespace Layout

/-- Write a value. -/
def write (layout : Layout) (value : Value) : Except IndexFault (List Nat) :=
  layout.form.items value >>= layout.framing.frame

/-- Read a value from the front of a suffix, and answer the rest of the suffix. -/
def read? (layout : Layout) (suffix : List Nat) : Option (Value × List Nat) :=
  (layout.framing.unframe suffix).bind fun found =>
    (layout.form.value? found.1).map (·, found.2)

variable {layout : Layout}

/-- A written value is read back in its canonical form with the rest behind it, unless nothing shows
its end. -/
theorem read?_append (hwrite : layout.write value = .ok written)
    (hend : layout.framing = .toEnd → rest = []) :
    layout.read? (written ++ rest) = some (layout.form.canonical value, rest) := by
  obtain ⟨items, hitems, hframe⟩ := bind_eq_ok_iff.mp hwrite
  rw [read?, Framing.unframe_append hframe hend, Option.bind_some, KeyForm.value?_of_items hitems]
  rfl

end Layout

namespace IndexEntry

/-- The form in which the values of an entry are written. -/
def form (entry : IndexEntry) : KeyForm :=
  entry.keyType.keyForm

/-- How the end of a value of an entry is seen. -/
def framing (entry : IndexEntry) : Framing :=
  match entry.form.width? <|> entry.length with
  | some length => .fixed length
  | none => if entry.implied then .toEnd else .counted

/-- The layout of the values of an entry. -/
def layout (entry : IndexEntry) : Layout :=
  ⟨entry.form, entry.framing⟩

/-- A sequence is framed as its entry says. -/
theorem writeItems_eq (entry : IndexEntry) (hwidth : entry.form.width? = none) (items : List Nat) :
    entry.writeItems items = entry.framing.frame items := by
  unfold writeItems framing
  rw [hwidth]
  cases entry.length with
  | some length => rfl
  | none => cases entry.implied <;> rfl

/-- A sequence is taken from a suffix as its entry says. -/
theorem takeItems_eq (entry : IndexEntry) (hwidth : entry.form.width? = none) (suffix : List Nat) :
    entry.takeItems suffix = entry.framing.unframe suffix := by
  unfold takeItems framing
  rw [hwidth]
  cases entry.length with
  | some length => rfl
  | none => cases entry.implied <;> cases suffix <;> rfl

/-- What an entry writes for a value is decided by its layout. -/
theorem write_eq (entry : IndexEntry) (value : Value) :
    entry.write value = entry.layout.write value := by
  have hform : entry.form = entry.keyType.keyForm := rfl
  rw [Layout.write, layout, write]
  cases htype : entry.keyType <;> rw [htype] at hform <;>
    simp only [hform, ValueType.keyForm, KeyForm.items]
  case objectIdentifier =>
    cases value.oid? with
    | none => rfl
    | some oid => exact entry.writeItems_eq (by rw [hform]; rfl) oid.arcs
  case octetString | opaqueOctets =>
    cases value.string? with
    | none => rfl
    | some text => exact entry.writeItems_eq (by rw [hform]; rfl) (text.toList.map Char.toNat)
  case ipAddress =>
    have hframing : entry.framing = .fixed 4 := by rw [framing, hform]; rfl
    cases ipv4? value with
    | none => rfl
    | some address => rw [hframing]; rfl
  all_goals
    have hframing : entry.framing = .fixed 1 := by rw [framing, hform]; rfl
    cases value.integer? with
    | none => rfl
    | some n =>
      by_cases hrange : 0 ≤ n ∧ n ≤ Oid.maxArc
      · simp only [if_pos hrange, hframing]
        rfl
      · simp only [if_neg hrange]
        rfl

/-- What an entry reads from a suffix is decided by its layout. -/
theorem read?_eq (entry : IndexEntry) (suffix : List Nat) :
    entry.read? suffix = entry.layout.read? suffix := by
  have hform : entry.form = entry.keyType.keyForm := rfl
  rw [Layout.read?, layout]
  unfold read?
  cases htype : entry.keyType <;> rw [htype] at hform <;>
    simp only [hform, ValueType.keyForm, KeyForm.value?]
  case objectIdentifier =>
    rw [entry.takeItems_eq (by rw [hform]; rfl)]
    cases entry.framing.unframe suffix with
    | none => rfl
    | some found => cases h : (Oid.ofComponents (found.1.map Int.ofNat)).toOption <;> simp [h]
  case octetString | opaqueOctets =>
    rw [entry.takeItems_eq (by rw [hform]; rfl)]
    cases entry.framing.unframe suffix with
    | none => rfl
    | some found => cases h : found.1.mapM character? <;> simp [h]
  case ipAddress =>
    have hframing : entry.framing = .fixed 4 := by rw [framing, hform]; rfl
    rw [hframing, Framing.unframe]
    cases splitItems 4 suffix with
    | none => rfl
    | some found => cases h : Ipv4.ofList? found.1 <;> simp [h]
  all_goals
    have hframing : entry.framing = .fixed 1 := by rw [framing, hform]; rfl
    rw [hframing]
    cases suffix <;> simp [Framing.unframe, splitItems]

/-- A value without a visible end is written in its numbers alone. -/
theorem write_eq_of_toEnd {entry : IndexEntry} (hframing : entry.framing = .toEnd) (value : Value) :
    entry.write value = entry.form.items value := by
  rw [write_eq, Layout.write, layout, hframing]
  cases entry.form.items value <;> rfl

/-- A value without a visible end is all that is left of a suffix. -/
theorem read?_eq_of_toEnd {entry : IndexEntry} (hframing : entry.framing = .toEnd)
    (suffix : List Nat) :
    entry.read? suffix = (entry.form.value? suffix).map (·, []) := by
  rw [read?_eq, Layout.read?, layout, hframing]
  rfl

end IndexEntry

end Smi
