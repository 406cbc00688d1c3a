import Smi.ObjectTree.RowKey
import Smi.Proofs.Oid.Admissible

/-!
# The forms of index values

The eleven types of an index column are written and read back in five forms. A form turns a value
into numbers and finds the value that numbers stand for, which is the written one in its canonical
form.
-/

namespace Smi

/-- The ways in which index values are written as numbers and read back. -/
inductive KeyForm where
  /-- The arcs of an identifier. -/
  | identifier
  /-- The code points of a string. -/
  | text
  /-- The four octets of an address. -/
  | address
  /-- A single number that is read back as an unsigned one. -/
  | unsigned
  /-- A single number that is read back as an integer. -/
  | signed
  deriving DecidableEq

/-- The form in which values of a type are written. -/
def ValueType.keyForm : ValueType → KeyForm
  | objectIdentifier => .identifier
  | octetString | opaqueOctets => .text
  | ipAddress => .address
  | counter | gauge | timeTicks | counter64 => .unsigned
  | boolean | integer | null => .signed

namespace KeyForm

/-- How many numbers a value is written in, if all values of the form have as many. -/
def width? : KeyForm → Option Nat
  | identifier | text => none
  | address => some 4
  | unsigned | signed => some 1

/-- The numbers in which a value is written. -/
def items (form : KeyForm) (value : Value) : Except IndexFault (List Nat) :=
  match form with
  | identifier =>
    match value.oid? with
    | some oid => .ok oid.arcs
    | none => .error .notAnOid
  | text =>
    match value.string? with
    | some string => .ok (string.toList.map Char.toNat)
    | none => .error .notAString
  | address =>
    match IndexEntry.ipv4? value with
    | some ip => .ok ip.toList
    | none => .error .notAnIpAddress
  | unsigned | signed =>
    match value.integer? with
    | some n => if 0 ≤ n ∧ n ≤ Oid.maxArc then .ok [n.toNat] else .error .integerOutOfRange
    | none => .error .notAnInteger

/-- The value that is written in numbers. -/
def value? : KeyForm → List Nat → Option Value
  | identifier, items =>
    (Oid.ofComponents (items.map Int.ofNat)).toOption.map .objectIdentifier
  | text, items =>
    (items.mapM IndexEntry.character?).map fun cs => .octetString (String.ofList cs)
  | address, items => (Ipv4.ofList? items).map .ipAddress
  | unsigned, [n] => some (.unsigned (UInt64.ofNat n))
  | signed, [n] => some (.integer (Int64.ofNat n))
  | _, _ => none

/-- The value that is read back for a written one: numbers get the form of their column, and an
address written as a string becomes an address. -/
def canonical (form : KeyForm) (value : Value) : Value :=
  match form with
  | identifier | text => value
  | address => ((IndexEntry.ipv4? value).map .ipAddress).getD value
  | unsigned => (value.integer?.map fun n => .unsigned (UInt64.ofNat n.toNat)).getD value
  | signed => (value.integer?.map fun n => .integer (Int64.ofInt n)).getD value

variable {form : KeyForm} {value : Value} {written : List Nat}

/-- Characters are given back by their code points. -/
theorem mapM_character?_toNat (cs : List Char) :
    (cs.map Char.toNat).mapM IndexEntry.character? = some cs := by
  have hone : ∀ c : Char, IndexEntry.character? c.toNat = some c := fun c => by
    have hvalid : c.toNat.isValidChar := c.valid
    rw [IndexEntry.character?, if_pos hvalid, Char.ofNat_toNat]
  induction cs with
  | nil => rfl
  | cons c rest ih =>
    rw [List.map_cons, List.mapM_cons, hone, ih]
    rfl

/-- An address is found again in its octets. -/
theorem ofList?_toList (address : Ipv4) : Ipv4.ofList? address.toList = some address := by
  simp [Ipv4.ofList?, Ipv4.toList, UInt8.toNat_lt_size]

/-- What is written as an address is the octets of one. -/
theorem items_address (hitems : address.items value = .ok written) :
    ∃ ip, IndexEntry.ipv4? value = some ip ∧ written = ip.toList := by
  cases hip : IndexEntry.ipv4? value with
  | none => simp [items, hip] at hitems
  | some ip =>
    simp only [items, hip, Except.ok.injEq] at hitems
    exact ⟨ip, rfl, hitems.symm⟩

/-- What is written as a single number is a natural number in the range of arcs. -/
theorem items_number (hwidth : form.width? = some 1) (hitems : form.items value = .ok written) :
    ∃ n, value.integer? = some n ∧ 0 ≤ n ∧ n ≤ Oid.maxArc ∧ written = [n.toNat] := by
  have hform : form.items value = unsigned.items value := by
    cases form <;> first | rfl | simp [width?] at hwidth
  rw [hform] at hitems
  cases hinteger : value.integer? with
  | none => simp [items, hinteger] at hitems
  | some n =>
    simp only [items, hinteger] at hitems
    by_cases hrange : 0 ≤ n ∧ n ≤ Oid.maxArc
    · rw [if_pos hrange] at hitems
      exact ⟨n, rfl, hrange.1, hrange.2, (Except.ok.inj hitems).symm⟩
    · rw [if_neg hrange] at hitems
      cases hitems

/-- The numbers of a value stand for its canonical form. -/
theorem value?_of_items (hitems : form.items value = .ok written) :
    form.value? written = some (form.canonical value) := by
  cases form with
  | identifier =>
    cases value <;> simp only [items, Value.oid?, reduceCtorEq, Except.ok.injEq] at hitems
    subst hitems
    simp [value?, Oid.ofComponents_arcs, Except.toOption, canonical]
  | text =>
    cases value <;> simp only [items, Value.string?, reduceCtorEq, Except.ok.injEq] at hitems
    subst hitems
    rw [value?, mapM_character?_toNat, Option.map_some, String.ofList_toList]
    rfl
  | address =>
    obtain ⟨ip, hip, rfl⟩ := items_address hitems
    simp [value?, ofList?_toList, canonical, hip]
  | unsigned =>
    obtain ⟨n, hn, _, _, rfl⟩ := items_number rfl hitems
    simp [value?, canonical, hn]
  | signed =>
    obtain ⟨n, hn, hnonneg, _, rfl⟩ := items_number rfl hitems
    have hcast : Int64.ofNat n.toNat = Int64.ofInt n := by
      rw [← Int64.ofInt_eq_ofNat, Int.toNat_of_nonneg hnonneg]
    simp [value?, canonical, hn, hcast]

end KeyForm

end Smi
