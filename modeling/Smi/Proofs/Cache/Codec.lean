import Mathlib.Algebra.Group.Int.Defs
import Mathlib.Algebra.Group.Nat.Defs
import Smi.Cache.Codec
import Smi.Proofs.OrderedMap

/-!
# Reading back what a codec wrote

A codec reads a value back if what it wrote is read as this value from the front of any octets, and
nothing behind it is touched. Then values can be written one behind another, and a codec made of
others reads back what they read back.
-/

namespace Smi.Codec

variable {α β : Type} {c : Codec α} {d : Codec β} {n : Nat} {rest : List UInt8}

/-- Whether a value is read back from the front of any octets. -/
def ReadsBack (c : Codec α) (value : α) : Prop :=
  ∀ rest, c.read (c.write value ++ rest) = .ok (value, rest)

/-! ### Numbers -/

/-- A number is read back within a limit of octets if it has no more digits to the base 128 and the
last possible one is not too large. -/
theorem readNumber_writeNumber {lastMax limit : Nat} (hlast : lastMax < 128)
    (hn : n < 128 ^ limit * (lastMax + 1)) :
    readNumber lastMax (limit + 1) (writeNumber n ++ rest) = .ok (n, rest) := by
  induction limit generalizing n with
  | zero =>
    have hsmall : n < 128 := by omega
    have hoctet : n < 256 := by omega
    rw [writeNumber, if_pos hsmall, List.singleton_append, readNumber,
      UInt8.toNat_ofNat_of_lt' hoctet, if_pos hsmall, if_neg (by omega)]
  | succ limit ih =>
    rw [writeNumber]
    by_cases hsmall : n < 128
    · have hoctet : n < 256 := by omega
      rw [if_pos hsmall, List.singleton_append, readNumber, UInt8.toNat_ofNat_of_lt' hoctet,
        if_pos hsmall, if_neg (by omega)]
    · have hhigh : n / 128 < 128 ^ limit * (lastMax + 1) := by
        rw [Nat.div_lt_iff_lt_mul (by decide)]
        rw [Nat.pow_succ] at hn
        rwa [Nat.mul_right_comm]
      have hoctet : n % 128 + 128 < 256 := by omega
      have hdigits : n % 128 + 128 - 128 + 128 * (n / 128) = n := by omega
      rw [if_neg hsmall, List.cons_append, readNumber, UInt8.toNat_ofNat_of_lt' hoctet,
        if_neg (by omega), ih hhigh]
      simp only [hdigits]

/-- Numbers of 64 bits are read back. -/
theorem readsBack_number64 (hn : n < 2 ^ 64) : number64.ReadsBack n :=
  fun _ => readNumber_writeNumber (by decide) hn

/-- Numbers of 32 bits are read back. -/
theorem readsBack_number32 (hn : n < 2 ^ 32) : number32.ReadsBack n :=
  fun _ => readNumber_writeNumber (by decide) hn

/-- Values that are converted there and back are read back. -/
theorem ReadsBack.convert {forth : α → β} {back : β → α} {value : β}
    (h : c.ReadsBack (back value)) (hinverse : forth (back value) = value) :
    (c.convert forth back).ReadsBack value := by
  intro rest
  have hread : Reading.as forth (c.read (c.write (back value) ++ rest)) =
      .ok (forth (back value), rest) := by
    rw [h rest]
    rfl
  rw [hinverse] at hread
  exact hread

/-- A whole number is found again in its zigzag form. -/
theorem unzigzag_zigzag (n : Int) : unzigzag (zigzag n) = n := by
  unfold zigzag unzigzag
  split <;> split <;> omega

/-- The zigzag form of a signed number of 64 bits has 64 bits. -/
theorem zigzag_lt {n : Int} (hlow : -2 ^ 63 ≤ n) (hhigh : n < 2 ^ 63) : zigzag n < 2 ^ 64 := by
  unfold zigzag
  split <;> omega

/-- Signed numbers of 64 bits are read back. -/
theorem readsBack_int64 (n : Int64) : int64.ReadsBack n := by
  refine ReadsBack.convert (readsBack_number64 (zigzag_lt n.le_toInt n.toInt_lt)) ?_
  rw [unzigzag_zigzag, Int64.ofInt_toInt]

/-! ### Octets and texts -/

/-- Octets behind their number are read back. -/
theorem readsBack_block {bytes : List UInt8} (hlength : bytes.length < 2 ^ 64) :
    block.ReadsBack bytes := by
  intro rest
  have hread := readsBack_number64 hlength (bytes ++ rest)
  simp only [block, List.append_assoc, hread]
  rw [if_pos (by rw [List.length_append]; omega), List.splitAt_eq, List.take_left, List.drop_left]

/-- Texts are read back. -/
theorem readsBack_text {s : String} (hlength : (Text.octets s).length < 2 ^ 64) :
    text.ReadsBack s := by
  intro rest
  simp only [text, readsBack_block hlength rest, Text.ofOctets?_octets]

/-! ### Compound values -/

/-- Two values one behind the other are read back if each of them is. -/
theorem ReadsBack.pair {p : α × β} (hfirst : c.ReadsBack p.1) (hsecond : d.ReadsBack p.2) :
    (pair c d).ReadsBack p := by
  intro rest
  simp only [Codec.pair, List.append_assoc, hfirst (d.write p.2 ++ rest), hsecond rest]

/-- As many values as were written one behind the other are read back. -/
theorem readMany_flatMap {values : List α} (hvalues : ∀ value ∈ values, c.ReadsBack value) :
    c.readMany values.length (values.flatMap c.write ++ rest) = .ok (values, rest) := by
  induction values with
  | nil => rfl
  | cons first others ih =>
    obtain ⟨hfirst, hothers⟩ := List.forall_mem_cons.mp hvalues
    rw [List.flatMap_cons, List.append_assoc, List.length_cons, readMany, hfirst]
    simp only [ih hothers]

/-- A list behind its length is read back if its items are. -/
theorem readsBack_list {values : List α} (hlength : values.length < 2 ^ 64)
    (hvalues : ∀ value ∈ values, c.ReadsBack value) : (list c).ReadsBack values := by
  intro rest
  have hread := readsBack_number64 hlength (values.flatMap c.write ++ rest)
  simp only [list, List.append_assoc, hread, readMany_flatMap hvalues]

/-- A value that may be missing is read back, present or not. -/
theorem readsBack_optional {value : Option α} (h : ∀ content ∈ value, c.ReadsBack content) :
    (optional c).ReadsBack value := by
  intro rest
  cases value with
  | none => rfl
  | some content =>
    have hread := h content rfl rest
    simp [optional, hread]

/-- An ordered map is read back if its keys and values are. -/
theorem readsBack_orderedMap [LT α] [DecidableLT α] [KeyOrder α] {m : OrderedMap α β}
    (hlength : m.entries.length < 2 ^ 64)
    (hentries : ∀ entry ∈ m.entries, c.ReadsBack entry.1 ∧ d.ReadsBack entry.2) :
    (orderedMap c d).ReadsBack m :=
  (readsBack_list hlength fun entry hentry =>
    (hentries entry hentry).1.pair (hentries entry hentry).2).convert m.ofList_entries

end Smi.Codec
