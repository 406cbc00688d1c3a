import Mathlib.Data.List.Chain
import Smi.Text.Blank
import Smi.Text.Numeral

/-!
# Identifiers and numerals

An identifier is made of letters, digits and single hyphens. Neither an identifier nor a numeral
holds a blank, and the numeral of a number is read as that number.
-/

namespace Smi

/-- Whether no two hyphens follow each other. -/
def SingleHyphens (cs : List Char) : Prop :=
  cs.IsChain fun a b => ¬(a = '-' ∧ b = '-')

instance (cs : List Char) : Decidable (SingleHyphens cs) :=
  inferInstanceAs (Decidable (cs.IsChain _))

/-- Single hyphens stay single behind another character. -/
theorem SingleHyphens.behind {cs : List Char} {previous : Option Char} (h : SingleHyphens cs)
    (hprevious : previous ≠ some '-') : SingleHyphens (previous.toList ++ cs) := by
  cases previous with
  | none => exact h
  | some c =>
    refine List.isChain_cons.mpr ⟨fun d _ hboth => hprevious ?_, h⟩
    rw [hboth.1]

/-- No two hyphens meet where the second part does not begin with one. -/
theorem SingleHyphens.append {first rest : List Char} (hfirst : SingleHyphens first)
    (hrest : SingleHyphens rest) (hhead : rest.head? ≠ some '-') : SingleHyphens (first ++ rest) :=
  List.isChain_append.mpr ⟨hfirst, hrest, fun _ _ _ hc hboth => hhead (hboth.2 ▸ hc)⟩

/-- No two hyphens meet in the reverse order either. -/
theorem SingleHyphens.reverse {cs : List Char} (h : SingleHyphens cs) : SingleHyphens cs.reverse :=
  List.isChain_reverse.mpr (h.imp fun _ _ hnot hboth => hnot hboth.symm)

/-- No two hyphens meet where there are none. -/
theorem singleHyphens_of_forall_ne {cs : List Char} (h : ∀ c ∈ cs, c ≠ '-') : SingleHyphens cs := by
  induction cs with
  | nil => exact List.isChain_nil
  | cons c rest ih =>
    obtain ⟨hc, hrest⟩ := List.forall_mem_cons.mp h
    exact List.isChain_cons.mpr ⟨fun _ _ hboth => hc hboth.1, ih hrest⟩

/-- Whether a text is an identifier whose first character is of some kind: letters, digits and
hyphens, no two of which follow each other. -/
structure IsIdentifier (initial : Char → Bool) (text : String) : Prop where
  initial : ∃ c, text.toList.head? = some c ∧ initial c = true
  characters : ∀ c ∈ text.toList, c.isAlphanum = true ∨ c = '-'
  hyphens : SingleHyphens text.toList

/-- Whether a text is an identifier can be read off its characters. -/
theorem isIdentifier_iff {initial : Char → Bool} {text : String} :
    IsIdentifier initial text ↔ text.toList.head?.any initial = true ∧
      text.toList.all (fun c => c.isAlphanum || c == '-') = true ∧ SingleHyphens text.toList := by
  have hinitial : text.toList.head?.any initial = true ↔
      ∃ c, text.toList.head? = some c ∧ initial c = true := by
    cases text.toList.head? <;> simp
  simp only [hinitial, List.all_eq_true, Bool.or_eq_true, beq_iff_eq]
  exact ⟨fun h => ⟨h.initial, h.characters, h.hyphens⟩,
    fun ⟨hc, hcs, hhyphens⟩ => ⟨hc, hcs, hhyphens⟩⟩

instance (initial : Char → Bool) (text : String) : Decidable (IsIdentifier initial text) :=
  decidable_of_iff _ isIdentifier_iff.symm

namespace Text

variable {c : Char} {initial : Char → Bool} {text : String}

/-- Letters and digits lie between the digit zero and the small letter z. -/
theorem toNat_of_isAlphanum (h : c.isAlphanum = true) : 48 ≤ c.toNat ∧ c.toNat ≤ 122 := by
  have hkind : (c.isUpper || c.isLower || c.isDigit) = true := h
  rw [Bool.or_eq_true, Bool.or_eq_true] at hkind
  rcases hkind with (hupper | hlower) | hdigit
  · have hrange : 65 ≤ c.toNat ∧ c.toNat ≤ 90 := of_decide_eq_true hupper
    omega
  · obtain ⟨hlow, hhigh⟩ := Bool.and_eq_true_iff.mp hlower
    have hrange : 97 ≤ c.toNat ∧ c.toNat ≤ 122 := ⟨of_decide_eq_true hlow, of_decide_eq_true hhigh⟩
    omega
  · have hrange : 48 ≤ c.toNat ∧ c.toNat ≤ 57 := Char.isDigit_iff_toNat.mp hdigit
    omega

/-- Printable characters of seven bits other than the space are no blanks. -/
theorem isBlank_of_toNat (hlow : 33 ≤ c.toNat) (hhigh : c.toNat ≤ 126) : isBlank c = false := by
  cases hblank : isBlank c with
  | false => rfl
  | true =>
    simp only [isBlank, Bool.or_eq_true, Bool.and_eq_true, decide_eq_true_eq, beq_iff_eq] at hblank
    omega

/-- Letters and digits are no blanks. -/
theorem isBlank_of_isAlphanum (h : c.isAlphanum = true) : isBlank c = false := by
  have hcode := toNat_of_isAlphanum h
  exact isBlank_of_toNat (by omega) (by omega)

/-! ### Numerals -/

/-- A number is written in base ten. -/
theorem toList_toString (n : Nat) : (toString n).toList = Nat.toDigits 10 n :=
  Nat.toList_repr

/-- A number is written in digits. -/
theorem isDigit_of_mem_toString {n : Nat} (h : c ∈ (toString n).toList) : c.isDigit = true := by
  rw [toList_toString] at h
  exact Nat.isDigit_of_mem_toDigits (by decide) (by decide) h

/-- Digits of numbers are letters or digits. -/
theorem isAlphanum_of_mem_toString {n : Nat} (h : c ∈ (toString n).toList) :
    c.isAlphanum = true := by
  rw [Char.isAlphanum, isDigit_of_mem_toString h, Bool.or_true]

/-- A number is written with at least one digit. -/
theorem toString_ne_nil (n : Nat) : (toString n).toList ≠ [] := by
  rw [toList_toString]
  exact Nat.toDigits_ne_nil

/-- A number is read from its numeral. -/
theorem readBelow?_toString {bound n : Nat} (hn : n < bound) :
    readBelow? bound (toString n) = some n := by
  have hunsigned : readUnsigned? (toString n).toList = some n := by
    unfold readUnsigned?
    split
    · rename_i hplus
      have hdigit := isDigit_of_mem_toString (n := n) (c := '+') (by rw [hplus]; exact .head _)
      exact absurd hdigit (by decide)
    · rw [toList_toString]
      exact readDigits?_toDigits n
  rw [readBelow?, hunsigned]
  simp [hn]

end Text

namespace IsIdentifier

variable {initial : Char → Bool} {text : String}

/-- An identifier is not empty. -/
theorem nonempty (h : IsIdentifier initial text) : text.toList ≠ [] := by
  obtain ⟨c, hc, _⟩ := h.initial
  exact List.ne_nil_of_mem (List.mem_of_mem_head? hc)

/-- No blank stands in an identifier. -/
theorem isBlank_eq_false (h : IsIdentifier initial text) {c : Char} (hc : c ∈ text.toList) :
    Text.isBlank c = false := by
  rcases h.characters c hc with halphanum | rfl
  · exact Text.isBlank_of_isAlphanum halphanum
  · decide

/-- An identifier does not begin with a character of another kind. -/
theorem head?_ne (h : IsIdentifier initial text) {c : Char} (hc : initial c = false) :
    text.toList.head? ≠ some c := fun hhead => by
  obtain ⟨first, hfirst, hinitial⟩ := h.initial
  obtain rfl := Option.some.inj (hhead.symm.trans hfirst)
  rw [hc] at hinitial
  cases hinitial

/-- What is neither a letter or digit nor a hyphen does not stand in an identifier. -/
theorem not_mem (h : IsIdentifier initial text) {c : Char} (hc : c.isAlphanum = false)
    (hhyphen : c ≠ '-') : c ∉ text.toList := fun hmem => by
  rcases h.characters c hmem with halphanum | rfl
  · rw [hc] at halphanum
    cases halphanum
  · exact hhyphen rfl

/-- An identifier is none of the texts that begin otherwise. -/
theorem not_mem_of_head? (h : IsIdentifier initial text) {others : List String}
    (hothers : ∀ other ∈ others, other.toList.head?.any initial = false) : text ∉ others := by
  intro hmem
  obtain ⟨c, hc, hinitial⟩ := h.initial
  have hother := hothers text hmem
  rw [hc, Option.any_some, hinitial] at hother
  cases hother

end IsIdentifier

end Smi
