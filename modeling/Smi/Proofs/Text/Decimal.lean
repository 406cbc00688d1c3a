import Mathlib.Algebra.Order.Field.Rat
import Mathlib.Data.List.TakeWhile
import Smi.Text.Scientific

/-!
# Decimal numerals

A decimal numeral has an optional sign, digits, and an optional exponent with a sign of its own. The
number it denotes is exact, however many digits it has and however large the exponent is. Exactly
these numerals are read, each as the number it denotes, so a numeral denotes one number only.
-/

namespace Smi.Text

variable {cs ds es : List Char} {q r : ℚ} {z : ℤ} {negative : Bool}

/-! ### The notation -/

/-- A non-empty run of digits is written for its number in base ten. -/
def Digits {α : Type} [NatCast α] (cs : List Char) (a : α) : Prop :=
  isNumeral cs = true ∧ a = (Nat.ofDigitChars 10 cs 0 : ℕ)

/-- A numeral with a sign in front, or without one. -/
inductive Signed {α : Type} [Neg α] (Writes : List Char → α → Prop) : List Char → α → Prop
  | bare {cs : List Char} {a : α} (h : Writes cs a) : Signed Writes cs a
  | plus {cs : List Char} {a : α} (h : Writes cs a) : Signed Writes ('+' :: cs) a
  | minus {cs : List Char} {a : α} (h : Writes cs a) : Signed Writes ('-' :: cs) (-a)

/-- Digits, or digits that an exponent of ten scales. -/
inductive Magnitude : List Char → ℚ → Prop
  | whole {ds : List Char} {q : ℚ} (hdigits : Digits ds q) : Magnitude ds q
  | scaled {ds es : List Char} {q : ℚ} {exponent : ℤ} {letter : Char} (hdigits : Digits ds q)
      (hletter : letter = 'e' ∨ letter = 'E') (hexponent : Signed Digits es exponent) :
      Magnitude (ds ++ letter :: es) (q * 10 ^ exponent)

/-- The characters are a decimal numeral of the number. -/
def Denotes (cs : List Char) (q : ℚ) : Prop :=
  Signed Magnitude cs q

/-! ### Signs -/

section Sign

variable {α : Type} [InvolutiveNeg α] {Writes : List Char → α → Prop} {a : α}

/-- What is written without a sign begins with a digit. -/
def Unsigned (Writes : List Char → α → Prop) : Prop :=
  ∀ {c cs a}, Writes (c :: cs) a → c.isDigit = true

/-- A plus sign leaves the number as it is. -/
theorem signed_plus_iff (hunsigned : Unsigned Writes) :
    Signed Writes ('+' :: cs) a ↔ Writes cs a := by
  refine ⟨fun h => ?_, .plus⟩
  cases h with
  | bare h => exact absurd (hunsigned h) (by decide)
  | plus h => exact h

/-- A minus sign means the opposite number. -/
theorem signed_minus_iff (hunsigned : Unsigned Writes) :
    Signed Writes ('-' :: cs) a ↔ Writes cs (-a) := by
  refine ⟨fun h => ?_, fun h => neg_neg a ▸ .minus h⟩
  cases h with
  | bare h => exact absurd (hunsigned h) (by decide)
  | minus h => rwa [neg_neg]

/-- Without a sign only the digits count. -/
theorem signed_bare_iff (hplus : ∀ rest, cs ≠ '+' :: rest) (hminus : ∀ rest, cs ≠ '-' :: rest) :
    Signed Writes cs a ↔ Writes cs a := by
  refine ⟨fun h => ?_, .bare⟩
  cases h with
  | bare h => exact h
  | plus => exact absurd rfl (hplus _)
  | minus => exact absurd rfl (hminus _)

end Sign

/-- The number, or the opposite number if it is negative. -/
def withSign {α : Type} [Neg α] (negative : Bool) (a : α) : α :=
  if negative then -a else a

/-- A number with a sign is found again by giving it the sign once more. -/
theorem withSign_eq_iff {α : Type} [InvolutiveNeg α] {a b : α} :
    withSign negative a = b ↔ a = withSign negative b := by
  cases negative
  · exact Iff.rfl
  · exact neg_eq_iff_eq_neg

/-- A sign does not change how large a number is. -/
theorem abs_withSign (negative : Bool) (z : ℤ) : |withSign negative z| = |z| := by
  cases negative
  · rfl
  · exact abs_neg z

/-- A sign can be given before or after a whole number is taken for a fraction. -/
theorem cast_withSign (negative : Bool) (z : ℤ) :
    (withSign negative z : ℤ) = withSign negative (z : ℚ) := by
  cases negative
  · rfl
  · exact Int.cast_neg z

/-! ### Digits -/

/-- A numeral consists of digits. -/
theorem all_isDigit_of_isNumeral (h : isNumeral ds = true) : ∀ c ∈ ds, c.isDigit = true :=
  List.all_eq_true.mp (Bool.and_eq_true_iff.mp h).2

/-- Digits are written without a sign. -/
theorem unsigned_digits {α : Type} [NatCast α] [InvolutiveNeg α] :
    Unsigned (Digits : List Char → α → Prop) := fun h =>
  all_isDigit_of_isNumeral h.1 _ List.mem_cons_self

/-- A magnitude is written without a sign. -/
theorem unsigned_magnitude : Unsigned Magnitude := fun {c cs q} h => by
  generalize hcs : c :: cs = all at h
  cases h with
  | whole hdigits =>
    subst hcs
    exact unsigned_digits hdigits
  | @scaled ds es q exponent letter hdigits hletter hexponent =>
    cases ds with
    | nil => exact absurd hdigits.1 (by decide)
    | cons d rest =>
      obtain ⟨rfl, _⟩ := List.cons_eq_cons.mp hcs
      exact unsigned_digits hdigits

/-- Digits are read as the number for which they stand in base ten. -/
theorem map_readDigits?_eq_some_iff {α : Type} {f : ℕ → α} {a : α} :
    (readDigits? cs).map f = some a ↔
      isNumeral cs = true ∧ f (Nat.ofDigitChars 10 cs 0) = a := by
  by_cases h : isNumeral cs = true <;> simp [readDigits?, h]

/-- The digits that are read as a number are written for it. -/
theorem digits_of_readDigits? {α : Type} [NatCast α] {n : ℕ} (h : readDigits? cs = some n) :
    Digits cs (n : α) := by
  obtain ⟨hnumeral, hvalue⟩ := Option.ite_none_right_eq_some.mp h
  rw [← Option.some.inj hvalue]
  exact ⟨hnumeral, rfl⟩

/-- An integer is read exactly from its numerals. -/
theorem readSigned?_eq_some_iff : readSigned? cs = some z ↔ Signed Digits cs z := by
  unfold readSigned?
  split
  next rest =>
    rw [signed_plus_iff unsigned_digits, map_readDigits?_eq_some_iff, Digits, eq_comm (a := z)]
    rfl
  next rest =>
    rw [signed_minus_iff unsigned_digits, map_readDigits?_eq_some_iff, Digits, neg_eq_iff_eq_neg,
      eq_comm (b := -z)]
    rfl
  next hplus hminus =>
    rw [signed_bare_iff hplus hminus, map_readDigits?_eq_some_iff, Digits, eq_comm (a := z)]
    rfl

/-! ### Numbers of 64 bits -/

/-- A whole number of 64 bits is found again in its bits. -/
theorem toInt_ofInt (h : isInt64 z = true) : (Int64.ofInt z).toInt = z := by
  have hbound : Int.ofNat signedBound64 = 2 ^ 63 := rfl
  rw [isInt64, hbound, Bool.and_eq_true, decide_eq_true_iff, decide_eq_true_iff] at h
  exact Int64.toInt_ofInt_of_le h.1 h.2

/-- A number of 64 bits is read exactly from its numerals. -/
theorem readInt64?_eq_some_iff {text : String} {n : Int64} : readInt64? text = some n ↔
    ∃ z, readSigned? text.toList = some z ∧ isInt64 z = true ∧ n = Int64.ofInt z := by
  simp only [readInt64?, Option.map_eq_some_iff, Option.filter_eq_some_iff, and_assoc]
  exact exists_congr fun z => and_congr_right fun _ => and_congr_right fun _ => eq_comm

/-! ### Exponents -/

namespace Scientific

variable {number : Scientific}

/-- The number without its sign. -/
def magnitude (number : Scientific) : ℚ :=
  number.digits * 10 ^ number.exponent

/-- No magnitude is negative. -/
theorem magnitude_nonneg (number : Scientific) : 0 ≤ number.magnitude :=
  mul_nonneg (Nat.cast_nonneg _) (zpow_nonneg (by decide) _)

/-- The number with its sign. -/
def value (number : Scientific) : ℚ :=
  withSign number.negative number.magnitude

/-- Every written magnitude is read. -/
theorem exists_readMagnitude? (negative : Bool) (h : Magnitude cs q) :
    ∃ number, readMagnitude? negative cs = some number ∧ number.negative = negative ∧
      number.magnitude = q := by
  cases h with
  | whole hdigits =>
    obtain ⟨hnumeral, rfl⟩ := hdigits
    have hall := all_isDigit_of_isNumeral hnumeral
    refine ⟨⟨negative, Nat.ofDigitChars 10 cs 0, 0⟩, ?_, rfl, by simp [magnitude]⟩
    rw [readMagnitude?, List.takeWhile_eq_self_iff.mpr hall, List.dropWhile_eq_nil_iff.mpr hall]
    simp [readDigits?, hnumeral]
  | @scaled ds es q exponent letter hdigits hletter hexponent =>
    obtain ⟨hnumeral, rfl⟩ := hdigits
    have hall := all_isDigit_of_isNumeral hnumeral
    have hstop : letter.isDigit = false := by rcases hletter with rfl | rfl <;> decide
    refine ⟨⟨negative, Nat.ofDigitChars 10 ds 0, exponent⟩, ?_, rfl, rfl⟩
    rw [readMagnitude?, List.takeWhile_append_of_pos hall, List.dropWhile_append_of_pos hall,
      List.takeWhile_cons_of_neg (by simp [hstop]), List.dropWhile_cons_of_neg (by simp [hstop]),
      List.append_nil]
    simp [readDigits?, hnumeral, hletter, readSigned?_eq_some_iff.mpr hexponent]

/-- A magnitude is read as the number for which it is written. -/
theorem magnitude_of_readMagnitude? (h : readMagnitude? negative cs = some number) :
    number.negative = negative ∧ Magnitude cs number.magnitude := by
  have hcs := List.takeWhile_append_dropWhile (p := Char.isDigit) (l := cs)
  dsimp only [readMagnitude?] at h
  split at h
  next n hn hrest =>
    obtain rfl := Option.some.inj h
    rw [hrest, List.append_nil] at hcs
    rw [hcs] at hn
    exact ⟨rfl, by simpa [magnitude] using Magnitude.whole (digits_of_readDigits? hn)⟩
  next n letter rest hn hrest =>
    obtain ⟨hletter, h⟩ := Option.ite_none_right_eq_some.mp h
    obtain ⟨exponent, hexponent, rfl⟩ := Option.map_eq_some_iff.mp h
    rw [hrest] at hcs
    rw [← hcs]
    exact ⟨rfl, .scaled (digits_of_readDigits? hn) (by simpa using hletter)
      (readSigned?_eq_some_iff.mp hexponent)⟩
  next => cases h

/-- The digits behind a sign are read exactly from the numerals of a magnitude. -/
theorem magnitude_iff (negative : Bool) : Magnitude cs (withSign negative q) ↔
    ∃ number, readMagnitude? negative cs = some number ∧ number.value = q := by
  constructor
  · intro h
    obtain ⟨number, hread, rfl, hmagnitude⟩ := exists_readMagnitude? negative h
    exact ⟨number, hread, withSign_eq_iff.mpr hmagnitude⟩
  · rintro ⟨number, hread, rfl⟩
    obtain ⟨rfl, hmagnitude⟩ := magnitude_of_readMagnitude? hread
    have hvalue : number.magnitude = withSign number.negative number.value :=
      withSign_eq_iff.mp rfl
    rwa [← hvalue]

/-- A number is read exactly from its numerals. -/
theorem denotes_iff : Denotes cs q ↔ ∃ number, read? cs = some number ∧ number.value = q := by
  unfold Denotes read?
  split
  next => exact (signed_plus_iff unsigned_magnitude).trans (magnitude_iff false)
  next => exact (signed_minus_iff unsigned_magnitude).trans (magnitude_iff true)
  next hplus hminus => exact (signed_bare_iff hplus hminus).trans (magnitude_iff false)

end Scientific

/-- A numeral denotes one number only. -/
theorem Denotes.unique (hq : Denotes cs q) (hr : Denotes cs r) : q = r := by
  obtain ⟨number, hnumber, rfl⟩ := Scientific.denotes_iff.mp hq
  obtain ⟨other, hother, rfl⟩ := Scientific.denotes_iff.mp hr
  rw [Option.some.inj (hnumber.symm.trans hother)]

/-- The numeral of an integer denotes it. -/
theorem Signed.denotes (h : Signed Digits cs z) : Denotes cs z := by
  cases h with
  | bare h => exact .bare (.whole ⟨h.1, by exact_mod_cast h.2⟩)
  | plus h => exact .plus (.whole ⟨h.1, by exact_mod_cast h.2⟩)
  | minus h =>
    rw [Int.cast_neg]
    exact .minus (.whole ⟨h.1, by exact_mod_cast h.2⟩)

end Smi.Text
