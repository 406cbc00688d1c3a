import Smi.Oid.Dotted
import Smi.Proofs.Oid.Admissible
import Smi.Proofs.Outcome
import Smi.Proofs.Text.Decimal
import Smi.Proofs.Text.Rounding

/-!
# The numbers in a dotted identifier

A component of a dotted text is a decimal numeral, and its arc is the number it denotes rounded to
double precision. So a component that denotes a whole number is read as exactly this number, and one
that does not is accepted if it is rounded to a whole number.
-/

namespace Smi

variable {text part : String} {oid : Oid} {value : ℤ}

namespace Oid

open Text (Denotes Scientific abs_withSign cast_withSign readSigned?_eq_some_iff withSign
  withSign_eq_iff)
open Text.Double (Nearest nearest_value_iff whole?_ofDecimal_eq_some_iff)

/-! ### Numbers with an exponent -/

/-- A number with an exponent is read from its digits, and its sign is applied to what is read. -/
theorem readExponential_eq_ok_iff_whole? : readExponential part = .ok value ↔
    ∃ number, Scientific.read? part.toList = some number ∧
      ∃ n, (Text.Double.ofDecimal number.digits number.exponent).whole? = some n ∧
        n < exponentBound ∧ (n : ℤ) = withSign number.negative value := by
  unfold readExponential
  cases hread : Scientific.read? part.toList with
  | none => simp
  | some number =>
    dsimp only
    simp only [Option.some_inj, exists_eq_left', ← withSign_eq_iff]
    cases hdouble : Text.Double.ofDecimal number.digits number.exponent with
    | infinite => simp [Text.Double.whole?]
    | finite significand scale =>
      dsimp only
      cases hwhole : (Text.Double.finite significand scale).whole? with
      | none => simp
      | some n =>
        simp only [Option.some_inj, exists_eq_left', withSign, Int.ofNat_eq_natCast]
        by_cases hn : n < exponentBound <;> simp [hn]

/-- Numbers below the bound are finite in double precision. -/
theorem exponentBound_lt : exponentBound < 2 ^ 1024 :=
  lt_of_lt_of_le (b := 2 ^ 64) (by decide) (pow_le_pow_right₀ one_le_two (by decide))

/-- A number with an exponent is read as its rounding. -/
theorem readExponential_eq_ok_iff : readExponential part = .ok value ↔
    |value| < exponentBound ∧ ∃ q, Denotes part.toList q ∧ Nearest q value := by
  rw [readExponential_eq_ok_iff_whole?]
  constructor
  · rintro ⟨number, hread, n, hwhole, hn, hvalue⟩
    have hround := (whole?_ofDecimal_eq_some_iff.mp hwhole).2
    refine ⟨?_, number.value, Scientific.denotes_iff.mpr ⟨number, hread, rfl⟩, ?_⟩
    · rw [← abs_withSign number.negative, ← hvalue, Nat.abs_cast]
      exact_mod_cast hn
    · rw [nearest_value_iff, ← cast_withSign, ← hvalue]
      exact hround
  · rintro ⟨hbound, q, hq, hnearest⟩
    obtain ⟨number, hread, rfl⟩ := Scientific.denotes_iff.mp hq
    rw [nearest_value_iff, ← cast_withSign] at hnearest
    rw [← abs_withSign number.negative] at hbound
    -- The rounding of a magnitude is no negative number.
    have hnonneg := hnearest.nonneg number.magnitude_nonneg
    obtain ⟨n, hn⟩ := Int.eq_ofNat_of_zero_le (by exact_mod_cast hnonneg)
    rw [hn] at hnearest hbound
    rw [Nat.abs_cast] at hbound
    have hn_lt : n < exponentBound := by exact_mod_cast hbound
    exact ⟨number, hread, n,
      whole?_ofDecimal_eq_some_iff.mpr ⟨hn_lt.trans exponentBound_lt, hnearest⟩, hn_lt, hn.symm⟩

/-! ### Components -/

/-- A whole number outside the range of 64 bits is refused, whatever its sign. -/
theorem readComponent_of_readInt64?_eq_none (h : Text.readInt64? part = none) :
    readComponent part = .ok value ↔
      Text.readSigned? part.toList = none ∧ readExponential part = .ok value := by
  have hbranch {digits : List Char} {e : Error} :
      (if Text.isNumeral digits then .error e else readExponential part) = .ok value ↔
        Text.readDigits? digits = none ∧ readExponential part = .ok value := by
    rw [Text.readDigits?]
    split <;> simp_all
  rw [readComponent, h]
  dsimp only [Text.readSigned?]
  split
  next digits hminus => simp [hbranch, hminus]
  next digits hplus => simp [hbranch, hplus]
  next hminus hplus => 
   rw [hbranch]; simp

/-- A component is a whole number of 64 bits, or it is no whole number and has an exponent. -/
theorem readComponent_eq_ok_iff : readComponent part = .ok value ↔
    Text.readSigned? part.toList = some value ∧ Text.isInt64 value = true ∨
      Text.readSigned? part.toList = none ∧ readExponential part = .ok value := by
  cases hread : Text.readInt64? part with
  | some n =>
    obtain ⟨z, hz, hrange, rfl⟩ := Text.readInt64?_eq_some_iff.mp hread
    simp only [readComponent, hread, hz, Except.ok.injEq, Option.some_inj, Text.toInt_ofInt hrange]
    refine ⟨fun h => .inl ⟨h, h ▸ hrange⟩, ?_⟩
    rintro (⟨h, -⟩ | ⟨h, -⟩)
    · exact h
    · cases h
  | none =>
    rw [readComponent_of_readInt64?_eq_none hread, or_iff_right]
    rintro ⟨hz, hrange⟩
    rw [Text.readInt64?_eq_some_iff.mpr ⟨value, hz, hrange, rfl⟩] at hread
    cases hread

/-- A component is read as the rounding of the number it denotes. -/
theorem readComponent_eq_ok_iff_nearest (hvalue : |value| < 2 ^ 52) :
    readComponent part = .ok value ↔ ∃ q, Denotes part.toList q ∧ Nearest q value := by
  rw [readComponent_eq_ok_iff]
  constructor
  · rintro (⟨hread, -⟩ | ⟨-, hread⟩)
    · have hexact := (readSigned?_eq_some_iff.mp hread).denotes
      exact ⟨value, hexact, Text.Double.nearest_intCast (hvalue.trans (by decide))⟩
    · exact (readExponential_eq_ok_iff.mp hread).2
  · rintro ⟨q, hq, hnearest⟩
    have hrange := abs_lt.mp hvalue
    cases hread : Text.readSigned? part.toList with
    | some written =>
      -- A whole number is rounded to one of at most 52 bits only if it is that number.
      obtain rfl := hq.unique (readSigned?_eq_some_iff.mp hread).denotes
      obtain rfl := hnearest.eq_intCast hvalue
      refine .inl ⟨rfl, ?_⟩
      have hbound : Int.ofNat Text.signedBound64 = 2 ^ 63 := rfl
      rw [Text.isInt64, hbound, Bool.and_eq_true, decide_eq_true_iff, decide_eq_true_iff]
      omega
    | none =>
      refine .inr ⟨rfl, readExponential_eq_ok_iff.mpr ⟨?_, q, hq, hnearest⟩⟩
      exact hvalue.trans (by decide)

/-! ### Identifiers -/

/-- A text is read when its components are the arcs, and there are any. -/
theorem read_eq_ok_iff : read text = .ok oid ↔
    oid ≠ root ∧ (components text).mapM readComponent = .ok (oid.arcs.map Int.ofNat) := by
  rw [read, bind_eq_ok_iff]
  constructor
  · rintro ⟨values, hvalues, h⟩
    split at h
    next => cases h
    next hne =>
      rw [ofComponents_eq_ok_iff.mp h] at hvalues hne
      refine ⟨?_, hvalues⟩
      rintro rfl
      exact hne rfl
  · rintro ⟨hne, hvalues⟩
    have harcs : ¬(oid.arcs.map Int.ofNat).isEmpty = true := fun h =>
      hne (ext (List.map_eq_nil_iff.mp (List.isEmpty_iff.mp h)))
    refine ⟨_, hvalues, ?_⟩
    rw [if_neg harcs]
    exact ofComponents_arcs oid

/-- Every arc of an identifier is small enough to be exact. -/
theorem lt_of_mem_arcs {arc : ℕ} (h : arc ∈ oid.arcs) : |(arc : ℤ)| < 2 ^ 52 := by
  have hle := le_maxArc_of_admissibleFrom oid.admissible arc h
  unfold maxArc at hle
  rw [Nat.abs_cast]
  omega

/-- Lists are related alike by relations that agree on what stands at one place in both. -/
theorem forall₂_congr_of_mem_zip {α β : Type} {R S : α → β → Prop} {xs : List α} {ys : List β}
    (h : ∀ a b, (a, b) ∈ xs.zip ys → (R a b ↔ S a b)) :
    List.Forall₂ R xs ys ↔ List.Forall₂ S xs ys := by
  rw [List.forall₂_iff_zip, List.forall₂_iff_zip]
  exact and_congr_right fun _ => ⟨fun hR a b hmem => (h a b hmem).mp (hR hmem),
    fun hS a b hmem => (h a b hmem).mpr (hS hmem)⟩

/-- A dotted text is read as the identifier whose arcs are the roundings of its components. -/
theorem read_eq_ok_iff_nearest : read text = .ok oid ↔ oid ≠ root ∧
    List.Forall₂ (fun (part : String) (arc : ℕ) => ∃ q, Denotes part.toList q ∧ Nearest q arc)
      (components text) oid.arcs := by
  rw [read_eq_ok_iff, mapM_eq_ok_iff_forall₂, List.forall₂_map_right_iff]
  exact and_congr_right fun _ => forall₂_congr_of_mem_zip fun part arc hmem =>
    readComponent_eq_ok_iff_nearest (lt_of_mem_arcs (List.of_mem_zip hmem).2)

/-- What is read from a text has an arc for each of its components. Such a component denotes one
number, which is rounded to the arc, and it denotes the arc itself exactly if it denotes a whole
number. -/
theorem read_exact_iff (h : read text = .ok oid) :
    List.Forall₂ (fun (part : String) (arc : ℕ) => ∃ q, (∀ r, Denotes part.toList r ↔ r = q) ∧
      Nearest q arc ∧ (q = arc ↔ ∃ n : ℤ, q = n)) (components text) oid.arcs := by
  obtain ⟨hlength, hnearest⟩ := List.forall₂_iff_zip.mp (read_eq_ok_iff_nearest.mp h).2
  refine List.forall₂_iff_zip.mpr ⟨hlength, fun {part arc} hmem => ?_⟩
  obtain ⟨q, hq, hround⟩ := hnearest hmem
  refine ⟨q, fun r => ⟨fun hr => hr.unique hq, fun hr => hr ▸ hq⟩, hround, fun hexact => ?_, ?_⟩
  · exact ⟨arc, by rw [hexact, Int.cast_natCast]⟩
  · rintro ⟨n, rfl⟩
    have hn := hround.eq_intCast (lt_of_mem_arcs (List.of_mem_zip hmem).2)
    rw [hn, Int.cast_natCast]

/-- A whole number may be written with an exponent. -/
theorem read_exact_iff_thousand : ∃ oid, read " 1.3..+1e3" = .ok oid ∧ oid.arcs = [1, 3, 1000] ∧
    List.Forall₂ (fun (part : String) (arc : ℕ) => ∃ q, (∀ r, Denotes part.toList r ↔ r = q) ∧
      Nearest q arc ∧ (q = arc ↔ ∃ n : ℤ, q = n)) (components " 1.3..+1e3") oid.arcs := by
  have hread : read " 1.3..+1e3" = .ok ⟨[1, 3, 1000], by decide⟩ := by decide +kernel
  exact ⟨_, hread, rfl, read_exact_iff hread⟩

/-- A number close enough to a whole number is read as the whole number. -/
theorem read_inexact : ∃ oid, read "1.3.10000000000000001e-16" = .ok oid ∧
    ¬List.Forall₂ (fun (part : String) (arc : ℕ) => Denotes part.toList arc)
      (components "1.3.10000000000000001e-16") oid.arcs := by
  have hread : read "1.3.10000000000000001e-16" = .ok ⟨[1, 3, 1], by decide⟩ := by decide +kernel
  have hparts : components "1.3.10000000000000001e-16" = ["1", "3", "10000000000000001e-16"] := by
    decide +kernel
  have hpart : Scientific.read? "10000000000000001e-16".toList =
      some ⟨false, 10000000000000001, -16⟩ := by decide +kernel
  refine ⟨_, hread, fun h => ?_⟩
  rw [hparts] at h
  have hone := (List.forall₂_cons.mp (List.forall₂_cons.mp (List.forall₂_cons.mp h).2).2).1
  have hvalue := hone.unique (Scientific.denotes_iff.mpr ⟨_, hpart, rfl⟩)
  norm_num [Scientific.value, Scientific.magnitude, withSign] at hvalue

end Oid

end Smi
