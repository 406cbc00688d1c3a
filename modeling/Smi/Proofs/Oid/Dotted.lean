import Smi.Oid.Dotted
import Smi.Proofs.Oid.Admissible
import Smi.Proofs.Outcome
import Smi.Proofs.Text.Blank
import Smi.Proofs.Text.Dotted
import Smi.Proofs.Text.Identifier

/-!
# Dotted numbers

Numbers joined by points are found again between the points, so no other numbers are written the
same way, and what is read from them is the identifier with these arcs or nothing.
-/

namespace Smi

namespace Text

variable {n : ℕ}

/-- The digits of a number are read as the number. -/
theorem readDigits?_toString (n : ℕ) : readDigits? (toString n).toList = some n := by
  rw [toList_toString, readDigits?_toDigits]

/-- Different numbers are written differently. -/
theorem toString_injective : Function.Injective (toString : ℕ → String) := fun a b h =>
  Option.some.inj (by rw [← readDigits?_toString a, h, readDigits?_toString])

/-- The numeral of a number begins with no sign. -/
theorem head?_toString_ne {c : Char} (hc : c.isDigit = false) (cs : List Char) :
    (toString n).toList ≠ c :: cs := fun h => by
  have hdigit := isDigit_of_mem_toString (n := n) (c := c) (by rw [h]; exact .head _)
  exact Bool.false_ne_true (hc.symm.trans hdigit)

/-- A number without a sign is read as itself. -/
theorem readSigned?_toString (n : ℕ) : readSigned? (toString n).toList = some (n : ℤ) := by
  unfold readSigned?
  split
  next cs h => exact absurd h (head?_toString_ne (by decide) cs)
  next cs h => exact absurd h (head?_toString_ne (by decide) cs)
  next => rw [readDigits?_toString, Option.map_some, Int.ofNat_eq_natCast]

/-- A number is read from its numeral exactly if it is a signed number of 64 bits. -/
theorem readInt64?_toString (n : ℕ) : (readInt64? (toString n)).map Int64.toInt =
    if n < signedBound64 then some (n : ℤ) else none := by
  have hrange : isInt64 n = decide (n < signedBound64) := by
    simp only [isInt64, Int.ofNat_eq_natCast, Int.ofNat_lt]
    rw [decide_eq_true (by omega), Bool.true_and]
  rw [readInt64?, readSigned?_toString, Option.filter_some, hrange]
  by_cases hn : n < signedBound64
  · have hvalue : (Int64.ofInt n).toInt = n := by
      unfold signedBound64 at hn
      exact Int64.toInt_ofInt_of_le (by omega) (by omega)
    simp [hn, hvalue]
  · simp [hn]

/-- The characters of the numeral of an integer. -/
theorem toList_toString_int (n : ℤ) : (toString n).toList =
    if n < 0 then '-' :: (toString n.natAbs).toList else (toString n.natAbs).toList := by
  cases n with
  | ofNat n =>
    rw [if_neg (by simp : ¬Int.ofNat n < 0)]
    rfl
  | negSucc n =>
    have hnumeral : toString (Int.negSucc n) = "-" ++ toString (n + 1) := rfl
    rw [if_pos (Int.negSucc_lt_zero n), hnumeral]
    simp

/-- A signed number of 64 bits is read from its numeral. -/
theorem readInt64?_toString_toInt (code : Int64) :
    readInt64? (toString code.toInt) = some code := by
  have hread : readSigned? (toString code.toInt).toList = some code.toInt := by
    rw [toList_toString_int]
    split
    next hneg =>
      simp only [readSigned?]
      rw [readDigits?_toString, Option.map_some]
      congr 1
      simp only [Int.ofNat_eq_natCast]
      omega
    next hpos =>
      rw [readSigned?_toString]
      congr 1
      omega
  have hrange : isInt64 code.toInt = true := by
    have hlow := Int64.le_toInt code
    have hhigh := Int64.toInt_lt code
    have hbound : Int.ofNat signedBound64 = 2 ^ 63 := rfl
    rw [isInt64, hbound]
    exact Bool.and_eq_true_iff.mpr ⟨decide_eq_true hlow, decide_eq_true hhigh⟩
  rw [readInt64?, hread, Option.filter_some, if_pos hrange, Option.map_some, Int64.ofInt_toInt]

/-- A written number is a numeral. -/
theorem isNumeral_toString (n : ℕ) : isNumeral (toString n).toList = true := by
  rw [isNumeral, Bool.and_eq_true, List.all_eq_true]
  exact ⟨by simp, fun _ => isDigit_of_mem_toString⟩

/-- A written number has no blanks around it. -/
theorem trim_toString (n : ℕ) : trim (toString n) = toString n := by
  have hblank {c : Char} (hc : c ∈ (toString n).toList) : isBlank c = false :=
    isBlank_of_isAlphanum (isAlphanum_of_mem_toString hc)
  rw [trim, trimChars_eq_self (fun c hc => hblank (List.mem_of_head? hc))
    fun c hc => hblank (List.mem_of_getLast? hc), String.ofList_toList]

end Text

namespace Oid

variable {arcs others : List ℕ} {oid : Oid}

/-- Arcs with dots between them are cut at the dots again. -/
theorem splitAt_dottedArcs (hne : arcs ≠ []) :
    Text.splitAt '.' (dottedArcs arcs) = arcs.map toString := by
  refine Text.splitAt_intercalate (mt List.map_eq_nil_iff.mp hne) fun part hpart hmem => ?_
  obtain ⟨n, _, rfl⟩ := List.mem_map.mp hpart
  exact absurd (Text.isDigit_of_mem_toString hmem) (by decide)

/-- Different arcs are written differently. -/
theorem dottedArcs_inj (hne : arcs ≠ []) (hothers : others ≠ []) :
    dottedArcs arcs = dottedArcs others ↔ arcs = others := by
  refine ⟨fun h => ?_, congrArg dottedArcs⟩
  have hparts := congrArg (Text.splitAt '.') h
  rw [splitAt_dottedArcs hne, splitAt_dottedArcs hothers] at hparts
  exact List.map_injective_iff.mpr Text.toString_injective hparts

/-- The components of written arcs are the written numbers. -/
theorem components_dottedArcs (hne : arcs ≠ []) : components (dottedArcs arcs) =
    arcs.map toString := by
  rw [components, splitAt_dottedArcs hne, List.map_map]
  have htrim : arcs.map (Text.trim ∘ toString) = arcs.map toString :=
    List.map_congr_left fun n _ => Text.trim_toString n
  rw [htrim, List.filter_eq_self]
  intro part hpart
  obtain ⟨n, _, rfl⟩ := List.mem_map.mp hpart
  simp

/-- A numeral is a component unless it is too large. -/
theorem readComponent_toString (n : ℕ) : readComponent (toString n) =
    if n < Text.signedBound64 then .ok (n : ℤ) else .error (.componentTooLarge (toString n)) := by
  have hread := Text.readInt64?_toString n
  unfold readComponent
  cases hvalue : Text.readInt64? (toString n) with
  | some value =>
    rw [hvalue, Option.map_some] at hread
    split at hread
    next hn =>
      rw [if_pos hn]
      exact congrArg Except.ok (Option.some.inj hread)
    next => cases hread
  | none =>
    have hlarge : ¬n < Text.signedBound64 := fun hn => by
      rw [hvalue, if_pos hn] at hread
      cases hread
    -- The numeral has no sign.
    rw [if_neg hlarge]
    dsimp only
    split
    next cs hchars => exact absurd hchars (Text.head?_toString_ne (by decide) cs)
    next cs hchars => exact absurd hchars (Text.head?_toString_ne (by decide) cs)
    next => rw [if_pos (Text.isNumeral_toString n)]

/-- A written number can be read as no other component. -/
theorem eq_of_readComponent_toString {n : ℕ} {value : ℤ}
    (h : readComponent (toString n) = .ok value) : value = n := by
  rw [readComponent_toString] at h
  split at h
  · exact (Except.ok.inj h).symm
  · cases h

/-- What is read from dotted numbers has them as its arcs. -/
theorem arcs_of_read_dottedArcs (hne : arcs ≠ []) (h : read (dottedArcs arcs) = .ok oid) :
    oid.arcs = arcs := by
  rw [read, components_dottedArcs hne] at h
  obtain ⟨values, hvalues, h⟩ := bind_eq_ok_iff.mp h
  rw [List.mapM_map] at hvalues
  have hnumbers := map_eq_of_mapM_eq_ok (g := id) (h := Int.ofNat) hvalues
    fun n _ value hvalue => eq_of_readComponent_toString hvalue
  rw [List.map_id] at hnumbers
  have hvaluesne : values.isEmpty = false := by
    rw [hnumbers, List.isEmpty_eq_false_iff]
    exact mt List.map_eq_nil_iff.mp hne
  simp only [hvaluesne, Bool.false_eq_true, if_false] at h
  rw [hnumbers] at h
  exact arcs_of_ofComponents h

end Oid

end Smi
