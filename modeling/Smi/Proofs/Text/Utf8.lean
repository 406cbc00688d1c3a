import Smi.Text.Utf8

/-!
# Reading back UTF-8

The UTF-8 form of a text is the text again when it is read with invalid parts replaced, since none
of its parts is invalid.
-/

namespace Smi.Text

variable {first second third fourth payload low high later : Nat} {rest : List UInt8}

/-! ### Octets of a text -/

/-- The octets of a text are those of its characters. -/
theorem octets_eq_flatMap (text : String) :
    octets text = text.toList.flatMap String.utf8EncodeChar := by
  have hencode : text.toByteArray = text.toList.utf8Encode := String.utf8Encode_toList.symm
  rw [octets, hencode, List.utf8Encode, List.data_toByteArray]

/-- A text that is read has the octets from which it is read. -/
theorem octets_of_ofOctets? {bytes : List UInt8} {text : String}
    (h : ofOctets? bytes = some text) : octets text = bytes := by
  rw [ofOctets?, String.fromUTF8?] at h
  split at h
  · obtain rfl := Option.some.inj h
    rfl
  · cases h

/-- The octets of two texts follow each other. -/
theorem octets_append (first rest : String) :
    octets (first ++ rest) = octets first ++ octets rest := by
  simp [octets_eq_flatMap]

/-! ### Octets as numbers -/

/-- Octets are in the order of their numbers. -/
theorem ofNat_le_ofNat {m n : Nat} (h : m ≤ n) (hn : n < 256) : UInt8.ofNat m ≤ UInt8.ofNat n := by
  rwa [UInt8.le_iff_toNat_le, UInt8.toNat_ofNat_of_lt' hn,
    UInt8.toNat_ofNat_of_lt' (Nat.lt_of_le_of_lt h hn)]

/-- Octets from `0xC2` to `0xDF` lead sequences of two. -/
theorem lead?_two (h : 0xC2 ≤ first ∧ first ≤ 0xDF) :
    lead? (.ofNat first) = some ⟨first - 0xC0, .ofNat 0x80, .ofNat 0xBF, 1⟩ := by
  have hsize : first < 256 := by omega
  have hfirst : (UInt8.ofNat first).toNat = first := UInt8.toNat_ofNat_of_lt' hsize
  simp [lead?, UInt8.le_iff_toNat_le, h, hfirst]

/-- The second octet of three keeps out overlong forms and surrogates. -/
theorem lead?_three (h : 0xE0 ≤ first ∧ first ≤ 0xEF) :
    lead? (.ofNat first) = some ⟨first - 0xE0, .ofNat (if first = 0xE0 then 0xA0 else 0x80),
      .ofNat (if first = 0xED then 0x9F else 0xBF), 2⟩ := by
  by_cases hlow : first = 0xE0
  · rw [hlow]
    rfl
  by_cases hhigh : first = 0xED
  · rw [hhigh]
    rfl
  have hsize : first < 256 := by omega
  have hfirst : (UInt8.ofNat first).toNat = first := UInt8.toNat_ofNat_of_lt' hsize
  simp only [lead?, Bool.and_eq_true, decide_eq_true_eq, UInt8.le_iff_toNat_le, beq_iff_eq,
    ← UInt8.toNat_inj, UInt8.reduceToNat, hfirst]
  rw [if_neg (by omega), if_neg hlow, if_neg hhigh, if_pos (by omega), if_neg hlow, if_neg hhigh]
  rfl

/-- The second octet of four keeps out overlong forms and numbers above U+10FFFF. -/
theorem lead?_four (h : 0xF0 ≤ first ∧ first ≤ 0xF4) :
    lead? (.ofNat first) = some ⟨first - 0xF0, .ofNat (if first = 0xF0 then 0x90 else 0x80),
      .ofNat (if first = 0xF4 then 0x8F else 0xBF), 3⟩ := by
  by_cases hlow : first = 0xF0
  · rw [hlow]
    rfl
  by_cases hhigh : first = 0xF4
  · rw [hhigh]
    rfl
  have hsize : first < 256 := by omega
  have hfirst : (UInt8.ofNat first).toNat = first := UInt8.toNat_ofNat_of_lt' hsize
  simp only [lead?, Bool.and_eq_true, decide_eq_true_eq, UInt8.le_iff_toNat_le, beq_iff_eq,
    ← UInt8.toNat_inj, UInt8.reduceToNat, hfirst]
  rw [if_neg (by omega), if_neg (by omega), if_neg (by omega), if_neg (by omega), if_neg hlow,
    if_pos (by omega), if_neg hlow, if_neg hhigh]
  rfl

/-! ### Reading sequences -/

/-- The last octet of a sequence completes a character. -/
theorem readLossy_last (h : low ≤ second ∧ second ≤ high) (hhigh : high < 256) :
    readLossy (.octet payload (.ofNat low) (.ofNat high) 0) (.ofNat second :: rest) =
      Char.ofNat (64 * payload + (second - 0x80)) :: readLossy .nothing rest := by
  have hsecond : second < 256 := Nat.lt_of_le_of_lt h.2 hhigh
  simp [readLossy, ofNat_le_ofNat h.1 hsecond, ofNat_le_ofNat h.2 hhigh, Nat.mod_eq_of_lt hsecond]

/-- Another octet of a sequence adds to the payload. -/
theorem readLossy_further (h : low ≤ second ∧ second ≤ high) (hhigh : high < 256) :
    readLossy (.octet payload (.ofNat low) (.ofNat high) (later + 1)) (.ofNat second :: rest) =
      readLossy (.octet (64 * payload + (second - 0x80)) (.ofNat 0x80) (.ofNat 0xBF) later)
        rest := by
  have hsecond : second < 256 := Nat.lt_of_le_of_lt h.2 hhigh
  simp [readLossy, ofNat_le_ofNat h.1 hsecond, ofNat_le_ofNat h.2 hhigh, Nat.mod_eq_of_lt hsecond]

/-- Behind a leading octet the others of its sequence are awaited. -/
theorem readLossy_lead {leads : Nat} {low high : UInt8} (h : 0x80 ≤ first ∧ first < 256)
    (hlead : lead? (.ofNat first) = some ⟨payload, low, high, leads + 1⟩) :
    readLossy .nothing (.ofNat first :: rest) = readLossy (.octet payload low high leads) rest := by
  have hlarge : ¬UInt8.ofNat first < 0x80 := by
    rw [UInt8.lt_iff_toNat_lt, UInt8.toNat_ofNat_of_lt' h.2]
    exact Nat.not_lt_of_le h.1
  rw [readLossy, readLossy.readFirst, if_neg hlarge, hlead]
  rfl

/-- An octet of seven bits is a character. -/
theorem readLossy_one (h : first < 0x80) :
    readLossy .nothing (.ofNat first :: rest) = Char.ofNat first :: readLossy .nothing rest := by
  have hsize : first < 256 := by omega
  have hfirst : (UInt8.ofNat first).toNat = first := UInt8.toNat_ofNat_of_lt' hsize
  have hascii : UInt8.ofNat first < 0x80 := by
    rw [UInt8.lt_iff_toNat_lt, hfirst]
    exact h
  rw [readLossy, readLossy.readFirst, if_pos hascii, hfirst]

/-- Two octets of a sequence are a character. -/
theorem readLossy_two (hfirst : 0xC2 ≤ first ∧ first ≤ 0xDF)
    (hsecond : 0x80 ≤ second ∧ second ≤ 0xBF) :
    readLossy .nothing (.ofNat first :: .ofNat second :: rest) =
      Char.ofNat (64 * (first - 0xC0) + (second - 0x80)) :: readLossy .nothing rest := by
  rw [readLossy_lead (by omega) (lead?_two hfirst), readLossy_last hsecond (by decide)]

/-- Three octets of a sequence are a character. -/
theorem readLossy_three (hfirst : 0xE0 ≤ first ∧ first ≤ 0xEF)
    (hsecond : (if first = 0xE0 then 0xA0 else 0x80) ≤ second ∧
      second ≤ if first = 0xED then 0x9F else 0xBF) (hthird : 0x80 ≤ third ∧ third ≤ 0xBF) :
    readLossy .nothing (.ofNat first :: .ofNat second :: .ofNat third :: rest) =
      Char.ofNat (64 * (64 * (first - 0xE0) + (second - 0x80)) + (third - 0x80)) ::
        readLossy .nothing rest := by
  rw [readLossy_lead (by omega) (lead?_three hfirst),
    readLossy_further hsecond (by split <;> decide), readLossy_last hthird (by decide)]

/-- Four octets of a sequence are a character. -/
theorem readLossy_four (hfirst : 0xF0 ≤ first ∧ first ≤ 0xF4)
    (hsecond : (if first = 0xF0 then 0x90 else 0x80) ≤ second ∧
      second ≤ if first = 0xF4 then 0x8F else 0xBF) (hthird : 0x80 ≤ third ∧ third ≤ 0xBF)
    (hfourth : 0x80 ≤ fourth ∧ fourth ≤ 0xBF) :
    readLossy .nothing (.ofNat first :: .ofNat second :: .ofNat third :: .ofNat fourth :: rest) =
      Char.ofNat (64 * (64 * (64 * (first - 0xF0) + (second - 0x80)) + (third - 0x80)) +
        (fourth - 0x80)) :: readLossy .nothing rest := by
  rw [readLossy_lead (by omega) (lead?_four hfirst),
    readLossy_further hsecond (by split <;> decide), readLossy_further hthird (by decide),
    readLossy_last hfourth (by decide)]

/-! ### Texts -/

/-- The UTF-8 form of a character is read back. -/
theorem readLossy_utf8EncodeChar (c : Char) (rest : List UInt8) :
    readLossy .nothing (String.utf8EncodeChar c ++ rest) = c :: readLossy .nothing rest := by
  have hvalid : c.val.toNat < 0xD800 ∨ 0xDFFF < c.val.toNat ∧ c.val.toNat < 0x110000 := c.valid
  have hc : Char.ofNat c.val.toNat = c := Char.ofNat_toNat c
  unfold String.utf8EncodeChar
  generalize c.val.toNat = v at hvalid hc ⊢
  have hread {payload : Nat} (hpayload : payload = v) :
      Char.ofNat payload :: readLossy .nothing rest = c :: readLossy .nothing rest := by
    rw [hpayload, hc]
  dsimp only
  split
  next hone => exact (readLossy_one (Nat.lt_succ_of_le hone)).trans (hread rfl)
  next hone =>
  split
  next htwo => exact (readLossy_two (by omega) (by omega)).trans (hread (by omega))
  next htwo =>
  split
  next hthree =>
    have hsecond : (if v / 4096 % 16 + 224 = 0xE0 then 0xA0 else 0x80) ≤ v / 64 % 64 + 128 ∧
        v / 64 % 64 + 128 ≤ if v / 4096 % 16 + 224 = 0xED then 0x9F else 0xBF := by
      split <;> split <;> omega
    exact (readLossy_three (by omega) hsecond (by omega)).trans (hread (by omega))
  next hthree =>
    have hsecond : (if v / 262144 % 8 + 240 = 0xF0 then 0x90 else 0x80) ≤ v / 4096 % 64 + 128 ∧
        v / 4096 % 64 + 128 ≤ if v / 262144 % 8 + 240 = 0xF4 then 0x8F else 0xBF := by
      split <;> split <;> omega
    exact (readLossy_four (by omega) hsecond (by omega) (by omega)).trans (hread (by omega))

/-- The UTF-8 form of a text is read back, and nothing of it is replaced. -/
theorem ofOctetsLossy_octets (text : String) : ofOctetsLossy (octets text) = text := by
  have hread : ∀ cs : List Char, readLossy .nothing (cs.flatMap String.utf8EncodeChar) = cs := by
    intro cs
    induction cs with
    | nil => rw [List.flatMap_nil, readLossy]
    | cons c rest ih => rw [List.flatMap_cons, readLossy_utf8EncodeChar, ih]
  rw [ofOctetsLossy, octets_eq_flatMap, hread, String.ofList_toList]

end Smi.Text
