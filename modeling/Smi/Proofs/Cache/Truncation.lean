import Smi.Proofs.Cache.RoundTrip

/-!
# Truncated caches

Reading goes from the front to the back, so more octets behind the ones that were read change
nothing: a value stays the value and a fault stays the fault, and only where the octets have come to
an end does reading go on. What was written is read to its very last octet. So no part of a cache
that lacks its end is read as modules, whatever has been cut off.
-/

namespace Smi

namespace Codec

variable {α β : Type} {c : Codec α} {d : Codec β} {bytes more : List UInt8}

/-- A reading with more octets behind the octets that are left. -/
def behind (more : List UInt8) (reading : Reading α) : Reading α :=
  reading.map fun (value, rest) => (value, rest ++ more)

/-- More octets stay behind what is read. -/
@[simp] theorem behind_ok (more : List UInt8) (value : α) (rest : List UInt8) :
    behind more (.ok (value, rest)) = .ok (value, rest ++ more) :=
  rfl

/-- A fault stays the same with more octets behind it. -/
@[simp] theorem behind_error (more : List UInt8) (fault : WireFault) :
    behind more (.error fault : Reading α) = .error fault :=
  rfl

/-- Whether more octets change nothing in what a codec reads, unless it has run out of octets. -/
def Steady (c : Codec α) : Prop :=
  ∀ bytes more, c.read bytes ≠ .error .endOfInput →
    c.read (bytes ++ more) = behind more (c.read bytes)

/-! ### Numbers, octets and texts -/

/-- More octets do not change how a number is read, unless it was cut off. -/
theorem readNumber_append {lastMax limit : ℕ}
    (h : readNumber lastMax limit bytes ≠ .error .endOfInput) (more : List UInt8) :
    readNumber lastMax limit (bytes ++ more) = behind more (readNumber lastMax limit bytes) := by
  induction limit generalizing bytes with
  | zero => rfl
  | succ limit ih =>
    cases bytes with
    | nil => exact absurd rfl h
    | cons byte bytes =>
      rw [List.cons_append]
      rw [readNumber] at h ⊢
      rw [readNumber]
      split_ifs at h ⊢
      · rfl
      · rfl
      · have hrest : readNumber lastMax limit bytes ≠ .error .endOfInput :=
          fun hend => h (by rw [hend])
        rw [ih hrest]
        rcases readNumber lastMax limit bytes with fault | ⟨high, rest⟩ <;> rfl

/-- More octets do not change how a number of 64 bits is read. -/
theorem steady_number64 : number64.Steady :=
  fun _ more h => readNumber_append h more

/-- More octets do not change how a number of 32 bits is read. -/
theorem steady_number32 : number32.Steady :=
  fun _ more h => readNumber_append h more

/-- More octets do not change how a value is read as one of another type. -/
theorem Steady.as {forth : α → β} (h : c.Steady)
    (hend : Reading.as forth (c.read bytes) ≠ .error .endOfInput) (more : List UInt8) :
    Reading.as forth (c.read (bytes ++ more)) = behind more (Reading.as forth (c.read bytes)) := by
  have hread : c.read bytes ≠ .error .endOfInput := fun hread => hend (by rw [hread]; rfl)
  rw [h bytes more hread]
  rcases c.read bytes with fault | ⟨value, rest⟩ <;> rfl

/-- A codec for another type is as steady as the codec it is made of. -/
theorem Steady.convert {forth : α → β} {back : β → α} (h : c.Steady) :
    (c.convert forth back).Steady :=
  fun _ more hend => h.as hend more

/-- More octets do not change how a signed number is read. -/
theorem steady_int64 : int64.Steady :=
  steady_number64.convert

/-- More octets do not change how counted octets are read. -/
theorem steady_block : block.Steady := by
  intro bytes more hend
  have hcount : number64.read bytes ≠ .error .endOfInput :=
    fun hcount => hend (by simp only [block, hcount])
  have hmore := steady_number64 bytes more hcount
  rcases hread : number64.read bytes with fault | ⟨count, rest⟩
  · simp only [block, hmore, hread, behind_error]
  · by_cases hlength : count ≤ rest.length
    · have hlonger : count ≤ (rest ++ more).length := by
        rw [List.length_append]
        omega
      simp only [block, hmore, hread, behind_ok, if_pos hlength, if_pos hlonger, List.splitAt_eq,
        List.take_append_of_le_length hlength, List.drop_append_of_le_length hlength]
    · simp only [block, hread, if_neg hlength] at hend
      exact absurd rfl hend

/-- More octets do not change how a text is read. -/
theorem steady_text : text.Steady := by
  intro bytes more hend
  have hcontent : block.read bytes ≠ .error .endOfInput :=
    fun hcontent => hend (by simp only [text, hcontent])
  have hmore := steady_block bytes more hcontent
  rcases hread : block.read bytes with fault | ⟨content, rest⟩
  · simp only [text, hmore, hread, behind_error]
  · simp only [text, hmore, hread, behind_ok]
    cases Text.ofOctets? content <;> rfl

/-! ### Compound values -/

/-- More octets do not change how a pair is read. -/
theorem Steady.pair (hfirst : c.Steady) (hsecond : d.Steady) : (pair c d).Steady := by
  intro bytes more hend
  have hone : c.read bytes ≠ .error .endOfInput :=
    fun hone => hend (by simp only [Codec.pair, hone])
  have hmore := hfirst bytes more hone
  rcases hread : c.read bytes with fault | ⟨first, rest⟩
  · simp only [Codec.pair, hmore, hread, behind_error]
  · have htwo : d.read rest ≠ .error .endOfInput :=
      fun htwo => hend (by simp only [Codec.pair, hread, htwo])
    simp only [Codec.pair, hmore, hread, behind_ok, hsecond rest more htwo]
    rcases d.read rest with fault | ⟨second, last⟩ <;> rfl

/-- More octets do not change how a number of values is read. -/
theorem Steady.readMany (h : c.Steady) {count : ℕ}
    (hend : c.readMany count bytes ≠ .error .endOfInput) (more : List UInt8) :
    c.readMany count (bytes ++ more) = behind more (c.readMany count bytes) := by
  induction count generalizing bytes with
  | zero => rfl
  | succ count ih =>
    have hone : c.read bytes ≠ .error .endOfInput :=
      fun hone => hend (by simp only [Codec.readMany, hone])
    have hmore := h bytes more hone
    rcases hread : c.read bytes with fault | ⟨first, rest⟩
    · simp only [Codec.readMany, hmore, hread, behind_error]
    · have hothers : c.readMany count rest ≠ .error .endOfInput :=
        fun hothers => hend (by simp only [Codec.readMany, hread, hothers])
      simp only [Codec.readMany, hmore, hread, behind_ok, ih hothers]
      rcases c.readMany count rest with fault | ⟨others, last⟩ <;> rfl

/-- More octets do not change how a list is read. -/
theorem Steady.list (h : c.Steady) : (list c).Steady := by
  intro bytes more hend
  have hcount : number64.read bytes ≠ .error .endOfInput :=
    fun hcount => hend (by simp only [Codec.list, hcount])
  have hmore := steady_number64 bytes more hcount
  rcases hread : number64.read bytes with fault | ⟨count, rest⟩
  · simp only [Codec.list, hmore, hread, behind_error]
  · simp only [Codec.list, hread] at hend
    simp only [Codec.list, hmore, hread, behind_ok, h.readMany hend]

/-- More octets do not change how a value that may be missing is read. -/
theorem Steady.optional (h : c.Steady) : (optional c).Steady := by
  intro bytes more hend
  cases bytes with
  | nil => exact absurd rfl hend
  | cons flag bytes =>
    simp only [Codec.optional, List.cons_append] at hend ⊢
    split_ifs at hend ⊢
    · rfl
    · have hcontent : c.read bytes ≠ .error .endOfInput :=
        fun hcontent => hend (by simp only [hcontent])
      rw [h bytes more hcontent]
      rcases c.read bytes with fault | ⟨content, rest⟩ <;> rfl
    · rfl

/-- More octets do not change how an ordered map is read. -/
theorem Steady.orderedMap [LT α] [DecidableLT α] [KeyOrder α] (hkey : c.Steady)
    (hvalue : d.Steady) : (orderedMap c d).Steady :=
  (hkey.pair hvalue).list.convert

/-! ### Modules -/

/-- More octets do not change how a field value is read. -/
theorem steady_fieldValue : fieldValue.Steady := by
  have henumeration : enumeration.Steady :=
    steady_text.pair (steady_int64.orderedMap steady_text)
  intro bytes more hend
  have hform : number32.read bytes ≠ .error .endOfInput :=
    fun hform => hend (by simp only [fieldValue, hform])
  have hmore := steady_number32 bytes more hform
  rcases hread : number32.read bytes with fault | ⟨form, rest⟩
  · simp only [fieldValue, hmore, hread, behind_error]
  · simp only [fieldValue, hread] at hend
    simp only [fieldValue, hmore, hread, behind_ok]
    unfold readForm at hend ⊢
    split at hend
    · exact steady_text.as hend more
    · exact steady_text.list.as hend more
    · exact henumeration.as hend more
    · rfl

/-- More octets do not change how an object is read. -/
theorem steady_object : object.Steady :=
  have hoption : (optional text).Steady := steady_text.optional
  (steady_text.pair <| steady_text.pair <| hoption.pair <| hoption.pair <| hoption.pair <|
    hoption.pair <| steady_text.orderedMap steady_fieldValue).convert

/-- More octets do not change how a module is read. -/
theorem steady_moduleDefinition : moduleDefinition.Steady :=
  (steady_text.pair <| (steady_text.orderedMap steady_text.list).pair <|
    steady_object.list.pair <| steady_text.orderedMap steady_number64).convert

/-- More octets do not change how modules are read. -/
theorem steady_moduleSet : moduleSet.Steady :=
  steady_moduleDefinition.list.convert

/-- What was written is read to its last octet: a proper start of it runs out of octets. -/
theorem Steady.read_truncated (h : c.Steady) {value : α} (hvalue : c.ReadsBack value)
    (hbegins : bytes <+: c.write value) (hproper : bytes ≠ c.write value) :
    c.read bytes = .error .endOfInput := by
  obtain ⟨more, hmore⟩ := hbegins
  by_contra hend
  have hwhole := hvalue []
  rw [List.append_nil, ← hmore, h bytes more hend] at hwhole
  rcases hread : c.read bytes with fault | ⟨found, rest⟩
  · rw [hread, behind_error] at hwhole
    cases hwhole
  · rw [hread, behind_ok, Except.ok.injEq, Prod.mk.injEq, List.append_eq_nil_iff] at hwhole
    refine hproper ?_
    rw [← hmore, hwhole.2.2, List.append_nil]

end Codec

namespace Cache

variable {bytes : List UInt8} {fingerprint : Option Fingerprint}

/-- Eight octets are too few for a header. -/
theorem splitHeader_of_length_le (hlength : bytes.length ≤ 8) :
    splitHeader bytes = .error .truncatedHeader := by
  rw [splitHeader, List.drop_eq_nil_of_le hlength]
  rfl

/-- A fingerprint that is announced and not there to its end is missed. -/
theorem splitHeader_of_announced {part : List UInt8} (hpart : part.length < 32) :
    splitHeader (magic ++ littleEndian version ++ 1 :: part) = .error .truncatedHeader := by
  have hbehind : (magic ++ littleEndian version ++ 1 :: part).drop 8 = 1 :: part := rfl
  have hmagic : (magic ++ littleEndian version ++ 1 :: part).take 4 = magic := rfl
  have hversion :
      numberOf (((magic ++ littleEndian version ++ 1 :: part).drop 4).take 4) = version := rfl
  have hshort : splitFingerprint? part = none := by
    rw [splitFingerprint?, dif_neg]
    rw [List.length_take]
    omega
  simp only [splitHeader, hbehind, hmagic, hversion, hshort, ne_eq, not_true_eq_false, if_false]
  rfl

/-- A proper start of a header is no header. -/
theorem splitHeader_of_prefix (hbegins : bytes <+: writeHeader fingerprint)
    (hproper : bytes ≠ writeHeader fingerprint) : splitHeader bytes = .error .truncatedHeader := by
  have hlength : bytes.length < (writeHeader fingerprint).length :=
    Nat.lt_of_le_of_ne hbegins.length_le fun heq => hproper (hbegins.eq_of_length heq)
  cases fingerprint with
  | none => exact splitHeader_of_length_le (Nat.le_of_lt_succ hlength)
  | some f =>
    by_cases hshort : bytes.length ≤ 8
    · exact splitHeader_of_length_le hshort
    · have hlead : (magic ++ littleEndian version ++ [1]).length ≤ bytes.length :=
        Nat.lt_of_not_le hshort
      obtain ⟨part, rfl⟩ : magic ++ littleEndian version ++ [1] <+: bytes :=
        List.prefix_of_prefix_length_le ⟨f.toList, List.append_assoc _ _ _⟩ hbegins hlead
      have hpart : part.length < 32 := by
        simp only [writeHeader, List.length_append, List.length_cons, List.length_nil,
          Vector.length_toList] at hlength
        omega
      rw [List.append_assoc _ [1], List.singleton_append]
      exact splitHeader_of_announced hpart

/-- No proper start of a cache is read as modules, whichever fingerprint is expected. Without the
end of its header a cache has a truncated header. Behind the header another fingerprint than the
expected one is noticed first, and else the octets of the modules run out. -/
theorem read_of_prefix (set : ModuleSet) (hset : set.Fits)
    (fingerprint expected : Option Fingerprint) (bytes : List UInt8)
    (hbegins : bytes <+: write set fingerprint) (hproper : bytes ≠ write set fingerprint) :
    read bytes expected = .error
      (if bytes.length < (writeHeader fingerprint).length then .truncatedHeader
      else if expected.isSome && fingerprint ≠ expected then .fingerprintMismatch
      else .payload .endOfInput) := by
  split_ifs with hheader hexpected
  · have hstart : bytes <+: writeHeader fingerprint :=
      List.prefix_of_prefix_length_le hbegins ⟨_, rfl⟩ (Nat.le_of_lt hheader)
    have hshort := fun heq => Nat.ne_of_lt hheader (congrArg List.length heq)
    rw [read, splitHeader_of_prefix hstart hshort]
    rfl
  all_goals
    obtain ⟨payload, rfl⟩ : writeHeader fingerprint <+: bytes :=
      List.prefix_of_prefix_length_le ⟨_, rfl⟩ hbegins (Nat.le_of_not_lt hheader)
    have hpayload : Codec.moduleSet.read payload = .error .endOfInput :=
      Codec.steady_moduleSet.read_truncated (Codec.readsBack_moduleSet hset)
        ((List.prefix_append_right_inj _).mp hbegins) fun heq => hproper (by rw [heq, write])
    rw [read, splitHeader_writeHeader]
    simp only [bind, Except.bind, hpayload, hexpected]
    rfl

/-- A module that imports a symbol and declares nothing. -/
def importingModules : ModuleSet :=
  ⟨[{ ModuleDefinition.named "SITE-MIB" with imports := .ofList [("SNMPv2-SMI", ["mib-2"])] }]⟩

/-- Without its last octet the cache of the module is refused, at the end of the octets or for
another fingerprint, and so is the start of its header. -/
theorem read_of_prefix_importing :
    let bytes := write importingModules (some (Vector.replicate 32 7))
    importingModules.Fits ∧ bytes.length = 72 ∧
      read bytes.dropLast (some (Vector.replicate 32 7)) = .error (.payload .endOfInput) ∧
      read bytes.dropLast (some (Vector.replicate 32 8)) = .error .fingerprintMismatch ∧
      read (bytes.take 40) none = .error .truncatedHeader := by
  intro bytes
  have hfits : importingModules.Fits := by
    refine ⟨by decide, ?_⟩
    rintro m (_ | ⟨_, ⟨⟩⟩)
    exact ⟨by decide, by decide, ⟨by decide, fun _ hobject => nomatch hobject⟩, by decide⟩
  have hlength : bytes.length = 72 := by decide +kernel
  have hlast : bytes.dropLast <+: bytes := List.dropLast_prefix bytes
  have hshorter : bytes.dropLast ≠ bytes := fun heq => by
    have hsame := congrArg List.length heq
    rw [List.length_dropLast, hlength] at hsame
    exact absurd hsame (by decide)
  have hheader : bytes.take 40 ≠ bytes := fun heq => by
    have hsame := congrArg List.length heq
    rw [List.length_take, hlength] at hsame
    exact absurd hsame (by decide)
  have hread := read_of_prefix importingModules hfits (some (Vector.replicate 32 7))
  refine ⟨hfits, hlength, ?_, ?_, ?_⟩
  · exact (hread _ _ hlast hshorter).trans (by decide +kernel)
  · exact (hread _ _ hlast hshorter).trans (by decide +kernel)
  · exact (hread _ _ (List.take_prefix 40 bytes) hheader).trans (by decide +kernel)

end Cache

end Smi
