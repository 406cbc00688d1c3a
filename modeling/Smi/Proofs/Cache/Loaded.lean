import Smi.Proofs.Cache.RoundTrip
import Smi.Proofs.Compiler.Unit
import Smi.Proofs.Definition.Rebuilt
import Smi.Proofs.Text.Utf8

/-!
# What a cache can hold

The places of the objects stand in a cache beside the objects, and reading compares them with
nothing, no more than the names of the modules with one another. So any modules that can be written
are read from some octets. Those that are read have different names and find their objects exactly
when they are the ones that are built from their objects alone.
-/

namespace Smi

namespace Codec

variable {α β : Type} {c : Codec α} {d : Codec β} {p : α → Prop} {q : β → Prop}

/-- Whether a codec reads nothing but values of a kind, from whichever octets. -/
def ReadsOnly (c : Codec α) (p : α → Prop) : Prop :=
  ∀ bytes value rest, c.read bytes = .ok (value, rest) → p value

/-! ### Numbers, octets and texts -/

/-- A number has no more digits to the base 128 than octets are read. -/
theorem lt_of_readNumber {lastMax limit n : ℕ} {bytes rest : List UInt8}
    (h : readNumber lastMax (limit + 1) bytes = .ok (n, rest)) :
    n < 128 ^ limit * (lastMax + 1) := by
  induction limit generalizing bytes n rest with
  | zero =>
    cases bytes with
    | nil => cases h
    | cons byte others =>
      rw [readNumber] at h
      split at h
      · split at h
        · cases h
        · cases h
          omega
      · cases h
  | succ limit ih =>
    have hpos : 0 < 128 ^ limit * (lastMax + 1) :=
      Nat.mul_pos (Nat.pow_pos (by decide)) (Nat.succ_pos _)
    rw [Nat.pow_succ, Nat.mul_right_comm]
    cases bytes with
    | nil => cases h
    | cons byte others =>
      rw [readNumber] at h
      split at h
      · rw [if_neg (by omega)] at h
        cases h
        omega
      · rcases hread : readNumber lastMax (limit + 1) others with fault | ⟨high, behind⟩
        · simp [hread] at h
        · simp only [hread, Except.ok.injEq, Prod.mk.injEq] at h
          have hhigh := ih hread
          have hbyte := byte.toNat_lt
          omega

/-- What is read as a number of 64 bits is one. -/
theorem readsOnly_number64 : number64.ReadsOnly (· < 2 ^ 64) :=
  fun _ _ _ h => lt_of_readNumber h

/-- What is read as a value of another type is one for the values that are read. -/
theorem ReadsOnly.as {forth : α → β} (h : c.ReadsOnly p)
    (hforth : ∀ value, p value → q (forth value)) {bytes rest : List UInt8} {value : β}
    (hread : Reading.as forth (c.read bytes) = .ok (value, rest)) : q value := by
  rcases hpart : c.read bytes with fault | ⟨part, behind⟩
  · simp [Reading.as, hpart, Except.map] at hread
  · simp only [Reading.as, hpart, Except.map, Except.ok.injEq, Prod.mk.injEq] at hread
    rw [← hread.1]
    exact hforth part (h bytes part behind hpart)

/-- A codec for another type reads what the values of the first type become. -/
theorem ReadsOnly.convert {forth : α → β} {back : β → α} (h : c.ReadsOnly p)
    (hforth : ∀ value, p value → q (forth value)) : (c.convert forth back).ReadsOnly q :=
  fun _ _ _ hread => h.as hforth hread

/-- No more octets are read than a number of 64 bits counts. -/
theorem readsOnly_block : block.ReadsOnly (·.length < 2 ^ 64) := by
  intro bytes value rest hread
  rcases hcount : number64.read bytes with fault | ⟨count, behind⟩
  · simp [block, hcount] at hread
  · simp only [block, hcount] at hread
    split at hread
    · rw [List.splitAt_eq] at hread
      cases hread
      have hlt := readsOnly_number64 _ _ _ hcount
      rw [List.length_take]
      omega
    · cases hread

/-- What is read as a text is one that can be written. -/
theorem readsOnly_text : text.ReadsOnly FitsText := by
  intro bytes value rest hread
  rcases hcontent : block.read bytes with fault | ⟨content, behind⟩
  · simp [text, hcontent] at hread
  · cases hvalue : Text.ofOctets? content with
    | none => simp [text, hcontent, hvalue] at hread
    | some s =>
      simp only [text, hcontent, hvalue, Except.ok.injEq, Prod.mk.injEq] at hread
      rw [← hread.1, FitsText, Text.octets_of_ofOctets? hvalue]
      exact readsOnly_block _ _ _ hcontent

/-! ### Compound values -/

/-- Both values of a pair are of the kinds that are read. -/
theorem ReadsOnly.pair (hfirst : c.ReadsOnly p) (hsecond : d.ReadsOnly q) :
    (pair c d).ReadsOnly fun value => p value.1 ∧ q value.2 := by
  intro bytes value rest hread
  rcases hone : c.read bytes with fault | ⟨first, behind⟩
  · simp [Codec.pair, hone] at hread
  · rcases htwo : d.read behind with fault | ⟨second, last⟩
    · simp [Codec.pair, hone, htwo] at hread
    · simp only [Codec.pair, hone, htwo, Except.ok.injEq, Prod.mk.injEq] at hread
      rw [← hread.1]
      exact ⟨hfirst _ _ _ hone, hsecond _ _ _ htwo⟩

/-- As many values are read as are asked for, all of them of the kind that is read. -/
theorem forall_of_readMany (h : c.ReadsOnly p) {count : ℕ} {bytes rest : List UInt8}
    {values : List α} (hread : c.readMany count bytes = .ok (values, rest)) :
    values.length = count ∧ ∀ value ∈ values, p value := by
  induction count generalizing bytes rest values with
  | zero =>
    cases hread
    exact ⟨rfl, fun _ hmem => nomatch hmem⟩
  | succ count ih =>
    rw [readMany] at hread
    rcases hone : c.read bytes with fault | ⟨first, behind⟩
    · simp [hone] at hread
    · rcases hothers : c.readMany count behind with fault | ⟨others, last⟩
      · simp [hone, hothers] at hread
      · simp only [hone, hothers, Except.ok.injEq, Prod.mk.injEq] at hread
        obtain ⟨hlength, hmem⟩ := ih hothers
        rw [← hread.1]
        exact ⟨by rw [List.length_cons, hlength],
          List.forall_mem_cons.mpr ⟨h _ _ _ hone, hmem⟩⟩

/-- A list that is read has items of the kind that is read, and not too many of them. -/
theorem ReadsOnly.list (h : c.ReadsOnly p) : (list c).ReadsOnly (FitsList p) := by
  intro bytes value rest hread
  rcases hcount : number64.read bytes with fault | ⟨count, behind⟩
  · simp [Codec.list, hcount] at hread
  · simp only [Codec.list, hcount] at hread
    obtain ⟨rfl, hmem⟩ := forall_of_readMany h hread
    exact ⟨readsOnly_number64 _ _ _ hcount, hmem⟩

/-- A value that may be missing is of the kind that is read if it is there. -/
theorem ReadsOnly.optional (h : c.ReadsOnly p) :
    (optional c).ReadsOnly fun value => ∀ content ∈ value, p content := by
  intro bytes value rest hread
  cases bytes with
  | nil => cases hread
  | cons flag bytes =>
    simp only [Codec.optional] at hread
    split at hread
    · cases hread
      exact fun _ hmem => absurd hmem (Option.not_mem_none _)
    · split at hread
      · rcases hcontent : c.read bytes with fault | ⟨content, behind⟩
        · simp [hcontent] at hread
        · simp only [hcontent, Except.ok.injEq, Prod.mk.injEq] at hread
          rw [← hread.1]
          rintro _ ⟨⟩
          exact h _ _ _ hcontent
      · cases hread

/-- The keys and values of an ordered map are of the kinds that are read. -/
theorem ReadsOnly.orderedMap [LT α] [DecidableLT α] [KeyOrder α] (hkey : c.ReadsOnly p)
    (hvalue : d.ReadsOnly q) : (orderedMap c d).ReadsOnly fun m =>
      FitsList (fun entry => p entry.1 ∧ q entry.2) m.entries :=
  (hkey.pair hvalue).list.convert fun _ hentries =>
    ⟨Nat.lt_of_le_of_lt (OrderedMap.length_ofList_le _) hentries.1,
      fun entry hentry => hentries.2 entry (OrderedMap.mem_of_mem_ofList hentry)⟩

/-! ### Modules -/

/-- What is read as a list of texts can be written. -/
theorem readsOnly_texts : (list text).ReadsOnly (FitsList FitsText) :=
  readsOnly_text.list

/-- What is read as an enumeration can be written. -/
theorem readsOnly_enumeration : enumeration.ReadsOnly fun value =>
    (FieldValue.enumeration value.1 value.2).Fits := by
  have hcode : int64.ReadsOnly fun _ => True := fun _ _ _ _ => trivial
  have hparts := readsOnly_text.pair (hcode.orderedMap readsOnly_text)
  intro bytes value rest hread
  obtain ⟨hbase, hlength, hlabels⟩ := hparts bytes value rest hread
  exact ⟨hbase, hlength, fun entry hentry => (hlabels entry hentry).2⟩

/-- What is read as a field value can be written. -/
theorem readsOnly_fieldValue : fieldValue.ReadsOnly FieldValue.Fits := by
  intro bytes value rest hread
  rcases hform : number32.read bytes with fault | ⟨form, behind⟩
  · simp [fieldValue, hform] at hread
  · simp only [fieldValue, hform] at hread
    unfold readForm at hread
    split at hread
    · exact readsOnly_text.as (fun s (h : FitsText s) => show (FieldValue.text s).Fits from h) hread
    · exact readsOnly_texts.as
        (fun items (h : FitsList FitsText items) => show (FieldValue.list items).Fits from h) hread
    · exact readsOnly_enumeration.as (fun _ h => h) hread
    · cases hread

/-- What is read as an object can be written. -/
theorem readsOnly_object : object.ReadsOnly ObjectDefinition.Fits :=
  have hoption : (optional text).ReadsOnly fun value => ∀ s ∈ value, FitsText s :=
    readsOnly_text.optional
  (readsOnly_text.pair <| readsOnly_text.pair <| hoption.pair <| hoption.pair <| hoption.pair <|
    hoption.pair <| readsOnly_text.orderedMap readsOnly_fieldValue).convert
      fun _ ⟨hname, hmoduleName, hmacroName, hclause, hoid, hnameSpace, hfields⟩ =>
        ⟨hname, hmoduleName, hmacroName, hclause, hoid, hnameSpace, hfields⟩

/-- What is read as a module can be written. -/
theorem readsOnly_moduleDefinition : moduleDefinition.ReadsOnly ModuleDefinition.Fits :=
  (readsOnly_text.pair <| (readsOnly_text.orderedMap readsOnly_texts).pair <|
    readsOnly_object.list.pair <| readsOnly_text.orderedMap readsOnly_number64).convert
      fun _ ⟨hname, himports, hobjects, hplaces⟩ => ⟨hname, himports, hobjects, hplaces⟩

/-- What is read as modules can be written. -/
theorem readsOnly_moduleSet : moduleSet.ReadsOnly ModuleSet.Fits :=
  readsOnly_moduleDefinition.list.convert fun _ hmodules => hmodules

end Codec

namespace Cache

variable {set : ModuleSet} {fingerprint expected : Option Fingerprint} {bytes : List UInt8}

/-- What is read from a cache is read from the octets behind its header. -/
theorem exists_payload (h : read bytes expected = .ok set) :
    ∃ payload rest, Codec.moduleSet.read payload = .ok (set, rest) := by
  obtain ⟨⟨stored, payload⟩, _, h⟩ := bind_eq_ok_iff.mp h
  dsimp only at h
  split at h
  · cases h
  · split at h
    next found rest hread =>
      obtain rfl := pure_eq_ok_iff.mp h
      exact ⟨payload, rest, hread⟩
    next => cases h

/-- Modules that can be written are read behind any header, with the fingerprint in it or with
none expected. -/
theorem read_write_of_fits (hset : set.Fits)
    (hexpected : expected = none ∨ expected = fingerprint) :
    read (write set fingerprint) expected = .ok set := by
  have hpayload : Codec.moduleSet.read (Codec.moduleSet.write set) = .ok (set, []) := by
    simpa using Codec.readsBack_moduleSet hset []
  have hsame : (expected.isSome && decide (fingerprint ≠ expected)) = false := by
    rcases hexpected with rfl | rfl <;> simp
  rw [read, write, splitHeader_writeHeader]
  simp only [bind, Except.bind, hsame, hpayload]
  rfl

/-- Reading octets leads to modules that can be written, and any modules that can be written are
read from some octets, whatever their places say and whether or not their names are different. Of
the modules that are read the names are different, and the places are exactly those where the names
of the objects stand, if and only if they are the modules that are built from the objects alone.
Then every place is one of an object, and an object is found under its name and under no other. So
it is with what is read from the cache of modules to which calls have led. -/
theorem loaded_modules (bytes : List UInt8) (expected : Option Fingerprint) :
    (∀ set, read bytes expected = .ok set → set.Fits ∧
      (set.rebuilt = set ↔ (set.modules.map ModuleDefinition.name).Nodup ∧
        ∀ m ∈ set.modules, m.names.Nodup ∧
          ∀ name place, m.places.get? name = some place ↔ m.names[place]? = some name) ∧
      (set.rebuilt = set → ∀ m ∈ set.modules, set.module? m.name = some m ∧
        (∀ name place, m.places.get? name = some place → place < m.size) ∧
        ∀ name object, m.object? name = some object ↔
          object ∈ m.objects ∧ object.name = name)) ∧
    (∀ set, set.Fits → read (write set expected) expected = .ok set) ∧
    ∀ source, source.Obtained → source.Fits → ∀ fingerprint,
      expected = none ∨ expected = fingerprint →
        ∃ set, read (write source fingerprint) expected = .ok set ∧ set.rebuilt = set := by
  refine ⟨fun set hread => ⟨?_, ?_, fun hrebuilt m hm => ?_⟩,
    fun set hset => read_write_of_fits hset (.inr rfl),
    fun source hsource hfits fingerprint hexpected => ?_⟩
  · obtain ⟨payload, rest, hpayload⟩ := exists_payload hread
    exact Codec.readsOnly_moduleSet payload set rest hpayload
  · rw [← ModuleSet.consistent_iff_rebuilt_eq]
    constructor
    · exact fun h => ⟨h.nodup, fun m hm => ⟨(h.indexed m hm).nodup, h.indexed m hm⟩⟩
    · exact fun ⟨hnodup, hmodules⟩ => ⟨hnodup, fun m hm => (hmodules m hm).2⟩
  · have hconsistent := ModuleSet.consistent_iff_rebuilt_eq.mpr hrebuilt
    have hindexed := hconsistent.indexed m hm
    exact ⟨hconsistent.module?_eq_some hm, fun _ _ => hindexed.lt_size,
      fun _ _ => hindexed.object?_eq_some_iff⟩
  · exact ⟨source, read_write_of_fits hfits hexpected,
      ModuleSet.consistent_iff_rebuilt_eq.mp hsource.consistent⟩

/-- The cache of compiled readings is read as they were compiled, and every object is found under
its name. -/
theorem loaded_modules_readings :
    let source := (Compiler.run [.compileTable .readings]).modules
    read (write source none) none = .ok source ∧ source.Fits ∧ source.rebuilt = source ∧
      (source.modules.map ModuleDefinition.name).Nodup ∧
      ∀ m ∈ source.modules, source.module? m.name = some m ∧
        ∀ name object, m.object? name = some object ↔ object ∈ m.objects ∧ object.name = name := by
  intro source
  have hfits : source.Fits := by decide +kernel
  obtain ⟨hloads, hwritten, hobtained⟩ := loaded_modules (write source none) none
  have hread : read (write source none) none = .ok source := hwritten source hfits
  obtain ⟨set, hset, hrebuilt⟩ := hobtained source (.compiled _) hfits none (.inl rfl)
  obtain rfl : source = set := Except.ok.inj (hread.symm.trans hset)
  obtain ⟨_, hsame, hfound⟩ := hloads source hread
  exact ⟨hread, hfits, hrebuilt, (hsame.mp hrebuilt).1, fun m hm =>
    ⟨(hfound hrebuilt m hm).1, (hfound hrebuilt m hm).2.2⟩⟩

/-- A cache with a module that has no objects but a place for one. -/
def danglingCache : List UInt8 :=
  writeHeader none ++ [1, 1, 65, 0, 0, 1, 1, 120, 0]

/-- The place of no object is read like any other one. -/
theorem loaded_dangling :
    danglingCache = [77, 73, 66, 67, 1, 0, 0, 0, 0, 1, 1, 65, 0, 0, 1, 1, 120, 0] ∧
      ∃ m : ModuleDefinition, read danglingCache none = .ok ⟨[m]⟩ ∧
        m.places.get? "x" = some 0 ∧ m.size = 0 ∧ (⟨[m]⟩ : ModuleSet).rebuilt ≠ ⟨[m]⟩ := by
  refine ⟨by decide +kernel, ⟨"A", .empty, [], .ofList [("x", 0)]⟩, ?_⟩
  decide +kernel

end Cache

end Smi
