import Smi.Cache.Basic
import Smi.Proofs.Cache.Codec
import Smi.Proofs.Outcome

/-!
# Reading back a cache

Modules are read back from a cache as they were written, field by field, and with them the
fingerprint in the header. The only condition is that lengths and places are numbers of 64 bits, as
they are wherever the modules fit into memory.
-/

namespace Smi

/-! ### What can be written -/

/-- Whether the length of a text is a number of 64 bits. -/
def FitsText (s : String) : Prop :=
  (Text.octets s).length < 2 ^ 64

/-- Whether the length of a list is a number of 64 bits and all its items fit. -/
def FitsList {α : Type} (fits : α → Prop) (values : List α) : Prop :=
  values.length < 2 ^ 64 ∧ ∀ value ∈ values, fits value

instance (s : String) : Decidable (FitsText s) :=
  inferInstanceAs (Decidable (_ < _))

instance {α : Type} (fits : α → Prop) [DecidablePred fits] (values : List α) :
    Decidable (FitsList fits values) :=
  inferInstanceAs (Decidable (_ ∧ _))

/-- Whether the lengths in a field value are numbers of 64 bits. -/
def FieldValue.Fits : FieldValue → Prop
  | .text content => FitsText content
  | .list items => FitsList FitsText items
  | .enumeration base labels =>
    FitsText base ∧ FitsList (fun entry => FitsText entry.2) labels.entries

instance : DecidablePred FieldValue.Fits
  | .text content => inferInstanceAs (Decidable (FitsText content))
  | .list items => inferInstanceAs (Decidable (FitsList FitsText items))
  | .enumeration base labels =>
    inferInstanceAs (Decidable (FitsText base ∧
      FitsList (fun entry => FitsText entry.2) labels.entries))

/-- Whether the lengths in an object are numbers of 64 bits. -/
structure ObjectDefinition.Fits (object : ObjectDefinition) : Prop where
  name : FitsText object.name
  moduleName : FitsText object.moduleName
  macroName : ∀ s ∈ object.macroName, FitsText s
  clause : ∀ s ∈ object.clause, FitsText s
  oid : ∀ s ∈ object.oid, FitsText s
  nameSpace : ∀ s ∈ object.nameSpace, FitsText s
  fields : FitsList (fun entry => FitsText entry.1 ∧ entry.2.Fits) object.fields.entries

instance : DecidablePred ObjectDefinition.Fits := fun object =>
  decidable_of_iff (FitsText object.name ∧ FitsText object.moduleName ∧
      (∀ s ∈ object.macroName, FitsText s) ∧ (∀ s ∈ object.clause, FitsText s) ∧
      (∀ s ∈ object.oid, FitsText s) ∧ (∀ s ∈ object.nameSpace, FitsText s) ∧
      FitsList (fun entry => FitsText entry.1 ∧ entry.2.Fits) object.fields.entries)
    ⟨fun ⟨hname, hmoduleName, hmacroName, hclause, hoid, hnameSpace, hfields⟩ =>
        ⟨hname, hmoduleName, hmacroName, hclause, hoid, hnameSpace, hfields⟩,
      fun h => ⟨h.name, h.moduleName, h.macroName, h.clause, h.oid, h.nameSpace, h.fields⟩⟩

/-- Whether the lengths and places in a module are numbers of 64 bits. -/
structure ModuleDefinition.Fits (m : ModuleDefinition) : Prop where
  name : FitsText m.name
  imports : FitsList (fun entry => FitsText entry.1 ∧ FitsList FitsText entry.2) m.imports.entries
  objects : FitsList ObjectDefinition.Fits m.objects
  places : FitsList (fun entry => FitsText entry.1 ∧ entry.2 < 2 ^ 64) m.places.entries

instance : DecidablePred ModuleDefinition.Fits := fun m =>
  decidable_of_iff (FitsText m.name ∧
      FitsList (fun entry => FitsText entry.1 ∧ FitsList FitsText entry.2) m.imports.entries ∧
      FitsList ObjectDefinition.Fits m.objects ∧
      FitsList (fun entry => FitsText entry.1 ∧ entry.2 < 2 ^ 64) m.places.entries)
    ⟨fun ⟨hname, himports, hobjects, hplaces⟩ => ⟨hname, himports, hobjects, hplaces⟩,
      fun h => ⟨h.name, h.imports, h.objects, h.places⟩⟩

/-- Whether the lengths and places in some modules are numbers of 64 bits. -/
def ModuleSet.Fits (set : ModuleSet) : Prop :=
  FitsList ModuleDefinition.Fits set.modules

instance (set : ModuleSet) : Decidable set.Fits :=
  inferInstanceAs (Decidable (FitsList ModuleDefinition.Fits set.modules))

namespace Codec

variable {α : Type} {c : Codec α} {fits : α → Prop}

/-! ### Modules -/

/-- Lists that fit are read back if their items are. -/
theorem readsBack_listOf {values : List α} (hvalues : FitsList fits values)
    (h : ∀ value, fits value → c.ReadsBack value) : (list c).ReadsBack values :=
  readsBack_list hvalues.1 fun value hvalue => h value (hvalues.2 value hvalue)

/-- Lists of texts are read back. -/
theorem readsBack_texts {items : List String} (hitems : FitsList FitsText items) :
    (list text).ReadsBack items :=
  readsBack_listOf hitems fun _ => readsBack_text

/-- Field values of every form are read back. -/
theorem readsBack_fieldValue {value : FieldValue} (hvalue : value.Fits) :
    fieldValue.ReadsBack value := by
  have hform {form : Nat} (hform : form < 3) (rest : List UInt8) :
      number32.read (number32.write form ++ rest) = .ok (form, rest) :=
    readsBack_number32 (by omega) rest
  intro rest
  cases value with
  | text content =>
    have hread := readsBack_text hvalue rest
    simp only [fieldValue, List.append_assoc, hform (by decide : 0 < 3), readForm, hread]
    rfl
  | list items =>
    have hread := readsBack_texts hvalue rest
    simp only [fieldValue, List.append_assoc, hform (by decide : 1 < 3), readForm, hread]
    rfl
  | enumeration base labels =>
    have hlabels : (orderedMap int64 text).ReadsBack labels :=
      readsBack_orderedMap hvalue.2.1 fun entry hentry =>
        ⟨readsBack_int64 entry.1, readsBack_text (hvalue.2.2 entry hentry)⟩
    have hread : enumeration.ReadsBack (base, labels) :=
      (readsBack_text hvalue.1).pair hlabels
    simp only [fieldValue, List.append_assoc, hform (by decide : 2 < 3), readForm, hread rest]
    rfl

/-- Objects are read back. -/
theorem readsBack_object {value : ObjectDefinition} (hvalue : value.Fits) :
    object.ReadsBack value := by
  have hoption {content : Option String} (h : ∀ s ∈ content, FitsText s) :
      (optional text).ReadsBack content := readsBack_optional fun s hs => readsBack_text (h s hs)
  have hfields : (orderedMap text fieldValue).ReadsBack value.fields :=
    readsBack_orderedMap hvalue.fields.1 fun entry hentry =>
      ⟨readsBack_text (hvalue.fields.2 entry hentry).1,
        readsBack_fieldValue (hvalue.fields.2 entry hentry).2⟩
  exact ((readsBack_text hvalue.name).pair <| (readsBack_text hvalue.moduleName).pair <|
    (hoption hvalue.macroName).pair <| (hoption hvalue.clause).pair <|
    (hoption hvalue.oid).pair <| (hoption hvalue.nameSpace).pair hfields).convert rfl

/-- Single modules are read back. -/
theorem readsBack_moduleDefinition {value : ModuleDefinition} (hvalue : value.Fits) :
    moduleDefinition.ReadsBack value := by
  have himports : (orderedMap text (list text)).ReadsBack value.imports :=
    readsBack_orderedMap hvalue.imports.1 fun entry hentry =>
      ⟨readsBack_text (hvalue.imports.2 entry hentry).1,
        readsBack_texts (hvalue.imports.2 entry hentry).2⟩
  have hobjects : (list object).ReadsBack value.objects :=
    readsBack_listOf hvalue.objects fun _ => readsBack_object
  have hplaces : (orderedMap text number64).ReadsBack value.places :=
    readsBack_orderedMap hvalue.places.1 fun entry hentry =>
      ⟨readsBack_text (hvalue.places.2 entry hentry).1,
        readsBack_number64 (hvalue.places.2 entry hentry).2⟩
  exact ((readsBack_text hvalue.name).pair <| himports.pair <| hobjects.pair hplaces).convert rfl

/-- Modules are read back. -/
theorem readsBack_moduleSet {set : ModuleSet} (hset : set.Fits) : moduleSet.ReadsBack set :=
  (readsBack_listOf hset fun _ => readsBack_moduleDefinition).convert rfl

end Codec

namespace Cache

variable {set : ModuleSet} {fingerprint : Option Fingerprint} {payload : List UInt8}

/-! ### The header -/

/-- A fingerprint in front of other octets is split off again. -/
theorem splitFingerprint?_append (f : Fingerprint) (payload : List UInt8) :
    splitFingerprint? (f.toList ++ payload) = some (f, payload) := by
  simp [splitFingerprint?, Vector.toList]

/-- The header is split off again, with the fingerprint in it. -/
theorem splitHeader_writeHeader (fingerprint : Option Fingerprint) (payload : List UInt8) :
    splitHeader (writeHeader fingerprint ++ payload) = .ok (fingerprint, payload) := by
  cases fingerprint with
  | none => rfl
  | some f =>
    have hbehind : (writeHeader (some f) ++ payload).drop 8 = 1 :: (f.toList ++ payload) := rfl
    have hmagic : (writeHeader (some f) ++ payload).take 4 = magic := rfl
    have hversion : numberOf (((writeHeader (some f) ++ payload).drop 4).take 4) = version := rfl
    simp only [splitHeader, hbehind, hmagic, hversion, splitFingerprint?_append, ne_eq,
      not_true_eq_false, if_false]
    rfl

/-- A cache tells the fingerprint with which it was written, and it is read as the modules that were
written if no fingerprint or this one is expected. Any other expectation is refused. -/
theorem read_write (set : ModuleSet) (hset : set.Fits) (fingerprint : Option Fingerprint) :
    fingerprintOf (write set fingerprint) = .ok fingerprint ∧
      read (write set fingerprint) none = .ok set ∧
      ∀ expected, read (write set fingerprint) (some expected) =
        if fingerprint = some expected then .ok set else .error .fingerprintMismatch := by
  have hheader : splitHeader (write set fingerprint) =
      .ok (fingerprint, Codec.moduleSet.write set) := splitHeader_writeHeader fingerprint _
  have hpayload : Codec.moduleSet.read (Codec.moduleSet.write set) = .ok (set, []) := by
    have hread := Codec.readsBack_moduleSet hset []
    rwa [List.append_nil] at hread
  refine ⟨?_, ?_, fun expected => ?_⟩
  · rw [fingerprintOf, hheader]
    rfl
  · rw [read, hheader]
    simp only [bind, Except.bind, hpayload]
    rfl
  · rw [read, hheader]
    by_cases hexpected : fingerprint = some expected
    · simp [bind, Except.bind, hpayload, hexpected]
    · simp [bind, Except.bind, hexpected]
      rfl

/-- A module that declares one object with a field of each form and the least and the greatest
code. -/
def sensorModules : ModuleSet where
  modules := [{
    name := "SENSOR-MIB"
    imports := .ofList [("SNMPv2-SMI", ["enterprises", "OBJECT-TYPE"])]
    objects := [{
      name := "sensorState"
      moduleName := "SENSOR-MIB"
      macroName := some "OBJECT-TYPE"
      clause := some "enterprises 7"
      oid := some "1.3.6.1.4.1.7"
      nameSpace := none
      fields := .ofList [("DESCRIPTION", .text "Zustand \"aus\" oder »an«"),
        ("INDEX", .list ["sensorIndex", "IMPLIED sensorName"]),
        ("SYNTAX", .enumeration "INTEGER"
          (.ofList [(Int64.minValue, "low"), (Int64.maxValue, "high")]))] }]
    places := .ofList [("sensorState", 0)] }]

/-- The sensors are read back, and refused where another fingerprint is expected. -/
theorem read_write_sensors :
    let bytes := write sensorModules (some (Vector.replicate 32 7))
    sensorModules.Fits ∧ fingerprintOf bytes = .ok (some (Vector.replicate 32 7)) ∧
      read bytes none = .ok sensorModules ∧
      read bytes (some (Vector.replicate 32 8)) = .error .fingerprintMismatch := by
  have hfits : sensorModules.Fits := by decide +kernel
  obtain ⟨hfingerprint, hread, hexpected⟩ :=
    read_write sensorModules hfits (some (Vector.replicate 32 7))
  exact ⟨hfits, hfingerprint, hread, (hexpected _).trans (if_neg (by decide))⟩

end Cache

end Smi
