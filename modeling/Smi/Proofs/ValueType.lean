import Mathlib.Data.List.Induction
import Mathlib.Data.Option.Basic
import Smi.ValueType

/-!
# The types of names

Conventions are collected object by object, and each one is understood through those before it. The
outcome does not depend on the collecting: a name has its built-in type, or the type of the first
textual convention of this name whose `SYNTAX` has a type among the objects before it. Such types
are passed along chains of conventions from an enumeration or a built-in type, and modules that are
compiled later take no type away.
-/

namespace Smi

/-- The type that an object gives to a name, if it is a textual convention of this name, from the
types that names have before it. -/
def ObjectDefinition.gives? (object : ObjectDefinition) (known : String → Option ValueType)
    (name : String) : Option ValueType :=
  if object.macroName = some "TEXTUAL-CONVENTION" ∧ object.name = name then
    match object.type? with
    | some (.enumeration _ _) => some .integer
    | some (.text other) => known other
    | _ => none
  else none

/-- An object gives a type to its name exactly if it is a textual convention of an enumeration or of
a name with this type. -/
theorem ObjectDefinition.gives?_eq_some_iff {object : ObjectDefinition}
    {known : String → Option ValueType} {name : String} {type : ValueType} :
    object.gives? known name = some type ↔
      object.macroName = some "TEXTUAL-CONVENTION" ∧ object.name = name ∧
        ((∃ base labels, object.type? = some (.enumeration base labels) ∧ type = .integer) ∨
          ∃ other, object.type? = some (.text other) ∧ known other = some type) := by
  unfold gives?
  split_ifs with h
  · cases htype : object.type? with
    | none => simp
    | some value => cases value <;> simp [h, eq_comm]
  · simp only [false_iff, not_and]
    exact fun hkind hname => absurd ⟨hkind, hname⟩ h

namespace Conventions

variable {conventions : Conventions} {object : ObjectDefinition} {objects : List ObjectDefinition}
  {name : String} {type : ValueType}

/-- The type of a name among objects: the built-in one, or the one that is given by the first object
that gives it a type on the ground of the objects before it. -/
def among? (objects : List ObjectDefinition) (name : String) : Option ValueType :=
  ValueType.ofBuiltin? name <|> (List.range objects.length).findSome? fun i =>
    if h : i < objects.length then
      objects[i].gives? (fun other => among? (objects.take i) other) name
    else none
termination_by objects.length
decreasing_by
  rw [List.length_take]
  omega

/-! ### Collecting conventions -/

/-- A convention gives the type that its `SYNTAX` has. -/
theorem gives?_get? (conventions : Conventions) (object : ObjectDefinition) (name : String) :
    object.gives? conventions.get? name =
      if object.macroName = some "TEXTUAL-CONVENTION" ∧ object.name = name then
        object.type?.bind conventions.typeOf?
      else none := by
  unfold ObjectDefinition.gives?
  rcases object.type? with _ | (content | items | ⟨base, labels⟩) <;> rfl

/-- An object that is taken in gives its type to a name without one, and nothing else changes. -/
theorem get?_add (conventions : Conventions) (object : ObjectDefinition) (name : String) :
    (conventions.add object).get? name =
      (conventions.get? name <|> object.gives? conventions.get? name) := by
  rw [gives?_get?]
  by_cases hkind : object.macroName = some "TEXTUAL-CONVENTION"
  · cases hknown : conventions.get? object.name with
    | some known =>
      -- The name has a type already, so the object does not count.
      by_cases hname : object.name = name
      · subst hname
        simp [add, hknown]
      · simp [add, hknown, hname]
    | none =>
      cases htype : object.type?.bind conventions.typeOf? with
      | none => simp [add, hkind, hknown, htype]
      | some type =>
        have hadd : conventions.add object = ⟨conventions.types.insert object.name type⟩ := by
          simp [add, hkind, hknown, htype]
        by_cases hname : object.name = name
        · subst hname
          have hfree := hknown
          simp only [get?, Option.orElse_eq_orElse, Option.orElse_eq_or,
            Option.or_eq_none_iff] at hfree
          simp [hadd, hkind, get?, hfree.1, hfree.2, OrderedMap.get?_insert]
        · have hother : name ≠ object.name := fun heq => hname heq.symm
          simp [hadd, get?, hname, hother, OrderedMap.get?_insert]
  · simp [add, hkind]

/-- The type that the object at a place gives to a name. -/
def given? (objects : List ObjectDefinition) (name : String) (i : ℕ) : Option ValueType :=
  if h : i < objects.length then objects[i].gives? (among? (objects.take i)) name else none

/-- A name has its built-in type or else the first one that an object gives to it. -/
theorem among?_eq (objects : List ObjectDefinition) (name : String) :
    among? objects name =
      (ValueType.ofBuiltin? name <|> (List.range objects.length).findSome? (given? objects name)) :=
  among?.eq_1 objects name

/-- A place gives the same types when objects are added behind it. -/
theorem given?_append {i : ℕ} (hi : i < objects.length) (more : List ObjectDefinition)
    (name : String) : given? (objects ++ more) name i = given? objects name i := by
  have hlonger : i < (objects ++ more).length := by
    rw [List.length_append]
    omega
  rw [given?, given?, dif_pos hi, dif_pos hlonger, List.getElem_append_left hi,
    List.take_append_of_le_length (Nat.le_of_lt hi)]

/-- The type of a name with one more object behind the others. -/
theorem among?_concat (objects : List ObjectDefinition) (object : ObjectDefinition)
    (name : String) : among? (objects ++ [object]) name =
      (among? objects name <|> object.gives? (among? objects) name) := by
  have hearlier : (List.range objects.length).findSome? (given? (objects ++ [object]) name) =
      (List.range objects.length).findSome? (given? objects name) := by
    have hsame : (List.range objects.length).map (given? (objects ++ [object]) name) =
        (List.range objects.length).map (given? objects name) :=
      List.map_congr_left fun i hi => given?_append (List.mem_range.mp hi) [object] name
    simpa [List.findSome?_map] using congrArg (List.findSome? id) hsame
  have hlast : given? (objects ++ [object]) name objects.length =
      object.gives? (among? objects) name := by
    simp [given?]
  rw [among?_eq, among?_eq objects, List.length_append, List.length_singleton, List.range_succ,
    List.findSome?_append, hearlier, List.findSome?_singleton, hlast]
  simp [Option.or_assoc]

/-- The types of the conventions that have been taken in from objects. -/
theorem get?_foldl_add (objects : List ObjectDefinition) :
    (objects.foldl add builtin).get? = among? objects := by
  induction objects using List.reverseRecOn with
  | nil =>
    funext name
    rw [among?]
    rfl
  | append_singleton objects object ih =>
    funext name
    rw [List.foldl_append, List.foldl_cons, List.foldl_nil, get?_add, ih, among?_concat]

/-- Types stay when more objects are taken in. -/
theorem get?_foldl_add_of_some (h : conventions.get? name = some type)
    (objects : List ObjectDefinition) : (objects.foldl add conventions).get? name = some type := by
  induction objects generalizing conventions with
  | nil => exact h
  | cons object objects ih =>
    refine ih ?_
    rw [get?_add, h]
    rfl

/-- A type that a name has among the first objects it has among all of them. -/
theorem among?_of_take {i : ℕ} (h : among? (objects.take i) name = some type) :
    among? objects name = some type := by
  rw [← get?_foldl_add] at h ⊢
  rw [← List.take_append_drop i objects, List.foldl_append]
  exact get?_foldl_add_of_some h _

/-! ### Chains of conventions -/

/-- A chain of conventions at whose end, at a place among objects, a convention stands. The first
one is an enumeration or has a built-in type, and each of the others refers to the one before it,
which stands in front of it. No name of a convention has a type before the convention. -/
inductive Chain (objects : List ObjectDefinition) : ℕ → ObjectDefinition → ValueType → Prop
  | base {i : ℕ} {object : ObjectDefinition} {type : ValueType}
      (hobject : objects[i]? = some object) (hfirst : among? (objects.take i) object.name = none)
      (htype : object.gives? ValueType.ofBuiltin? object.name = some type) :
      Chain objects i object type
  | step {i j : ℕ} {object next : ObjectDefinition} {type : ValueType}
      (hchain : Chain objects i object type) (hlater : i < j) (hnext : objects[j]? = some next)
      (hfirst : among? (objects.take j) next.name = none)
      (hkind : next.macroName = some "TEXTUAL-CONVENTION")
      (href : next.type? = some (.text object.name)) : Chain objects j next type

/-- An object gives the same type if no type gets lost before it. -/
theorem gives?_of_imp {known other : String → Option ValueType}
    (h : ∀ name type, known name = some type → other name = some type)
    (hgives : object.gives? known name = some type) : object.gives? other name = some type := by
  obtain ⟨hkind, hname, hbase | ⟨content, htype, hcontent⟩⟩ :=
    ObjectDefinition.gives?_eq_some_iff.mp hgives
  · exact ObjectDefinition.gives?_eq_some_iff.mpr ⟨hkind, hname, .inl hbase⟩
  · exact ObjectDefinition.gives?_eq_some_iff.mpr
      ⟨hkind, hname, .inr ⟨content, htype, h content type hcontent⟩⟩

/-- A built-in type comes first. -/
theorem among?_of_builtin (h : ValueType.ofBuiltin? name = some type) :
    among? objects name = some type := by
  rw [among?_eq, h]
  rfl

/-- The objects up to a place are those before it and the one that stands there. -/
theorem take_succ_of_getElem? {i : ℕ} (hobject : objects[i]? = some object) :
    objects.take (i + 1) = objects.take i ++ [object] := by
  rw [List.take_add_one, hobject]
  rfl

/-- The first object that gives its name a type gives it to the objects behind it. -/
theorem among?_take_of_gives {i k : ℕ} (hobject : objects[i]? = some object)
    (hfirst : among? (objects.take i) object.name = none)
    (hgives : object.gives? (among? (objects.take i)) object.name = some type) (hk : i < k) :
    among? (objects.take k) object.name = some type := by
  have hhere : among? (objects.take (i + 1)) object.name = some type := by
    rw [take_succ_of_getElem? hobject, among?_concat, hfirst, hgives]
    rfl
  refine among?_of_take (i := i + 1) ?_
  rwa [List.take_take, Nat.min_eq_left hk]

/-- Every convention of a chain has the type from the base of the chain. -/
theorem Chain.among?_take {i k : ℕ} (h : Chain objects i object type) (hk : i < k) :
    among? (objects.take k) object.name = some type := by
  induction h generalizing k with
  | base hobject hfirst htype =>
    exact among?_take_of_gives hobject hfirst
      (gives?_of_imp (fun _ _ hbuiltin => among?_of_builtin hbuiltin) htype) hk
  | step hchain hlater hnext hfirst hkind href ih =>
    refine among?_take_of_gives hnext hfirst ?_ hk
    simp [ObjectDefinition.gives?, hkind, href, ih hlater]

/-- A chain ends among the objects. -/
theorem Chain.lt_length {i : ℕ} (h : Chain objects i object type) : i < objects.length := by
  cases h with
  | base hobject => exact (List.getElem?_eq_some_iff.mp hobject).1
  | step _ _ hnext => exact (List.getElem?_eq_some_iff.mp hnext).1

/-- A name with a type among the first objects is built in or stands at the end of a chain. -/
theorem exists_chain_of_among? {n : ℕ} (h : among? (objects.take n) name = some type) :
    ValueType.ofBuiltin? name = some type ∨
      ∃ i < n, ∃ object, Chain objects i object type ∧ object.name = name := by
  induction n generalizing name type with
  | zero =>
    rw [List.take_zero, among?_eq] at h
    exact .inl (by simpa using h)
  | succ n ih =>
    have hearlier (h : among? (objects.take n) name = some type) :
        ValueType.ofBuiltin? name = some type ∨
          ∃ i < n + 1, ∃ object, Chain objects i object type ∧ object.name = name :=
      (ih h).imp_right fun ⟨i, hi, hchain⟩ => ⟨i, Nat.lt_succ_of_lt hi, hchain⟩
    cases hobject : objects[n]? with
    | none =>
      rw [List.take_add_one, hobject, Option.toList_none, List.append_nil] at h
      exact hearlier h
    | some object =>
      rw [take_succ_of_getElem? hobject, among?_concat] at h
      cases hfirst : among? (objects.take n) name with
      | some known => exact hearlier (by rwa [hfirst] at h ⊢)
      | none =>
        rw [hfirst] at h
        obtain ⟨hkind, rfl, hbase | ⟨other, htype, hother⟩⟩ :=
          ObjectDefinition.gives?_eq_some_iff.mp h
        · exact .inr ⟨n, Nat.lt_succ_self n, object, .base hobject hfirst
            (ObjectDefinition.gives?_eq_some_iff.mpr ⟨hkind, rfl, .inl hbase⟩), rfl⟩
        · refine .inr ⟨n, Nat.lt_succ_self n, object, ?_, rfl⟩
          rcases ih hother with hbuiltin | ⟨i, hi, base, hchain, rfl⟩
          · exact .base hobject hfirst (ObjectDefinition.gives?_eq_some_iff.mpr
              ⟨hkind, rfl, .inr ⟨other, htype, hbuiltin⟩⟩)
          · exact .step hchain hi hobject hfirst hkind htype

/-- A name has a type among objects exactly if it is built in or stands at the end of a chain. -/
theorem among?_eq_some_iff : among? objects name = some type ↔
    ValueType.ofBuiltin? name = some type ∨
      ∃ i object, Chain objects i object type ∧ object.name = name := by
  constructor
  · intro h
    rw [← List.take_length (l := objects)] at h
    rcases exists_chain_of_among? h with hbuiltin | ⟨i, _, object, hchain, hname⟩
    · exact .inl hbuiltin
    · exact .inr ⟨i, object, hchain, hname⟩
  · rintro (hbuiltin | ⟨i, object, hchain, rfl⟩)
    · exact among?_of_builtin hbuiltin
    · have hall := hchain.among?_take hchain.lt_length
      rwa [List.take_length] at hall

/-! ### Modules -/

/-- A module with a new name adds its objects behind those of the other modules. -/
theorem objects_insert {set : ModuleSet} {m : ModuleDefinition}
    (hnew : set.module? m.name = none) : (set.insert m).objects = set.objects ++ m.objects := by
  have herase : set.modules.eraseP (fun other => other.name = m.name) = set.modules :=
    List.eraseP_of_forall_not (List.find?_eq_none.mp hnew)
  rw [ModuleSet.insert, ModuleSet.erase, herase, ModuleSet.objects, List.flatMap_append,
    List.flatMap_singleton]
  rfl

/-- A name has its built-in type among modules, or else the type of the first textual convention of
this name, in the order of compilation, that is an enumeration or refers to a name that has a type
among the objects before it. So the names with a type are the built-in ones and those at the ends of
chains of conventions, of whatever length, each of which has the type from the base of its chain. A
module with a new name takes no type away. -/
theorem get?_ofModules (set : ModuleSet) :
    (∀ name, (ofModules set).get? name = among? set.objects name) ∧
      (∀ name type, (ofModules set).get? name = some type ↔
        ValueType.ofBuiltin? name = some type ∨
          ∃ i object, Chain set.objects i object type ∧ object.name = name) ∧
      ∀ m, set.module? m.name = none → ∀ name type,
        (ofModules set).get? name = some type →
          (ofModules (set.insert m)).get? name = some type := by
  have hget : (ofModules set).get? = among? set.objects := get?_foldl_add set.objects
  refine ⟨fun name => congrFun hget name, fun name type => ?_, fun m hnew name type h => ?_⟩
  · rw [hget]
    exact among?_eq_some_iff
  · rw [ofModules, objects_insert hnew, List.foldl_append]
    exact get?_foldl_add_of_some h m.objects

/-- A module of textual conventions, each with the name to which it refers. -/
def portModule (name : String) (conventions : List (String × String)) : ModuleDefinition where
  name := name
  imports := .empty
  objects := conventions.map fun (convention, type) =>
    { ObjectDefinition.bare convention name with
      macroName := some "TEXTUAL-CONVENTION"
      fields := .ofList [("SYNTAX", .text type)] }
  places := .empty

/-- Two modules of conventions. `PortAlias` is defined too early at first, and `DisplayString` has a
built-in type. -/
def portModules : ModuleSet where
  modules := [
    portModule "PORT-TC" [("PortAlias", "PortIndex"), ("PortIndex", "Integer32"),
      ("DisplayString", "Counter64")],
    portModule "LINK-TC" [("PortRef", "PortIndex"), ("PortAlias", "PortRef")]]

/-- The second definition of `PortAlias` stands at the end of a chain, and a later module does not
change the type of a convention on its way. -/
theorem get?_ofModules_ports :
    portModules.module? "GAUGE-TC" = none ∧
      (ofModules portModules).get? "DisplayString" = some .octetString ∧
      (∃ i object, Chain portModules.objects i object .integer ∧ object.name = "PortAlias") ∧
      (ofModules (portModules.insert (portModule "GAUGE-TC" [("PortRef", "Gauge32")]))).get?
        "PortRef" = some .integer := by
  obtain ⟨_, hchain, hinsert⟩ := get?_ofModules portModules
  have hnew : portModules.module? "GAUGE-TC" = none := by decide +kernel
  have halias : (ofModules portModules).get? "PortAlias" = some .integer := by decide +kernel
  refine ⟨hnew, (hchain _ _).mpr (.inl (by decide)), ?_, ?_⟩
  · exact ((hchain _ _).mp halias).resolve_left (by decide)
  · exact hinsert (portModule "GAUGE-TC" _) hnew _ _ (by decide +kernel)

end Conventions

end Smi
