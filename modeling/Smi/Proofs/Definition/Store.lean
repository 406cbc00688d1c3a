import Mathlib.Data.List.Induction
import Mathlib.Data.List.Nodup
import Smi.Definition.Module
import Smi.Proofs.OrderedMap

/-!
# Modules and their index

A module finds its objects by a map from names to places. Whatever is declared in it, also again and
again under the same names, the map leads exactly to the places where the names stand. So no name
stands twice, and an object stands where its name was declared first and is what was declared last.
In a collection no two modules have the same name, and a module that comes in again moves to the end
and leaves the others as they are.
-/

namespace Smi

namespace ModuleDefinition

variable {m other : ModuleDefinition} {object : ObjectDefinition} {name : String}

/-- The names of the objects of a module, in their order. -/
def names (m : ModuleDefinition) : List String :=
  m.objects.map ObjectDefinition.name

/-- Whether the places of a module are those where the names of its objects stand. -/
def Indexed (m : ModuleDefinition) : Prop :=
  ∀ name place, m.places.get? name = some place ↔ m.names[place]? = some name

/-! ### What an index says -/

/-- Whether a module finds its objects depends on their names and places alone. -/
theorem Indexed.of_eq (h : m.Indexed) (hnames : other.names = m.names)
    (hplaces : other.places = m.places) : other.Indexed := by
  unfold Indexed
  rw [hnames, hplaces]
  exact h

/-- No name stands at two places, because it has one place in the index. -/
theorem Indexed.nodup (h : m.Indexed) : m.names.Nodup := by
  refine List.nodup_iff_getElem?_ne_getElem?.mpr fun i j hij hj hsame => ?_
  have hplace_j : m.places.get? m.names[j] = some j :=
    (h _ _).mpr (List.getElem?_eq_getElem hj)
  have hplace_i : m.places.get? m.names[j] = some i :=
    (h _ _).mpr (hsame.trans (List.getElem?_eq_getElem hj))
  rw [hplace_i] at hplace_j
  exact absurd (Option.some.inj hplace_j) (Nat.ne_of_lt hij)

/-- A place in the index is a place in the list. -/
theorem Indexed.lt_size (h : m.Indexed) {place : Nat} (hplace : m.places.get? name = some place) :
    place < m.size := by
  obtain ⟨hlt, _⟩ := List.getElem?_eq_some_iff.mp ((h _ _).mp hplace)
  rwa [names, List.length_map] at hlt

/-- The objects of one name are the same. -/
theorem Indexed.eq_of_name_eq (h : m.Indexed) {a b : ObjectDefinition} (ha : a ∈ m.objects)
    (hb : b ∈ m.objects) (hname : a.name = b.name) : a = b :=
  List.inj_on_of_nodup_map h.nodup ha hb hname

/-- The object of a name is the one that has it. -/
theorem Indexed.object?_eq_some_iff (h : m.Indexed) :
    m.object? name = some object ↔ object ∈ m.objects ∧ object.name = name := by
  rw [object?, Option.bind_eq_some_iff]
  constructor
  · rintro ⟨place, hplace, hobject⟩
    have hname : m.names[place]? = some object.name := by
      rw [names, List.getElem?_map, hobject, Option.map_some]
    exact ⟨List.mem_of_getElem? hobject, Option.some.inj (hname.symm.trans ((h _ _).mp hplace))⟩
  · rintro ⟨hmem, rfl⟩
    obtain ⟨place, hobject⟩ := List.mem_iff_getElem?.mp hmem
    refine ⟨place, (h _ _).mpr ?_, hobject⟩
    rw [names, List.getElem?_map, hobject, Option.map_some]

/-! ### Declaring objects -/

/-- An empty module finds the objects it has: none. -/
theorem named_indexed (name : String) : (named name).Indexed := fun _ _ => by
  simp [named, names, OrderedMap.empty, OrderedMap.get?]

/-- An object whose name has a place is put there. -/
theorem insert_of_get? {place : Nat} (h : m.places.get? object.name = some place) :
    m.insert object = { m with objects := m.objects.set place object } := by
  rw [insert, h]

/-- An object whose name has no place comes last. -/
theorem insert_of_new (h : m.places.get? object.name = none) :
    m.insert object = { m with
      objects := m.objects ++ [object]
      places := m.places.insert object.name m.objects.length } := by
  rw [insert, h]

/-- A name has no place if no object has it. -/
theorem Indexed.get?_eq_none_iff (h : m.Indexed) :
    m.places.get? name = none ↔ name ∉ m.names := by
  rw [← not_iff_not, not_not, List.mem_iff_getElem?, ← ne_eq, Option.ne_none_iff_exists']
  simp only [h name]

/-- A module keeps its name when an object is declared. -/
theorem name_insert (m : ModuleDefinition) (object : ObjectDefinition) :
    (m.insert object).name = m.name := by
  unfold insert
  split <;> rfl

/-- The name of an object that is declared again stays where it is, and a new one comes last. -/
theorem Indexed.names_insert (h : m.Indexed) (object : ObjectDefinition) :
    (m.insert object).names =
      if object.name ∈ m.names then m.names else m.names ++ [object.name] := by
  cases hplace : m.places.get? object.name with
  | some place =>
    have hname : m.names[place]? = some object.name := (h _ _).mp hplace
    obtain ⟨hlt, hget⟩ := List.getElem?_eq_some_iff.mp hname
    rw [insert_of_get? hplace, if_pos (List.mem_of_getElem? hname), names, List.map_set, ← names,
      ← hget, List.set_getElem_self]
  | none =>
    rw [insert_of_new hplace, if_neg (h.get?_eq_none_iff.mp hplace), names, List.map_append]
    rfl

/-- A module finds its objects after another one is declared. -/
theorem Indexed.insert (h : m.Indexed) (object : ObjectDefinition) :
    (m.insert object).Indexed := by
  intro name place
  rw [h.names_insert]
  cases hplace : m.places.get? object.name with
  | some old =>
    have hmem := List.mem_of_getElem? ((h _ _).mp hplace)
    rw [insert_of_get? hplace, if_pos hmem]
    exact h name place
  | none =>
    have hnew := h.get?_eq_none_iff.mp hplace
    have hsize : m.objects.length = m.names.length := (List.length_map _).symm
    rw [insert_of_new hplace, if_neg hnew, OrderedMap.get?_insert, hsize]
    -- The new name has the place behind all others, and no other name moves.
    by_cases hname : name = object.name
    · rw [if_pos hname, hname, List.getElem?_append]
      constructor
      · intro hlast
        obtain rfl := Option.some.inj hlast
        simp
      · intro hget
        split at hget
        · exact absurd (List.mem_of_getElem? hget) hnew
        · obtain ⟨hlt, _⟩ := List.getElem?_eq_some_iff.mp hget
          rw [List.length_singleton] at hlt
          exact congrArg some (by omega)
    · rw [if_neg hname, h name place, List.getElem?_append]
      split
      · rfl
      next hbound =>
        rw [List.getElem?_eq_none (Nat.le_of_not_lt hbound)]
        refine ⟨fun hnone => (nomatch hnone), fun hget => ?_⟩
        have hmem := List.mem_of_getElem? hget
        exact absurd (List.mem_singleton.mp hmem) hname

/-- An object is found under its name once it is declared, and under other names nothing changes. -/
theorem Indexed.mem_objects_insert (h : m.Indexed) (object other : ObjectDefinition) :
    other ∈ (m.insert object).objects ↔
      other = object ∨ other ∈ m.objects ∧ other.name ≠ object.name := by
  cases hplace : m.places.get? object.name with
  | some place =>
    have hname : m.names[place]? = some object.name := (h _ _).mp hplace
    obtain ⟨old, hold, hsame⟩ := Option.map_eq_some_iff.mp
      (show (m.objects[place]?).map ObjectDefinition.name = some object.name by
        rwa [names, List.getElem?_map] at hname)
    rw [insert_of_get? hplace]
    constructor
    · intro hmem
      obtain ⟨i, hi⟩ := List.mem_iff_getElem?.mp hmem
      rw [List.getElem?_set] at hi
      split at hi
      next hplace_i =>
        split at hi
        · exact .inl (Option.some.inj hi).symm
        · cases hi
      next hplace_i =>
        refine .inr ⟨List.mem_of_getElem? hi, fun heq => hplace_i ?_⟩
        have hget : m.names[i]? = some object.name := by
          rw [names, List.getElem?_map, hi, Option.map_some, heq]
        exact Option.some.inj (hplace.symm.trans ((h _ _).mpr hget))
    · rintro (rfl | ⟨hmem, hne⟩)
      · obtain ⟨hlt, _⟩ := List.getElem?_eq_some_iff.mp hold
        exact List.mem_set hlt _
      · obtain ⟨i, hi⟩ := List.mem_iff_getElem?.mp hmem
        refine List.mem_iff_getElem?.mpr ⟨i, ?_⟩
        rw [List.getElem?_set_ne, hi]
        rintro rfl
        rw [hold] at hi
        exact hne (Option.some.inj hi ▸ hsame)
  | none =>
    have hnew := h.get?_eq_none_iff.mp hplace
    rw [insert_of_new hplace, List.mem_append, List.mem_singleton, or_comm]
    have hother : other ∈ m.objects → other.name ≠ object.name := fun hmem heq =>
      hnew (heq ▸ List.mem_map_of_mem hmem)
    exact or_congr_right ⟨fun hmem => ⟨hmem, hother hmem⟩, And.left⟩

/-- A declared object is found by its name, and the others are found as before. -/
theorem Indexed.object?_insert (h : m.Indexed) (object : ObjectDefinition) (key : String) :
    (m.insert object).object? key = if object.name = key then some object else m.object? key := by
  refine Option.ext fun found => ?_
  rw [(h.insert object).object?_eq_some_iff, h.mem_objects_insert]
  split
  next hname =>
    rw [Option.some.injEq]
    constructor
    · rintro ⟨rfl | ⟨_, hne⟩, hfound⟩
      · rfl
      · exact absurd (hfound.trans hname.symm) hne
    · rintro rfl
      exact ⟨.inl rfl, hname⟩
  next hname =>
    rw [h.object?_eq_some_iff]
    constructor
    · rintro ⟨rfl | ⟨hmem, _⟩, hfound⟩
      · exact absurd hfound hname
      · exact ⟨hmem, hfound⟩
    · rintro ⟨hmem, hfound⟩
      exact ⟨.inr ⟨hmem, fun heq => hname (heq.symm.trans hfound)⟩, hfound⟩

/-! ### Declaring many objects -/

/-- The last of some objects that has a name. -/
def lastNamed? (objects : List ObjectDefinition) (name : String) : Option ObjectDefinition :=
  objects.reverse.find? fun object => object.name = name

/-- The module with some objects declared one after the other. -/
def declareAll (m : ModuleDefinition) (objects : List ObjectDefinition) : ModuleDefinition :=
  objects.foldl insert m

variable {declared : List ObjectDefinition}

/-- A module keeps its name when objects are declared. -/
theorem name_declareAll (m : ModuleDefinition) (objects : List ObjectDefinition) :
    (m.declareAll objects).name = m.name := by
  induction objects generalizing m with
  | nil => rfl
  | cons object rest ih => exact (ih (m.insert object)).trans (m.name_insert object)

/-- The last object is declared after those before it. -/
theorem declareAll_concat (m : ModuleDefinition) (declared : List ObjectDefinition)
    (object : ObjectDefinition) :
    m.declareAll (declared ++ [object]) = (m.declareAll declared).insert object := by
  rw [declareAll, List.foldl_append]
  rfl

/-- The last object of a name is the one at the end if it has the name. -/
theorem lastNamed?_concat (declared : List ObjectDefinition) (object : ObjectDefinition)
    (name : String) : lastNamed? (declared ++ [object]) name =
      if object.name = name then some object else lastNamed? declared name := by
  rw [lastNamed?, List.reverse_append, List.reverse_singleton, List.singleton_append,
    List.find?_cons]
  by_cases hname : object.name = name <;> simp [hname, lastNamed?]

/-- Objects of other names are not the last of a name. -/
theorem lastNamed?_append_of_ne {name : String} (declared : List ObjectDefinition)
    {after : List ObjectDefinition} (hafter : ∀ object ∈ after, object.name ≠ name) :
    lastNamed? (declared ++ after) name = lastNamed? declared name := by
  have hnone : lastNamed? after name = none :=
    List.find?_eq_none.mpr fun object hobject => by
      simpa using hafter object (List.mem_reverse.mp hobject)
  rw [lastNamed?] at hnone
  rw [lastNamed?, List.reverse_append, List.find?_append, hnone]
  rfl

/-- A module finds its objects after others are declared. -/
theorem Indexed.declareAll (h : m.Indexed) (declared : List ObjectDefinition) :
    (m.declareAll declared).Indexed := by
  induction declared using List.reverseRecOn with
  | nil => exact h
  | append_singleton declared object ih =>
    rw [declareAll_concat]
    exact ih.insert object

/-- Each name stands where it was declared first. -/
theorem names_declareAll (name : String) (declared : List ObjectDefinition) :
    ((named name).declareAll declared).names =
      (declared.map ObjectDefinition.name).eraseDups := by
  induction declared using List.reverseRecOn with
  | nil => rfl
  | append_singleton declared object ih =>
    have hindexed := (named_indexed name).declareAll declared
    rw [declareAll_concat, hindexed.names_insert, ih, List.map_append, List.eraseDups_append]
    by_cases hmem : object.name ∈ declared.map ObjectDefinition.name
    · have hnone : [object.name].removeAll (declared.map ObjectDefinition.name) = [] := by
        simpa [List.removeAll] using hmem
      rw [if_pos (List.mem_eraseDups.mpr hmem), List.map_singleton, hnone]
      simp
    · have hone : [object.name].removeAll (declared.map ObjectDefinition.name) =
          [object.name] := by
        simpa [List.removeAll] using hmem
      rw [if_neg fun h => hmem (List.mem_eraseDups.mp h), List.map_singleton, hone]
      rfl

/-- No names come in but those that are declared, in their order. -/
theorem sublist_names_declareAll (name : String) (declared : List ObjectDefinition) :
    List.Sublist ((named name).declareAll declared).names
      (declared.map ObjectDefinition.name) := by
  induction declared using List.reverseRecOn with
  | nil => exact List.Sublist.slnil
  | append_singleton declared object ih =>
    have hindexed := (named_indexed name).declareAll declared
    rw [declareAll_concat, hindexed.names_insert, List.map_append]
    split
    · exact ih.trans (List.sublist_append_left _ _)
    · exact ih.append (List.Sublist.refl _)

/-- What is declared last under a name is found under it. -/
theorem object?_declareAll (name key : String) (declared : List ObjectDefinition) :
    ((named name).declareAll declared).object? key = lastNamed? declared key := by
  induction declared using List.reverseRecOn with
  | nil => rfl
  | append_singleton declared object ih =>
    rw [declareAll_concat, ((named_indexed name).declareAll declared).object?_insert, ih,
      lastNamed?_concat]

/-- Each object is what was declared last under its name. -/
theorem lastNamed?_of_mem_declareAll {name : String} {object : ObjectDefinition}
    (hmem : object ∈ ((named name).declareAll declared).objects) :
    lastNamed? declared object.name = some object := by
  rw [← object?_declareAll name,
    ((named_indexed name).declareAll declared).object?_eq_some_iff]
  exact ⟨hmem, rfl⟩

/-- The objects of a module are what was declared last under each name, in the order in which the
names were declared first. -/
theorem objects_declareAll (name : String) (declared : List ObjectDefinition) :
    ((named name).declareAll declared).objects.map some =
      (declared.map ObjectDefinition.name).eraseDups.map (lastNamed? declared) := by
  rw [← names_declareAll name, names, List.map_map]
  exact List.map_congr_left fun object hmem => (lastNamed?_of_mem_declareAll hmem).symm

end ModuleDefinition

namespace ModuleSet

variable {set : ModuleSet} {m : ModuleDefinition} {name : String}

/-- Whether the modules have different names and each of them finds its objects. -/
structure Consistent (set : ModuleSet) : Prop where
  nodup : (set.modules.map ModuleDefinition.name).Nodup
  indexed : ∀ m ∈ set.modules, m.Indexed

/-- The collection without modules is consistent. -/
theorem empty_consistent : empty.Consistent :=
  ⟨List.nodup_nil, fun _ hmem => nomatch hmem⟩

/-- Where names are different, the modules of other names are left. -/
theorem modules_erase (hnodup : (set.modules.map ModuleDefinition.name).Nodup) (name : String) :
    (set.erase name).modules = set.modules.filter fun m => m.name ≠ name := by
  obtain ⟨modules⟩ := set
  unfold erase
  dsimp only at hnodup ⊢
  induction modules with
  | nil => rfl
  | cons first rest ih =>
    obtain ⟨hfirst, hrest⟩ := List.nodup_cons.mp hnodup
    by_cases hname : first.name = name
    · have hkeep : ∀ m ∈ rest, m.name ≠ name := fun m hm heq =>
        hfirst (hname.trans heq.symm ▸ List.mem_map_of_mem hm)
      rw [List.eraseP_cons_of_pos (by simpa using hname), List.filter_cons_of_neg (by simpa),
        List.filter_eq_self.mpr fun m hm => by simpa using hkeep m hm]
    · rw [List.eraseP_cons_of_neg (by simpa using hname), List.filter_cons_of_pos (by simpa),
        ih hrest]

/-- A module that comes in is the last one, and the others stay in their order. -/
theorem modules_insert (hnodup : (set.modules.map ModuleDefinition.name).Nodup)
    (m : ModuleDefinition) :
    (set.insert m).modules = set.modules.filter (fun other => other.name ≠ m.name) ++ [m] := by
  rw [insert, modules_erase hnodup]

/-- A collection stays consistent when a module is taken out. -/
theorem Consistent.erase (h : set.Consistent) (name : String) : (set.erase name).Consistent where
  nodup := h.nodup.sublist (List.eraseP_sublist.map _)
  indexed m hm := h.indexed m (List.mem_of_mem_eraseP hm)

/-- No module of a name is left when it is taken out. -/
theorem name_ne_of_mem_erase (hnodup : (set.modules.map ModuleDefinition.name).Nodup)
    (hm : m ∈ (set.erase name).modules) : m.name ≠ name := by
  rw [modules_erase hnodup] at hm
  simpa using (List.mem_filter.mp hm).2

/-- A collection stays consistent when a module that finds its objects is put into it. -/
theorem Consistent.insert (h : set.Consistent) (hm : m.Indexed) : (set.insert m).Consistent where
  nodup := by
    refine (List.map_append ..) ▸ List.nodup_append.mpr ⟨(h.erase m.name).nodup,
      List.nodup_singleton _, fun name hname last hlast heq => ?_⟩
    obtain ⟨other, hother, rfl⟩ := List.mem_map.mp hname
    obtain rfl := List.mem_singleton.mp hlast
    exact name_ne_of_mem_erase h.nodup hother heq
  indexed other hother := by
    rcases List.mem_append.mp hother with hother | hother
    · exact (h.erase m.name).indexed other hother
    · rwa [List.mem_singleton.mp hother]

/-- A module is found under its name. -/
theorem Consistent.module?_eq_some (h : set.Consistent) (hm : m ∈ set.modules) :
    set.module? m.name = some m := by
  cases hfind : set.module? m.name with
  | none => exact absurd (decide_eq_true rfl) (List.find?_eq_none.mp hfind m hm)
  | some found =>
    have hname := List.find?_some hfind
    have hmem := List.mem_of_find?_eq_some hfind
    rw [List.inj_on_of_nodup_map h.nodup hmem hm (of_decide_eq_true hname)]

end ModuleSet

end Smi
