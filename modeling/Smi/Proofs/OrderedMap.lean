import Mathlib.Data.List.Induction
import Smi.OrderedMap

/-!
# Bindings of ordered maps

An ordered map is used through its bindings: a key has at most one of them, the list of entries
holds each of them once, and removing a key takes its binding away and no other.
-/

namespace Smi.OrderedMap

variable {α β : Type} [LT α] [DecidableEq α]

omit [LT α] in
/-- Looking up a key in a list without the entries of one key. -/
theorem lookup_filter_ne [BEq α] [LawfulBEq α] (entries : List (α × β)) (key other : α) :
    (entries.filter fun entry => entry.1 ≠ key).lookup other =
      if other = key then none else entries.lookup other := by
  induction entries with
  | nil => simp
  | cons entry rest ih =>
    obtain ⟨first, value⟩ := entry
    by_cases hfirst : first = key
    · subst hfirst
      rw [List.filter_cons_of_neg (by simp), ih, List.lookup_cons]
      by_cases hother : other = first
      · rw [if_pos hother, if_pos hother]
      · have hne : (other == first) = false := by simpa using hother
        rw [if_neg hother, if_neg hother, hne]
    · rw [List.filter_cons_of_pos (by simpa using hfirst), List.lookup_cons, List.lookup_cons, ih]
      by_cases hother : other = first
      · simp [hother, hfirst]
      · have hne : (other == first) = false := by simpa using hother
        rw [hne]

/-- After a removal the key has no value and every other key the value it had. -/
theorem get?_erase (m : OrderedMap α β) (key other : α) :
    (m.erase key).get? other = if other = key then none else m.get? other :=
  lookup_filter_ne m.entries key other

variable [KeyOrder α]

/-- In an ascending list a key is looked up exactly where it stands. -/
theorem lookup_eq_some_iff {entries : List (α × β)} {key : α} {value : β}
    (hsorted : entries.Pairwise fun a b => a.1 < b.1) :
    entries.lookup key = some value ↔ (key, value) ∈ entries := by
  induction entries with
  | nil => simp
  | cons entry rest ih =>
    obtain ⟨first, bound⟩ := entry
    obtain ⟨hfirst, hrest⟩ := List.pairwise_cons.mp hsorted
    rw [List.lookup_cons, List.mem_cons]
    by_cases hkey : key = first
    · subst hkey
      have hnot : (key, value) ∉ rest := fun h => KeyOrder.irrefl key (hfirst _ h)
      simp [hnot, eq_comm]
    · have hne : (key == first) = false := by simpa using hkey
      rw [hne]
      simp [hkey, ih hrest]

/-- The entries of a map are its bindings. -/
theorem mem_entries_iff (m : OrderedMap α β) (key : α) (value : β) :
    (key, value) ∈ m.entries ↔ m.get? key = some value :=
  (lookup_eq_some_iff m.sorted).symm

/-- The values of a map are those that its keys are bound to. -/
theorem mem_values_iff (m : OrderedMap α β) (value : β) :
    value ∈ m.values ↔ ∃ key, m.get? key = some value := by
  simp only [values, List.mem_map, Prod.exists, mem_entries_iff, exists_eq_right]

/-- A map is empty when it binds no key. -/
theorem isEmpty_iff (m : OrderedMap α β) : m.isEmpty = true ↔ ∀ key, m.get? key = none := by
  constructor
  · intro hempty key
    have hentries : m.entries = [] := List.isEmpty_iff.mp hempty
    rw [get?, hentries, List.lookup_nil]
  · intro hnone
    cases hentries : m.entries with
    | nil => rw [isEmpty, hentries, List.isEmpty_nil]
    | cons entry rest =>
      have hmem : (entry.1, entry.2) ∈ m.entries := by rw [hentries]; exact List.mem_cons_self
      have hbound := (mem_entries_iff m entry.1 entry.2).mp hmem
      rw [hnone entry.1] at hbound
      exact absurd hbound (by simp)

/-! ### Keys and values -/

omit [DecidableEq α] [KeyOrder α] in
/-- The keys of a map ascend. -/
theorem keys_pairwise (m : OrderedMap α β) : m.keys.Pairwise (· < ·) :=
  List.pairwise_map.mpr m.sorted

/-- The keys of a map are those that are bound. -/
theorem mem_keys_iff (m : OrderedMap α β) (key : α) : key ∈ m.keys ↔ (m.get? key).isSome := by
  simp only [keys, List.mem_map, Prod.exists, mem_entries_iff, exists_and_right, exists_eq_right,
    Option.isSome_iff_exists]

/-- The values of a map are listed in the order of the keys that are bound to them. -/
theorem values_eq_map_keys (m : OrderedMap α β) {f : α → β}
    (hf : ∀ key ∈ m.keys, m.get? key = some (f key)) : m.values = m.keys.map f := by
  rw [values, keys, List.map_map]
  refine List.map_congr_left fun entry hentry => ?_
  have hbound := (mem_entries_iff m entry.1 entry.2).mp hentry
  rw [hf entry.1 (List.mem_map_of_mem hentry)] at hbound
  exact (Option.some.inj hbound).symm

omit [DecidableEq α] in
/-- Keys that ascend are different. -/
theorem nodup_of_pairwise {keys : List α} (hkeys : keys.Pairwise (· < ·)) : keys.Nodup := by
  refine hkeys.imp fun {a b} hlt heq => ?_
  rw [heq] at hlt
  exact KeyOrder.irrefl b hlt

omit [DecidableEq α] in
/-- Ascending lists with the same members are the same. -/
theorem eq_of_mem_iff {first second : List α} (hfirst : first.Pairwise (· < ·))
    (hsecond : second.Pairwise (· < ·)) (hmem : ∀ key, key ∈ first ↔ key ∈ second) :
    first = second := by
  refine List.Perm.eq_of_pairwise (fun a b _ _ hab hba => ?_) hfirst hsecond
    ((List.perm_ext_iff_of_nodup (nodup_of_pairwise hfirst) (nodup_of_pairwise hsecond)).mpr hmem)
  exact absurd (KeyOrder.trans hab hba) (KeyOrder.irrefl a)

/-! ### Maps from lists -/

omit [DecidableEq α] [KeyOrder α] in
/-- A map is given by its entries. -/
theorem ext_entries {m n : OrderedMap α β} (h : m.entries = n.entries) : m = n := by
  cases m
  cases n
  simpa using h

/-- Maps with the same bindings are the same. -/
theorem ext_get? {m n : OrderedMap α β} (h : ∀ key, m.get? key = n.get? key) : m = n := by
  have hnodup (l : OrderedMap α β) : l.entries.Nodup := by
    refine l.sorted.imp fun {a b} hlt heq => ?_
    rw [heq] at hlt
    exact KeyOrder.irrefl b.1 hlt
  refine ext_entries (List.Perm.eq_of_pairwise (fun a b _ _ hab hba => ?_) m.sorted n.sorted
    ((List.perm_ext_iff_of_nodup (hnodup m) (hnodup n)).mpr fun entry => ?_))
  · exact absurd (KeyOrder.trans hab hba) (KeyOrder.irrefl a.1)
  · rw [mem_entries_iff m entry.1 entry.2, mem_entries_iff n entry.1 entry.2, h]

variable [DecidableLT α]

omit [DecidableEq α] in
/-- A key behind all others is bound at the end. -/
theorem insertEntry_of_forall_lt {entries : List (α × β)} {key : α} (value : β)
    (hkey : ∀ entry ∈ entries, entry.1 < key) :
    insertEntry key value entries = entries ++ [(key, value)] := by
  induction entries with
  | nil => rfl
  | cons first rest ih =>
    obtain ⟨hfirst, hrest⟩ := List.forall_mem_cons.mp hkey
    have hnot : ¬key < first.1 := fun h => KeyOrder.irrefl key (KeyOrder.trans h hfirst)
    rw [insertEntry, if_neg hnot, if_pos hfirst, ih hrest, List.cons_append]

omit [DecidableEq α] in
/-- Entries that ascend behind those of a map are put behind them, one after the other. -/
theorem entries_foldl_insert {m : OrderedMap α β} {entries : List (α × β)}
    (hsorted : (m.entries ++ entries).Pairwise fun a b => a.1 < b.1) :
    (entries.foldl (fun m entry => m.insert entry.1 entry.2) m).entries = m.entries ++ entries := by
  induction entries generalizing m with
  | nil => rw [List.foldl_nil, List.append_nil]
  | cons first rest ih =>
    have hlast : (m.insert first.1 first.2).entries = m.entries ++ [first] :=
      insertEntry_of_forall_lt first.2 fun entry hentry =>
        (List.pairwise_append.mp hsorted).2.2 entry hentry first List.mem_cons_self
    have hassoc : m.entries ++ first :: rest = (m.insert first.1 first.2).entries ++ rest := by
      rw [hlast, List.append_assoc, List.singleton_append]
    rw [hassoc] at hsorted ⊢
    exact ih hsorted

omit [DecidableEq α] [KeyOrder α] in
/-- Putting an entry in adds one at most. -/
theorem length_insertEntry_le (key : α) (value : β) (entries : List (α × β)) :
    (insertEntry key value entries).length ≤ entries.length + 1 := by
  induction entries with
  | nil => exact Nat.le_refl _
  | cons first rest ih =>
    unfold insertEntry
    split
    · exact Nat.le_refl _
    · split
      · exact Nat.succ_le_succ ih
      · exact Nat.le_succ _

omit [DecidableEq α] in
/-- A map has no more bindings than the list from which it is made. -/
theorem length_ofList_le (entries : List (α × β)) :
    (ofList entries).entries.length ≤ entries.length := by
  induction entries using List.reverseRecOn with
  | nil => exact Nat.le_refl _
  | append_singleton entries entry ih =>
    rw [ofList, List.foldl_append, List.length_append]
    exact Nat.le_trans (length_insertEntry_le _ _ _) (Nat.succ_le_succ ih)

omit [DecidableEq α] in
/-- The bindings of a map are in the list from which it is made. -/
theorem mem_of_mem_ofList {entries : List (α × β)} {entry : α × β}
    (h : entry ∈ (ofList entries).entries) : entry ∈ entries := by
  induction entries using List.reverseRecOn with
  | nil => exact h
  | append_singleton entries last ih =>
    rw [ofList, List.foldl_append] at h
    rcases mem_insertEntry h with rfl | h
    · exact List.mem_append_right _ (List.mem_singleton_self _)
    · exact List.mem_append_left _ (ih h)

omit [DecidableEq α] in
/-- A map is made again from its entries. -/
theorem ofList_entries (m : OrderedMap α β) : ofList m.entries = m :=
  ext_entries (entries_foldl_insert (m := empty) m.sorted)

/-- The last entry of a list counts for its key. -/
theorem get?_ofList_concat (entries : List (α × β)) (last : α × β) (key : α) :
    (ofList (entries ++ [last])).get? key =
      if key = last.1 then some last.2 else (ofList entries).get? key := by
  rw [ofList, List.foldl_append]
  exact get?_insert _ _ _ _

/-- The last entry of a key is bound. -/
theorem get?_ofList (entries : List (α × β)) (key : α) :
    (ofList entries).get? key = entries.reverse.lookup key := by
  induction entries using List.reverseRecOn with
  | nil => rfl
  | append_singleton entries last ih =>
    rw [get?_ofList_concat, ih, List.reverse_concat, List.lookup_cons]
    by_cases hkey : key = last.1
    · simp [hkey]
    · simp [hkey, beq_eq_false_iff_ne.mpr hkey]

/-- Where the keys of a list are different, all of its entries are bound. -/
theorem get?_ofList_iff {entries : List (α × β)} (hdistinct : (entries.map Prod.fst).Nodup)
    {key : α} {value : β} : (ofList entries).get? key = some value ↔ (key, value) ∈ entries := by
  induction entries using List.reverseRecOn with
  | nil => simp [ofList, get?, empty]
  | append_singleton entries last ih =>
    rw [List.map_append, List.nodup_append] at hdistinct
    obtain ⟨hdistinct, -, hfresh⟩ := hdistinct
    rw [get?_ofList_concat, List.mem_append, List.mem_singleton]
    split
    next hkey =>
      have hnot : (key, value) ∉ entries := fun hmem =>
        hfresh key (List.mem_map_of_mem hmem) last.1 (by simp) hkey
      rw [or_iff_right hnot]
      simp [Prod.ext_iff, hkey, eq_comm]
    next hkey =>
      rw [ih hdistinct]
      simp [Prod.ext_iff, hkey]

end Smi.OrderedMap
