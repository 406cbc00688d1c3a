/-!
# Ordered maps

An `OrderedMap` is a finite map whose entries are kept in strictly increasing order of their keys.
The order is part of the type, so two maps with the same bindings are equal, and reading the
entries from the front visits the keys in ascending order. Insertion replaces an existing binding.
-/

namespace Smi

/-- A strict order in which of two different keys one comes first. -/
class KeyOrder (α : Type) [LT α] : Prop where
  irrefl (a : α) : ¬a < a
  trans {a b c : α} : a < b → b < c → a < c
  eq_of_not_lt {a b : α} : ¬a < b → ¬b < a → a = b

namespace KeyOrder

instance : KeyOrder Nat where
  irrefl := Nat.lt_irrefl
  trans := Nat.lt_trans
  eq_of_not_lt hab hba := Nat.le_antisymm (Nat.not_lt.mp hba) (Nat.not_lt.mp hab)

instance : KeyOrder String where
  irrefl := String.lt_irrefl
  trans := String.lt_trans
  eq_of_not_lt hab hba := String.le_antisymm (String.not_lt.mp hba) (String.not_lt.mp hab)

instance : KeyOrder Int64 where
  irrefl _ := Int64.lt_irrefl
  trans := Int64.lt_trans
  eq_of_not_lt hab hba := Int64.le_antisymm (Int64.not_lt.mp hba) (Int64.not_lt.mp hab)

instance : KeyOrder (List Nat) where
  irrefl := List.lt_irrefl
  trans := List.lt_trans
  eq_of_not_lt hab hba := List.le_antisymm (List.not_lt.mp hba) (List.not_lt.mp hab)

end KeyOrder

/-- A finite map listed in strictly increasing order of its keys. -/
structure OrderedMap (α β : Type) [LT α] where
  entries : List (α × β)
  sorted : entries.Pairwise fun a b => a.1 < b.1
  deriving DecidableEq

namespace OrderedMap

variable {α β : Type} [LT α]

instance : Inhabited (OrderedMap α β) :=
  ⟨⟨[], List.Pairwise.nil⟩⟩

/-- The map without bindings. -/
def empty : OrderedMap α β :=
  ⟨[], List.Pairwise.nil⟩

/-- The number of bindings. -/
def size (m : OrderedMap α β) : Nat :=
  m.entries.length

/-- Whether no key is bound. -/
def isEmpty (m : OrderedMap α β) : Bool :=
  m.entries.isEmpty

/-- The bound keys in ascending order. -/
def keys (m : OrderedMap α β) : List α :=
  m.entries.map Prod.fst

/-- The bound values in ascending order of their keys. -/
def values (m : OrderedMap α β) : List β :=
  m.entries.map Prod.snd

/-- The value bound to a key. -/
def get? [DecidableEq α] (m : OrderedMap α β) (key : α) : Option β :=
  m.entries.lookup key

/-- Whether a key is bound. -/
def contains [DecidableEq α] (m : OrderedMap α β) (key : α) : Bool :=
  (m.get? key).isSome

/-- The map without the binding of one key. -/
def erase [DecidableEq α] (m : OrderedMap α β) (key : α) : OrderedMap α β :=
  ⟨m.entries.filter fun entry => entry.1 ≠ key, m.sorted.filter _⟩

/-- Put a binding in its place in an ascending list, over an earlier binding of the same key. -/
def insertEntry [DecidableLT α] (key : α) (value : β) : List (α × β) → List (α × β)
  | [] => [(key, value)]
  | entry :: rest =>
    if key < entry.1 then (key, value) :: entry :: rest
    else if entry.1 < key then entry :: insertEntry key value rest
    else (key, value) :: rest

/-- Every entry after an insertion is the new one or an old one. -/
theorem mem_insertEntry [DecidableLT α] {key : α} {value : β} {entry : α × β}
    {entries : List (α × β)} (h : entry ∈ insertEntry key value entries) :
    entry = (key, value) ∨ entry ∈ entries := by
  induction entries with
  | nil => exact Or.inl (by simpa [insertEntry] using h)
  | cons first rest ih =>
    unfold insertEntry at h
    split at h
    · rcases List.mem_cons.mp h with h | h
      · exact Or.inl h
      · exact Or.inr h
    · split at h
      · rcases List.mem_cons.mp h with h | h
        · exact Or.inr (h ▸ List.mem_cons_self)
        · rcases ih h with h | h
          · exact Or.inl h
          · exact Or.inr (List.mem_cons_of_mem _ h)
      · rcases List.mem_cons.mp h with h | h
        · exact Or.inl h
        · exact Or.inr (List.mem_cons_of_mem _ h)

variable [KeyOrder α]

/-- Insertion keeps the keys strictly increasing. -/
theorem pairwise_insertEntry [DecidableLT α] {key : α} {value : β} {entries : List (α × β)}
    (h : entries.Pairwise fun a b => a.1 < b.1) :
    (insertEntry key value entries).Pairwise fun a b => a.1 < b.1 := by
  induction entries with
  | nil => exact List.pairwise_singleton _ _
  | cons first rest ih =>
    have hrest := List.pairwise_cons.mp h
    unfold insertEntry
    split
    · rename_i hlt
      refine List.pairwise_cons.mpr ⟨fun entry hentry => ?_, h⟩
      rcases List.mem_cons.mp hentry with rfl | hentry
      · exact hlt
      · exact KeyOrder.trans hlt (hrest.1 entry hentry)
    · split
      · rename_i hgt
        refine List.pairwise_cons.mpr ⟨fun entry hentry => ?_, ih hrest.2⟩
        rcases mem_insertEntry hentry with rfl | hentry
        · exact hgt
        · exact hrest.1 entry hentry
      · rename_i hlt hgt
        have hkey : first.1 = key := KeyOrder.eq_of_not_lt hgt hlt
        refine List.pairwise_cons.mpr ⟨fun entry hentry => ?_, hrest.2⟩
        exact hkey ▸ hrest.1 entry hentry

/-- The map with a key bound to a value, whatever it was bound to before. -/
def insert [DecidableLT α] (m : OrderedMap α β) (key : α) (value : β) : OrderedMap α β :=
  ⟨insertEntry key value m.entries, pairwise_insertEntry m.sorted⟩

/-- Looking up a key behind an insertion into a list. -/
theorem lookup_insertEntry [DecidableEq α] [DecidableLT α] {key other : α} {value : β}
    {entries : List (α × β)} :
    (insertEntry key value entries).lookup other =
      if other = key then some value else entries.lookup other := by
  by_cases h : other = key
  · subst h
    rw [if_pos rfl]
    induction entries with
    | nil => simp [insertEntry]
    | cons first rest ih =>
      unfold insertEntry
      split
      · simp
      · split
        · rename_i hgt
          have hne : (other == first.1) = false := by
            simp only [beq_eq_false_iff_ne]
            intro heq
            exact KeyOrder.irrefl _ (heq ▸ hgt)
          rw [List.lookup_cons, hne, ih]
        · simp
  · have hne : (other == key) = false := by simpa using h
    rw [if_neg h]
    induction entries with
    | nil => rw [insertEntry, List.lookup_cons, hne]
    | cons first rest ih =>
      unfold insertEntry
      split
      · rw [List.lookup_cons, hne]
      · split
        · rw [List.lookup_cons, List.lookup_cons, ih]
        · rename_i hlt hgt
          have hkey : first.1 = key := KeyOrder.eq_of_not_lt hgt hlt
          rw [List.lookup_cons, List.lookup_cons, hkey, hne]

/-- After an insertion the key has the new value and every other key the value it had. -/
theorem get?_insert [DecidableEq α] [DecidableLT α] (m : OrderedMap α β) (key other : α)
    (value : β) :
    (m.insert key value).get? other = if other = key then some value else m.get? other :=
  lookup_insertEntry

/-- The map with all bindings of a list, where a later binding of a key replaces an earlier one. -/
def ofList [DecidableLT α] (entries : List (α × β)) : OrderedMap α β :=
  entries.foldl (fun m entry => m.insert entry.1 entry.2) empty

end OrderedMap

end Smi
