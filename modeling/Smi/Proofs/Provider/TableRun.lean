import Mathlib.Data.List.Induction
import Mathlib.Data.List.Perm.Subperm
import Smi.Proofs.Provider.Scan

/-!
# The run of a table

The objects behind the one that opens a table belong to it as a run. Whether a run goes on with an
object depends on the entry that it has by then, which is its last object below the table. The entry
and the children of the entries are different objects of the run.
-/

namespace Smi

/-- Whether the clause of an object names an object as its parent. `SEQUENCE` types stand below no
other object. -/
def ObjectDefinition.IsBelow (object : ObjectDefinition) (parent : String) : Prop :=
  object.clauseParent? = some parent ∧ object.macroName ≠ some "SEQUENCE"

instance (object : ObjectDefinition) (parent : String) : Decidable (object.IsBelow parent) :=
  inferInstanceAs (Decidable (_ ∧ _))

namespace TableRun

variable {tableName : String} {run rest : List ObjectDefinition} {object : ObjectDefinition}

/-- The entry of a table after a run: the last object of the run that is below the table. -/
def entryOf? (tableName : String) (run : List ObjectDefinition) : Option ObjectDefinition :=
  (run.filter fun object => object.IsBelow tableName).getLast?

/-- Whether an object behind a run is a child of the entry. -/
def IsChild (tableName : String) (run : List ObjectDefinition) (object : ObjectDefinition) : Prop :=
  ¬object.IsBelow tableName ∧ ∃ entry ∈ entryOf? tableName run, object.IsBelow entry.name

/-- Whether an object behind a run belongs to the table. -/
def Continues (tableName : String) (run : List ObjectDefinition) (object : ObjectDefinition) :
    Prop :=
  object.clauseParent? = none ∨ object.macroName = some "SEQUENCE" ∨ object.IsBelow tableName ∨
    IsChild tableName run object

instance (tableName : String) (run : List ObjectDefinition) :
    DecidablePred (IsChild tableName run) :=
  fun _ => inferInstanceAs (Decidable (_ ∧ _))

instance (tableName : String) (run : List ObjectDefinition) :
    DecidablePred (Continues tableName run) :=
  fun _ => inferInstanceAs (Decidable (_ ∨ _))

/-- The children in a run, each below the entry that the run has before it. -/
def children (tableName : String) (run : List ObjectDefinition) : List ObjectDefinition :=
  (run.zipIdx.filter fun item => IsChild tableName (run.take item.2) item.1).map Prod.fst

/-- Whether all objects of a run belong to the table when they are reached. -/
def IsRun (tableName : String) (run : List ObjectDefinition) : Prop :=
  ∀ before object after, run = before ++ object :: after → Continues tableName before object

/-- Whether no object of a list can go on with a run, the first one being the next. -/
def Ends (tableName : String) (run rest : List ObjectDefinition) : Prop :=
  ∀ next ∈ rest.head?, ¬Continues tableName run next

/-! ### One more object -/

/-- The entry after one more object is this object, if it is below the table, or the one before. -/
theorem entryOf?_concat (tableName : String) (run : List ObjectDefinition)
    (object : ObjectDefinition) : entryOf? tableName (run ++ [object]) =
      if object.IsBelow tableName then some object else entryOf? tableName run := by
  unfold entryOf?
  rw [List.filter_append]
  split_ifs with hbelow
  · rw [List.filter_cons_of_pos (by simpa using hbelow), List.filter_nil, List.getLast?_concat]
  · rw [List.filter_cons_of_neg (by simpa using hbelow), List.filter_nil, List.append_nil]

/-- The children after one more object are those before, with this object if it is a child. -/
theorem children_concat (tableName : String) (run : List ObjectDefinition)
    (object : ObjectDefinition) : children tableName (run ++ [object]) =
      if IsChild tableName run object then children tableName run ++ [object]
      else children tableName run := by
  have hearlier :
      run.zipIdx.filter (fun item => IsChild tableName ((run ++ [object]).take item.2) item.1) =
        run.zipIdx.filter fun item => IsChild tableName (run.take item.2) item.1 := by
    refine List.filter_congr fun item hitem => ?_
    have hplace : item.2 < run.length := by
      simpa using List.snd_lt_of_mem_zipIdx hitem
    rw [List.take_append_of_le_length (Nat.le_of_lt hplace)]
  unfold children
  rw [List.zipIdx_append, List.filter_append, hearlier]
  split_ifs with hchild
  · simp [hchild]
  · simp [hchild]

/-- No objects are a run. -/
theorem isRun_nil (tableName : String) : IsRun tableName [] :=
  fun before _ _ h => absurd h.symm (by simp)

/-- A run goes on with one more object if this object belongs to the table. -/
theorem isRun_concat_iff : IsRun tableName (run ++ [object]) ↔
    IsRun tableName run ∧ Continues tableName run object := by
  constructor
  · refine fun h => ⟨fun before other after heq => h before other (after ++ [object]) ?_,
      h run object [] rfl⟩
    rw [heq, List.append_assoc, List.cons_append]
  · rintro ⟨hrun, hobject⟩ before other after heq
    rcases List.eq_nil_or_concat' after with rfl | ⟨init, last, rfl⟩
    · obtain ⟨rfl, hlast⟩ := List.append_inj' heq rfl
      rwa [← List.singleton_inj.mp hlast]
    · rw [← List.cons_append, ← List.append_assoc] at heq
      exact hrun before other init (List.append_inj' heq rfl).1

/-! ### Maximal runs -/

/-- The objects behind a run begin with the rest of a run that cannot go on. -/
theorem exists_isRun (hrun : IsRun tableName run) (objects : List ObjectDefinition) :
    ∃ more rest, objects = more ++ rest ∧ IsRun tableName (run ++ more) ∧
      Ends tableName (run ++ more) rest := by
  induction objects generalizing run with
  | nil => exact ⟨[], [], rfl, by rwa [List.append_nil], fun _ h => nomatch h⟩
  | cons object objects ih =>
    by_cases hobject : Continues tableName run object
    · obtain ⟨more, rest, rfl, hmore, hends⟩ := ih (isRun_concat_iff.mpr ⟨hrun, hobject⟩)
      rw [List.append_assoc, List.singleton_append] at hmore hends
      exact ⟨object :: more, rest, rfl, hmore, hends⟩
    · refine ⟨[], object :: objects, rfl, by rwa [List.append_nil], ?_⟩
      rintro _ ⟨⟩
      rwa [List.append_nil]

/-- What comes behind a run that cannot go on begins with no more of a run. -/
theorem Ends.eq_append (hends : Ends tableName run rest) {more : List ObjectDefinition}
    (hmore : IsRun tableName (run ++ more)) (hbegins : more <+: rest) : more = [] := by
  cases more with
  | nil => rfl
  | cons object more =>
    obtain ⟨after, rfl⟩ := hbegins
    exact absurd (hmore run object more rfl) (hends object rfl)

/-- There is one run at the front of some objects that cannot go on. -/
theorem eq_of_ends {other behind : List ObjectDefinition} (hrun : IsRun tableName run)
    (hends : Ends tableName run rest) (hother : IsRun tableName other)
    (hbehind : Ends tableName other behind) (heq : run ++ rest = other ++ behind) :
    run = other ∧ rest = behind := by
  rcases List.append_eq_append_iff.mp heq with ⟨more, rfl, rfl⟩ | ⟨more, rfl, rfl⟩
  · obtain rfl := hends.eq_append hother (List.prefix_append more behind)
    exact ⟨(List.append_nil run).symm, rfl⟩
  · obtain rfl := hbehind.eq_append hrun (List.prefix_append more rest)
    exact ⟨List.append_nil other, rfl⟩

/-! ### Entry and children -/

/-- No child of the entry is below the table itself. -/
theorem not_isBelow_of_mem_children (h : object ∈ children tableName run) :
    ¬object.IsBelow tableName := by
  obtain ⟨item, hitem, rfl⟩ := List.mem_map.mp h
  exact (of_decide_eq_true (List.mem_filter.mp hitem).2).1

/-- The children stand in the order of the run. -/
theorem children_sublist (tableName : String) (run : List ObjectDefinition) :
    (children tableName run).Sublist run := by
  have hsub : (children tableName run).Sublist (run.zipIdx.map Prod.fst) :=
    List.filter_sublist.map Prod.fst
  rwa [List.zipIdx_map_fst] at hsub

/-- The entry and the children of a run are different objects of it. -/
theorem entry_children_subperm (tableName : String) (run : List ObjectDefinition) :
    ((entryOf? tableName run).toList ++ children tableName run).Subperm run := by
  have hentry : (entryOf? tableName run).toList.Sublist
      (run.filter fun object => object.IsBelow tableName) := by
    cases hlast : entryOf? tableName run with
    | none => exact List.nil_sublist _
    | some entry => exact List.singleton_sublist.mpr (List.mem_of_getLast? hlast)
  have hchildren : (children tableName run).Sublist
      (run.filter fun object => !decide (object.IsBelow tableName)) := by
    have hall : (children tableName run).filter (fun object =>
        !decide (object.IsBelow tableName)) = children tableName run :=
      List.filter_eq_self.mpr fun child hchild => by
        simpa using not_isBelow_of_mem_children hchild
    have hsub := (children_sublist tableName run).filter fun object =>
      !decide (object.IsBelow tableName)
    rwa [hall] at hsub
  exact (hentry.append hchildren).subperm.trans (List.filter_append_perm _ run).subperm

/-! ### Scans of runs -/

/-- The scan that has read a run. -/
def scan (tableName : String) (run : List ObjectDefinition) : TableScan :=
  ⟨tableName, entryOf? tableName run, children tableName run⟩

/-- A scan takes exactly the objects with which its run goes on. -/
theorem accept?_scan (tableName : String) (run : List ObjectDefinition)
    (object : ObjectDefinition) : (scan tableName run).accept? object =
      if Continues tableName run object then some (scan tableName (run ++ [object])) else none := by
  unfold TableScan.accept? scan
  rw [entryOf?_concat, children_concat]
  cases hparent : object.clauseParent? with
  | none =>
    have hbelow (name : String) : ¬object.IsBelow name := fun h => by simp [h.1] at hparent
    simp [Continues, IsChild, hparent, hbelow]
  | some parent =>
    by_cases hsequence : object.macroName = some "SEQUENCE"
    · have hbelow (name : String) : ¬object.IsBelow name := fun h => h.2 hsequence
      simp [Continues, IsChild, hsequence, hbelow]
    · have hbelow (name : String) : object.IsBelow name ↔ parent = name := by
        simp [ObjectDefinition.IsBelow, hparent, hsequence]
      by_cases htable : parent = tableName
      · simp [Continues, IsChild, hbelow, hsequence, htable]
      · cases hentry : entryOf? tableName run with
        | none => simp [Continues, IsChild, hparent, hbelow, hsequence, htable, hentry]
        | some entry =>
          by_cases hchild : parent = entry.name
          · subst hchild
            simp [Continues, IsChild, hbelow, hsequence, htable, hentry]
          · simp [Continues, IsChild, hparent, hbelow, hsequence, htable, hentry, hchild]

/-- Reading a run leaves its table open. -/
theorem foldl_read (conventions : Conventions) (derived : DerivedProviders)
    (hrun : IsRun tableName run) :
    run.foldl (DerivedProviders.read conventions) (derived, some (.named tableName)) =
      (derived, some ((scan tableName run).table conventions)) := by
  induction run using List.reverseRecOn with
  | nil => rfl
  | append_singleton run object ih =>
    obtain ⟨hrun, hobject⟩ := isRun_concat_iff.mp hrun
    rw [List.foldl_append, ih hrun, List.foldl_cons, List.foldl_nil, DerivedProviders.read]
    simp only [TableScan.accept?_table, accept?_scan, if_pos hobject, Option.map_some]

end TableRun

end Smi
