import Smi.Proofs.ObjectTree.Effect
import Smi.Proofs.RowKey.Comparison

/-!
# Tables that share the index of another one

A table that augments another one takes over its index, with every entry made foreign. A key goes
through the foreign entries of an index before the others. So the entries of the augmenting table
are gone through in the order of their declaration, and those of the base table are not, if an entry
on one of its own columns stands before one on a column of another table. The two tables write and
read the same keys exactly when the layouts of the entries are the same in both orders.
-/

namespace Smi

namespace TableProvider

variable {base extension : TableProvider}

/-- Whether the order in which the entries of an index are declared and the order in which a key
goes through them cannot be told apart: the layouts are written alike in both orders, and they are
the same in both orders unless no suffix can be read at all. -/
def OrderIndifferent (table : TableProvider) : Prop :=
  table.index.map (·.layout.unsigning) = table.keyIndex.map (·.layout.unsigning) ∧
    (table.index.map IndexEntry.layout = table.keyIndex.map IndexEntry.layout ∨
      ∀ suffix, RowKey.readValues? table.keyIndex suffix = none)

/-- The order makes no difference if no own entry is declared before a foreign one. -/
theorem orderIndifferent_of_keyIndex_eq (horder : base.keyIndex = base.index) :
    base.OrderIndifferent := by
  rw [OrderIndifferent, horder]
  exact ⟨rfl, Or.inl rfl⟩

/-- A table with the index of another one, shared by it. -/
def sharing (extension base : TableProvider) : TableProvider :=
  { extension with index := ObjectTree.sharedIndex base }

/-- A key of a shared index goes through the entries in the order of their declaration. -/
theorem keyIndex_sharing : (extension.sharing base).keyIndex = ObjectTree.sharedIndex base := by
  have hforeign : ∀ entry ∈ (extension.sharing base).index, entry.foreign.isSome = true := by
    intro entry hentry
    obtain ⟨own, _, rfl⟩ := List.mem_map.mp hentry
    rfl
  have hlocal : (extension.sharing base).localIndex = [] :=
    List.filter_eq_nil_iff.mpr fun entry hentry => by
      rw [Option.isNone_eq_false_iff.mpr (hforeign entry hentry)]
      exact Bool.false_ne_true
  rw [keyIndex, hlocal, List.append_nil]
  exact List.filter_eq_self.mpr hforeign

/-- What does not depend on where a column is stays the same when an index is shared. -/
theorem map_sharedIndex {α : Type} {f : IndexEntry → α}
    (hf : ∀ entry foreign, f { entry with foreign } = f entry) :
    (ObjectTree.sharedIndex base).map f = base.index.map f := by
  rw [ObjectTree.sharedIndex, List.map_map]
  exact List.map_congr_left fun entry _ => hf entry _

/-- A shared index writes the same keys as the index it is taken from exactly when the layouts are
written alike in both orders. -/
theorem suffix_sharing_iff :
    (∀ key suffix, RowKey.suffix (extension.sharing base) key = .ok suffix ↔
      RowKey.suffix base key = .ok suffix) ↔
      base.index.map (·.layout.unsigning) = base.keyIndex.map (·.layout.unsigning) := by
  have hlength : (extension.sharing base).index.length = base.index.length := by
    simp [sharing, ObjectTree.sharedIndex]
  have hkeyLength : base.index.length = base.keyIndex.length := base.keyIndex_perm.length_eq.symm
  have hshared : (ObjectTree.sharedIndex base).map (·.layout.unsigning) =
      base.index.map (·.layout.unsigning) := map_sharedIndex fun _ _ => rfl
  rw [← hshared]
  constructor
  · intro hsame
    refine RowKey.layouts_eq_of_writeValues (by rw [← hkeyLength]; exact hlength) ?_
    intro key suffix hkey
    have hbase : key.length = base.index.length := hkey.trans hlength
    have h := hsame key suffix
    rw [RowKey.suffix, RowKey.suffix, if_pos (hbase.trans hlength.symm), if_pos hbase,
      keyIndex_sharing] at h
    exact h
  · intro hlayouts key suffix
    rw [RowKey.suffix, RowKey.suffix, hlength, keyIndex_sharing]
    by_cases hkey : key.length = base.index.length
    · rw [if_pos hkey, if_pos hkey]
      exact RowKey.writeValues_congr hlayouts
    · simp [if_neg hkey]

/-- Where the layouts are written alike in both orders, a shared index reads the same keys as the
index it is taken from exactly when the layouts are the same or nothing is read at all. -/
theorem ofSuffix_sharing_iff
    (hlayouts : base.index.map (·.layout.unsigning) = base.keyIndex.map (·.layout.unsigning)) :
    (∀ suffix key, RowKey.ofSuffix (extension.sharing base) suffix = .ok key ↔
      RowKey.ofSuffix base suffix = .ok key) ↔
      base.index.map IndexEntry.layout = base.keyIndex.map IndexEntry.layout ∨
        ∀ suffix, RowKey.readValues? base.keyIndex suffix = none := by
  have hshared : (ObjectTree.sharedIndex base).map (·.layout.unsigning) =
      base.keyIndex.map (·.layout.unsigning) :=
    (map_sharedIndex fun _ _ => rfl).trans hlayouts
  have hsharedLayouts : (ObjectTree.sharedIndex base).map IndexEntry.layout =
      base.index.map IndexEntry.layout := map_sharedIndex fun _ _ => rfl
  rw [← hsharedLayouts]
  simp only [RowKey.ofSuffix_eq_ok_iff, keyIndex_sharing]
  constructor
  · intro hsame
    by_cases hnone : ∀ suffix, RowKey.readValues? base.keyIndex suffix = none
    · exact Or.inr hnone
    · left
      obtain ⟨suffix, hsuffix⟩ := Classical.not_forall.mp hnone
      obtain ⟨key, hkey⟩ := Option.ne_none_iff_exists'.mp hsuffix
      obtain ⟨found, hfound, hsameLayouts⟩ :=
        RowKey.readValues?_of_unsigning hshared ((hsame suffix key).mpr hkey)
      exact hsameLayouts (Option.some.inj (hfound.symm.trans hkey))
  · rintro (hsame | hnone) suffix key
    · rw [RowKey.readValues?_congr hsame]
    · rw [hnone suffix]
      refine ⟨fun hread => ?_, fun hread => by cases hread⟩
      obtain ⟨found, hfound, _⟩ := RowKey.readValues?_of_unsigning hshared hread
      rw [hnone suffix] at hfound
      cases hfound

end TableProvider

namespace ObjectTree

variable {tree after : ObjectTree} {id : NodeId} {name : String}
  {base extension : TableProvider}

/-- A table that augments a registered one is registered with the index of that one. -/
theorem registration?_of_augments (hbase : tree.table name = .ok base)
    (haugments : extension.augments = some name)
    (hregister : tree.register (.table extension) = (.ok id, after)) :
    after.registration? extension.name = some ⟨.table (extension.sharing base), id⟩ := by
  obtain ⟨settled, hsettle, _, hregistered, _⟩ := registration?_of_register hregister
  obtain ⟨index, hindex, hsettled⟩ := bind_eq_ok_iff.mp hsettle
  obtain rfl := pure_eq_ok_iff.mp hsettled
  have hshared : index = sharedIndex base := by
    rw [settleIndex, haugments] at hindex
    obtain ⟨registration, hfound, hspec⟩ := table_eq_ok_iff.mp hbase
    by_cases hself : name = extension.name
    · simp [hself] at hindex
    · simpa [hself, provider?, hfound, hspec] using hindex.symm
  subst hshared
  exact hregistered

/-- A table that augments a registered one writes and reads the same keys as that one, for as long
as both stay registered, exactly when the order of the index of the base table makes no difference.
Then a row that is added to the augmenting table has its cells at the suffix that its key has in the
base table. -/
theorem augmenting_agrees_iff (hreachable : tree.Reachable) (hbase : tree.table name = .ok base)
    (haugments : extension.augments = some name)
    (hregister : tree.register (.table extension) = (.ok id, after)) (operations : List Operation)
    (hbaseStays : ∀ count, ((after.run (operations.take count)).provider? name).isSome)
    (hextensionStays : ∀ count,
      ((after.run (operations.take count)).provider? extension.name).isSome) :
    let later := after.run operations
    ((∀ key suffix, later.instanceSuffix extension.name key = .ok suffix ↔
        later.instanceSuffix name key = .ok suffix) ∧
      (∀ suffix key, later.rowKeyOfSuffix extension.name suffix = .ok key ↔
        later.rowKeyOfSuffix name suffix = .ok key) ↔ base.OrderIndifferent) ∧
    (base.OrderIndifferent → ∀ values key grown,
      later.addRow extension.name values = (.ok key, grown) →
      ∃ suffix, later.instanceSuffix name key = .ok suffix ∧
        ∀ column ∈ extension.columns, ∃ address,
          address.arcs = extension.oid.arcs ++ column.number :: suffix ∧
            (grown.valueAt? address).isSome) := by
  have hafter : after.WellFormed := by
    have h := hreachable.wellFormed.register (.table extension)
    rw [hregister] at h
    exact h
  have hbaseAfter : after.table name = .ok base := by
    obtain ⟨registration, hfound, hspec⟩ := table_eq_ok_iff.mp hbase
    have hkept := registration?_register hfound (.table extension)
    rw [hregister] at hkept
    exact table_eq_ok_iff.mpr ⟨registration, hkept, hspec⟩
  have hextensionAfter : after.table extension.name = .ok (extension.sharing base) :=
    table_eq_ok_iff.mpr ⟨_, registration?_of_augments hbase haugments hregister, rfl⟩
  have hbaseLater := table_run hbaseAfter operations hbaseStays
  have hextensionLater := table_run hextensionAfter operations hextensionStays
  have hlater := hafter.run operations
  generalize after.run operations = later at *
  simp only [instanceSuffix_eq hbaseLater, instanceSuffix_eq hextensionLater,
    rowKeyOfSuffix_eq hbaseLater, rowKeyOfSuffix_eq hextensionLater]
  refine ⟨?_, fun hindifferent values key grown hadd => ?_⟩
  · rw [TableProvider.suffix_sharing_iff]
    exact and_congr_right fun hlayouts => TableProvider.ofSuffix_sharing_iff hlayouts
  · obtain ⟨suffix, hsuffix, hcells⟩ := hlater.valueAt?_addRow hextensionLater hadd
    rw [instanceSuffix_eq hextensionLater] at hsuffix
    exact ⟨suffix, (TableProvider.suffix_sharing_iff.mpr hindifferent.1 key suffix).mp hsuffix,
      hcells⟩

/-- Notes on hosts, which share their index. -/
def hostNotes : TableProvider where
  name := "hostNote"
  tableName := none
  oid := ⟨[1, 3, 8], by decide⟩
  columns := [⟨1, "text", some .octetString⟩]
  index := []
  augments := some "host"

/-- The index of the hosts has no entry on a column of another table, so that its order makes no
difference to the notes on them. -/
theorem augmenting_agrees_hostNotes :
    let later := (hostTree.register (.table hostNotes)).2.run [.materialize .root]
    (∀ key suffix, later.instanceSuffix "hostNote" key = .ok suffix ↔
      later.instanceSuffix "host" key = .ok suffix) ∧
    ∀ suffix key, later.rowKeyOfSuffix "hostNote" suffix = .ok key ↔
      later.rowKeyOfSuffix "host" suffix = .ok key := by
  have hreachable : hostTree.Reachable := ⟨[.register (.table hosts)], rfl⟩
  have htable : hostTree.table "host" = .ok { hosts with index := hostIndex } := by rfl
  have hindifferent : TableProvider.OrderIndifferent { hosts with index := hostIndex } :=
    TableProvider.orderIndifferent_of_keyIndex_eq rfl
  have hregister : hostTree.register (.table hostNotes) =
      (.ok 4, (hostTree.register (.table hostNotes)).2) := by rfl
  refine (augmenting_agrees_iff hreachable htable rfl hregister [.materialize .root]
    (fun count => ?_) fun count => ?_).1.mpr hindifferent
  · rcases count with _ | _ | _ <;> rfl
  · rcases count with _ | _ | _ <;> rfl

/-- A table of sessions by their own numbers and the addresses of their hosts. -/
def sessions : TableProvider where
  name := "session"
  tableName := none
  oid := ⟨[1, 3, 7], by decide⟩
  columns := [⟨1, "number", some .integer⟩]
  index := [.ofName "number", { IndexEntry.ofName "address" with foreign := some "host" }]
  augments := none

/-- The tree in which hosts and sessions are registered. -/
def sessionTree : ObjectTree :=
  (hostTree.register (.table sessions)).2

/-- Notes on sessions, which share their index. -/
def sessionNotes : TableProvider where
  name := "sessionNote"
  tableName := none
  oid := ⟨[1, 3, 8], by decide⟩
  columns := [⟨1, "text", some .octetString⟩]
  index := []
  augments := some "session"

/-- The key of a session starts with the address of the host and that of a note with the number. So
the suffix of a session is not that of its note, and it is read as another key. -/
theorem instanceSuffix_sessionNotes :
    let later := (sessionTree.register (.table sessionNotes)).2
    let key : RowKey := [.ipAddress ⟨10, 0, 0, 1⟩, .integer 7]
    sessionTree.Reachable ∧ (sessionTree.table "session").isOk ∧
      (sessionTree.register (.table sessionNotes)).1.isOk ∧
      later.instanceSuffix "session" key = .ok [10, 0, 0, 1, 7] ∧
      later.instanceSuffix "sessionNote" key =
        .error (.invalidIndexValue "number" .notAnInteger) ∧
      later.rowKeyOfSuffix "session" [10, 0, 0, 1, 7] = .ok key ∧
      later.rowKeyOfSuffix "sessionNote" [10, 0, 0, 1, 7] =
        .ok [.integer 10, .ipAddress ⟨0, 0, 1, 7⟩] :=
  ⟨⟨[.register (.table hosts), .register (.table sessions)], rfl⟩, rfl, rfl, rfl, rfl, rfl, rfl⟩

end ObjectTree

end Smi
