import Smi.Proofs.Provider.TableRun

/-!
# Dividing a module into scalars and tables

The objects of a module fall into segments: objects outside tables, and objects that open a table,
each with the longest run that belongs to it. There is one such division of any objects, and the
providers of the module are read off it. The loop that finds them looks again at the object that
ends a table, and still looks at no object more than twice.
-/

namespace Smi

/-! ### The loop -/

/-- How far the objects of a module have been looked at: what they have given so far, the table that
is open, and the objects from the one that is looked at next. -/
structure Derivation where
  derived : DerivedProviders
  table : Option OpenTable
  rest : List ObjectDefinition

namespace Derivation

variable {conventions : Conventions} {d next : Derivation} {objects : List ObjectDefinition}

/-- The derivation that has looked at nothing. -/
def start (objects : List ObjectDefinition) : Derivation :=
  ⟨.empty, none, objects⟩

/-- Look at one object. If it does not belong to the open table, the table is closed and the object
is still the next one. -/
def next? (conventions : Conventions) (d : Derivation) : Option Derivation :=
  match d.rest with
  | [] => none
  | object :: rest =>
    match d.table with
    | some t =>
      match t.accept? conventions object with
      | some t => some ⟨d.derived, some t, rest⟩
      | none => some ⟨d.derived.addTable t, none, object :: rest⟩
    | none =>
      let (derived, table) := DerivedProviders.look conventions d.derived object
      some ⟨derived, table, rest⟩

/-- The providers when all objects have been looked at. -/
def close (d : Derivation) : DerivedProviders :=
  match d.table with
  | some t => d.derived.addTable t
  | none => d.derived

/-- Look at one object after another, a limited number of times, until none is left. -/
def run? (conventions : Conventions) : ℕ → Derivation → Option DerivedProviders
  | 0, _ => none
  | limit + 1, d =>
    match d.next? conventions with
    | some next => run? conventions limit next
    | none => some d.close

/-- The providers to which a derivation leads. -/
def outcome (conventions : Conventions) (d : Derivation) : DerivedProviders :=
  match d.rest.foldl (DerivedProviders.read conventions) (d.derived, d.table) with
  | (derived, some t) => derived.addTable t
  | (derived, none) => derived

/-- How many looks are left at most: two for each object, and one for an open table. -/
def looks (d : Derivation) : ℕ :=
  2 * d.rest.length + if d.table.isSome then 1 else 0

/-- A look leads to the same providers and leaves fewer looks. -/
theorem outcome_of_next? (h : d.next? conventions = some next) :
    next.outcome conventions = d.outcome conventions ∧ next.looks < d.looks := by
  obtain ⟨derived, table, rest⟩ := d
  cases rest with
  | nil => cases h
  | cons object rest =>
    cases table with
    | none =>
      obtain rfl := Option.some.inj h
      refine ⟨rfl, ?_⟩
      simp only [looks, List.length_cons]
      split_ifs <;> omega
    | some t =>
      cases haccept : t.accept? conventions object with
      | some t' =>
        simp only [next?, haccept, Option.some.injEq] at h
        subst h
        simp [outcome, looks, DerivedProviders.read, haccept]
      | none =>
        simp only [next?, haccept, Option.some.injEq] at h
        subst h
        simp [outcome, looks, DerivedProviders.read, haccept]

/-- A derivation that can look at nothing more is closed. -/
theorem outcome_of_next?_eq_none (h : d.next? conventions = none) :
    d.close = d.outcome conventions := by
  obtain ⟨derived, table, rest⟩ := d
  cases rest with
  | nil => cases table <;> rfl
  | cons object rest =>
    cases table with
    | none => cases h
    | some t => cases haccept : t.accept? conventions object <;> simp [next?, haccept] at h

/-- The loop comes to its end within the looks that are left. -/
theorem run?_eq (conventions : Conventions) {limit : ℕ} (hlimit : d.looks < limit) :
    d.run? conventions limit = some (d.outcome conventions) := by
  induction limit generalizing d with
  | zero => exact absurd hlimit (Nat.not_lt_zero _)
  | succ limit ih =>
    rw [run?]
    cases hnext : d.next? conventions with
    | none => exact congrArg some (outcome_of_next?_eq_none hnext)
    | some next =>
      obtain ⟨houtcome, hlooks⟩ := outcome_of_next? hnext
      rw [← houtcome]
      exact ih (by omega)

end Derivation

/-! ### Segments -/

/-- A part of the objects of a module: an object outside tables, or the one that opens a table and
the run behind it. -/
inductive Segment where
  | lone (object : ObjectDefinition)
  | table (opener : ObjectDefinition) (run : List ObjectDefinition)

namespace Segment

variable {conventions : Conventions} {objects : List ObjectDefinition} {segments : List Segment}

/-- The objects of a segment. -/
def toList : Segment → List ObjectDefinition
  | lone object => [object]
  | table opener run => opener :: run

/-- The scalar of a segment: an `OBJECT-TYPE` outside tables with a type and a position. -/
def scalar? (conventions : Conventions) : Segment → Option ScalarProvider
  | lone object =>
    match object.macroName, object.type?, object.oid? with
    | some "OBJECT-TYPE", some type, some oid =>
      some ⟨object.name, oid, conventions.typeOf? type⟩
    | _, _, _ => none
  | table _ _ => none

/-- The table of a segment, if its run has an entry with a position. -/
def table? (conventions : Conventions) : Segment → Option TableProvider
  | lone _ => none
  | table opener run =>
    match TableRun.entryOf? opener.name run with
    | some entry =>
      match entry.oid? with
      | some oid => some {
          name := entry.name
          tableName := some opener.name
          oid := oid
          columns := (TableRun.children opener.name run).filterMap (TableScan.column? conventions)
          index := OpenTable.entryIndex entry
          augments := entry.augments? }
      | none => none
    | none => none

/-- The objects of a segment of which a provider can be made: the scalar, or the entry and the
columns of the table. -/
def used (conventions : Conventions) : Segment → List ObjectDefinition
  | lone object => if ((lone object).scalar? conventions).isSome then [object] else []
  | table opener run =>
    (TableRun.entryOf? opener.name run).toList ++ TableRun.children opener.name run

/-- Whether segments are the division of some objects: what is outside tables opens none, and a
table has a run that ends where the next segment begins. -/
inductive IsDivision : List Segment → List ObjectDefinition → Prop
  | nil : IsDivision [] []
  | lone {object : ObjectDefinition} {segments : List Segment} {rest : List ObjectDefinition}
      (hlone : DerivedProviders.opensTable object = false) (hrest : IsDivision segments rest) :
      IsDivision (lone object :: segments) (object :: rest)
  | table {opener : ObjectDefinition} {run objects rest : List ObjectDefinition}
      {segments : List Segment} (hopens : DerivedProviders.opensTable opener = true)
      (hobjects : objects = run ++ rest) (hrun : TableRun.IsRun opener.name run)
      (hends : TableRun.Ends opener.name run rest) (hrest : IsDivision segments rest) :
      IsDivision (table opener run :: segments) (opener :: objects)

/-- Any objects can be divided. -/
theorem exists_isDivision (objects : List ObjectDefinition) :
    ∃ segments, IsDivision segments objects := by
  induction hlength : objects.length using Nat.strongRecOn generalizing objects with
  | ind n ih =>
    cases objects with
    | nil => exact ⟨[], .nil⟩
    | cons object objects =>
      subst hlength
      cases hopens : DerivedProviders.opensTable object with
      | false =>
        obtain ⟨segments, hsegments⟩ := ih objects.length (Nat.lt_succ_self _) objects rfl
        exact ⟨_, .lone hopens hsegments⟩
      | true =>
        obtain ⟨run, rest, rfl, hrun, hends⟩ :=
          TableRun.exists_isRun (TableRun.isRun_nil object.name) objects
        have hshorter : rest.length < (object :: (run ++ rest)).length := by
          rw [List.length_cons, List.length_append]
          omega
        obtain ⟨segments, hsegments⟩ := ih rest.length hshorter rest rfl
        exact ⟨_, .table hopens rfl hrun hends hsegments⟩

/-- The division of objects is the only one. -/
theorem IsDivision.unique (h : IsDivision segments objects) {other : List Segment}
    (hother : IsDivision other objects) : segments = other := by
  induction h generalizing other with
  | nil =>
    cases hother
    rfl
  | lone hlone _ ih =>
    cases hother with
    | lone _ hrest => rw [ih hrest]
    | table hopens => exact absurd hopens (by simp [hlone])
  | table hopens hobjects hrun hends _ ih =>
    cases hother with
    | lone hlone => exact absurd hopens (by simp [hlone])
    | table _ hbehind hsecond hlast hrest =>
      obtain ⟨rfl, rfl⟩ :=
        TableRun.eq_of_ends hrun hends hsecond hlast (hobjects.symm.trans hbehind)
      rw [ih hrest]

/-- The segments of a division make up the objects. -/
theorem IsDivision.flatMap_toList (h : IsDivision segments objects) :
    segments.flatMap toList = objects := by
  induction h with
  | nil => rfl
  | lone _ _ ih => rw [List.flatMap_cons, ih, toList, List.singleton_append]
  | table _ hobjects _ _ _ ih =>
    rw [List.flatMap_cons, ih, toList, hobjects, List.cons_append]

/-- A provider is made of different objects of a segment. -/
theorem used_subperm (conventions : Conventions) (segment : Segment) :
    (segment.used conventions).Subperm segment.toList := by
  cases segment with
  | lone object =>
    rw [used]
    split_ifs
    · exact List.Subperm.refl _
    · exact List.nil_subperm
  | table opener run =>
    exact (TableRun.entry_children_subperm opener.name run).trans
      (List.sublist_cons_self opener run).subperm

/-- No more objects are used than there are in the segments. -/
theorem flatMap_used_subperm (conventions : Conventions) (segments : List Segment) :
    (segments.flatMap (used conventions)).Subperm (segments.flatMap toList) := by
  induction segments with
  | nil => exact List.Subperm.refl _
  | cons segment segments ih => exact (used_subperm conventions segment).append ih

/-! ### Providers of a division -/

/-- The scalar of a segment is the one that is made of its object. -/
theorem scalar?_lone (conventions : Conventions) (object : ObjectDefinition) :
    (lone object).scalar? conventions = DerivedProviders.scalar? conventions object := by
  unfold scalar? DerivedProviders.scalar?
  dsimp only
  by_cases hkind : object.macroName = some "OBJECT-TYPE"
  · rw [if_pos hkind, hkind]
    cases object.type? <;> cases object.oid? <;> rfl
  · rw [if_neg hkind]
    split
    next hobject _ _ => exact absurd hobject hkind
    next => rfl

/-- The table of a segment is that of the scan of its run. -/
theorem table?_table (conventions : Conventions) (opener : ObjectDefinition)
    (run : List ObjectDefinition) : (table opener run).table? conventions =
      ((TableRun.scan opener.name run).table conventions).close? := by
  unfold table? OpenTable.close?
  dsimp only [TableRun.scan, TableScan.table]
  cases TableRun.entryOf? opener.name run with
  | none => rfl
  | some entry => cases hoid : entry.oid? <;> simp [hoid]

/-- An object that ends a table is looked at with the table closed, and so is the end of the
objects. -/
theorem outcome_of_ends (conventions : Conventions) (derived : DerivedProviders)
    {tableName : String} {run rest : List ObjectDefinition}
    (hends : TableRun.Ends tableName run rest) :
    Derivation.outcome conventions
        ⟨derived, some ((TableRun.scan tableName run).table conventions), rest⟩ =
      Derivation.outcome conventions
        ⟨derived.addTable ((TableRun.scan tableName run).table conventions), none, rest⟩ := by
  cases rest with
  | nil => rfl
  | cons next rest =>
    have hrejected : ((TableRun.scan tableName run).table conventions).accept? conventions next =
        none := by
      rw [TableScan.accept?_table, TableRun.accept?_scan, if_neg (hends next rfl)]
      rfl
    refine (Derivation.outcome_of_next? ?_).1.symm
    simp only [Derivation.next?, hrejected]

/-- The providers of objects are those of the segments into which they are divided. -/
theorem IsDivision.outcome_eq (h : IsDivision segments objects) (conventions : Conventions)
    (derived : DerivedProviders) : Derivation.outcome conventions ⟨derived, none, objects⟩ =
      ⟨derived.scalars ++ segments.filterMap (scalar? conventions),
        derived.tables ++ segments.filterMap (table? conventions)⟩ := by
  induction h generalizing derived with
  | nil => simp [Derivation.outcome]
  | @lone object segments rest hlone _ ih =>
    have hnext : Derivation.next? conventions ⟨derived, none, object :: rest⟩ =
        some ⟨{ derived with scalars :=
          derived.scalars ++ (scalar? conventions (.lone object)).toList }, none, rest⟩ := by
      simp [Derivation.next?, DerivedProviders.look, hlone, scalar?_lone]
    have htable : table? conventions (.lone object) = none := rfl
    rw [← (Derivation.outcome_of_next? hnext).1, ih, List.filterMap_cons_none htable,
      List.append_assoc]
    cases hscalar : scalar? conventions (.lone object) <;> simp [hscalar]
  | @table opener run objects rest segments hopens hobjects hrun hends _ ih =>
    subst hobjects
    have hnext : Derivation.next? conventions ⟨derived, none, opener :: (run ++ rest)⟩ =
        some ⟨derived, some (.named opener.name), run ++ rest⟩ := by
      simp [Derivation.next?, DerivedProviders.look, hopens]
    have hread : Derivation.outcome conventions ⟨derived, some (.named opener.name), run ++ rest⟩ =
        Derivation.outcome conventions
          ⟨derived, some ((TableRun.scan opener.name run).table conventions), rest⟩ := by
      simp only [Derivation.outcome, List.foldl_append,
        TableRun.foldl_read conventions derived hrun]
    have hscalar : scalar? conventions (.table opener run) = none := rfl
    rw [← (Derivation.outcome_of_next? hnext).1, hread, outcome_of_ends conventions derived hends,
      ih, List.filterMap_cons_none hscalar, DerivedProviders.addTable, ← table?_table,
      List.append_assoc]
    cases htable : table? conventions (.table opener run) <;> simp [htable]

end Segment

/-- The providers of a module are read off the one division of its objects into objects outside
tables and tables with the longest runs that belong to them. The segments of the division make up
the objects in their order, and no object is used more than once, as a scalar, an entry or a column.
The scalars are those of the objects outside tables, and behind them come the tables in the order in
which they are opened. The loop finds them in at most two looks at each object. -/
theorem derived_division (set : ModuleSet) (name : String) (m : ModuleDefinition)
    (hm : set.module? name = some m) :
    let conventions := Conventions.ofModules set
    ∃ segments, (∀ other, Segment.IsDivision other m.objects ↔ other = segments) ∧
      segments.flatMap Segment.toList = m.objects ∧
      (segments.flatMap (Segment.used conventions)).Subperm m.objects ∧
      (∀ limit, 2 * m.objects.length < limit →
        (Derivation.start m.objects).run? conventions limit =
          some ⟨segments.filterMap (Segment.scalar? conventions),
            segments.filterMap (Segment.table? conventions)⟩) ∧
      set.deriveProviders name =
        .ok ((segments.filterMap (Segment.scalar? conventions)).map .scalar ++
          (segments.filterMap (Segment.table? conventions)).map .table) := by
  intro conventions
  obtain ⟨segments, hsegments⟩ := Segment.exists_isDivision m.objects
  have houtcome := hsegments.outcome_eq conventions .empty
  refine ⟨segments, fun other => ⟨fun hother => hother.unique hsegments, ?_⟩,
    hsegments.flatMap_toList, ?_, fun limit hlimit => ?_, ?_⟩
  · rintro rfl
    exact hsegments
  · rw [← hsegments.flatMap_toList]
    exact Segment.flatMap_used_subperm conventions segments
  · rw [Derivation.run?_eq conventions (by simpa [Derivation.looks, Derivation.start] using hlimit)]
    exact congrArg some houtcome
  · have hderived : DerivedProviders.ofObjects conventions m.objects =
        ⟨segments.filterMap (Segment.scalar? conventions),
          segments.filterMap (Segment.table? conventions)⟩ := houtcome
    rw [ModuleSet.deriveProviders, hm]
    dsimp only
    rw [hderived]
    rfl

/-- An object of a device, with its type and its place in the device. -/
def ObjectDefinition.ofDevice (name type clause numbers : String) : ObjectDefinition :=
  { (bare name "DEVICE-MIB").placed numbers name with
    macroName := some "OBJECT-TYPE"
    clause := some clause
    fields := .ofList [("SYNTAX", .text type)] }

/-- A module with a scalar, a table with one column, a scalar that ends it, and a table without an
entry. -/
def deviceModule : ModuleDefinition where
  name := "DEVICE-MIB"
  imports := .empty
  objects := [
    .ofDevice "deviceName" "INTEGER" "device 1" "1.9.1",
    .ofDevice "portTable" "SEQUENCE OF PortEntry" "device 2" "1.9.2",
    .ofDevice "portEntry" "PortEntry" "portTable 1" "1.9.2.1",
    { ObjectDefinition.bare "PortEntry" "DEVICE-MIB" with macroName := some "SEQUENCE" },
    .ofDevice "portNumber" "INTEGER" "portEntry 1" "1.9.2.1.1",
    .ofDevice "deviceState" "INTEGER" "device 3" "1.9.3",
    .ofDevice "linkTable" "SEQUENCE OF LinkEntry" "device 4" "1.9.4"]
  places := .empty

/-- The object behind the columns of a table is a scalar again. -/
theorem derived_division_devices :
    let set : ModuleSet := ⟨[deviceModule]⟩
    set.module? "DEVICE-MIB" = some deviceModule ∧ ∃ scalars tables,
      (Derivation.start deviceModule.objects).run? (Conventions.ofModules set) 15 =
        some ⟨scalars, tables⟩ ∧
      set.deriveProviders "DEVICE-MIB" = .ok (scalars.map .scalar ++ tables.map .table) ∧
      scalars.map ScalarProvider.name = ["deviceName", "deviceState"] ∧
      tables.map (fun t => (t.name, t.columns.map TableColumn.name)) =
        [("portEntry", ["portNumber"])] := by
  intro set
  have hm : set.module? "DEVICE-MIB" = some deviceModule := by decide +kernel
  obtain ⟨segments, _, _, _, hrun, hderived⟩ := derived_division set "DEVICE-MIB" deviceModule hm
  have hfifteen := hrun 15 (by decide)
  have hnames : ((Derivation.start deviceModule.objects).run? (Conventions.ofModules set) 15).map
      (fun derived => (derived.scalars.map ScalarProvider.name,
        derived.tables.map fun t => (t.name, t.columns.map TableColumn.name))) =
      some (["deviceName", "deviceState"], [("portEntry", ["portNumber"])]) := by decide +kernel
  rw [hfifteen, Option.map_some, Option.some.injEq, Prod.mk.injEq] at hnames
  exact ⟨hm, _, _, hfifteen, hderived, hnames.1, hnames.2⟩

end Smi
