import Mathlib.Data.List.Nodup
import Smi.Proofs.ObjectTree.Complete

/-!
# The types of stored values

A value is stored with the type that its scalar or its column declares, or with its natural type if
none is declared. Setting a scalar and adding a row see to this each time anew. Replacing a cell
leaves the type as it is, which is right for a column that declares one; in a column without a
declared type it is right only if the new value has the natural type of the old one. So the types of
the values at an address stay right through a run exactly if each replacement there keeps the
natural type.
-/

namespace Smi

variable {oid : Oid} {declared other : Option ValueType}

/-- The column into which a row writes last at the cells of a number. It is the only column of its
number unless several columns have one number. -/
def TableProvider.lastColumn? (table : TableProvider) (number : Nat) : Option TableColumn :=
  table.columns.reverse.find? fun column => column.number = number

/-- Whether the values of a provider stand at an address with a declared type, or without one. -/
def ProviderSpec.Declares : ProviderSpec → Oid → Option ValueType → Prop
  | .scalar provider, oid, declared =>
      oid.arcs = provider.oid.arcs ++ [0] ∧ provider.type = declared
  | .table provider, oid, declared => ∃ number suffix column, provider.IsCell number suffix oid ∧
      provider.lastColumn? number = some column ∧ column.type = declared

/-- Whether the type of a value cannot change when the value is replaced: a type is declared, or the
value is that of a scalar. -/
def ProviderSpec.Fixes : ProviderSpec → Option ValueType → Prop
  | .scalar _, _ => True
  | .table _, declared => declared.isSome

/-- The values of a provider stand strictly below it. -/
theorem ProviderSpec.Declares.below {spec : ProviderSpec} (h : spec.Declares oid declared) :
    ∃ arc rest, oid.arcs = spec.oid.arcs ++ arc :: rest := by
  cases spec with
  | scalar provider => exact ⟨0, [], h.1⟩
  | table table =>
    obtain ⟨number, suffix, _, hcell, _⟩ := h
    exact ⟨number, suffix, hcell⟩

/-- What a provider declares at an address is one type or none. -/
theorem ProviderSpec.Declares.unique {spec : ProviderSpec} (h : spec.Declares oid declared)
    (h' : spec.Declares oid other) : declared = other := by
  cases spec with
  | scalar provider => exact h.2.symm.trans h'.2
  | table table =>
    obtain ⟨number, suffix, column, hcell, hcolumn, rfl⟩ := h
    obtain ⟨number', suffix', column', hcell', hcolumn', rfl⟩ := h'
    obtain ⟨rfl, -⟩ := (ObjectTree.isCell_iff_of_isCell hcell).mp hcell'
    rw [Option.some.inj (hcolumn.symm.trans hcolumn')]

namespace TableProvider

variable {table : TableProvider} {column : TableColumn}

/-- A number has a column into which a row writes last if it has any. -/
theorem isSome_lastColumn? (table : TableProvider) (number : Nat) :
    (table.lastColumn? number).isSome = (table.column? number).isSome := by
  rw [lastColumn?, column?, Bool.eq_iff_iff, List.find?_isSome, List.find?_isSome]
  simp only [List.mem_reverse]

end TableProvider

namespace ObjectTree

variable {tree after : ObjectTree} {covers : ProviderSpec → Option ValueType → Prop}
  {spec : ProviderSpec} {table : TableProvider} {name : String} {number : Nat} {suffix : List Nat}
  {key : RowKey} {values : List Value} {value old : Value} {cell : Cell}

/-- Whether a value at an address has the type that is declared there, or else its natural type. It
matters only where a provider declares something that is covered. -/
def TypedAt (tree : ObjectTree) (covers : ProviderSpec → Option ValueType → Prop) (oid : Oid) :
    Prop :=
  ∀ spec ∈ tree.providers, ∀ declared cell, spec.Declares oid declared → covers spec declared →
    (tree.contentAt oid).cell = some cell → cell.type = declared.getD cell.value.naturalType

/-- Types stay right where no provider and no value is new. -/
theorem TypedAt.of_cells (htyped : tree.TypedAt covers oid)
    (hproviders : ∀ spec ∈ after.providers, spec ∈ tree.providers)
    (hcells : (after.contentAt oid).cell = none ∨
      (after.contentAt oid).cell = (tree.contentAt oid).cell) : after.TypedAt covers oid := by
  intro spec hspec declared cell hdeclares hcovers hcell
  rcases hcells with hnone | hsame
  · rw [hnone] at hcell
    cases hcell
  · exact htyped spec (hproviders spec hspec) declared cell hdeclares hcovers (hsame ▸ hcell)

/-- Where no two providers meet, the type of a value is right if it is right for its writer. -/
theorem TypedAt.of_writer (hdisjoint : tree.Disjoint) (hregistry : after.registry = tree.registry)
    {writer : ProviderSpec} (hwriter : writer ∈ tree.providers)
    (hdeclares : writer.Declares oid declared)
    (hcell : ∀ cell, covers writer declared → (after.contentAt oid).cell = some cell →
      cell.type = declared.getD cell.value.naturalType) : after.TypedAt covers oid := by
  intro spec hspec found cell hfound hcovers hheld
  rw [providers_congr hregistry] at hspec
  obtain ⟨arc, rest, harcs⟩ := hdeclares.below
  obtain ⟨arc', rest', harcs'⟩ := hfound.below
  obtain rfl : spec = writer :=
    hdisjoint.eq_of_below hspec hwriter ⟨arc' :: rest', harcs'.symm⟩ ⟨arc :: rest, harcs.symm⟩
  obtain rfl := hdeclares.unique hfound
  exact hcell cell hcovers hheld

/-! ### One operation -/

/-- Values keep their types when a provider is registered. -/
theorem TypedAt.register (htyped : tree.TypedAt covers oid) (hwf : tree.WellFormed)
    (spec : ProviderSpec) : (tree.register spec).2.TypedAt covers oid := by
  rcases hwf.register_step spec with hsame | ⟨hends, _, hdone⟩
  · rwa [hsame]
  intro found hfound declared cell hdeclares hcovers hcell
  rw [hdone.cell_eq] at hcell
  rcases hdone.mem_providers_iff.mp hfound with hold | hsettle
  · exact htyped found hold declared cell hdeclares hcovers hcell
  -- No node stands below a provider that is new.
  · obtain ⟨arc, rest, harcs⟩ := hdeclares.below
    rw [(name_oid_of_settle hsettle).2] at harcs
    have hlive : tree.Live oid := hwf.shaped.linked.live_of_contentAt fun h => by
      rw [h] at hcell
      cases hcell
    rw [hends oid hlive ⟨arc :: rest, harcs.symm⟩] at harcs
    simp at harcs

/-- Values keep their types when a provider is unregistered. -/
theorem TypedAt.unregister (htyped : tree.TypedAt covers oid) (hwf : tree.WellFormed)
    (name : String) : (tree.unregister name).2.TypedAt covers oid := by
  rcases (hwf.unregister_atomic name).cases with hsame | ⟨_, hdone⟩
  · rwa [hsame]
  · exact htyped.of_cells (fun _ hspec => (hdone.mem_providers_iff.mp hspec).1)
      (Or.inr (hdone.cell_eq oid))

/-- A scalar is set with the type that is declared for it. -/
theorem TypedAt.setScalar (htyped : tree.TypedAt covers oid) (hwf : tree.WellFormed)
    (hdisjoint : tree.Disjoint) (name : String) (value : Value) :
    (tree.setScalar name value).2.TypedAt covers oid := by
  rcases (hwf.setScalar_atomic name value).cases with
    hsame | ⟨_, provider, address, hinstance, hregistry, hchange⟩
  · rwa [hsame]
  · obtain ⟨hscalar, harcs⟩ := mem_providers_of_scalarInstance hinstance
    by_cases hoid : oid = address
    · have hdeclares : ProviderSpec.Declares (.scalar provider) oid provider.type :=
        ⟨hoid ▸ harcs, rfl⟩
      refine .of_writer hdisjoint hregistry hscalar hdeclares fun cell _ hcell => ?_
      rw [hchange oid, if_pos hoid] at hcell
      rw [← Option.some.inj hcell]
    · refine htyped.of_cells (fun _ => (mem_providers_congr hregistry).mp) (Or.inr ?_)
      rw [hchange oid, if_neg hoid]

/-- Values keep their types when a scalar is cleared. -/
theorem TypedAt.clearScalar (htyped : tree.TypedAt covers oid) (hwf : tree.WellFormed)
    (name : String) : (tree.clearScalar name).2.TypedAt covers oid := by
  rcases (hwf.clearScalar_atomic name).cases with hsame | ⟨_, _, address, _, _, hregistry, hchange⟩
  · rwa [hsame]
  · refine htyped.of_cells (fun _ => (mem_providers_congr hregistry).mp) ?_
    rw [hchange oid]
    split
    · exact Or.inl rfl
    · exact Or.inr rfl

/-- Values keep their types when a row is deleted. -/
theorem TypedAt.deleteRow (htyped : tree.TypedAt covers oid) (hwf : tree.WellFormed)
    (name : String) (key : RowKey) : (tree.deleteRow name key).2.TypedAt covers oid := by
  rcases (hwf.deleteRow_atomic name key).cases with
    hsame | ⟨_, table, suffix, _, _, _, hregistry, hcontents⟩
  · rwa [hsame]
  · refine htyped.of_cells (fun _ => (mem_providers_congr hregistry).mp) ?_
    rw [hcontents oid]
    split
    · exact Or.inl rfl
    · exact Or.inr rfl

/-- A row puts the value of the last column of a number at the cells of this number. -/
theorem declares_of_plannedCell? (hlength : table.columns.length ≤ values.length)
    (hplanned : plannedCell? table suffix (table.columns.zip values) oid = some cell) :
    ∃ declared, ProviderSpec.Declares (.table table) oid declared ∧
      cell.type = declared.getD cell.value.naturalType := by
  obtain ⟨⟨column, value⟩, hfound, rfl⟩ := Option.map_eq_some_iff.mp hplanned
  have hcell : table.IsCell column.number suffix oid := by simpa using List.find?_some hfound
  refine ⟨column.type, ⟨column.number, suffix, column, hcell, ?_, rfl⟩, rfl⟩
  have hcolumns : table.columns = (table.columns.zip values).map Prod.fst :=
    (List.map_fst_zip hlength).symm
  rw [TableProvider.lastColumn?, hcolumns, ← List.map_reverse, List.find?_map]
  refine Option.map_eq_some_iff.mpr ⟨(column, value), ?_, rfl⟩
  rw [← hfound]
  refine congrArg (fun p => (table.columns.zip values).reverse.find? p) (funext fun other => ?_)
  simp [isCell_iff_of_isCell hcell]

/-- A row is added with the types that are declared for its columns. -/
theorem TypedAt.addRow (htyped : tree.TypedAt covers oid) (hwf : tree.WellFormed)
    (hdisjoint : tree.Disjoint) (name : String) (values : List Value) :
    (tree.addRow name values).2.TypedAt covers oid := by
  rcases (hwf.addRow_atomic name values).cases with
    hsame | ⟨_, table, suffix, htable, hlength, _, hregistry, _, hcontents⟩
  · rwa [hsame]
  cases hplanned : plannedCell? table suffix
      (table.columns.zip (values.drop table.foreignIndex.length)) oid with
  | none =>
    refine htyped.of_cells (fun _ => (mem_providers_congr hregistry).mp) (Or.inr ?_)
    rw [hcontents, hplanned, Option.none_or]
    rfl
  | some planned =>
    obtain ⟨declared, hdeclares, htype⟩ := declares_of_plannedCell?
      (by rw [List.length_drop]; omega) hplanned
    refine .of_writer hdisjoint hregistry (mem_providers_of_table htable).1 hdeclares
      fun cell _ hcell => ?_
    rw [hcontents, hplanned] at hcell
    rwa [← Option.some.inj hcell]

/-- Whether an operation, if it replaces a value at an address in a column without a declared type,
puts a value of the same natural type there. -/
def KeepsKindAt (tree : ObjectTree) (oid : Oid) : Operation → Prop
  | .setCell name number key value => ∀ table suffix column old after,
      tree.table name = .ok table → RowKey.suffix table key = .ok suffix →
      table.IsCell number suffix oid → table.lastColumn? number = some column →
      column.type = none → tree.setCell name number key value = (.ok old, after) →
      value.naturalType = old.naturalType
  | _ => True

/-- A replaced value has the right type if none was free to change, or if the new value is of the
same kind as the old one. -/
theorem TypedAt.setCell (htyped : tree.TypedAt covers oid) (hwf : tree.WellFormed)
    (hdisjoint : tree.Disjoint)
    (hkind : (∀ table, ¬covers (.table table) none) ∨
      tree.KeepsKindAt oid (.setCell name number key value)) :
    (tree.setCell name number key value).2.TypedAt covers oid := by
  have hdone := hwf.setCell_atomic name number key value
  rcases hset : tree.setCell name number key value with ⟨e | old, after⟩
  · rw [hset] at hdone
    rwa [show after = tree from hdone]
  rw [hset] at hdone
  obtain ⟨suffix, address, cell, hlocate, hcell, rfl, hregistry, hchange⟩ := hdone
  by_cases hoid : oid = address
  · subst hoid
    obtain ⟨table, htable, _⟩ := bind_eq_ok_iff.mp hlocate
    obtain ⟨hcolumn, hsuffix, hisCell⟩ := (locateCell_eq_ok_iff htable).mp hlocate
    obtain ⟨column, hlast⟩ := Option.isSome_iff_exists.mp
      ((table.isSome_lastColumn? number).trans hcolumn)
    have hwriter := (mem_providers_of_table htable).1
    have hdeclares : ProviderSpec.Declares (.table table) oid column.type :=
      ⟨number, suffix, column, hisCell, hlast, rfl⟩
    refine .of_writer hdisjoint hregistry hwriter hdeclares fun stored hcovers hstored => ?_
    have hold := htyped _ hwriter _ cell hdeclares hcovers hcell
    rw [hchange oid, if_pos rfl] at hstored
    obtain rfl := Option.some.inj hstored
    cases htype : column.type with
    | some type =>
      rw [htype] at hold
      exact hold
    | none =>
      rw [htype] at hold hcovers
      have hsame := (hkind.resolve_left fun h => h table hcovers) table suffix column cell.value
        after htable hsuffix hisCell hlast htype hset
      exact hold.trans hsame.symm
  · refine htyped.of_cells (fun _ => (mem_providers_congr hregistry).mp) (Or.inr ?_)
    rw [hchange oid, if_neg hoid]

/-- One operation keeps types right where all providers declare a type, and elsewhere if it does not
put a value of another natural type in the place of one. -/
theorem TypedAt.apply (htyped : tree.TypedAt covers oid) (hwf : tree.WellFormed)
    (hdisjoint : tree.Disjoint) (operation : Operation)
    (hkind : (∀ table, ¬covers (.table table) none) ∨ tree.KeepsKindAt oid operation) :
    (tree.apply operation).TypedAt covers oid := by
  cases operation with
  | materialize place =>
    refine htyped.of_cells (fun _ => (mem_providers_congr (registry_materialize place)).mp) ?_
    rw [ObjectTree.apply, (hwf.shaped.materialize place).1.contentAt hwf.shaped]
    exact Or.inr rfl
  | register spec => exact htyped.register hwf spec
  | registerAll specs =>
    exact hwf.registerAll_induction (motive := fun tree => tree.TypedAt covers oid) htyped
      (fun _ spec hwf htyped => htyped.register hwf spec) specs
  | unregister name => exact htyped.unregister hwf name
  | setScalar name value => exact htyped.setScalar hwf hdisjoint name value
  | clearScalar name => exact htyped.clearScalar hwf name
  | addRow name values => exact htyped.addRow hwf hdisjoint name values
  | deleteRow name key => exact htyped.deleteRow hwf name key
  | setCell name number key value => exact htyped.setCell hwf hdisjoint hkind

/-- Where types are right before and after an operation, it has kept the natural type. -/
theorem TypedAt.keepsKindAt (hbefore : tree.TypedAt covers oid) (hwf : tree.WellFormed)
    {operation : Operation} (hafter : (tree.apply operation).TypedAt covers oid)
    (hcovers : ∀ table, covers (.table table) none) : tree.KeepsKindAt oid operation := by
  cases operation with
  | setCell name number key value =>
    intro table suffix column old after htable hsuffix hisCell hlast htype hset
    have hdone := hwf.setCell_atomic name number key value
    rw [hset] at hdone
    obtain ⟨suffix', address, cell, hlocate, hcell, rfl, hregistry, hchange⟩ := hdone
    obtain ⟨_, hsuffix', haddress⟩ := (locateCell_eq_ok_iff htable).mp hlocate
    obtain rfl : suffix' = suffix := Except.ok.inj (hsuffix'.symm.trans hsuffix)
    obtain rfl : oid = address := Oid.ext (hisCell.trans haddress.symm)
    have hwriter := (mem_providers_of_table htable).1
    have hdeclares : ProviderSpec.Declares (.table table) oid none :=
      ⟨number, suffix', column, hisCell, hlast, htype⟩
    have hold := hbefore _ hwriter none cell hdeclares (hcovers table) hcell
    rw [ObjectTree.apply, hset] at hafter
    have hnew := hafter (.table table) ((mem_providers_congr hregistry).mpr hwriter) none
      { cell with value } hdeclares (hcovers table) (by rw [hchange oid, if_pos rfl]; rfl)
    exact hnew.symm.trans hold
  | _ => trivial

/-! ### Runs -/

variable {operations : List Operation}

/-- A run keeps types right as its operations do. -/
theorem TypedAt.run (htyped : tree.TypedAt covers oid) (hwf : tree.WellFormed)
    (hdisjoint : ∀ count, (tree.run (operations.take count)).Disjoint)
    (hkind : (∀ table, ¬covers (.table table) none) ∨ ∀ count operation,
      operations[count]? = some operation →
      (tree.run (operations.take count)).KeepsKindAt oid operation) (count : Nat) :
    (tree.run (operations.take count)).TypedAt covers oid := by
  induction count with
  | zero => exact htyped
  | succ count ih =>
    cases hoperation : operations[count]? with
    | none =>
      rw [List.take_of_length_le (by have := List.getElem?_eq_none_iff.mp hoperation; omega)]
      rwa [List.take_of_length_le (List.getElem?_eq_none_iff.mp hoperation)] at ih
    | some operation =>
      rw [run_take_succ hoperation]
      exact ih.apply (hwf.run _) (hdisjoint count) operation
        (hkind.imp_right fun h => h count operation hoperation)

/-- Nothing has a wrong type in the empty tree. -/
theorem empty_typedAt : empty.TypedAt covers oid :=
  fun _ hspec => absurd hspec List.not_mem_nil

/-- In a run in which no two providers ever meet, the value of a scalar always has the type that the
scalar declares or else its natural type, and the value of a cell always has the type that its
column declares. At the cells of columns without a declared type the types stay the natural ones
throughout exactly if no replaced value has another natural type than the value in whose place it
is put. -/
theorem run_empty_typedAt (operations : List Operation)
    (hdisjoint : ∀ count, (empty.run (operations.take count)).Disjoint) (oid : Oid) :
    (∀ count, (empty.run (operations.take count)).TypedAt ProviderSpec.Fixes oid) ∧
    ((∀ count, (empty.run (operations.take count)).TypedAt (fun _ _ => True) oid) ↔
      ∀ count operation, operations[count]? = some operation →
        (empty.run (operations.take count)).KeepsKindAt oid operation) := by
  have hfixes (table : TableProvider) : ¬ProviderSpec.Fixes (.table table) none :=
    Bool.false_ne_true
  refine ⟨empty_typedAt.run empty_wellFormed hdisjoint (Or.inl hfixes),
    fun htyped count operation hoperation => ?_,
    fun hkind => empty_typedAt.run empty_wellFormed hdisjoint (Or.inr hkind)⟩
  have hafter := htyped (count + 1)
  rw [run_take_succ hoperation] at hafter
  exact (htyped count).keepsKindAt (empty_wellFormed.run _) hafter fun _ => trivial

/-- A table of notes by their numbers; their contents may be values of any kind. -/
def notes : TableProvider where
  name := "note"
  tableName := none
  oid := ⟨[1, 3, 4], by decide⟩
  columns := [⟨1, "number", some .integer⟩, ⟨2, "content", none⟩]
  index := [.ofName "number"]
  augments := none

/-- A note is added, and its content is replaced by another value. -/
def noteRun (value : Value) : List Operation :=
  [.register (.table notes), .addRow "note" [.integer 7, .integer 1],
    .setCell "note" 2 [.integer 7] value]

/-- The content of the note. -/
def noteContent : Oid :=
  ⟨[1, 3, 4, 2, 7], by decide⟩

/-- A number that is replaced by another number keeps its type. -/
theorem run_empty_typedAt_notes :
    (∀ count, (empty.run ((noteRun (.integer 5)).take count)).Disjoint) ∧
      ∀ count, (empty.run ((noteRun (.integer 5)).take count)).TypedAt (fun _ _ => True)
        noteContent := by
  have hdisjoint : ∀ count, (empty.run ((noteRun (.integer 5)).take count)).Disjoint :=
    forall_run_take (by decide +kernel)
  refine ⟨hdisjoint, (run_empty_typedAt _ hdisjoint noteContent).2.mpr ?_⟩
  rintro (_ | _ | _ | count) operation hoperation
  · obtain rfl := Option.some.inj hoperation
    trivial
  · obtain rfl := Option.some.inj hoperation
    trivial
  · obtain rfl := Option.some.inj hoperation
    intro table suffix column old after _ _ _ _ _ hset
    have hold : Except.ok (.integer 1) = Except.ok old := congrArg Prod.fst hset
    rw [← Except.ok.inj hold]
    rfl
  · cases hoperation

/-- A number that is replaced by a string leaves its type to the string. -/
theorem not_typedAt_notes :
    let tree := empty.run (noteRun (.octetString "one"))
    (∀ count, (empty.run ((noteRun (.octetString "one")).take count)).Disjoint) ∧
      (tree.table "note").toOption.bind (·.lastColumn? 2) = some ⟨2, "content", none⟩ ∧
      (tree.contentAt noteContent).cell = some ⟨.octetString "one", .integer⟩ ∧
      ¬tree.TypedAt (fun _ _ => True) noteContent := by
  intro tree
  have hcell : (tree.contentAt noteContent).cell = some ⟨.octetString "one", .integer⟩ := by rfl
  refine ⟨forall_run_take (by decide +kernel), by rfl, hcell, fun htyped => ?_⟩
  obtain ⟨spec, hspec, hdeclares⟩ : ∃ spec ∈ tree.providers, spec.Declares noteContent none :=
    ⟨_, List.mem_singleton_self _, 2, [7], ⟨2, "content", none⟩, rfl, rfl, rfl⟩
  have htype := htyped spec hspec none _ hdeclares trivial hcell
  cases htype

end ObjectTree

end Smi
