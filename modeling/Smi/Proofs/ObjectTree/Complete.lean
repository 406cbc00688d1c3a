import Smi.Proofs.ObjectTree.Owner
import Smi.Proofs.ObjectTree.Rows

/-!
# Rows as a whole

Where no two providers meet, only a table writes below its identifier. It writes into each of its
columns when a row is added, and takes the values of all of them away when the row is deleted. So a
row with a value in one column has a value in every column, whatever other operations come between.
-/

namespace Smi.ObjectTree

variable {tree after : ObjectTree} {oid address : Oid} {name : String} {table : TableProvider}
  {spec : ProviderSpec} {number : Nat} {suffix : List Nat} {key : RowKey} {values : List Value}
  {value : Value} {planned : List (TableColumn × Value)} {operation : Operation}

/-! ### Values of cells -/

/-- The value of a table in the column of a number and at a suffix. -/
def cellValue? (tree : ObjectTree) (table : TableProvider) (number : Nat) (suffix : List Nat) :
    Option Value :=
  (cellAddress table number suffix).toOption.bind tree.valueAt?

/-- A cell has the value at its address. -/
theorem cellValue?_eq_some_iff :
    tree.cellValue? table number suffix = some value ↔
      ∃ address, table.IsCell number suffix address ∧ tree.valueAt? address = some value := by
  simp only [← cellAddress_eq_ok_iff]
  rw [cellValue?]
  cases cellAddress table number suffix <;> simp [Except.toOption]

/-- At an address that has a cell the value of the cell is found. -/
theorem cellValue?_eq (hcell : table.IsCell number suffix address) :
    tree.cellValue? table number suffix = tree.valueAt? address := by
  rw [cellValue?, cellAddress_eq_ok_iff.mpr hcell]
  rfl

/-- A cell has a value if there is one at its address. -/
theorem isSome_cellValue?_iff :
    (tree.cellValue? table number suffix).isSome ↔
      ∃ address, table.IsCell number suffix address ∧ (tree.contentAt address).cell ≠ none := by
  simp only [Option.isSome_iff_exists, cellValue?_eq_some_iff, valueAt?_eq, Option.map_eq_some_iff,
    ← Option.isSome_iff_ne_none]
  constructor
  · rintro ⟨_, address, hcell, cell, hheld, _⟩
    exact ⟨address, hcell, cell, hheld⟩
  · rintro ⟨address, hcell, cell, hheld⟩
    exact ⟨_, address, hcell, cell, hheld, rfl⟩

/-- A cell has a value in one tree exactly if it has one in another, if this is so of the addresses
that it can have. -/
theorem isSome_cellValue?_congr
    (hcells : ∀ address, table.IsCell number suffix address →
      ((after.contentAt address).cell = none ↔ (tree.contentAt address).cell = none)) :
    (after.cellValue? table number suffix).isSome ↔
      (tree.cellValue? table number suffix).isSome := by
  simp only [isSome_cellValue?_iff]
  refine exists_congr fun address => and_congr_right fun hcell => ?_
  rw [ne_eq, ne_eq, hcells address hcell]

/-! ### What changes a row -/

/-- Whether each row of a table that has a value in one column has one in every column. -/
def HoldsWholeRows (tree : ObjectTree) (table : TableProvider) : Prop :=
  ∀ suffix, ∀ first ∈ table.columns, ∀ second ∈ table.columns,
    (tree.cellValue? table first.number suffix).isSome →
      (tree.cellValue? table second.number suffix).isSome

/-- Whole rows stay whole where the same cells below the table have a value. -/
theorem HoldsWholeRows.of_cells (hwhole : tree.HoldsWholeRows table)
    (hcells : ∀ oid, table.oid.arcs <+: oid.arcs →
      ((after.contentAt oid).cell = none ↔ (tree.contentAt oid).cell = none)) :
    after.HoldsWholeRows table := by
  have hsame : ∀ number suffix, (after.cellValue? table number suffix).isSome ↔
      (tree.cellValue? table number suffix).isSome := fun number suffix =>
    isSome_cellValue?_congr fun address hcell => hcells address ⟨number :: suffix, hcell.symm⟩
  intro suffix first hfirst second hsecond
  rw [hsame, hsame]
  exact hwhole suffix first hfirst second hsecond

/-- Two providers at or above one address are the same. -/
theorem Disjoint.eq_of_below (hdisjoint : tree.Disjoint) {first second : ProviderSpec}
    (hfirst : first ∈ tree.providers) (hsecond : second ∈ tree.providers)
    (hfirstBelow : first.oid.arcs <+: oid.arcs) (hsecondBelow : second.oid.arcs <+: oid.arcs) :
    first = second :=
  hdisjoint second hsecond first hfirst
    (List.prefix_or_prefix_of_prefix hfirstBelow hsecondBelow)

/-- The instance of a scalar is not below a table. -/
theorem Disjoint.not_below_table (hdisjoint : tree.Disjoint)
    (htable : .table table ∈ tree.providers) {provider : ScalarProvider}
    (hinstance : tree.scalarInstance name = .ok (provider, address)) :
    ¬table.oid.arcs <+: address.arcs := by
  intro hbelow
  obtain ⟨hscalar, harcs⟩ := mem_providers_of_scalarInstance hinstance
  cases hdisjoint.eq_of_below htable hscalar hbelow ⟨[0], harcs.symm⟩

/-- Every column of a row that is added gets a value. -/
theorem isSome_plannedCell? {cell : TableColumn × Value} (hmem : cell ∈ planned)
    (hcell : table.IsCell cell.1.number suffix oid) :
    (plannedCell? table suffix planned oid).isSome := by
  rw [plannedCell?, Option.isSome_map, List.find?_isSome]
  exact ⟨cell, List.mem_reverse.mpr hmem, by simpa using hcell⟩

/-- Tables still hold whole rows when a row has been added. -/
theorem HoldsWholeRows.of_addsRow (hwhole : tree.HoldsWholeRows table) (hdisjoint : tree.Disjoint)
    (htable : .table table ∈ tree.providers) (hdone : tree.AddsRow name values key after) :
    after.HoldsWholeRows table := by
  obtain ⟨writer, written, hwriter, hlength, _, _, haddresses, hcontents⟩ := hdone
  by_cases hsame : writer = table
  · subst hsame
    intro suffix first hfirst second hsecond hvalue
    by_cases hsuffix : suffix = written
    · subst hsuffix
      obtain ⟨address, hcell⟩ := haddresses second hsecond
      obtain ⟨value, hmem⟩ := exists_mem_zip_of_mem_columns hlength hsecond
      obtain ⟨cell, hplanned⟩ := Option.isSome_iff_exists.mp (isSome_plannedCell? hmem hcell)
      refine isSome_cellValue?_iff.mpr ⟨address, hcell, ?_⟩
      rw [hcontents, hplanned]
      exact Option.some_ne_none cell
    -- The row that is added stands at another suffix.
    · have hkept : ∀ number, (after.cellValue? writer number suffix).isSome ↔
          (tree.cellValue? writer number suffix).isSome := by
        refine fun number => isSome_cellValue?_congr fun address hcell => ?_
        have hnone : plannedCell? writer written
            (writer.columns.zip (values.drop writer.foreignIndex.length)) address = none :=
          plannedCell?_eq_none fun cell _ hother =>
            hsuffix ((isCell_iff_of_isCell hother).mp hcell).2
        rw [hcontents, hnone, Option.none_or]
        exact Iff.rfl
      rw [hkept] at hvalue ⊢
      exact hwhole suffix first hfirst second hsecond hvalue
  · refine hwhole.of_cells fun oid hbelow => ?_
    have hnone : plannedCell? writer written
        (writer.columns.zip (values.drop writer.foreignIndex.length)) oid = none := by
      refine plannedCell?_eq_none fun cell _ hcell => ?_
      have hwriterBelow : writer.oid.arcs <+: oid.arcs := ⟨_, hcell.symm⟩
      exact hsame (ProviderSpec.table.inj
        (hdisjoint.eq_of_below (mem_providers_of_table hwriter).1 htable hwriterBelow hbelow))
    rw [hcontents, hnone, Option.none_or]
    exact Iff.rfl

/-- Tables still hold whole rows when a row has been deleted. -/
theorem HoldsWholeRows.of_deletesRow (hwhole : tree.HoldsWholeRows table)
    (hdisjoint : tree.Disjoint) (htable : .table table ∈ tree.providers)
    (hdone : tree.DeletesRow name key after) : after.HoldsWholeRows table := by
  obtain ⟨writer, written, hwriter, _, _, _, hcontents⟩ := hdone
  by_cases hsame : writer = table
  · subst hsame
    intro suffix first hfirst second hsecond hvalue
    by_cases hsuffix : suffix = written
    · subst hsuffix
      obtain ⟨address, hcell, hheld⟩ := isSome_cellValue?_iff.mp hvalue
      rw [hcontents, if_pos ⟨first, hfirst, hcell⟩] at hheld
      exact absurd rfl hheld
    -- The row that is deleted stands at another suffix.
    · have hkept : ∀ number, (after.cellValue? writer number suffix).isSome ↔
          (tree.cellValue? writer number suffix).isSome := by
        refine fun number => isSome_cellValue?_congr fun address hcell => ?_
        rw [hcontents, if_neg fun ⟨column, _, hother⟩ =>
          hsuffix ((isCell_iff_of_isCell hother).mp hcell).2]
      rw [hkept] at hvalue ⊢
      exact hwhole suffix first hfirst second hsecond hvalue
  · refine hwhole.of_cells fun oid hbelow => ?_
    rw [hcontents, if_neg]
    rintro ⟨column, _, hcell⟩
    have hwriterBelow : writer.oid.arcs <+: oid.arcs := ⟨_, hcell.symm⟩
    exact hsame (ProviderSpec.table.inj
      (hdisjoint.eq_of_below (mem_providers_of_table hwriter).1 htable hwriterBelow hbelow))

/-! ### Every operation keeps rows whole -/

/-- Whether each registered table holds whole rows. -/
def Complete (tree : ObjectTree) : Prop :=
  ∀ table, .table table ∈ tree.providers → tree.HoldsWholeRows table

/-- A table that is registered has no cells yet, since no node stands below it. -/
theorem Complete.of_registers (hcomplete : tree.Complete) (hwf : tree.WellFormed) {id : NodeId}
    (hends : tree.Ends spec.oid) (hdone : tree.Registers spec id after) : after.Complete := by
  intro table htable
  rcases hdone.mem_providers_iff.mp htable with hold | hsettle
  · exact (hcomplete table hold).of_cells fun oid _ => by rw [hdone.cell_eq]
  · intro suffix first _ _ _ hvalue
    obtain ⟨address, hcell, hheld⟩ := isSome_cellValue?_iff.mp hvalue
    rw [hdone.cell_eq] at hheld
    have hlive := hwf.shaped.linked.live_of_contentAt fun h => hheld (by rw [h]; rfl)
    have hoid : spec.oid = table.oid := (name_oid_of_settle hsettle).2.symm
    rw [hoid] at hends
    rw [hends address hlive ⟨first.number :: suffix, hcell.symm⟩, TableProvider.IsCell] at hcell
    simp at hcell

/-- Where the providers stay the same, it is enough to look at the rows of each table. -/
theorem Complete.of_registry (hcomplete : tree.Complete)
    (hregistry : after.registry = tree.registry)
    (hrows : ∀ table, .table table ∈ tree.providers → tree.HoldsWholeRows table →
      after.HoldsWholeRows table) : after.Complete := by
  intro table htable
  rw [providers_congr hregistry] at htable
  exact hrows table htable (hcomplete table htable)

/-- Where no two providers meet, every transition keeps rows whole. -/
theorem Complete.transition (hcomplete : tree.Complete) (hwf : tree.WellFormed)
    (hdisjoint : tree.Disjoint) (h : tree.Transition after) : after.Complete := by
  cases h with
  | registers hends hdone => exact hcomplete.of_registers hwf hends hdone
  | idle hregistry hcontents =>
    refine hcomplete.of_registry hregistry fun table htable hwhole =>
      hwhole.of_cells fun oid _ => ?_
    rw [hcontents]
  | unregisters _ hdone =>
    intro table htable
    have hold := (hdone.mem_providers_iff.mp htable).1
    exact (hcomplete table hold).of_cells fun oid _ => by rw [hdone.cell_eq]
  | setsScalar hdone =>
    obtain ⟨provider, address, hinstance, hregistry, hchange⟩ := hdone
    refine hcomplete.of_registry hregistry fun table htable hwhole =>
      hwhole.of_cells fun oid hbelow => ?_
    rw [hchange oid, if_neg]
    rintro rfl
    exact hdisjoint.not_below_table htable hinstance hbelow
  | clearsScalar hdone =>
    obtain ⟨provider, address, hinstance, _, hregistry, hchange⟩ := hdone
    refine hcomplete.of_registry hregistry fun table htable hwhole =>
      hwhole.of_cells fun oid hbelow => ?_
    rw [hchange oid, if_neg]
    rintro rfl
    exact hdisjoint.not_below_table htable hinstance hbelow
  | addsRow hdone =>
    obtain ⟨_, _, _, _, _, hregistry, _⟩ := id hdone
    exact hcomplete.of_registry hregistry fun table htable hwhole =>
      hwhole.of_addsRow hdisjoint htable hdone
  | deletesRow hdone =>
    obtain ⟨_, _, _, _, _, hregistry, _⟩ := id hdone
    exact hcomplete.of_registry hregistry fun table htable hwhole =>
      hwhole.of_deletesRow hdisjoint htable hdone
  | setsCell hdone =>
    obtain ⟨_, address, cell, _, hheld, _, hregistry, hchange⟩ := hdone
    refine hcomplete.of_registry hregistry fun table htable hwhole =>
      hwhole.of_cells fun oid _ => ?_
    rw [hchange oid]
    split
    · rename_i hoid
      rw [hoid, hheld]
      simp [Content.withCell]
    · exact Iff.rfl

/-- Where no two providers meet, every operation keeps rows whole. -/
theorem Complete.apply (hcomplete : tree.Complete) (hwf : tree.WellFormed)
    (hdisjoint : tree.Disjoint) (operation : Operation) : (tree.apply operation).Complete := by
  by_cases hseveral : ∃ specs, operation = .registerAll specs
  -- Between two of several registrations providers may meet; registering does not mind.
  · obtain ⟨specs, rfl⟩ := hseveral
    refine hwf.registerAll_induction hcomplete (fun tree spec hwf hcomplete => ?_) specs
    rcases hwf.register_step spec with hsame | ⟨hends, _, hdone⟩
    · rw [hsame]
      exact hcomplete
    · exact hcomplete.of_registers hwf hends hdone
  · exact hcomplete.transition hwf hdisjoint
      (hwf.transition_apply fun specs h => hseveral ⟨specs, h⟩)

/-- Where no two providers ever meet, every run keeps rows whole. -/
theorem Complete.run (hcomplete : tree.Complete) (hwf : tree.WellFormed)
    {operations : List Operation}
    (hdisjoint : ∀ count, (tree.run (operations.take count)).Disjoint) :
    (tree.run operations).Complete := by
  induction operations generalizing tree with
  | nil => exact hcomplete
  | cons operation rest ih =>
    exact ih (hcomplete.apply hwf (hdisjoint 0) operation) (hwf.apply operation)
      fun count => hdisjoint (count + 1)

/-- The empty tree is complete. -/
theorem empty_complete : empty.Complete :=
  fun _ htable => absurd htable List.not_mem_nil

end Smi.ObjectTree
