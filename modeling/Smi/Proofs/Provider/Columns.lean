import Smi.Proofs.Compiler.Climb
import Smi.Proofs.Compiler.Unit
import Smi.Proofs.Oid.Dotted
import Smi.Proofs.Provider.Scan

/-!
# Derived columns

A column takes its number from the second word of a clause, and the position of the object comes
from the numbers of the whole clause, whatever labels and brackets they have. The columns of a table
are the children right below its entry as far as the two readings find the same number.
-/

namespace Smi

/-! ### Reading a clause in two ways -/

namespace OidClause

variable {clause name : String} {parsed : OidClause}

/-- The number of a clause with one step. -/
def onlyNumber? (clause : OidClause) : Option ℕ :=
  match clause.arcs with
  | [arc] => some arc.number
  | _ => none

/-- A clause has an only number if it has one step. -/
theorem onlyNumber?_eq_some_iff {k : ℕ} :
    parsed.onlyNumber? = some k ↔ parsed.arcs.map ClauseArc.number = [k] := by
  unfold onlyNumber?
  split
  next arc harcs => simp [harcs]
  next hmany =>
    refine iff_of_false (fun h => nomatch h) fun h => ?_
    obtain ⟨arc, harcs, _⟩ := List.map_eq_singleton_iff.mp h
    exact hmany arc harcs

/-- Words that begin with a round bracket are added to the word before them. -/
theorem exists_extend (word : String) (words : List String) : ∃ tail rest,
    joinBracketed.extend word words = (word ++ tail) :: rest ∧
      ∀ c ∈ tail.toList.head?, c = '(' := by
  induction words generalizing word with
  | nil => exact ⟨"", [], by simp [joinBracketed.extend], fun _ h => nomatch h⟩
  | cons next words ih =>
    unfold joinBracketed.extend
    split
    next hbracket =>
      obtain ⟨tail, rest, hextend, _⟩ := ih (word ++ next)
      refine ⟨next ++ tail, rest, by rw [hextend, String.append_assoc], fun c hc => ?_⟩
      have hnext : next.toList.head? = some '(' := by simpa [Text.beginsWith] using hbracket
      rw [String.toList_append, List.head?_append, hnext] at hc
      exact (Option.some.inj hc).symm
    next => exact ⟨"", _, by rw [String.append_empty], fun _ h => nomatch h⟩

/-- The parent of a clause is its first word, if that word has no bracket. -/
theorem parent_of_read? (hread : read? clause = some parsed) {word : String}
    (hfirst : (Text.words clause).head? = some word) (hplain : '(' ∉ word.toList) :
    parsed.parent = word := by
  obtain ⟨words, hwords⟩ := List.head?_eq_some_iff.mp hfirst
  obtain ⟨tail, rest, hextend, htail⟩ := exists_extend word words
  rw [read?, hwords, joinBracketed, hextend] at hread
  obtain ⟨arcs, _, rfl⟩ := Option.map_eq_some_iff.mp hread
  have hword : ∀ c ∈ word.toList, decide (c ≠ '(') = true := fun c hc =>
    decide_eq_true fun h => hplain (h ▸ hc)
  have hrest : tail.toList.takeWhile (fun c => decide (c ≠ '(')) = [] := by
    cases hchars : tail.toList with
    | nil => rfl
    | cons c cs => exact List.takeWhile_cons_of_neg (by simp [htail c (by rw [hchars]; rfl)])
  have htake : (word ++ tail).toList.takeWhile (fun c => decide (c ≠ '(')) = word.toList := by
    rw [String.toList_append, List.takeWhile_append_of_pos hword, hrest, List.append_nil]
  rw [htake, String.ofList_toList]

end OidClause

/-- An object with a position has a clause that leads to it along a path. -/
theorem ObjectDefinition.StandsAt.exists_path {object : ObjectDefinition}
    {clauses : OidClause.Clauses} (h : object.StandsAt (object.leadsTo? clauses))
    (hnull : object.clause ≠ some "0 0") {numbers : String} (hnumbers : object.oid = some numbers) :
    ∃ clause path, object.clause = some clause ∧
      OidClause.path? clauses clause object.name = some path ∧
      numbers = Oid.dottedArcs (path.map PathStep.number) := by
  rw [h.1] at hnumbers
  obtain ⟨position, hposition, rfl⟩ := Option.map_eq_some_iff.mp hnumbers
  obtain ⟨clause, hclause, hposition⟩ := Option.bind_eq_some_iff.mp hposition
  rw [if_neg fun heq => hnull (hclause.trans (congrArg some heq))] at hposition
  obtain ⟨path, hpath, rfl⟩ := Option.map_eq_some_iff.mp hposition
  exact ⟨clause, path, hclause, hpath, OidClause.dottedNumbers_eq path⟩

/-- The identifier of an object at the end of a path has the numbers of the path as its arcs. -/
theorem ObjectDefinition.arcs_of_oid? {object : ObjectDefinition} {oid : Oid} {arcs : List ℕ}
    (hoid : object.oid? = some oid) (hnumbers : object.oid = some (Oid.dottedArcs arcs))
    (hne : arcs ≠ []) : oid.arcs = arcs := by
  rw [oid?, hnumbers, Option.bind_some] at hoid
  cases hread : Oid.read (Oid.dottedArcs arcs) with
  | ok read =>
    rw [hread] at hoid
    obtain rfl := Option.some.inj hoid
    exact Oid.arcs_of_read_dottedArcs hne hread
  | error e =>
    rw [hread] at hoid
    cases hoid

/-! ### Columns and positions -/

/-- Whether the columns of a table are the children right below its entry: a column belongs to an
object of the module, which stands right below the entry under the number of the column if it has a
position, and a child right below the entry is a column of its number. -/
structure TableProvider.ColumnsMatch (t : TableProvider) (m : ModuleDefinition)
    (children : List ObjectDefinition) : Prop where
  placed : ∀ column ∈ t.columns, ∃ object, m.object? column.name = some object ∧
    ∀ numbers ∈ object.oid, numbers = Oid.dottedArcs (t.oid.arcs ++ [column.number])
  listed : ∀ child ∈ children, ∀ k, child.oid = some (Oid.dottedArcs (t.oid.arcs ++ [k])) →
    ∃ column ∈ t.columns, column.name = child.name ∧ column.number = k

namespace TableScan

variable {conventions : Conventions} {scan : TableScan} {t : TableProvider} {m : ModuleDefinition}
  {entry child : ObjectDefinition} {clauses : OidClause.Clauses}

/-- A scan gives a table if it has an entry with a position, and the columns are those of its
children. -/
theorem exists_of_provider? (ht : scan.provider? conventions = some t) :
    ∃ entry, scan.entry = some entry ∧ entry.oid? = some t.oid ∧
      t.columns = scan.children.filterMap (column? conventions) := by
  obtain ⟨entry, hentry, ht⟩ := Option.bind_eq_some_iff.mp ht
  obtain ⟨oid, hoid, rfl⟩ := Option.map_eq_some_iff.mp ht
  exact ⟨entry, hentry, hoid, rfl⟩

/-- A column of a table is that of a child with a number. -/
theorem mem_columns_iff (ht : scan.provider? conventions = some t) {column : TableColumn} :
    column ∈ t.columns ↔ ∃ child ∈ scan.children, ∃ number, child.clauseArc? = some number ∧
      ⟨number, child.name, child.type?.bind conventions.typeOf?⟩ = column := by
  obtain ⟨_, _, _, hcolumns⟩ := exists_of_provider? ht
  simp only [hcolumns, List.mem_filterMap, column?, Option.map_eq_some_iff]

/-- The columns match exactly when the second word of each clause is the number below the entry at
which the object stands. -/
theorem columnsMatch_iff (hindexed : m.Indexed) (hwithin : scan.Within m.objects)
    (ht : scan.provider? conventions = some t) : t.ColumnsMatch m scan.children ↔
      ∀ child ∈ scan.children, ∀ numbers ∈ child.oid, ∀ k,
        child.clauseArc? = some k ↔ numbers = Oid.dottedArcs (t.oid.arcs ++ [k]) := by
  constructor
  · intro h child hchild numbers hnumbers k
    constructor
    · intro hk
      obtain ⟨object, hobject, hplaced⟩ :=
        h.placed _ ((mem_columns_iff ht).mpr ⟨child, hchild, k, hk, rfl⟩)
      obtain ⟨hmem, hname⟩ := hindexed.object?_eq_some_iff.mp hobject
      obtain rfl := hindexed.eq_of_name_eq hmem (hwithin.children child hchild) hname
      exact hplaced numbers hnumbers
    · rintro rfl
      -- A column of this name can only come from this child.
      obtain ⟨column, hcolumn, hname, rfl⟩ := h.listed child hchild k hnumbers
      obtain ⟨other, hother, number, hnumber, rfl⟩ := (mem_columns_iff ht).mp hcolumn
      obtain rfl := hindexed.eq_of_name_eq (hwithin.children other hother)
        (hwithin.children child hchild) hname
      exact hnumber
  · refine fun h => ⟨fun column hcolumn => ?_, fun child hchild k hk => ?_⟩
    · obtain ⟨child, hchild, number, hnumber, rfl⟩ := (mem_columns_iff ht).mp hcolumn
      refine ⟨child, hindexed.object?_eq_some_iff.mpr ⟨hwithin.children child hchild, rfl⟩, ?_⟩
      exact fun numbers hnumbers => (h child hchild numbers hnumbers number).mp hnumber
    · exact ⟨_, (mem_columns_iff ht).mpr ⟨child, hchild, k, (h child hchild _ hk k).mpr rfl, rfl⟩,
        rfl, rfl⟩

/-- Whether the clauses of the children of a scan lead below its entry: the entry has a name that
reads as a parent and that all children refer to, and its clause and those of the children lead to
the positions of the objects. -/
structure Regular (clauses : OidClause.Clauses) (scan : TableScan) : Prop where
  plain : ∀ entry ∈ scan.entry, '(' ∉ entry.name.toList ∧ OidClause.rootNumber? entry.name = none
  parent : ∀ entry ∈ scan.entry, ∀ child ∈ scan.children, child.clauseParent? = some entry.name
  nonnull : ∀ object ∈ scan.entry.toList ++ scan.children, object.clause ≠ some "0 0"
  stands : ∀ object ∈ scan.entry.toList ++ scan.children,
    object.StandsAt (object.leadsTo? clauses)

/-- A child with a position stands below the entry by the numbers of its clause. -/
theorem Regular.exists_numbers (h : scan.Regular clauses) (hentry : scan.entry = some entry)
    (hlookup : clauses.lookup entry.name = entry.clause) (hoid : entry.oid? = some t.oid)
    (hchild : child ∈ scan.children) {numbers : String} (hnumbers : child.oid = some numbers) :
    ∃ parsed, child.clause.bind OidClause.read? = some parsed ∧ parsed.arcs ≠ [] ∧
      numbers = Oid.dottedArcs (t.oid.arcs ++ parsed.arcs.map ClauseArc.number) := by
  have hown : entry ∈ scan.entry.toList ++ scan.children := by simp [hentry]
  have hother : child ∈ scan.entry.toList ++ scan.children := by simp [hchild]
  obtain ⟨dotted, hdotted, _⟩ := Option.bind_eq_some_iff.mp hoid
  obtain ⟨above, upper, habove, hupper, rfl⟩ :=
    (h.stands entry hown).exists_path (h.nonnull entry hown) hdotted
  obtain ⟨clause, path, hclause, hpath, rfl⟩ :=
    (h.stands child hother).exists_path (h.nonnull child hother) hnumbers
  obtain ⟨parsed, hread⟩ : ∃ parsed, OidClause.read? clause = some parsed := by
    cases OidClause.path?_eq_some_iff.mp hpath with
    | root hread | parent hread => exact ⟨_, hread⟩
  -- The parent of the clause is the entry, so the path of the child goes on from that of the entry.
  obtain ⟨hplain, hroot⟩ := h.plain entry hentry
  have hfirst := h.parent entry hentry child hchild
  rw [ObjectDefinition.clauseParent?, hclause, Option.bind_some] at hfirst
  obtain hparent := OidClause.parent_of_read? hread hfirst hplain
  rw [habove, ← hparent] at hlookup
  rw [← hparent] at hroot hupper
  rw [OidClause.path?_below hread hroot hlookup, hupper, Option.bind_some] at hpath
  obtain ⟨steps, hsteps, rfl⟩ := Option.map_eq_some_iff.mp hpath
  obtain ⟨hne, hsame⟩ := OidClause.number_of_steps? hsteps
  have hupperne : upper ≠ [] := by
    obtain ⟨_, _, _, _, rfl⟩ := (OidClause.path?_eq_some_iff.mp hupper).exists_root
    exact List.cons_ne_nil _ _
  have harcs := ObjectDefinition.arcs_of_oid? hoid hdotted (mt List.map_eq_nil_iff.mp hupperne)
  refine ⟨parsed, by rw [hclause, Option.bind_some, hread], hne, ?_⟩
  rw [List.map_append, hsame, harcs]

/-- The columns of a regular scan match exactly when the second word of each clause is the only
number of the clause. -/
theorem Regular.columnsMatch_iff (h : scan.Regular clauses) (hindexed : m.Indexed)
    (hwithin : scan.Within m.objects) (ht : scan.provider? conventions = some t)
    (hlookup : ∀ entry ∈ scan.entry, clauses.lookup entry.name = entry.clause) :
    t.ColumnsMatch m scan.children ↔ ∀ child ∈ scan.children, child.oid ≠ none →
      child.clauseArc? = (child.clause.bind OidClause.read?).bind OidClause.onlyNumber? := by
  obtain ⟨entry, hentry, hoid, _⟩ := exists_of_provider? ht
  rw [TableScan.columnsMatch_iff hindexed hwithin ht]
  refine forall₂_congr fun child hchild => ?_
  cases hnumbers : child.oid with
  | none => simp
  | some numbers =>
    obtain ⟨parsed, hparsed, hne, rfl⟩ :=
      h.exists_numbers hentry (hlookup entry hentry) hoid hchild hnumbers
    have honly (k : ℕ) : Oid.dottedArcs (t.oid.arcs ++ parsed.arcs.map ClauseArc.number) =
        Oid.dottedArcs (t.oid.arcs ++ [k]) ↔ parsed.onlyNumber? = some k := by
      rw [Oid.dottedArcs_inj (by simp [hne]) (by simp), List.append_cancel_left_eq,
        OidClause.onlyNumber?_eq_some_iff]
    rw [hparsed, Option.bind_some]
    constructor
    · intro hmatch _
      exact Option.ext fun k => (hmatch _ rfl k).trans (honly k)
    · rintro hmatch _ hsome k
      obtain rfl := Option.some.inj hsome
      rw [hmatch (Option.some_ne_none _), honly]

end TableScan

/-- The tables that are derived from a module of a compiled collection in which all objects have
different names are those of its scans, and their columns match exactly when the second word of the
clause of each child is the number below the entry at which the child stands. Where the clauses of a
scan lead below its entry, this is so exactly when the second word of each clause is its only
number. -/
theorem derived_columns (actions : List Compiler.Action) :
    let set := (Compiler.run actions).modules
    let conventions := Conventions.ofModules set
    (set.objects.map ObjectDefinition.name).Nodup → ∀ m ∈ set.modules,
      (∃ scalars, set.deriveProviders m.name = .ok ((DerivedProviders.mk scalars
        ((TableScan.ofObjects m.objects).filterMap (TableScan.provider? conventions))).toList)) ∧
      ∀ scan ∈ TableScan.ofObjects m.objects, ∀ t, scan.provider? conventions = some t →
        (t.ColumnsMatch m scan.children ↔ ∀ child ∈ scan.children, ∀ numbers ∈ child.oid, ∀ k,
          child.clauseArc? = some k ↔ numbers = Oid.dottedArcs (t.oid.arcs ++ [k])) ∧
        (scan.Regular set.clauses → (t.ColumnsMatch m scan.children ↔
          ∀ child ∈ scan.children, child.oid ≠ none → child.clauseArc? =
            (child.clause.bind OidClause.read?).bind OidClause.onlyNumber?)) := by
  intro set conventions hnodup m hm
  have hconsistent := Compiler.run_consistent actions
  have hindexed := hconsistent.indexed m hm
  refine ⟨⟨(DerivedProviders.ofObjects conventions m.objects).scalars, ?_⟩,
    fun scan hscan t ht => ⟨?_, fun hregular => ?_⟩⟩
  · rw [ModuleSet.deriveProviders, hconsistent.module?_eq_some hm,
      ← TableScan.tables_ofObjects conventions]
  · exact TableScan.columnsMatch_iff hindexed (TableScan.within_ofObjects hscan) ht
  · refine hregular.columnsMatch_iff hindexed (TableScan.within_ofObjects hscan) ht ?_
    intro entry hentry
    have hown := (TableScan.within_ofObjects hscan).entry entry hentry
    exact ModuleSet.lookup_clauses hnodup (List.mem_flatMap.mpr ⟨m, hm, hown⟩)

/-- A unit with a table of two columns, the second one with the given clause. -/
def SymbolTable.hosts (clause : String) : SymbolTable where
  unit := "HOST-MIB"
  declaredName := none
  symbols := [
    "OBJECT-TYPE", "MACRO", "::=", "BEGIN", "TYPE NOTATION", "::=", "\"SYNTAX\"", "Syntax",
    "VALUE NOTATION", "::=", "value(V)", "END",
    "hostTable", "OBJECT-TYPE", "SYNTAX", "SEQUENCE OF", "HostEntry", "::=", "{ iso 9 }",
    "hostEntry", "OBJECT-TYPE", "SYNTAX", "HostEntry", "::=", "{ hostTable 1 }",
    "hostName", "OBJECT-TYPE", "SYNTAX", "INTEGER", "::=", "{ hostEntry 1 }",
    "hostState", "OBJECT-TYPE", "SYNTAX", "INTEGER", "::=", clause].map (⟨·, .origin⟩)

/-- An object of the table, at a position. -/
def ObjectDefinition.ofHosts (name type clause numbers names : String) : ObjectDefinition :=
  { (bare name "HOST-MIB").placed numbers names with
    macroName := some "OBJECT-TYPE"
    clause := some clause
    fields := .ofList [("SYNTAX", .text type)] }

/-- The scan of the table, the second column with the given clause. -/
def TableScan.hosts (clause : String) : TableScan where
  tableName := "hostTable"
  entry := some (.ofHosts "hostEntry" "HostEntry" "hostTable 1" "1.9.1" "iso.hostTable.hostEntry")
  children := [
    .ofHosts "hostName" "INTEGER" "hostEntry 1" "1.9.1.1" "iso.hostTable.hostEntry.hostName",
    .ofHosts "hostState" "INTEGER" clause "1.9.1.2" "iso.hostTable.hostEntry.hostState"]

/-- Two columns with plain numbers match. -/
theorem derived_columns_hosts :
    let set := (Compiler.run [.compileTable (.hosts "{ hostEntry 2 }")]).modules
    let conventions := Conventions.ofModules set
    let scan := TableScan.hosts "hostEntry 2"
    (set.objects.map ObjectDefinition.name).Nodup ∧ ∃ m ∈ set.modules,
      scan ∈ TableScan.ofObjects m.objects ∧ scan.Regular set.clauses ∧
      ∃ t, scan.provider? conventions = some t ∧
        t.columns.map (fun column => (column.number, column.name)) =
          [(1, "hostName"), (2, "hostState")] ∧
        t.ColumnsMatch m scan.children := by
  intro set conventions scan
  have hnodup : (set.objects.map ObjectDefinition.name).Nodup := by decide +kernel
  have hm := Compiler.moduleOf_mem (Compiler.run []) (.hosts "{ hostEntry 2 }")
  have hscan : scan ∈ TableScan.ofObjects
      ((Compiler.run []).moduleOf (.hosts "{ hostEntry 2 }")).objects := by decide +kernel
  have hregular : scan.Regular set.clauses :=
    ⟨by decide +kernel, by decide +kernel, by decide +kernel, by decide +kernel⟩
  have hread : ∀ child ∈ scan.children, child.oid ≠ none → child.clauseArc? =
      (child.clause.bind OidClause.read?).bind OidClause.onlyNumber? := by decide +kernel
  obtain ⟨t, ht, hcolumns⟩ := Option.map_eq_some_iff.mp
    (show (scan.provider? conventions).map (fun t =>
        t.columns.map fun column => (column.number, column.name)) =
      some [(1, "hostName"), (2, "hostState")] by decide +kernel)
  obtain ⟨_, hscans⟩ :=
    derived_columns [.compileTable (.hosts "{ hostEntry 2 }")] hnodup _ hm
  exact ⟨hnodup, _, hm, hscan, hregular, t, ht, hcolumns,
    ((hscans scan hscan t ht).2 hregular).mpr hread⟩

/-- A column whose number has a label stands right below the entry and is left out. -/
theorem derived_columns_labelled :
    let set := (Compiler.run [.compileTable (.hosts "{ hostEntry hostState(2) }")]).modules
    let conventions := Conventions.ofModules set
    let scan := TableScan.hosts "hostEntry hostState(2)"
    (set.objects.map ObjectDefinition.name).Nodup ∧ ∃ m ∈ set.modules,
      scan ∈ TableScan.ofObjects m.objects ∧ ∃ t, scan.provider? conventions = some t ∧
        t.columns.map (fun column => (column.number, column.name)) = [(1, "hostName")] ∧
        (∃ child ∈ scan.children, child.name = "hostState" ∧
          child.oid = some (Oid.dottedArcs (t.oid.arcs ++ [2]))) ∧
        ¬t.ColumnsMatch m scan.children := by
  intro set conventions scan
  have hnodup : (set.objects.map ObjectDefinition.name).Nodup := by decide +kernel
  have hm := Compiler.moduleOf_mem (Compiler.run []) (.hosts "{ hostEntry hostState(2) }")
  have hscan : scan ∈ TableScan.ofObjects
      ((Compiler.run []).moduleOf (.hosts "{ hostEntry hostState(2) }")).objects := by
    decide +kernel
  obtain ⟨t, ht, hseen⟩ := Option.map_eq_some_iff.mp
    (show (scan.provider? conventions).map (fun t =>
        (t.oid.arcs, t.columns.map fun column => (column.number, column.name))) =
      some ([1, 9, 1], [(1, "hostName")]) by decide +kernel)
  obtain ⟨harcs, hcolumns⟩ := Prod.mk.inj hseen
  have hchild : ∃ child ∈ scan.children, child.name = "hostState" ∧
      child.oid = some (Oid.dottedArcs (t.oid.arcs ++ [2])) := by
    rw [harcs]
    decide +kernel
  refine ⟨hnodup, _, hm, hscan, t, ht, hcolumns, hchild, fun hmatch => ?_⟩
  obtain ⟨child, hmem, hname, hoid⟩ := hchild
  obtain ⟨column, hcolumn, hsame, _⟩ := hmatch.listed child hmem 2 hoid
  have hpair := List.mem_map_of_mem (f := fun column => (column.number, column.name)) hcolumn
  rw [hcolumns, List.mem_singleton, hsame, hname] at hpair
  exact absurd (Prod.mk.inj hpair).2 (by decide)

end Smi
