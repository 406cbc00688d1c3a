import Smi.Proofs.Compiler.Passage

/-!
# Import clauses

An import clause lists groups of symbols, each with the module from which they come. Reading the
clause binds each of these modules to the symbols of its last group and goes on behind the
semicolon. So the modules of a unit are bound exactly if a group names them, and the symbols of a
group are imported exactly if they are also in the last group of the same module.
-/

namespace Smi

/-- The symbols that an import clause lists for one module. -/
structure ImportGroup where
  symbols : List String
  source : String
  symbols_plain : ∀ symbol ∈ symbols, symbol ∉ ["FROM", ",", ";"]

namespace ImportGroup

/-- The symbols of a group as they are written. -/
def listed (g : ImportGroup) : List String :=
  g.symbols.intersperse "," ++ ["FROM", g.source]

/-- The symbols of an import clause. -/
def clause (groups : List ImportGroup) : List String :=
  "IMPORTS" :: groups.flatMap listed ++ [";"]

/-- What groups import, under the names of their modules. -/
def bindings (groups : List ImportGroup) : List (String × List String) :=
  groups.map fun g => (g.source, g.symbols)

/-- The last of some groups of a module. -/
def last? (groups : List ImportGroup) (source : String) : Option ImportGroup :=
  groups.reverse.find? fun g => g.source = source

/-- A module has a last group exactly if it has any. -/
theorem isSome_last?_iff {groups : List ImportGroup} {source : String} :
    (last? groups source).isSome ↔ ∃ g ∈ groups, g.source = source := by
  simp [last?]

/-- Under the name of a module the symbols of its first group are found. -/
theorem lookup_bindings (groups : List ImportGroup) (source : String) :
    (bindings groups).lookup source =
      (groups.find? fun g => g.source = source).map symbols := by
  induction groups with
  | nil => rfl
  | cons g rest ih =>
    rw [bindings, List.map_cons, List.lookup_cons, List.find?_cons, ← bindings, ih]
    by_cases hsource : source = g.source
    · simp [hsource]
    · have hne : g.source ≠ source := fun h => hsource h.symm
      simp [hne, beq_eq_false_iff_ne.mpr hsource]

/-- A module is bound to the symbols of its last group. -/
theorem get?_bindings (groups : List ImportGroup) (source : String) :
    (OrderedMap.ofList (bindings groups)).get? source = (last? groups source).map symbols := by
  rw [OrderedMap.get?_ofList, bindings, ← List.map_reverse]
  exact lookup_bindings groups.reverse source

end ImportGroup

namespace Draft

open ImportGroup

variable {others : ModuleSet} {d : Draft} {behind rest gathered : List String}
  {groups : List ImportGroup}

/-! ### Reading an import clause -/

/-- The draft with more imports. -/
def withImports (d : Draft) (bindings : List (String × List String)) : Draft :=
  { d with
    current := { d.current with
      imports := bindings.foldl (fun m entry => m.insert entry.1 entry.2) d.current.imports } }

/-- The draft inside an import clause, with symbols gathered for the next module. -/
def gathering (d : Draft) (gathered : List String) : Draft :=
  { d with importing := .symbols gathered }

/-- In an import clause every symbol is read as part of it. -/
theorem read_gathering (others : ModuleSet) (d : Draft) (gathered behind : List String)
    (symbol : String) (rest : List String) : (d.gathering gathered).read others behind symbol rest =
      (d.gathering gathered).readImport symbol := by
  unfold read
  exact if_pos (by simp [gathering])

/-- A plain symbol is gathered. -/
theorem read_plain {symbol : String} (h : symbol ∉ ["FROM", ",", ";"]) (others : ModuleSet)
    (d : Draft) (gathered behind rest : List String) :
    (d.gathering gathered).read others behind symbol rest = d.gathering (symbol :: gathered) := by
  simp only [List.mem_cons, List.not_mem_nil, or_false, not_or] at h
  rw [read_gathering]
  simp only [readImport, gathering]
  split
  · exact absurd rfl h.2.2
  · exact absurd rfl h.1
  · exact absurd rfl h.2.1
  · rfl

/-- The symbols of a list are gathered, and the commas between them are passed over. -/
theorem readPast_intersperse {symbols : List String}
    (hplain : ∀ symbol ∈ symbols, symbol ∉ ["FROM", ",", ";"]) (others : ModuleSet) (d : Draft)
    (gathered behind rest : List String) :
    readPast others (d.gathering gathered) behind rest (symbols.intersperse ",") =
      d.gathering (symbols.reverse ++ gathered) := by
  induction symbols generalizing gathered behind with
  | nil => rfl
  | cons symbol more ih =>
    obtain ⟨hsymbol, hmore⟩ := List.forall_mem_cons.mp hplain
    cases more with
    | nil => exact read_plain hsymbol others d gathered behind rest
    | cons next more =>
      have hcomma (behind rest : List String) :
          (d.gathering (symbol :: gathered)).read others behind "," rest =
            d.gathering (symbol :: gathered) := read_gathering others d _ behind "," rest
      rw [List.intersperse_cons_cons, readPast, read_plain hsymbol, readPast, hcomma, ih hmore]
      simp

/-- A group binds its module. -/
theorem readPast_listed (others : ModuleSet) (d : Draft) (behind rest : List String)
    (g : ImportGroup) : readPast others (d.gathering []) behind rest g.listed =
      (d.withImports (bindings [g])).gathering [] := by
  have hfrom (gathered behind rest : List String) :
      (d.gathering gathered).read others behind "FROM" rest =
        { d with importing := .source gathered } := read_gathering others d gathered behind _ rest
  have hsource (behind rest : List String) :
      Draft.read others { d with importing := .source g.symbols.reverse } behind g.source rest =
        (d.withImports (bindings [g])).gathering [] := by
    unfold Draft.read
    rw [if_pos (by simp)]
    simp [readImport, withImports, gathering, bindings]
  rw [listed, readPast_append, readPast_intersperse g.symbols_plain, List.append_nil, readPast,
    hfrom, readPast, hsource, readPast]

/-- The groups of a clause bind their modules one after the other. -/
theorem readPast_groups (others : ModuleSet) (d : Draft) (behind rest : List String)
    (groups : List ImportGroup) :
    readPast others (d.gathering []) behind rest (groups.flatMap listed) =
      (d.withImports (bindings groups)).gathering [] := by
  induction groups generalizing d behind with
  | nil => rfl
  | cons g groups ih =>
    rw [List.flatMap_cons, readPast_append, readPast_listed, ih]
    rfl

/-- A clause binds its groups, and nothing else changes. -/
theorem readPast_clause (himporting : d.importing = .none) (others : ModuleSet)
    (behind rest : List String) (groups : List ImportGroup) :
    readPast others d behind rest (clause groups) = d.withImports (bindings groups) := by
  have hopen (rest : List String) : d.read others behind "IMPORTS" rest = d.gathering [] := by
    rw [read, if_neg (by simp [himporting])]
    rfl
  have hclose (behind rest : List String) :
      ((d.withImports (bindings groups)).gathering []).read others behind ";" rest =
        d.withImports (bindings groups) := by
    rw [read_gathering]
    simp [readImport, gathering, withImports, himporting]
  rw [clause, List.cons_append, readPast, hopen, readPast_append, readPast_groups, readPast, hclose,
    readPast]

/-- Passages with import clauses import the groups of all of them. -/
theorem imports_readPast_parts {parts : List (List String × List ImportGroup)}
    (hparts : ∀ part ∈ parts, "IMPORTS" ∉ part.1) (himporting : d.importing = .none)
    (others : ModuleSet) (behind rest : List String) :
    let later := readPast others d behind rest (parts.flatMap fun part => part.1 ++ clause part.2)
    later.importing = .none ∧ later.current.imports =
      (d.withImports (bindings (parts.flatMap Prod.snd))).current.imports := by
  induction parts generalizing d behind with
  | nil => exact ⟨himporting, rfl⟩
  | cons part parts ih =>
    obtain ⟨hpart, hparts⟩ := List.forall_mem_cons.mp hparts
    rw [List.flatMap_cons, List.append_assoc, readPast_append, readPast_append]
    obtain ⟨hfirst, himports⟩ := imports_readPast himporting hpart
    rw [readPast_clause hfirst]
    generalize readPast others d behind _ part.1 = first at hfirst himports ⊢
    have hclause : (first.withImports (bindings part.2)).importing = .none := hfirst
    obtain ⟨hlater, hsame⟩ := ih hparts hclause _
    refine ⟨hlater, hsame.trans ?_⟩
    rw [List.flatMap_cons, bindings, bindings, bindings, List.map_append]
    simp only [withImports, himports, List.foldl_append]

end Draft

namespace Compiler

open ImportGroup

variable {table : SymbolTable} {parts : List (List String × List ImportGroup)}
  {after : List String}

/-- The imports of a unit are those of the groups of its import clauses. -/
theorem imports_moduleOf (c : Compiler) (hparts : ∀ part ∈ parts, "IMPORTS" ∉ part.1)
    (hafter : "IMPORTS" ∉ after) (hsequence : table.compileSequence =
      (parts.flatMap fun part => part.1 ++ clause part.2) ++ after) :
    (c.moduleOf table).imports = .ofList (bindings (parts.flatMap Prod.snd)) := by
  have hstart : (Draft.start table.moduleName c.macros).importing = .none := rfl
  obtain ⟨hnone, himports⟩ := Draft.imports_readPast_parts hparts hstart
    (c.modules.erase table.moduleName) [] after
  rw [moduleOf, Draft.finish_eq, draft, hsequence, ← Draft.readPast_nil, Draft.readPast_append,
    List.append_nil, (Draft.imports_readPast hnone hafter).2, himports]
  rfl

/-- Every module that an import clause names is imported from, and no other one. The symbols of a
group are imported from its module exactly if they are in the last group of this module. Behind the
semicolon the unit is read on, and nothing but the imports has changed. -/
theorem imports_compileTable_iff (actions : List Action)
    (hparts : ∀ part ∈ parts, "IMPORTS" ∉ part.1) (hafter : "IMPORTS" ∉ after)
    (hsequence : table.compileSequence =
      (parts.flatMap fun part => part.1 ++ clause part.2) ++ after) :
    (∃ m, ((run actions).compileTable table).modules.module? table.moduleName = some m ∧
      (∀ source, source ∈ m.imports.keys ↔ ∃ g ∈ parts.flatMap Prod.snd, g.source = source) ∧
      (∀ source, m.imports.get? source =
        (last? (parts.flatMap Prod.snd) source).map ImportGroup.symbols) ∧
      ∀ g ∈ parts.flatMap Prod.snd,
        (∃ imported, m.imports.get? g.source = some imported ∧ g.symbols ⊆ imported) ↔
          ∀ last ∈ last? (parts.flatMap Prod.snd) g.source, g.symbols ⊆ last.symbols) ∧
    ∀ (others : ModuleSet) (d : Draft) (behind : List String) (groups : List ImportGroup)
      (rest : List String), d.importing = .none →
        Draft.readAll others d behind (clause groups ++ rest) =
          Draft.readAll others (d.withImports (bindings groups))
            ((clause groups).reverse ++ behind) rest := by
  have himports := imports_moduleOf (run actions) hparts hafter hsequence
  refine ⟨⟨(run actions).moduleOf table, module?_compileTable (run_consistent actions) table,
    fun source => ?_, fun source => ?_, fun g hg => ?_⟩,
    fun others d behind groups rest himporting => ?_⟩
  · rw [OrderedMap.mem_keys_iff, himports, get?_bindings, Option.isSome_map]
    exact isSome_last?_iff
  · rw [himports, get?_bindings]
  · obtain ⟨last, hlast⟩ := Option.isSome_iff_exists.mp (isSome_last?_iff.mpr ⟨g, hg, rfl⟩)
    simp [himports, get?_bindings, hlast]
  · rw [Draft.readAll_append, Draft.readPast_clause himporting]

/-- A unit that consists of an import clause. -/
def importUnit (groups : List ImportGroup) : SymbolTable where
  unit := "SITE-MIB"
  declaredName := none
  symbols := (["DEFINITIONS", "::=", "BEGIN"] ++ clause groups ++ ["END"]).map (⟨·, .origin⟩)

/-- What names a site. -/
def texts : ImportGroup :=
  ⟨["DisplayString"], "SNMPv2-TC", by decide⟩

/-- What counts for a site. -/
def counters : ImportGroup :=
  ⟨["Integer32", "TimeTicks"], "SNMPv2-SMI", by decide⟩

/-- Where a site is registered. -/
def position : ImportGroup :=
  ⟨["mib-2"], "SNMPv2-SMI", by decide⟩

/-- Texts and counters are imported from different modules, and both groups are kept. -/
theorem imports_compileTable_iff_site :
    "IMPORTS" ∉ ["DEFINITIONS", "::=", "BEGIN"] ∧ "IMPORTS" ∉ ["END"] ∧
      (importUnit [texts, counters]).compileSequence =
        [(["DEFINITIONS", "::=", "BEGIN"], [texts, counters])].flatMap
          (fun part => part.1 ++ clause part.2) ++ ["END"] ∧
      ∃ m, ((run []).compileTable (importUnit [texts, counters])).modules.module? "SITE-MIB" =
          some m ∧
        m.imports.get? "SNMPv2-TC" = some ["DisplayString"] ∧
        m.imports.get? "SNMPv2-SMI" = some ["Integer32", "TimeTicks"] ∧
        "RFC-1212" ∉ m.imports.keys := by
  have hparts : ∀ part ∈ [(["DEFINITIONS", "::=", "BEGIN"], [texts, counters])],
      "IMPORTS" ∉ part.1 := by decide
  have hsequence : (importUnit [texts, counters]).compileSequence =
      [(["DEFINITIONS", "::=", "BEGIN"], [texts, counters])].flatMap
        (fun part => part.1 ++ clause part.2) ++ ["END"] := by decide
  obtain ⟨⟨m, hm, hkeys, himports, -⟩, -⟩ :=
    imports_compileTable_iff [] hparts (by decide) hsequence
  refine ⟨by decide, by decide, hsequence, m, hm, (himports _).trans (by decide),
    (himports _).trans (by decide), fun hmem => ?_⟩
  obtain ⟨g, hg, hsource⟩ := (hkeys _).mp hmem
  revert hsource
  revert g
  decide

/-- A second group of a module takes the place of the first one. -/
theorem imports_compileTable_lost :
    ∃ m, ((run []).compileTable (importUnit [position, texts, counters])).modules.module?
          "SITE-MIB" = some m ∧
      m.imports.get? position.source = some ["Integer32", "TimeTicks"] ∧
      ¬position.symbols ⊆ ["Integer32", "TimeTicks"] := by
  have hparts : ∀ part ∈ [(["DEFINITIONS", "::=", "BEGIN"], [position, texts, counters])],
      "IMPORTS" ∉ part.1 := by decide
  have hafter : "IMPORTS" ∉ ["END"] := by decide
  have hsequence : (importUnit [position, texts, counters]).compileSequence =
      [(["DEFINITIONS", "::=", "BEGIN"], [position, texts, counters])].flatMap
        (fun part => part.1 ++ clause part.2) ++ ["END"] := by decide
  refine ⟨_, module?_compileTable (run_consistent []) _, ?_, by decide⟩
  rw [imports_moduleOf (run []) hparts hafter hsequence, get?_bindings]
  decide

end Compiler

end Smi
