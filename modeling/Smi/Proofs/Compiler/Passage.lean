import Smi.Proofs.Compiler.Unit

/-!
# Passages of a module

The symbols of a module may be cut into passages. Reading them is to read one passage after the
other, and what they declare is what each of them declares. A macro that is known stays known, and
imports change in import clauses only. The object that a passage declares last under its name is the
one that is compiled.
-/

namespace Smi

/-- What is not declared again is declared last. -/
theorem Declaration.last?_append {before after : List Declaration} {declaration : Declaration}
    (hafter : ∀ later ∈ after, later.object.name ≠ declaration.object.name) :
    last? (before ++ declaration :: after) declaration.object.name = some declaration := by
  refine List.find?_eq_some_iff_append.mpr
    ⟨decide_eq_true rfl, after.reverse, before.reverse, by simp, fun later hlater => ?_⟩
  simpa using hafter later (List.mem_reverse.mp hlater)

namespace Draft

variable {others : ModuleSet} {d : Draft} {behind first rest : List String}
  {symbol name : String}

/-- The draft after some symbols, given those read before them from right to left and those that
stand behind them. -/
def readPast (others : ModuleSet) (d : Draft) (behind rest : List String) : List String → Draft
  | [] => d
  | symbol :: more =>
    readPast others (d.read others behind symbol (more ++ rest)) (symbol :: behind) rest more

/-- All symbols are read by reading the last ones after the first ones. -/
theorem readAll_append (others : ModuleSet) (d : Draft) (behind first rest : List String) :
    readAll others d behind (first ++ rest) =
      readAll others (readPast others d behind rest first) (first.reverse ++ behind) rest := by
  induction first generalizing d behind with
  | nil => rfl
  | cons symbol more ih =>
    rw [List.cons_append, readAll, ih, readPast, List.reverse_cons, List.append_assoc,
      List.singleton_append]

/-- Reading past symbols with nothing behind them is reading all of them. -/
theorem readPast_nil (others : ModuleSet) (d : Draft) (behind symbols : List String) :
    readPast others d behind [] symbols = readAll others d behind symbols := by
  have hall := readAll_append others d behind symbols []
  rw [List.append_nil] at hall
  exact hall.symm

/-- Symbols are read past in two parts, one after the other. -/
theorem readPast_append (others : ModuleSet) (d : Draft) (behind rest first more : List String) :
    readPast others d behind rest (first ++ more) =
      readPast others (readPast others d behind (more ++ rest) first) (first.reverse ++ behind) rest
        more := by
  induction first generalizing d behind with
  | nil => rfl
  | cons symbol first ih =>
    rw [List.cons_append, readPast, ih, readPast, List.append_assoc, List.reverse_cons,
      List.append_assoc, List.singleton_append]

/-- The last symbols declare what they declare after the first ones. -/
theorem declarations_append (others : ModuleSet) (d : Draft) (behind first rest : List String) :
    ∃ earlier, declarations others d behind (first ++ rest) = earlier ++
      declarations others (readPast others d behind rest first) (first.reverse ++ behind) rest := by
  induction first generalizing d behind with
  | nil => exact ⟨[], rfl⟩
  | cons symbol more ih =>
    obtain ⟨earlier, hearlier⟩ := ih (d.read others behind symbol (more ++ rest)) (symbol :: behind)
    refine ⟨(d.declared? others behind symbol (more ++ rest)).toList.map
      (⟨clauses others d.current, ·⟩) ++ earlier, ?_⟩
    rw [List.cons_append, declarations, hearlier, readPast, List.reverse_cons, List.append_assoc,
      List.append_assoc, List.singleton_append]

/-! ### What reading leaves as it is -/

/-- Whether a draft has the known macros and the imports of an earlier one, and stands inside or
outside an import clause like that one. -/
structure Keeps (d later : Draft) : Prop where
  macros : later.macros = d.macros
  importing : later.importing = d.importing
  imports : later.current.imports = d.current.imports

/-- A draft has its own macros and imports. -/
theorem Keeps.refl (d : Draft) : d.Keeps d :=
  ⟨rfl, rfl, rfl⟩

/-- Declaring an object keeps macros and imports. -/
theorem Keeps.declare (d : Draft) (object : ObjectDefinition) : d.Keeps (d.declare object) := by
  refine ⟨rfl, rfl, ?_⟩
  unfold Draft.declare ModuleDefinition.insert
  split <;> rfl

/-- Reading a macro clause keeps macros and imports. -/
theorem Keeps.readMacroClause (d : Draft) (isType : Bool) (rest : List String) :
    d.Keeps (d.readMacroClause isType rest) := by
  unfold Draft.readMacroClause
  split
  · exact .refl d
  · exact ⟨rfl, rfl, rfl⟩

/-- A plain assignment keeps macros and imports. -/
theorem Keeps.assignPlain (d : Draft) (behind : List String) (value : String)
    (rest : List String) : d.Keeps (d.assignPlain behind value rest) := by
  cases behind with
  | nil => exact .refl d
  | cons name behind =>
    unfold Draft.assignPlain
    split
    · exact .refl d
    · exact .refl d
    · exact .refl d
    · exact ⟨rfl, rfl, rfl⟩
    · exact .refl d
    · exact .readMacroClause d true rest
    · exact .readMacroClause d false rest
    · unfold declarePlain
      split
      · exact ⟨rfl, rfl, rfl⟩
      · exact .declare d _

/-- A braced clause keeps macros and imports. -/
theorem Keeps.assignClause (others : ModuleSet) (d : Draft) (behind : List String)
    (braced : String) : d.Keeps (Draft.assignClause others d behind braced) := by
  unfold Draft.assignClause
  dsimp only
  split
  · exact .refl d
  · split
    · exact ⟨rfl, rfl, rfl⟩
    · exact .declare d _

/-- An assignment keeps macros and imports. -/
theorem Keeps.assign (others : ModuleSet) (d : Draft) (behind rest : List String) :
    d.Keeps (Draft.assign others d behind rest) := by
  unfold Draft.assign
  split
  · exact .refl d
  · split
    · exact .assignClause others d behind _
    · exact .assignPlain d behind _ _

/-- Outside an import clause no other symbol opens one, and the imports stay as they are. -/
theorem imports_read (himporting : d.importing = .none) (hsymbol : symbol ≠ "IMPORTS") :
    (d.read others behind symbol rest).importing = .none ∧
      (d.read others behind symbol rest).current.imports = d.current.imports := by
  unfold read
  rw [if_neg (by simp [himporting])]
  split
  · have hkeeps := Keeps.assign others d behind rest
    exact ⟨hkeeps.importing.trans himporting, hkeeps.imports⟩
  · unfold endScope
    split <;> exact ⟨himporting, rfl⟩
  · exact absurd rfl hsymbol
  · exact ⟨himporting, rfl⟩

/-- Symbols other than `IMPORTS` leave the imports as they are. -/
theorem imports_readPast (himporting : d.importing = .none) (hfirst : "IMPORTS" ∉ first) :
    (readPast others d behind rest first).importing = .none ∧
      (readPast others d behind rest first).current.imports = d.current.imports := by
  induction first generalizing d behind with
  | nil => exact ⟨himporting, rfl⟩
  | cons symbol more ih =>
    obtain ⟨hsymbol, hmore⟩ := List.ne_and_not_mem_of_not_mem_cons hfirst
    obtain ⟨hnone, himports⟩ := imports_read himporting hsymbol.symm
    obtain ⟨hlater, hsame⟩ := ih hnone hmore
    exact ⟨hlater, hsame.trans himports⟩

/-- A known macro stays known. -/
theorem contains_read (h : d.macros.contains name = true) (others : ModuleSet)
    (behind : List String) (symbol : String) (rest : List String) :
    (d.read others behind symbol rest).macros.contains name = true := by
  unfold read
  split
  · unfold readImport
    split
    · exact h
    · split <;> exact h
    · exact h
  · split
    · rwa [(Keeps.assign others d behind rest).macros]
    · unfold endScope
      split
      · rw [OrderedMap.contains, OrderedMap.get?_insert]
        split
        · rfl
        · exact h
      · exact h
    · exact h
    · exact h

/-- A macro that is known stays known. -/
theorem contains_readPast (h : d.macros.contains name = true) (others : ModuleSet)
    (behind rest first : List String) :
    (readPast others d behind rest first).macros.contains name = true := by
  induction first generalizing d behind with
  | nil => exact h
  | cons symbol more ih => exact ih (contains_read h others behind symbol _) _

end Draft

namespace Compiler

variable {c : Compiler} {table : SymbolTable} {first rest : List String} {symbol : String}
  {object : ObjectDefinition}

/-! ### Passages of a unit -/

/-- The draft of a unit after its first symbols. -/
def draftPast (c : Compiler) (table : SymbolTable) (first rest : List String) : Draft :=
  Draft.readPast (c.modules.erase table.moduleName) (.start table.moduleName c.macros) [] rest first

/-- One more symbol is read by the draft behind the symbols before it. -/
theorem draftPast_concat (c : Compiler) (table : SymbolTable) (first : List String)
    (symbol : String) (rest : List String) : c.draftPast table (first ++ [symbol]) rest =
      (c.draftPast table first (symbol :: rest)).read (c.modules.erase table.moduleName)
        first.reverse symbol rest := by
  rw [draftPast, Draft.readPast_append, List.append_nil]
  rfl

/-- What the symbols of a unit declare behind the first ones. -/
def declarationsBehind (c : Compiler) (table : SymbolTable) (first rest : List String) :
    List Declaration :=
  Draft.declarations (c.modules.erase table.moduleName) (c.draftPast table first rest)
    first.reverse rest

/-- The module of a unit is found under its name. -/
theorem module?_compileTable (h : c.modules.Consistent) (table : SymbolTable) :
    (c.compileTable table).modules.module? table.moduleName = some (c.moduleOf table) := by
  rw [← name_moduleOf c table]
  exact (compileTable_consistent h table).module?_eq_some (c.moduleOf_mem table)

/-- What is declared last under a name is compiled to the object of that name. -/
theorem object?_moduleOf (h : c.modules.Consistent) (table : SymbolTable) (name : String) :
    (c.moduleOf table).object? name =
      (Declaration.last? (c.declarations table) name).map fun declaration =>
        Draft.finished (c.compileTable table).modules.clauses declaration.object := by
  obtain ⟨imports, hcurrent⟩ := c.exists_current_draft table
  have hdraft : (c.draft table).current.object? name =
      (Declaration.last? (c.declarations table) name).map Declaration.object := by
    rw [← Declaration.lastNamed?_map, ← ModuleDefinition.object?_declareAll table.moduleName,
      hcurrent]
    rfl
  have hmap : (c.moduleOf table).object? name = ((c.draft table).current.object? name).map
      (Draft.finished (c.compileTable table).modules.clauses) := by
    rw [clauses_compileTable h.nodup, moduleOf, Draft.finish_eq, ModuleDefinition.object?,
      ModuleDefinition.object?, Option.map_bind]
    simp only [List.getElem?_map]
    rfl
  rw [hmap, hdraft, Option.map_map]
  rfl

/-- An object that is not declared again is compiled. -/
theorem object?_of_declared? (h : c.modules.Consistent)
    (hsequence : table.compileSequence = first ++ symbol :: rest)
    (hobject : (c.draftPast table first (symbol :: rest)).declared?
      (c.modules.erase table.moduleName) first.reverse symbol rest = some object)
    (hlater : ∀ later ∈ c.declarationsBehind table (first ++ [symbol]) rest,
      later.object.name ≠ object.name) :
    (c.moduleOf table).object? object.name =
      some (Draft.finished (c.compileTable table).modules.clauses object) := by
  obtain ⟨earlier, known, hdeclarations⟩ : ∃ earlier known, c.declarations table =
      earlier ++ ⟨known, object⟩ :: c.declarationsBehind table (first ++ [symbol]) rest := by
    obtain ⟨earlier, hearlier⟩ := Draft.declarations_append (c.modules.erase table.moduleName)
      (.start table.moduleName c.macros) [] first (symbol :: rest)
    refine ⟨earlier, Draft.clauses (c.modules.erase table.moduleName)
      (c.draftPast table first (symbol :: rest)).current, ?_⟩
    rw [declarations, hsequence, hearlier, List.append_nil, Draft.declarations, ← draftPast,
      hobject, declarationsBehind, draftPast_concat, List.reverse_concat]
    rfl
  rw [object?_moduleOf h, hdeclarations, Declaration.last?_append hlater]
  rfl

end Compiler

end Smi
