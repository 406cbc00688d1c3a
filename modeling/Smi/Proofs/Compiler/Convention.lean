import Smi.Proofs.Compiler.AssignmentModule
import Smi.Proofs.Compiler.FieldClause
import Smi.Proofs.Compiler.Passage
import Smi.Proofs.Symbol.QuotedString

/-!
# Textual conventions

A textual convention is a plain assignment of a known macro. Its type is read from behind `SYNTAX`,
which is looked for in a window of symbols behind `::=`. The window is as wide as the clauses of a
convention without a display hint or without a reference. With both of them `SYNTAX` stands at the
first place behind the window, and the convention has no type.
-/

namespace Smi

namespace Capture

variable {lead rest : List String} {type : String}

/-! ### The window of a type -/

/-- The first `SYNTAX` is found if it stands inside the window. -/
theorem trailingType?_append (hlead : "SYNTAX" ∉ lead) (type : String) (rest : List String) :
    trailingType? (lead ++ "SYNTAX" :: type :: rest) =
      if lead.length < typeWindow then some (typeValue type rest).1 else none := by
  unfold trailingType?
  split_ifs with hwidth
  · obtain ⟨more, hmore⟩ : ∃ more, (lead ++ "SYNTAX" :: type :: rest).take typeWindow =
        lead ++ "SYNTAX" :: more := by
      obtain ⟨left, hleft⟩ : ∃ left, typeWindow = lead.length + (left + 1) :=
        ⟨typeWindow - lead.length - 1, by omega⟩
      rw [hleft, List.take_append, List.take_of_length_le (by omega), Nat.add_sub_cancel_left,
        List.take_succ_cons]
      exact ⟨_, rfl⟩
    have hindex : (lead ++ "SYNTAX" :: more).idxOf? "SYNTAX" = some lead.length := by
      rw [List.idxOf?, List.findIdx?_append, ← List.idxOf?, List.idxOf?_eq_none_iff.mpr hlead,
        List.idxOf?_cons]
      simp
    simp [hmore, hindex]
  · have hmissed : "SYNTAX" ∉ (lead ++ "SYNTAX" :: type :: rest).take typeWindow := by
      rw [List.take_append_of_le_length (Nat.le_of_not_lt hwidth)]
      exact fun hmem => hlead (List.mem_of_mem_take hmem)
    simp [List.idxOf?_eq_none_iff.mpr hmissed]

/-- A type with a plain name is captured under this name, also with its members. -/
theorem typeName?_typeValue (hquotes : '"' ∉ type.toList)
    (hbrace : Text.beginsWith '{' type = false) (hsequence : type ≠ "SEQUENCE OF")
    (rest : List String) : (typeValue type rest).1.typeName? = some type := by
  have hbare : Text.remove '"' type = type := Text.remove_of_not_mem hquotes
  unfold typeValue
  dsimp only
  rw [hbare]
  split_ifs
  · rfl
  · rw [plainValue_of_not_beginsWith (by rwa [hbare]), hbare]
    rfl

end Capture

/-- A textual convention as it is written, with its clauses in their order. -/
structure Convention where
  name : String
  hint : Option String
  status : String
  description : String
  reference : Option String
  type : String
  name_free : name ∉ Draft.reservedSymbols ++ Draft.actingSymbols
  type_quotes : '"' ∉ type.toList
  type_brace : Text.beginsWith '{' type = false
  type_sequence : type ≠ "SEQUENCE OF"

namespace Convention

/-- A clause with a text, if it is there. -/
def textClause (key : String) : Option String → List String
  | some body => [key, quoted body]
  | none => []

/-- The symbols between `::=` and the status. -/
def opening (t : Convention) : List String :=
  "TEXTUAL-CONVENTION" :: textClause "DISPLAY-HINT" t.hint ++ ["STATUS"]

/-- The symbols between the status and the type. -/
def texts (t : Convention) : List String :=
  ["DESCRIPTION", quoted t.description] ++ textClause "REFERENCE" t.reference

/-- The symbols behind `::=`. -/
def clauses (t : Convention) : List String :=
  t.opening ++ t.status :: t.texts ++ ["SYNTAX", t.type]

/-- The symbols of a convention. -/
def symbols (t : Convention) : List String :=
  t.name :: "::=" :: t.clauses

variable {d : Draft}

/-! ### The type of a convention -/

/-- A text in double quotes is not the keyword `SYNTAX`. -/
theorem quoted_ne_keyword (body : String) : quoted body ≠ "SYNTAX" := fun hsame => by
  have hhead := head?_quoted body
  rw [hsame] at hhead
  revert hhead
  decide

/-- The clause of another keyword does not hold `SYNTAX`. -/
theorem not_mem_textClause {key : String} (hkey : key ≠ "SYNTAX") (body : Option String) :
    "SYNTAX" ∉ textClause key body := by
  cases body with
  | none => exact List.not_mem_nil
  | some body => simp [textClause, hkey.symm, (quoted_ne_keyword body).symm]

/-- A clause with a text has two symbols, and one that is left out none. -/
theorem length_textClause (key : String) (body : Option String) :
    (textClause key body).length = if body = none then 0 else 2 := by
  cases body <;> rfl

/-- The keyword `SYNTAX` does not stand before the status of a convention. -/
theorem not_mem_opening (t : Convention) : "SYNTAX" ∉ t.opening := by
  simp [opening, not_mem_textClause]

/-- The keyword `SYNTAX` does not stand between the status and the type of a convention. -/
theorem not_mem_texts (t : Convention) : "SYNTAX" ∉ t.texts := by
  simp [texts, not_mem_textClause, (quoted_ne_keyword _).symm]

/-- The type that is captured behind `::=`, from the status if that is `SYNTAX` and else from the
last clause, unless two clauses push it out of the window. -/
theorem trailingType?_clauses (t : Convention) (after : List String) :
    Capture.trailingType? (t.clauses ++ after) =
      if t.status = "SYNTAX" then some (.text "DESCRIPTION")
      else if t.hint = none ∨ t.reference = none then some (Capture.typeValue t.type after).1
      else none := by
  by_cases hstatus : t.status = "SYNTAX"
  · have hclauses : t.clauses ++ after = t.opening ++ "SYNTAX" :: "DESCRIPTION" ::
        (quoted t.description :: textClause "REFERENCE" t.reference ++ ["SYNTAX", t.type] ++
          after) := by
      simp [clauses, texts, hstatus]
    have hwidth : t.opening.length < Capture.typeWindow := by
      rw [opening, List.length_append, List.length_cons, length_textClause, Capture.typeWindow]
      split_ifs <;> decide
    have hword : Text.remove '"' "DESCRIPTION" = "DESCRIPTION" := by decide
    rw [if_pos hstatus, hclauses, Capture.trailingType?_append t.not_mem_opening, if_pos hwidth,
      Capture.typeValue_eq_plainValue (by decide) fun hbase => absurd hbase (by decide),
      Capture.plainValue_of_not_beginsWith (by decide), hword]
  · have hclauses : t.clauses ++ after =
        (t.opening ++ t.status :: t.texts) ++ "SYNTAX" :: t.type :: after := by
      simp [clauses]
    have hlead : "SYNTAX" ∉ t.opening ++ t.status :: t.texts := by
      simp [not_mem_opening, not_mem_texts, Ne.symm hstatus]
    have hlength : (t.opening ++ t.status :: t.texts).length < Capture.typeWindow ↔
        t.hint = none ∨ t.reference = none := by
      simp only [opening, texts, List.length_append, List.length_cons, length_textClause,
        Capture.typeWindow, List.length_nil]
      split_ifs <;> simp_all
    rw [if_neg hstatus, hclauses, Capture.trailingType?_append hlead, if_congr hlength rfl rfl]

/-- When the captured type is that of the convention, and when there is none. -/
theorem typeName?_clauses_iff (t : Convention) (after : List String) :
    ((Capture.trailingType? (t.clauses ++ after)).bind FieldValue.typeName? = some t.type ↔
      if t.status = "SYNTAX" then t.type = "DESCRIPTION"
      else t.hint = none ∨ t.reference = none) ∧
    (Capture.trailingType? (t.clauses ++ after) = none ↔
      t.status ≠ "SYNTAX" ∧ t.hint ≠ none ∧ t.reference ≠ none) := by
  have hname := Capture.typeName?_typeValue t.type_quotes t.type_brace t.type_sequence after
  rw [trailingType?_clauses]
  split_ifs with hstatus hshort
  · simp [FieldValue.typeName?, hstatus, eq_comm]
  · refine ⟨iff_of_true hname hshort, iff_of_false (by simp) fun hlong => ?_⟩
    exact hshort.elim hlong.2.1 hlong.2.2
  · exact ⟨iff_of_false (by simp) hshort, iff_of_true rfl ⟨hstatus, not_or.mp hshort⟩⟩

/-! ### The object of a convention -/

/-- The object that a convention declares. -/
theorem declared?_convention (himporting : d.importing = .none) (hscope : d.scope = none)
    (t : Convention) (others : ModuleSet) (behind after : List String) :
    d.declared? others (t.name :: behind) "::=" (t.clauses ++ after) =
      some (d.plainObject "TEXTUAL-CONVENTION" (t.clauses ++ after) t.name) := by
  have hname : t.name ∉ Draft.reservedSymbols := fun hmem =>
    t.name_free (List.mem_append_left _ hmem)
  rw [Draft.declared?_assign himporting hscope, clauses, opening, List.cons_append,
    List.cons_append, List.cons_append, List.cons_append]
  dsimp only
  rw [if_neg (by decide)]
  simp [hname]

/-- The object has the name and the macro of the convention and the type that is captured. -/
theorem plainObject_eq {value : String} (hknown : d.macros.contains value = true)
    (rest : List String) (name : String) : (d.plainObject value rest name).name = name ∧
      (d.plainObject value rest name).macroName = some value ∧
      (d.plainObject value rest name).type? = Capture.trailingType? rest := by
  unfold Draft.plainObject
  rw [if_pos hknown]
  cases Capture.trailingType? rest with
  | none => exact ⟨rfl, rfl, rfl⟩
  | some type => exact ⟨rfl, rfl, (OrderedMap.get?_insert _ _ _ _).trans (if_pos rfl)⟩

end Convention

namespace Compiler

variable {table : SymbolTable} {before after : List String}

/-- A convention is compiled with its type exactly if it comes without a display hint or without a
reference. With both of them it has no type, and with a status that is itself `SYNTAX` another
one. -/
theorem type?_convention_iff (actions : List Action) (t : Convention)
    (hknown : (run actions).macros.contains "TEXTUAL-CONVENTION" = true)
    (hsequence : table.compileSequence = before ++ (t.symbols ++ after))
    (himporting : ((run actions).draftPast table before (t.symbols ++ after)).importing = .none)
    (hscope : ((run actions).draftPast table before (t.symbols ++ after)).scope = none)
    (hlater : ∀ later ∈ (run actions).declarationsBehind table (before ++ [t.name, "::="])
      (t.clauses ++ after), later.object.name ≠ t.name) :
    ∃ m object, ((run actions).compileTable table).modules.module? table.moduleName = some m ∧
      m.object? t.name = some object ∧ object.macroName = some "TEXTUAL-CONVENTION" ∧
      (object.type?.bind FieldValue.typeName? = some t.type ↔
        if t.status = "SYNTAX" then t.type = "DESCRIPTION"
        else t.hint = none ∨ t.reference = none) ∧
      (object.type? = none ↔ t.status ≠ "SYNTAX" ∧ t.hint ≠ none ∧ t.reference ≠ none) := by
  have hconsistent := run_consistent actions
  generalize run actions = c at *
  have hname : t.name ∉ Draft.actingSymbols := fun hmem =>
    t.name_free (List.mem_append_right _ hmem)
  have hstays : (c.draftPast table before (t.symbols ++ after)).macros.contains
      "TEXTUAL-CONVENTION" = true := Draft.contains_readPast hknown _ _ _ _
  -- The name of the convention is passed over, so `::=` is read by the same draft.
  have hdraft : c.draftPast table (before ++ [t.name]) ("::=" :: (t.clauses ++ after)) =
      c.draftPast table before (t.symbols ++ after) :=
    (draftPast_concat _ _ _ _ _).trans (Draft.read_eq_self himporting hscope hname)
  rw [← hdraft] at himporting hscope hstays
  have hdeclared := Convention.declared?_convention himporting hscope t
    (c.modules.erase table.moduleName) before.reverse after
  rw [← List.reverse_concat] at hdeclared
  obtain ⟨hobject, hvalue, htype⟩ := Convention.plainObject_eq hstays (t.clauses ++ after) t.name
  have hsplit : table.compileSequence = before ++ [t.name] ++ "::=" :: (t.clauses ++ after) := by
    simp [hsequence, Convention.symbols]
  have hcompiled := object?_of_declared? hconsistent hsplit hdeclared
    (by simpa [hobject] using hlater)
  rw [hobject] at hcompiled
  refine ⟨_, _, module?_compileTable hconsistent table, hcompiled, ?_⟩
  generalize Draft.plainObject _ "TEXTUAL-CONVENTION" _ _ = object at *
  obtain ⟨oid, nameSpace, hfinished⟩ :=
    Draft.finished_eq (c.compileTable table).modules.clauses object
  rw [hfinished]
  exact ⟨hvalue, htype ▸ t.typeName?_clauses_iff after⟩

/-- A unit that defines the macro of textual conventions. -/
def conventionUnit : SymbolTable where
  unit := "SNMPv2-TC"
  declaredName := none
  symbols := ["TEXTUAL-CONVENTION", "MACRO", "::=", "BEGIN", "TYPE NOTATION", "::=",
    quoted "STATUS", "Status", quoted "SYNTAX", "type(Syntax)", "END"].map (⟨·, .origin⟩)

/-- The name of a site, with a display hint and perhaps a reference. -/
def siteName (reference : Option String) : Convention where
  name := "SiteName"
  hint := some "255a"
  status := "current"
  description := "The name of a site."
  reference := reference
  type := "OctetString"
  name_free := by decide
  type_quotes := by decide
  type_brace := by decide
  type_sequence := by decide

/-- A unit that consists of a convention. -/
def siteUnit (t : Convention) : SymbolTable where
  unit := "SITE-MIB"
  declaredName := none
  symbols := (["DEFINITIONS", "::=", "BEGIN"] ++ (t.symbols ++ ["END"])).map (⟨·, .origin⟩)

/-- The name of a site, with a display hint and without a reference, is compiled with its type. -/
theorem type?_convention_iff_site :
    let c := run [.compileTable conventionUnit]
    let t := siteName none
    c.macros.contains "TEXTUAL-CONVENTION" = true ∧
      (siteUnit t).compileSequence = ["DEFINITIONS", "::=", "BEGIN"] ++ (t.symbols ++ ["END"]) ∧
      ∃ m object, (c.compileTable (siteUnit t)).modules.module? "SITE-MIB" = some m ∧
        m.object? "SiteName" = some object ∧
        object.type?.bind FieldValue.typeName? = some "OctetString" := by
  intro c t
  have hknown : c.macros.contains "TEXTUAL-CONVENTION" = true := by decide +kernel
  have hsequence : (siteUnit t).compileSequence =
      ["DEFINITIONS", "::=", "BEGIN"] ++ (t.symbols ++ ["END"]) := by decide +kernel
  obtain ⟨m, object, hm, hobject, -, htype, -⟩ :=
    type?_convention_iff [.compileTable conventionUnit] t hknown hsequence (by decide +kernel)
      (by decide +kernel) (by decide +kernel)
  exact ⟨hknown, hsequence, m, object, hm, hobject, htype.mpr (.inr rfl)⟩

/-- With a display hint and a reference the name of a site has no type. -/
theorem type?_convention_lost :
    (((run [.compileTable conventionUnit]).compileTable
      (siteUnit (siteName (some "Site register")))).modules.module? "SITE-MIB").map
        (fun m => (m.object? "SiteName").map ObjectDefinition.type?) = some (some none) ∧
      (siteName (some "Site register")).symbols = ["SiteName", "::=", "TEXTUAL-CONVENTION",
        "DISPLAY-HINT", quoted "255a", "STATUS", "current", "DESCRIPTION",
        quoted "The name of a site.", "REFERENCE", quoted "Site register", "SYNTAX",
        "OctetString"] := by
  decide +kernel

end Compiler

end Smi
