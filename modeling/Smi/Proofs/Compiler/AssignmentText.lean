import Smi.Proofs.Compiler.Assignment
import Smi.Proofs.Symbol.Word

/-!
# Printed assignments

A module of assignments is printed with one line for each of them. Scanning the lines gives back the
symbols of the assignments in their order: in each line the name, the keyword that was joined from
its two words, `::=`, and the clause in its braces.
-/

namespace Smi

/-- A symbol that completes no keyword is stored behind the others. -/
theorem Stored.add_eq {l : Stored} {text : String} (h : text ∉ secondHalves) :
    l.add text = ⟨text :: l.texts, some text,
      if text = "DEFINITIONS" then l.neighbour <|> l.declaredName else l.declaredName,
      text = "::="⟩ := by
  have hjoined : (l.neighbour.bind fun first => joined? first text) = none := by
    simp [joined?_eq_none h]
  rw [Stored.add, hjoined]

namespace OidAssignment

variable {name : String} {all : List OidAssignment} {a : OidAssignment} {l : Stored} {s : Scanner}

/-- The clause of an assignment in its braces. -/
def braced (a : OidAssignment) : String :=
  "\x7b " ++ a.clause ++ " \x7d"

/-- The line of an assignment. -/
def line (a : OidAssignment) : String :=
  a.name ++ " OBJECT IDENTIFIER ::= " ++ a.braced ++ "\n"

/-- The text of a module of assignments. -/
def moduleText (name : String) (all : List OidAssignment) : String :=
  name ++ " DEFINITIONS ::= BEGIN\n" ++ String.join (all.map line) ++ "END\n"

/-- The symbols in the line of an assignment. -/
def symbols (a : OidAssignment) : List String :=
  [a.name, "OBJECT IDENTIFIER", "::=", a.braced]

/-- The characters of a clause in braces. -/
theorem braced_toList (a : OidAssignment) :
    a.braced.toList = '{' :: (' ' :: a.clause.toList ++ [' ']) ++ ['}'] := by
  simp [braced]

/-! ### Scanning a line -/

/-- The characters of a clause. -/
theorem clause_toList (a : OidAssignment) :
    a.clause.toList = a.parent.toList ++ ' ' :: (toString a.number.toNat).toList := by
  simp [clause]

/-- Between the braces no delimiters stand but spaces and single hyphens. -/
theorem mem_body {c : Char} (hc : c ∈ ' ' :: a.clause.toList ++ [' ']) :
    c ∉ delimiters ∨ c = '-' ∨ c = ' ' := by
  rw [clause_toList] at hc
  simp only [List.cons_append, List.append_assoc, List.mem_cons, List.mem_append, List.not_mem_nil,
    or_false] at hc
  rcases hc with hspace | hparent | hspace | hnumeral | hspace
  · exact .inr (.inr hspace)
  · exact (a.parent_identifier.isWord.characters c hparent).imp_right .inl
  · exact .inr (.inr hspace)
  · exact .inl (not_mem_delimiters (Text.isAlphanum_of_mem_toString hnumeral))
  · exact .inr (.inr hspace)

/-- No two hyphens stand side by side between the braces of a clause. -/
theorem singleHyphens_body (a : OidAssignment) :
    SingleHyphens (' ' :: a.clause.toList ++ [' ']) := by
  have hnumeral : SingleHyphens (' ' :: (toString a.number.toNat).toList) :=
    singleHyphens_of_forall_ne fun c hc hhyphen => by
      subst hhyphen
      rcases List.mem_cons.mp hc with hc | hc
      · cases hc
      · exact absurd (Text.isAlphanum_of_mem_toString hc) (by decide)
  have hclause : SingleHyphens a.clause.toList := by
    rw [clause_toList]
    exact a.parent_identifier.hyphens.append hnumeral (by simp)
  have hopened : SingleHyphens ((some ' ').toList ++ a.clause.toList) := hclause.behind (by simp)
  exact hopened.append (singleHyphens_of_forall_ne (by simp)) (by simp)

/-- A clause in braces is no keyword. -/
theorem braced_not_mem {keywords : List String}
    (h : ∀ keyword ∈ keywords, keyword.toList.head? ≠ some '{') : a.braced ∉ keywords :=
  fun hmem => h a.braced hmem (by rw [braced_toList]; rfl)

/-- What is stored behind the line of an assignment. -/
theorem add_line (a : OidAssignment) (l : Stored) :
    (((((l.add a.name).add "OBJECT").add "IDENTIFIER").add "::=").add a.braced).endLine =
      ⟨a.symbols.reverse ++ l.texts, none, l.declaredName, false⟩ := by
  have hname : a.name ∉ secondHalves := a.name_identifier.not_mem_of_head? (by decide)
  have hdefinitions : a.name ∉ ["DEFINITIONS"] := a.name_identifier.not_mem_of_head? (by decide)
  have hbraced : a.braced ∉ secondHalves := braced_not_mem (by decide)
  have hplain : a.braced ∉ ["DEFINITIONS", "::="] := braced_not_mem (by decide)
  have hjoined (texts : List String) (declared : Option String) (assigned : Bool) :
      Stored.add ⟨"OBJECT" :: texts, some "OBJECT", declared, assigned⟩ "IDENTIFIER" =
        ⟨"OBJECT IDENTIFIER" :: texts, some "OBJECT IDENTIFIER", declared, false⟩ := rfl
  rw [Stored.add_eq hname, Stored.add_eq (by decide : "OBJECT" ∉ secondHalves), hjoined,
    Stored.add_eq (by decide : "::=" ∉ secondHalves), Stored.add_eq hbraced]
  simp only [List.mem_cons, List.not_mem_nil, or_false, not_or] at hdefinitions hplain
  simp [Stored.endLine, symbols, hdefinitions, hplain]

/-- The line of an assignment is scanned as its symbols. -/
theorem between_line (h : s.Between l) :
    (a.line.toList.foldl Scanner.step s).Between
      ⟨a.symbols.reverse ++ l.texts, none, l.declaredName, false⟩ := by
  have hchars : a.line.toList = (a.name.toList ++ [' ']) ++ ("OBJECT".toList ++ [' ']) ++
      ("IDENTIFIER".toList ++ [' ']) ++ ("::=".toList ++ [' ']) ++
      ('{' :: (' ' :: a.clause.toList ++ [' ']) ++ ['}', '\n']) := by simp [line, braced]
  have hname := h.word_space a.name_identifier.isWord
  have hobject := hname.word_space (by decide : IsWord "OBJECT")
  have hidentifier := hobject.word_space (by decide : IsWord "IDENTIFIER")
  have hassign := hidentifier.word_space (by decide : IsWord "::=")
  have hline := hassign.clause_newline (by rw [Stored.add_eq (by decide)]; rfl)
    (fun _ => mem_body) a.singleHyphens_body
  rw [← braced_toList, String.ofList_toList, add_line] at hline
  rw [hchars]
  simp only [List.foldl_append] at hline ⊢
  exact hline

/-! ### Scanning the text -/

/-- The lines of assignments are scanned as their symbols. -/
theorem between_lines (all : List OidAssignment) {texts : List String} {declared : Option String}
    (h : s.Between ⟨texts, none, declared, false⟩) :
    ((String.join (all.map line)).toList.foldl Scanner.step s).Between
      ⟨(all.flatMap symbols).reverse ++ texts, none, declared, false⟩ := by
  -- The lines are scanned one by one; between two of them nothing is pending and no symbol is a
  -- neighbour, whatever was stored before.
  induction all generalizing s texts with
  | nil => exact h
  | cons a rest ih =>
    have hrest := ih (between_line (a := a) h)
    simpa [List.append_assoc] using hrest

/-- The first line of a module is scanned as its words and declares its name. -/
theorem between_header (hname : IsIdentifier Char.isUpper name) :
    ((name ++ " DEFINITIONS ::= BEGIN\n").toList.foldl Scanner.step .initial).Between
      ⟨["BEGIN", "::=", "DEFINITIONS", name], none, some name, false⟩ := by
  have hchars : (name ++ " DEFINITIONS ::= BEGIN\n").toList = (name.toList ++ [' ']) ++
      ("DEFINITIONS".toList ++ [' ']) ++ ("::=".toList ++ [' ']) ++
      ("BEGIN".toList ++ ['\n']) := by simp
  have hfirst : Stored.add ⟨[], none, none, false⟩ name =
      ⟨[name], some name, none, name = "::="⟩ := by simp [Stored.add]
  have hmodule := Scanner.initial_between.word_space hname.isWord
  have hdefinitions := hmodule.word_space (by decide : IsWord "DEFINITIONS")
  have hassign := hdefinitions.word_space (by decide : IsWord "::=")
  have hheader := hassign.word_newline (by decide : IsWord "BEGIN")
  rw [hfirst, Stored.add_eq (by decide : "DEFINITIONS" ∉ secondHalves),
    Stored.add_eq (by decide : "::=" ∉ secondHalves),
    Stored.add_eq (by decide : "BEGIN" ∉ secondHalves)] at hheader
  rw [hchars]
  simp only [List.foldl_append] at hheader ⊢
  exact hheader

/-- No symbol of an assignment begins with a hyphen. -/
theorem head?_of_mem_symbols {symbol : String} (h : symbol ∈ a.symbols) :
    symbol.toList.head? ≠ some '-' := by
  simp only [symbols, List.mem_cons, List.not_mem_nil, or_false] at h
  rcases h with rfl | rfl | rfl | rfl
  · exact a.name_identifier.head?_ne rfl
  · decide
  · decide
  · simp [braced]

/-- The printed module is scanned as a module of its name with the symbols of the assignments
between its first and its last line. -/
theorem scan_moduleText (hname : IsIdentifier Char.isUpper name) (all : List OidAssignment)
    (unit : String) :
    (SymbolTable.ofText unit (moduleText name all)).moduleName = name ∧
      (SymbolTable.ofText unit (moduleText name all)).compileSequence =
        name :: "DEFINITIONS" :: "::=" :: "BEGIN" :: (all.flatMap symbols ++ ["END"]) := by
  have hchars : (moduleText name all).toList = (name ++ " DEFINITIONS ::= BEGIN\n").toList ++
      (String.join (all.map line)).toList ++ ("END".toList ++ ['\n']) := by
    simp only [moduleText, String.toList_append]
    rfl
  have hlines := between_lines all (between_header hname)
  have htext := hlines.word_newline (by decide : IsWord "END")
  rw [Stored.add_eq (by decide : "END" ∉ secondHalves)] at htext
  have hscan := htext.finish unit ?_
  · rw [SymbolTable.ofText_eq, hchars]
    simp only [List.foldl_append] at hscan ⊢
    refine ⟨hscan.1, hscan.2.trans ?_⟩
    simp [Stored.endLine]
  · intro text htext
    simp only [Stored.endLine, List.mem_cons, List.mem_append, List.mem_reverse, List.mem_flatMap,
      List.not_mem_nil, or_false] at htext
    rcases htext with rfl | ⟨a, _, ha⟩ | rfl | rfl | rfl | rfl
    · decide
    · exact head?_of_mem_symbols ha
    · decide
    · decide
    · decide
    · exact hname.head?_ne rfl

end OidAssignment

end Smi
