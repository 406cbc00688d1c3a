import Smi.Proofs.Symbol.Mode

/-!
# What is kept of a text

The symbols of a text without comments hold its characters, one after another, except for blanks:
what a scanner has stored and what it is gathering are together the visible characters that it has
read. In every text the symbols are trimmed.
-/

namespace Smi

/-- Whether a text is not empty and neither begins nor ends with a blank. -/
structure IsTrimmed (text : String) : Prop where
  nonempty : text.toList ≠ []
  head : ∀ c ∈ text.toList.head?, Text.isBlank c = false
  last : ∀ c ∈ text.toList.getLast?, Text.isBlank c = false

/-! ### Symbols that are added -/

/-- A two-word keyword is its two halves with a space between them. -/
theorem eq_of_joined? {first second whole : String} (h : joined? first second = some whole) :
    whole = first ++ " " ++ second := by
  unfold joined? at h
  split at h <;> first | (cases h; rfl) | cases h

/-- A two-word keyword is trimmed. -/
theorem isTrimmed_of_joined? {first second whole : String} (h : joined? first second = some whole) :
    IsTrimmed whole := by
  unfold joined? at h
  split at h <;>
    first
    | (cases h; exact ⟨by decide, by rintro _ ⟨⟩; decide, by rintro _ ⟨⟩; decide⟩)
    | cases h

/-- The characters of stored symbols in reading order. -/
def storedChars (stored : List Symbol) : List Char :=
  stored.reverse.flatMap fun symbol => symbol.text.toList

/-- The characters of the newest symbol come last. -/
theorem storedChars_cons (symbol : Symbol) (stored : List Symbol) :
    storedChars (symbol :: stored) = storedChars stored ++ symbol.text.toList := by
  simp [storedChars]

namespace Adds

variable {symbol : Symbol} {stored added : List Symbol}

/-- A symbol is added with its visible characters. -/
theorem visible_eq (h : Adds symbol stored added) :
    Text.visible (storedChars added) =
      Text.visible (storedChars stored) ++ Text.visible symbol.text.toList := by
  cases h with
  | newest => rw [storedChars_cons, Text.visible_append]
  | @joins first whole rest hjoined =>
    have hspace : Text.visible " ".toList = [] := by decide
    rw [storedChars_cons, storedChars_cons, eq_of_joined? hjoined, String.toList_append,
      String.toList_append]
    simp only [Text.visible_append, hspace, List.nil_append, List.append_assoc]

/-- Stored symbols are trimmed if the added one is and the others were. -/
theorem isTrimmed (h : Adds symbol stored added) (hsymbol : IsTrimmed symbol.text)
    (hstored : ∀ other ∈ stored, IsTrimmed other.text) :
    ∀ other ∈ added, IsTrimmed other.text := by
  cases h with
  | newest => exact List.forall_mem_cons.mpr ⟨hsymbol, hstored⟩
  | joins rest hjoined =>
    exact List.forall_mem_cons.mpr
      ⟨isTrimmed_of_joined? hjoined, (List.forall_mem_cons.mp hstored).2⟩

end Adds

namespace Scanner

variable {s : Scanner} {c : Char} {cs read : List Char} {text : String}

/-- A gathered text is trimmed. -/
theorem Gathers.isTrimmed (h : s.Gathers text) : IsTrimmed text := by
  refine ⟨h.nonempty, ?_, ?_⟩
  · rw [h.toList_eq]
    exact Text.isBlank_head?_trimChars _
  · rw [h.toList_eq]
    exact Text.isBlank_getLast?_trimChars _

/-! ### Trimmed symbols -/

/-- Reading a character stores symbols only by ending them, and does not move the scanner. -/
theorem read_induction {P : List Symbol → Position → Prop}
    (hflush : ∀ s : Scanner, P s.stored s.position → P s.flush.stored s.flush.position)
    (h : P s.stored s.position) (c : Char) : P (s.read c).stored (s.read c).position := by
  have halone (t : Scanner) (ht : P t.stored t.position) :
      P (t.alone c).stored (t.alone c).position := hflush _ (hflush t ht)
  cases readKind c with
  | space _ hread =>
    rw [hread, readSpace]
    split
    · exact h
    · exact hflush s h
  | opening _ hread =>
    rw [hread]
    split
    · exact h
    · exact halone (s.count c) h
  | closing _ hread =>
    rw [hread]
    exact h
  | separator _ hread =>
    rw [hread, readSeparator]
    split
    · exact h
    · exact halone s h
  | lineEnd _ hread =>
    rw [hread, readLineEnd]
    split
    · exact h
    · exact hflush s h
  | hyphen _ hread =>
    rw [hread, readHyphen]
    split
    · exact hflush _ h
    · exact h
  | quote _ hread =>
    rw [hread, readQuote]
    split
    · exact hflush s h
    · exact hflush _ h
    · exact h
    · exact h
    · exact hflush _ h
  | plain _ _ hread =>
    rw [hread]
    exact h

/-- A scanner does not move while it reads a character. -/
theorem position_read (s : Scanner) (c : Char) : (s.read c).position = s.position :=
  read_induction (P := fun _ position => position = s.position)
    (fun t ht => t.flush_position.trans ht) rfl c

/-- Stored symbols are trimmed when the pending one is ended. -/
theorem isTrimmed_flush (s : Scanner) (h : ∀ symbol ∈ s.stored, IsTrimmed symbol.text) :
    ∀ symbol ∈ s.flush.stored, IsTrimmed symbol.text := by
  rcases s.stored_flush with ⟨hstored, -⟩ | ⟨text, hgathers, hadds⟩
  · rwa [hstored]
  · exact hadds.isTrimmed hgathers.isTrimmed h

/-- Stored symbols are trimmed when more characters have been read. -/
theorem isTrimmed_foldl (h : ∀ symbol ∈ s.stored, IsTrimmed symbol.text) (cs : List Char) :
    ∀ symbol ∈ (cs.foldl step s).stored, IsTrimmed symbol.text := by
  induction cs generalizing s with
  | nil => exact h
  | cons c rest ih =>
    have hread : ∀ symbol ∈ (s.read c).stored, IsTrimmed symbol.text :=
      read_induction (P := fun stored _ => ∀ symbol ∈ stored, IsTrimmed symbol.text)
        isTrimmed_flush h c
    exact ih (s := s.step c) hread

/-! ### Visible characters -/

/-- The visible characters that are stored or gathered. -/
def kept (s : Scanner) : List Char :=
  Text.visible (storedChars s.stored) ++ Text.visible s.pending.reverse

/-- Ending the pending symbol keeps its visible characters. -/
theorem kept_flush (s : Scanner) : s.flush.kept = s.kept := by
  rw [kept, kept, flush_pending, List.reverse_nil, ← Text.visible_trimChars s.pending.reverse]
  rcases s.stored_flush with ⟨hstored, hblank⟩ | ⟨text, hgathers, hadds⟩
  · rw [hstored, hblank]
  · rw [hadds.visible_eq, hgathers.toList_eq]
    exact List.append_nil _

/-- A character that is taken in is kept if it is visible. -/
theorem kept_append (s : Scanner) (c : Char) : (s.append c).kept = s.kept ++ Text.visible [c] := by
  simp [kept, append, Text.visible_append]

/-- A character that is a symbol of its own is kept if it is visible. -/
theorem kept_alone (s : Scanner) (c : Char) : (s.alone c).kept = s.kept ++ Text.visible [c] := by
  rw [alone, kept_flush, kept_append, kept_flush]

/-- A blank that ends the pending symbol adds nothing visible. -/
theorem kept_flush_of_isBlank (hc : Text.isBlank c = true) (s : Scanner) :
    s.flush.kept = s.kept ++ Text.visible [c] := by
  rw [kept_flush, Text.visible_eq_nil (List.forall_mem_singleton.mpr hc), List.append_nil]

/-- Every character is kept if it is visible and does not begin a comment. -/
theorem kept_read (h : c = '-' → s.previous = some '-' → s.mode = .string) :
    (s.read c).kept = s.kept ++ Text.visible [c] := by
  cases readKind c with
  | space hc hread =>
    rw [hread, readSpace]
    split
    · exact s.kept_append c
    · exact kept_flush_of_isBlank (by rcases hc with rfl | rfl <;> decide) s
  | opening _ hread =>
    rw [hread]
    split
    · exact (s.count c).kept_append c
    · exact (s.count c).kept_alone c
  | closing _ hread =>
    rw [hread]
    exact (s.count c).kept_append c
  | separator _ hread =>
    rw [hread, readSeparator]
    split
    · exact s.kept_append c
    · exact s.kept_alone c
  | lineEnd hc hread =>
    rw [hread, readLineEnd]
    split
    · exact s.kept_append c
    · exact kept_flush_of_isBlank (by rcases hc with rfl | rfl <;> decide) s
  | hyphen hc hread =>
    rw [hread, readHyphen, hc]
    split
    next hopens =>
      simp only [Bool.and_eq_true, decide_eq_true_eq] at hopens
      exact absurd (h hc hopens.1) hopens.2
    next => exact s.kept_append '-'
  | quote hc hread =>
    rw [hread, readQuote, hc]
    split
    · exact (kept_append { s.flush with mode := .string } '"').trans
        (congrArg (· ++ Text.visible ['"']) s.kept_flush)
    · exact (kept_flush _).trans (kept_append { s with mode := .plain } '"')
    · exact kept_append { s with mode := .quotation } '"'
    · exact kept_append { s with mode := .comment } '"'
    · exact (kept_flush _).trans (s.kept_append '"')
  | plain _ _ hread =>
    rw [hread]
    exact s.kept_append c

/-! ### Texts without comments -/

/-- Whether a scanner that has read some characters has met no comment in them, and has kept those
that are visible. -/
structure Conserves (read : List Char) (s : Scanner) : Prop extends s.Uncommented read where
  kept : s.kept = Text.visible read

/-- The scanner at the start of a text has lost nothing. -/
theorem initial_conserves : initial.Conserves [] :=
  ⟨initial_uncommented, rfl⟩

/-- Nothing visible is lost with a character that opens no comment. -/
theorem Conserves.step (h : s.Conserves read) (hnone : HasNoComment (read ++ [c])) :
    (s.step c).Conserves (read ++ [c]) := by
  refine ⟨h.toUncommented.step hnone, ?_⟩
  have hread : (s.step c).kept = s.kept ++ Text.visible [c] :=
    kept_read (h.mode_eq_string hnone)
  rw [hread, h.kept, Text.visible_append]

/-- Nothing visible is lost with characters that open no comment. -/
theorem Conserves.foldl (h : s.Conserves read) (hnone : HasNoComment (read ++ cs)) :
    (cs.foldl Scanner.step s).Conserves (read ++ cs) := by
  induction cs generalizing s read with
  | nil => rwa [List.append_nil]
  | cons c rest ih =>
    rw [List.append_cons] at hnone ⊢
    exact ih (h.step (hnone.of_prefix (List.prefix_append _ _))) hnone

end Scanner

namespace SymbolTable

/-- The symbols of a text are trimmed. -/
theorem isTrimmed_of_mem {unit text : String} {symbol : Symbol}
    (h : symbol ∈ (ofText unit text).symbols) : IsTrimmed symbol.text :=
  Scanner.isTrimmed_flush _ (Scanner.isTrimmed_foldl (s := .initial) (List.forall_mem_nil _)
    text.toList) symbol (List.mem_reverse.mp h)

/-- Every symbol is trimmed, and the symbols of a text without comments hold its visible characters
in their order, and no others. -/
theorem ofText_conserves (unit text : String) :
    (∀ symbol ∈ (ofText unit text).symbols, IsTrimmed symbol.text) ∧
      (HasNoComment text.toList →
        Text.visible ((ofText unit text).symbols.flatMap fun symbol => symbol.text.toList) =
          Text.visible text.toList) := by
  refine ⟨fun symbol hsymbol => isTrimmed_of_mem hsymbol, fun hnone => ?_⟩
  have hkept := (Scanner.initial_conserves.foldl hnone).kept
  rw [← Scanner.kept_flush, Scanner.kept, Scanner.flush_pending, List.nil_append] at hkept
  exact (List.append_nil _).symm.trans hkept

/-- Hyphens in a string are no comment, and neither an open bracket nor an open string loses
anything. -/
theorem ofText_conserves_open :
    HasNoComment "x OBJECT  IDENTIFIER \"--\" [ a, b \" (".toList ∧
      Text.visible ((ofText "unit" "x OBJECT  IDENTIFIER \"--\" [ a, b \" (").symbols.flatMap
          fun symbol => symbol.text.toList) =
        Text.visible "x OBJECT  IDENTIFIER \"--\" [ a, b \" (".toList :=
  ⟨by decide +kernel, (ofText_conserves "unit" _).2 (by decide +kernel)⟩

/-- The symbols of a text without comments. -/
example : ((ofText "unit" "x OBJECT  IDENTIFIER \"--\" [ a, b \" (").symbols.map Symbol.text) =
    ["x", "OBJECT IDENTIFIER", "\"--\"", "[ a", ",", "b", "\" ("] := by decide +kernel

end SymbolTable

end Smi
