import Smi.Proofs.Symbol.Pending
import Smi.Proofs.Text.Identifier

/-!
# Scanning words

A scanner that stands between two symbols, outside strings, comments and brackets, gathers the
characters of a word and stores it at the next space or line end. What it stores depends on the
symbol before the word in the same line, but not on the columns. A braced clause behind `::=` is
gathered as one symbol with the spaces in it.
-/

namespace Smi

/-- A text is scanned character by character. -/
theorem SymbolTable.ofText_eq (unit text : String) :
    ofText unit text = (text.toList.foldl Scanner.step .initial).finish unit :=
  rfl

/-! ### Words -/

/-- The characters on which a scanner does not just take the character in. -/
def delimiters : List Char :=
  [' ', '\t', '{', '[', '(', '}', ']', ')', ',', ';', '\n', '\r', '-', '"']

/-- Whether a text is taken in as one symbol: it holds no blank and no delimiter but single
hyphens. -/
structure IsWord (text : String) : Prop where
  nonempty : text.toList ≠ []
  visible : ∀ c ∈ text.toList, Text.isBlank c = false
  characters : ∀ c ∈ text.toList, c ∉ delimiters ∨ c = '-'
  hyphens : SingleHyphens text.toList

/-- Whether a text is a word can be read off its characters. -/
theorem isWord_iff {text : String} :
    IsWord text ↔ text.toList ≠ [] ∧ text.toList.all (fun c => !Text.isBlank c) = true ∧
      text.toList.all (fun c => !delimiters.contains c || c == '-') = true ∧
        SingleHyphens text.toList := by
  simp only [List.all_eq_true, Bool.or_eq_true, Bool.not_eq_true', List.contains_eq_mem,
    decide_eq_false_iff_not, beq_iff_eq]
  exact ⟨fun h => ⟨h.nonempty, h.visible, h.characters, h.hyphens⟩,
    fun ⟨hnonempty, hvisible, hcharacters, hhyphens⟩ =>
      ⟨hnonempty, hvisible, hcharacters, hhyphens⟩⟩

instance (text : String) : Decidable (IsWord text) :=
  decidable_of_iff _ isWord_iff.symm

/-- Letters and digits are no delimiters. -/
theorem not_mem_delimiters {c : Char} (h : c.isAlphanum = true) : c ∉ delimiters := fun hmem => by
  have hdelimiters : delimiters.any Char.isAlphanum = false := rfl
  exact List.any_eq_false.mp hdelimiters c hmem h

/-- An identifier is a word. -/
theorem IsIdentifier.isWord {initial : Char → Bool} {text : String}
    (h : IsIdentifier initial text) : IsWord text :=
  ⟨h.nonempty, fun _ => h.isBlank_eq_false,
    fun c hc => (h.characters c hc).imp_left not_mem_delimiters, h.hyphens⟩

namespace Scanner

variable {s : Scanner} {c : Char} {cs : List Char}

/-! ### Gathering characters -/

/-- Whether a character is taken into the pending symbol: it is no delimiter, or a hyphen that does
not follow another one, or a space or tab inside a symbol that keeps its delimiters. -/
def Takes (s : Scanner) (c : Char) : Prop :=
  c ∉ delimiters ∨ c = '-' ∧ s.previous ≠ some '-' ∨
    (c = ' ' ∨ c = '\t') ∧ s.keepsDelimiters = true

/-- A character that belongs to the pending symbol is taken in. -/
theorem Takes.read_eq (h : s.Takes c) : s.read c = s.append c := by
  rcases h with hplain | ⟨rfl, hprevious⟩ | ⟨rfl | rfl, hkeeps⟩
  · unfold read
    split <;> first | rfl | exact absurd (by decide) hplain
  · simp [read, readHyphen, hprevious]
  · simp [read, readSpace, hkeeps]
  · simp [read, readSpace, hkeeps]

/-- The scanner after taking characters into the pending symbol. -/
def gather (s : Scanner) (cs : List Char) : Scanner :=
  { s with
    pending := cs.reverse ++ s.pending
    start := if s.pending.isEmpty && !cs.isEmpty then s.position else s.start
    position := ⟨s.position.row, s.position.column + cs.length⟩
    previous := cs.getLast?.or s.previous }

/-- A character that is taken in is no line feed. -/
theorem Takes.ne_newline (h : s.Takes c) : c ≠ '\n' := by
  rintro rfl
  rcases h with h | ⟨h, _⟩ | ⟨h | h, _⟩
  · exact h (by decide)
  · cases h
  · cases h
  · cases h

/-- A character that belongs to the pending symbol is gathered. -/
theorem Takes.step_eq (h : s.Takes c) : s.step c = s.gather [c] := by
  rw [step, h.read_eq, Position.after, if_neg h.ne_newline]
  cases hpending : s.pending <;> simp [gather, append, hpending]

/-- Characters are gathered one by one or at once. -/
theorem gather_cons (s : Scanner) (c : Char) (rest : List Char) :
    (s.gather [c]).gather rest = s.gather (c :: rest) := by
  cases rest with
  | nil => simp [gather]
  | cons next others => simp [gather, Nat.add_assoc, Nat.add_comm 1, List.getLast?_cons]

/-- Characters that are no delimiters but single hyphens are gathered, and spaces and tabs where
they are kept. -/
theorem foldl_step_eq_gather
    (hcs : ∀ c ∈ cs, c ∉ delimiters ∨ c = '-' ∨
      (c = ' ' ∨ c = '\t') ∧ s.keepsDelimiters = true)
    (hhyphens : SingleHyphens (s.previous.toList ++ cs)) :
    cs.foldl step s = s.gather cs := by
  induction cs generalizing s with
  | nil => simp [gather]
  | cons c rest ih =>
    obtain ⟨hc, hrest⟩ := List.forall_mem_cons.mp hcs
    have htakes : s.Takes c := by
      rcases hc with hplain | rfl | hspace
      · exact .inl hplain
      · refine .inr (.inl ⟨rfl, fun hprevious => ?_⟩)
        rw [hprevious] at hhyphens
        exact (List.isChain_cons_cons.mp hhyphens).1 ⟨rfl, rfl⟩
      · exact .inr (.inr hspace)
    have hhyphensRest : SingleHyphens ((s.gather [c]).previous.toList ++ rest) :=
      hhyphens.suffix (List.suffix_append _ _)
    rw [List.foldl_cons, htakes.step_eq, ih (s := s.gather [c]) hrest hhyphensRest, gather_cons]

end Scanner

/-! ### Between symbols -/

/-- What a scanner has stored, apart from the places. -/
structure Stored where
  /-- The texts of the symbols, the newest first. -/
  texts : List String
  /-- The symbol stored last, if it stands in the current line. -/
  neighbour : Option String
  declaredName : Option String
  /-- The symbol stored last is `::=`. -/
  afterAssign : Bool

namespace Stored

/-- One more symbol in the current line. -/
def add (l : Stored) (text : String) : Stored :=
  match l.neighbour.bind fun first => joined? first text with
  | some whole => ⟨whole :: l.texts.tail, some whole, l.declaredName, false⟩
  | none =>
    ⟨text :: l.texts, some text,
      if text = "DEFINITIONS" then l.neighbour <|> l.declaredName else l.declaredName,
      text = "::="⟩

/-- The start of the next line. -/
def endLine (l : Stored) : Stored :=
  { l with neighbour := none }

end Stored

namespace Scanner

variable {s : Scanner} {l : Stored} {text : String}

/-- Whether a scanner stands outside strings, comments and brackets. -/
structure Outside (s : Scanner) (l : Stored) : Prop where
  mode : s.mode = .plain
  depth : s.depth = 0
  rounds : s.rounds = 0
  inClause : s.inClause = false
  inList : s.inList = false
  texts : s.stored.map Symbol.text = l.texts
  neighbour : (s.stored.head?.filter fun symbol => symbol.position.row == s.position.row).map
    Symbol.text = l.neighbour
  declaredName : s.declaredName = l.declaredName
  afterAssign : s.afterAssign = l.afterAssign

/-- Whether a scanner stands between two symbols, outside strings, comments and brackets. -/
structure Between (s : Scanner) (l : Stored) : Prop extends Outside s l where
  pending : s.pending = []
  previous : s.previous ≠ some '-'

/-- Whether the pending symbol is a text without blanks at its ends that began in the current
line. -/
structure Holds (s : Scanner) (text : String) : Prop where
  pending : s.pending = text.toList.reverse
  start : s.start.row = s.position.row
  nonempty : text.toList ≠ []
  trimmed : Text.trim text = text
  ne_brace : text ≠ "\x7b"

/-- Outside strings, comments and brackets no delimiters are kept. -/
theorem Outside.keepsDelimiters (h : s.Outside l) : s.keepsDelimiters = false := by
  simp [Scanner.keepsDelimiters, Mode.isVerbatim, h.mode, h.inClause, h.depth]

/-- The pending symbol is stored. -/
theorem Outside.flush (h : s.Outside l) (htext : s.Holds text) :
    s.flush.Outside (l.add text) ∧ s.flush.pending = [] ∧ s.flush.position = s.position := by
  obtain ⟨hpending, hstart, hnonempty, htrim, hbrace⟩ := htext
  have hneighbour : ({ s with pending := [], afterAssign := false }.neighbour?).map Symbol.text =
      l.neighbour := by
    rw [neighbour?, ← h.neighbour, hstart]
  rw [(gathers_of_trim hpending htrim hnonempty).flush_eq]
  simp only [store, hneighbour, Stored.add]
  cases hjoined : l.neighbour.bind fun first => joined? first text with
  | none =>
    refine ⟨⟨h.mode, h.depth, h.rounds, h.inClause, ?_, ?_, ?_, ?_, ?_⟩, rfl, rfl⟩
    · simp [h.inList, hbrace]
    · simp [h.texts]
    · simp [hstart]
    · simp [h.declaredName]
    · simp
  | some whole =>
    obtain ⟨first, hfirst, _⟩ := Option.bind_eq_some_iff.mp hjoined
    have hhead := h.neighbour.trans hfirst
    have htexts := h.texts
    cases hstored : s.stored with
    | nil => simp [hstored] at hhead
    | cons symbol rest =>
      rw [hstored] at hhead htexts
      obtain ⟨_, hsymbol, _⟩ := Option.map_eq_some_iff.mp hhead
      obtain ⟨hsame, hrow⟩ := Option.filter_eq_some_iff.mp hsymbol
      obtain rfl := Option.some.inj hsame
      refine ⟨⟨h.mode, h.depth, h.rounds, h.inClause, h.inList, ?_, ?_, h.declaredName, rfl⟩, rfl,
        rfl⟩
      · simp [← htexts]
      · simp [beq_iff_eq.mp hrow]

/-- A space ends the pending symbol. -/
theorem Outside.step_space (h : s.Outside l) (htext : s.Holds text) :
    (s.step ' ').Between (l.add text) := by
  have hstep : s.step ' ' = { s.flush with
      previous := some ' '
      position := ⟨s.flush.position.row, s.flush.position.column + 1⟩ } := by
    simp [step, read, readSpace, h.keepsDelimiters, Position.after]
  obtain ⟨hflush, hpending, _⟩ := h.flush htext
  rw [hstep]
  exact ⟨⟨hflush.mode, hflush.depth, hflush.rounds, hflush.inClause, hflush.inList, hflush.texts,
    hflush.neighbour, hflush.declaredName, hflush.afterAssign⟩, hpending, by simp⟩

/-- A symbol that has been added is the neighbour of the next one. -/
theorem exists_neighbour_add (l : Stored) (text : String) :
    ∃ last, (l.add text).neighbour = some last := by
  unfold Stored.add
  split
  · exact ⟨_, rfl⟩
  · exact ⟨_, rfl⟩

/-- The end of a line ends the pending symbol, which is no neighbour of what follows. -/
theorem Outside.step_newline (h : s.Outside l) (htext : s.Holds text) :
    (s.step '\n').Between (l.add text).endLine := by
  obtain ⟨hflush, hpending, _⟩ := h.flush htext
  have hstep : s.step '\n' = { s.flush with
      previous := some '\n'
      rounds := 0
      position := ⟨s.flush.position.row + 1, 0⟩ } := by
    simp [step, read, readLineEnd, h.mode, hflush.mode, Mode.endLine, Position.after]
  obtain ⟨last, hlast⟩ := exists_neighbour_add l text
  have hneighbour := hflush.neighbour
  rw [hlast] at hneighbour
  obtain ⟨symbol, hsymbol, _⟩ := Option.map_eq_some_iff.mp hneighbour
  obtain ⟨hhead, hrow⟩ := Option.filter_eq_some_iff.mp hsymbol
  rw [hstep]
  refine ⟨⟨hflush.mode, hflush.depth, rfl, hflush.inClause, hflush.inList, hflush.texts, ?_,
    hflush.declaredName, hflush.afterAssign⟩, hpending, by simp⟩
  simp [hhead, beq_iff_eq.mp hrow, Stored.endLine]

/-! ### Words and clauses -/

/-- A scanner holds the word that it has gathered. -/
theorem holds_gather (hpending : s.pending = []) (hnonempty : text.toList ≠ [])
    (htrim : Text.trim text = text) (hbrace : text ≠ "\x7b") :
    (s.gather text.toList).Holds text :=
  ⟨by simp [gather, hpending], by simp [gather, hpending, hnonempty], hnonempty, htrim, hbrace⟩

/-- A scanner stays outside strings, comments and brackets while it gathers a word. -/
theorem Outside.gather (h : s.Outside l) (cs : List Char) : (s.gather cs).Outside l :=
  ⟨h.mode, h.depth, h.rounds, h.inClause, h.inList, h.texts, h.neighbour, h.declaredName,
    h.afterAssign⟩

/-- A word is gathered as it is. -/
theorem Between.gather_word (h : s.Between l) (hword : IsWord text) :
    text.toList.foldl step s = s.gather text.toList ∧ (s.gather text.toList).Outside l ∧
      (s.gather text.toList).Holds text := by
  have htrim : Text.trim text = text := by
    rw [Text.trim, Text.trimChars_eq_self (fun c hc => hword.visible c (List.mem_of_mem_head? hc))
      (fun c hc => hword.visible c (List.mem_of_mem_getLast? hc)), String.ofList_toList]
  have hbrace : text ≠ "\x7b" := by
    rintro rfl
    exact absurd hword (by decide)
  exact ⟨foldl_step_eq_gather (fun c hc => (hword.characters c hc).imp_right .inl)
    (hword.hyphens.behind h.previous), h.gather _,
    holds_gather h.pending hword.nonempty htrim hbrace⟩

/-- A word before a space. -/
theorem Between.word_space (h : s.Between l) (hword : IsWord text) :
    ((text.toList ++ [' ']).foldl step s).Between (l.add text) := by
  obtain ⟨hgather, houtside, hholds⟩ := h.gather_word hword
  rw [List.foldl_append, hgather]
  exact houtside.step_space hholds

/-- A word at the end of a line. -/
theorem Between.word_newline (h : s.Between l) (hword : IsWord text) :
    ((text.toList ++ ['\n']).foldl step s).Between (l.add text).endLine := by
  obtain ⟨hgather, houtside, hholds⟩ := h.gather_word hword
  rw [List.foldl_append, hgather]
  exact houtside.step_newline hholds

/-- A braced clause at the end of a line, behind `::=`, is one symbol. -/
theorem Between.clause_newline (h : s.Between l) (hassign : l.afterAssign = true)
    {body : List Char} (hbody : ∀ c ∈ body, c ∉ delimiters ∨ c = '-' ∨ c = ' ')
    (hhyphens : SingleHyphens body) :
    (('{' :: body ++ ['}', '\n']).foldl step s).Between
      (l.add (String.ofList ('{' :: body ++ ['}']))).endLine := by
  have hopen : s.step '{' = { s with
      pending := ['{']
      start := s.position
      position := ⟨s.position.row, s.position.column + 1⟩
      previous := some '{'
      depth := 1
      inClause := true } := by
    simp [step, read, readOpening, Scanner.keepsDelimiters, append, Position.after, h.mode, h.depth,
      h.rounds, h.inList, h.pending, h.afterAssign, hassign, Mode.isVerbatim]
  have hkeeps : (s.step '{').keepsDelimiters = true := by
    simp [hopen, Scanner.keepsDelimiters, h.inList]
  have hgather : body.foldl step (s.step '{') = (s.step '{').gather body :=
    foldl_step_eq_gather (fun c hc => (hbody c hc).imp_right (.imp_right (⟨.inl ·, hkeeps⟩)))
      (hhyphens.behind (by simp [hopen]))
  have hclose : ((s.step '{').gather body).step '}' = { s with
      pending := '}' :: (body.reverse ++ ['{'])
      start := s.position
      position := ⟨s.position.row, s.position.column + 1 + body.length + 1⟩
      previous := some '}'
      depth := 0
      inClause := false
      inList := false } := by
    rw [hopen]
    simp [gather, step, read, readClosing, append, Position.after]
  have houtside : (((s.step '{').gather body).step '}').Outside l := by
    rw [hclose]
    exact ⟨h.mode, rfl, h.rounds, rfl, rfl, h.texts, h.neighbour, h.declaredName, h.afterAssign⟩
  have hholds : (((s.step '{').gather body).step '}').Holds
      (String.ofList ('{' :: body ++ ['}'])) := by
    rw [hclose]
    refine ⟨by simp, rfl, by simp, ?_, fun hbrace => ?_⟩
    · have hlast : ('{' :: body ++ ['}']).getLast? = some '}' := List.getLast?_concat
      rw [Text.trim, String.toList_ofList, Text.trimChars_eq_self (by simp; decide)
        (by rw [hlast]; simp; decide)]
    · have hlength := congrArg (fun t => t.toList.length) hbrace
      simp at hlength
  rw [List.cons_append, List.foldl_cons, List.foldl_append, hgather]
  exact houtside.step_newline hholds

/-! ### Whole texts -/

/-- The scanner at the start of a text is between symbols. -/
theorem initial_between : initial.Between ⟨[], none, none, false⟩ :=
  ⟨⟨rfl, rfl, rfl, rfl, rfl, rfl, rfl, rfl, rfl⟩, rfl, by simp [initial]⟩

/-- The symbols of a text that ends between two symbols are those that have been stored. -/
theorem Between.finish (h : s.Between l) (unit : String)
    (hcomments : ∀ text ∈ l.texts, text.toList.head? ≠ some '-') :
    (s.finish unit).moduleName = l.declaredName.getD unit ∧
      (s.finish unit).compileSequence = l.texts.reverse := by
  have hflush : s.flush = s := flush_of_pending h.pending
  constructor
  · rw [Scanner.finish, hflush, SymbolTable.moduleName, h.declaredName]
  · have hkept : ∀ symbol ∈ s.stored.reverse, (!symbol.isComment) = true := fun symbol hsymbol => by
      have htext : symbol.text ∈ l.texts := by
        rw [← h.texts]
        exact List.mem_map_of_mem (List.mem_reverse.mp hsymbol)
      rw [isComment_eq_false (hcomments _ htext), Bool.not_false]
    rw [Scanner.finish, hflush, SymbolTable.compileSequence, List.filter_eq_self.mpr hkept,
      List.map_reverse, h.texts]

end Scanner

end Smi
