import Smi.Proofs.Symbol.LineComment
import Smi.Proofs.Symbol.Order

/-!
# Line endings

A carriage return in front of a line feed ends a line together with it: what the line feed does
has been done already. Only in a string are both kept. So a text is cut into the same symbols at the
same positions whether its lines end in line feeds or in carriage returns and line feeds.
-/

namespace Smi

namespace Text

/-- A character as it stands in a text whose lines end in a carriage return and a line feed. -/
def returned (c : Char) : List Char :=
  if c = '\n' then ['\r', '\n'] else [c]

/-- Characters with a carriage return in front of each line feed. -/
def crlfChars (cs : List Char) : List Char :=
  cs.flatMap returned

/-- A text with a carriage return in front of each line feed. -/
def crlf (text : String) : String :=
  String.ofList (crlfChars text.toList)

variable {cs : List Char} {c : Char} {text : String}

/-- The characters of a text are given their carriage returns. -/
@[simp] theorem toList_crlf (text : String) : (crlf text).toList = crlfChars text.toList :=
  String.toList_ofList

/-- A character other than a line feed stands alone. -/
theorem returned_of_ne (hc : c ≠ '\n') : returned c = [c] :=
  if_neg hc

/-- No character gets lost. -/
theorem returned_ne_nil (c : Char) : returned c ≠ [] := by
  unfold returned
  split <;> exact List.cons_ne_nil _ _

/-- A first character other than a line feed stays in front. -/
theorem crlfChars_cons_of_ne (hc : c ≠ '\n') (cs : List Char) :
    crlfChars (c :: cs) = c :: crlfChars cs := by
  rw [crlfChars, List.flatMap_cons, returned_of_ne hc]
  rfl

/-- Carriage returns are only added where there are characters. -/
theorem crlfChars_eq_nil_iff : crlfChars cs = [] ↔ cs = [] := by
  rw [crlfChars, List.flatMap_eq_nil_iff]
  exact ⟨fun h => List.eq_nil_iff_forall_not_mem.mpr fun c hc => returned_ne_nil c (h c hc),
    fun h c hc => absurd (h ▸ hc) List.not_mem_nil⟩

/-- Carriage returns neither add nor remove line feeds. -/
theorem mem_crlfChars_iff : '\n' ∈ crlfChars cs ↔ '\n' ∈ cs := by
  rw [crlfChars, List.mem_flatMap]
  constructor
  · rintro ⟨c, hc, hmem⟩
    unfold returned at hmem
    split at hmem
    next heq => exact heq ▸ hc
    next => exact List.mem_singleton.mp hmem ▸ hc
  · exact fun h => ⟨'\n', h, by decide⟩

/-- A carriage return stands in front of a line feed. -/
theorem crlfChars_cons_lineFeed (cs : List Char) :
    crlfChars ('\n' :: cs) = '\r' :: '\n' :: crlfChars cs :=
  rfl

/-- The first character is the same as before, unless it is a carriage return. -/
theorem head?_of_head?_crlfChars (hc : c ≠ '\r') (h : (crlfChars cs).head? = some c) :
    cs.head? = some c := by
  cases cs with
  | nil => cases h
  | cons d rest =>
    by_cases hd : d = '\n'
    · rw [hd, crlfChars_cons_lineFeed] at h
      exact absurd (Option.some.inj h).symm hc
    · rwa [crlfChars_cons_of_ne hd] at h

/-- A text without line feeds stays as it is. -/
theorem crlfChars_of_not_mem (h : '\n' ∉ cs) : crlfChars cs = cs := by
  induction cs with
  | nil => rfl
  | cons c rest ih =>
    rw [List.mem_cons, not_or] at h
    rw [crlfChars_cons_of_ne (Ne.symm h.1), ih h.2]

/-- A text in one line stays as it is. -/
theorem crlf_of_not_mem (h : '\n' ∉ text.toList) : crlf text = text := by
  rw [crlf, crlfChars_of_not_mem h, String.ofList_toList]

/-- No other text becomes a word in one line. -/
theorem crlf_eq_iff (word : String) (hword : '\n' ∉ word.toList) :
    crlf text = word ↔ text = word := by
  refine ⟨fun h => ?_, fun h => h ▸ crlf_of_not_mem (h ▸ hword)⟩
  have htext : '\n' ∉ text.toList := by
    rwa [← h, toList_crlf, mem_crlfChars_iff] at hword
  rwa [crlf_of_not_mem htext] at h

/-- Only an empty text is empty with carriage returns. -/
theorem isEmpty_crlf (text : String) : (crlf text).isEmpty = text.isEmpty := by
  rw [Bool.eq_iff_iff, String.isEmpty_iff, String.isEmpty_iff]
  exact crlf_eq_iff "" (by decide)

/-! ### Trimming -/

/-- Spelling blanks as other blanks keeps apart what trimming cuts off. -/
theorem dropWhile_isBlank_flatMap (spell : Char → List Char)
    (hblank : ∀ c, isBlank c = true → ∀ d ∈ spell c, isBlank d = true)
    (hvisible : ∀ c, isBlank c = false → spell c = [c]) (cs : List Char) :
    (cs.flatMap spell).dropWhile isBlank = (cs.dropWhile isBlank).flatMap spell := by
  induction cs with
  | nil => rfl
  | cons c rest ih =>
    rw [List.flatMap_cons, List.dropWhile_cons]
    cases hc : isBlank c with
    | true => rw [List.dropWhile_append_of_pos (hblank c hc), ih, if_pos rfl]
    | false =>
      rw [hvisible c hc, if_neg Bool.false_ne_true, List.flatMap_cons, hvisible c hc]
      simp [hc]

/-- A blank remains a blank. -/
theorem isBlank_of_mem_returned (hc : isBlank c = true) : ∀ d ∈ returned c, isBlank d = true := by
  intro d hd
  unfold returned at hd
  split at hd
  next =>
    rcases List.mem_pair.mp hd with rfl | rfl
    · decide
    · decide
  next => rwa [List.mem_singleton.mp hd]

/-- A visible character stands alone. -/
theorem returned_of_visible (hc : isBlank c = false) : returned c = [c] :=
  returned_of_ne (by rintro rfl; cases hc)

/-- Carriage returns can be put in before or after blanks are trimmed off. -/
theorem trimChars_crlfChars (cs : List Char) :
    trimChars (crlfChars cs) = crlfChars (trimChars cs) := by
  have hfront := dropWhile_isBlank_flatMap returned (fun c hc => isBlank_of_mem_returned hc)
    (fun c hc => returned_of_visible hc) cs
  have hback := dropWhile_isBlank_flatMap (List.reverse ∘ returned)
    (fun c hc d hd => isBlank_of_mem_returned hc d (List.mem_reverse.mp hd))
    (fun c hc => by rw [Function.comp_apply, returned_of_visible hc]; rfl)
    (cs.dropWhile isBlank).reverse
  rw [trimChars, crlfChars, hfront, List.reverse_flatMap, hback, List.reverse_flatMap]
  simp [trimChars, crlfChars, Function.comp_def]

/-- Carriage returns can be put in before or after a text is trimmed. -/
theorem trim_crlf (text : String) : trim (crlf text) = crlf (trim text) := by
  rw [trim, toList_crlf, trimChars_crlfChars, trim, crlf, String.toList_ofList]

end Text

/-- Carriage returns can be put in before or after two hyphens cut the rest off. -/
theorem beforeHyphens_crlfChars (cs : List Char) :
    beforeHyphens (Text.crlfChars cs) = Text.crlfChars (beforeHyphens cs) := by
  fun_induction beforeHyphens cs with
  | case1 rest => rfl
  | case2 c rest hhyphens ih =>
    by_cases hc : c = '\n'
    · subst hc
      rw [Text.crlfChars_cons_lineFeed, Text.crlfChars_cons_lineFeed, beforeHyphens_cons (by simp),
        beforeHyphens_cons (by simp), ih]
    · have hsingle : ¬(c = '-' ∧ (Text.crlfChars rest).head? = some '-') := by
        rintro ⟨rfl, hhead⟩
        obtain ⟨others, hothers⟩ :=
          List.head?_eq_some_iff.mp (Text.head?_of_head?_crlfChars (by decide) hhead)
        exact hhyphens others rfl hothers
      rw [Text.crlfChars_cons_of_ne hc, beforeHyphens_cons hsingle, ih,
        Text.crlfChars_cons_of_ne hc]
  | case3 => rfl

/-- Keywords stand in one line. -/
theorem not_mem_of_mem_keywordPairs {first second : String} (h : (first, second) ∈ keywordPairs) :
    '\n' ∉ first.toList ∧ '\n' ∉ second.toList := by
  have hwords : ∀ pair ∈ keywordPairs, '\n' ∉ pair.1.toList ∧ '\n' ∉ pair.2.toList := by decide
  exact hwords _ h

/-- A keyword of two words is neither made nor undone. -/
theorem joined?_crlf (first second : String) :
    joined? (Text.crlf first) (Text.crlf second) = joined? first second := by
  by_cases hpair : (first, second) ∈ keywordPairs
  · obtain ⟨hfirst, hsecond⟩ := not_mem_of_mem_keywordPairs hpair
    rw [Text.crlf_of_not_mem hfirst, Text.crlf_of_not_mem hsecond]
  · rw [joined?_eq_none_iff.mpr hpair, joined?_eq_none_iff]
    intro hmem
    obtain ⟨hfirst, hsecond⟩ := not_mem_of_mem_keywordPairs hmem
    rw [← (Text.crlf_eq_iff _ hfirst).mp rfl, ← (Text.crlf_eq_iff _ hsecond).mp rfl] at hmem
    exact hpair hmem

/-- The symbol as it stands in a text whose lines end in a carriage return and a line feed. -/
def Symbol.crlf (symbol : Symbol) : Symbol :=
  { symbol with text := Text.crlf symbol.text }

namespace Scanner

variable {s : Scanner} {c : Char}

/-- The scanner that has read carriage returns in front of all line feeds. -/
def crlf (s : Scanner) : Scanner :=
  { s with
    stored := s.stored.map Symbol.crlf
    declaredName := s.declaredName.map Text.crlf
    pending := (Text.crlfChars s.pending.reverse).reverse }

/-- The symbol before in the same line is the same with carriage returns. -/
theorem neighbour_crlf (s : Scanner) :
    s.crlf.neighbour?.map Symbol.text = (s.neighbour?.map Symbol.text).map Text.crlf := by
  have hhead : s.crlf.stored.head? = s.stored.head?.map Symbol.crlf := List.head?_map
  rw [neighbour?, neighbour?, hhead]
  cases s.stored.head? with
  | none => rfl
  | some symbol =>
    rw [Option.map_some, Option.filter_some, Option.filter_some]
    change Option.map Symbol.text (if symbol.position.row == s.start.row then _ else _) = _
    split <;> rfl

/-- A symbol is stored in the same way with carriage returns. -/
theorem store_crlf (s : Scanner) (text : String) :
    s.crlf.store (Text.crlf text) = (s.store text).crlf := by
  have hjoined : ((s.crlf.neighbour?.map Symbol.text).bind fun first =>
      joined? first (Text.crlf text)) =
        (s.neighbour?.map Symbol.text).bind fun first => joined? first text := by
    rw [neighbour_crlf, Option.bind_map]
    exact congrArg _ (funext fun first => joined?_crlf first text)
  have hassign : s.crlf.neighbour?.map Symbol.text = some "::=" ↔
      s.neighbour?.map Symbol.text = some "::=" := by
    rw [neighbour_crlf]
    cases s.neighbour?.map Symbol.text with
    | none => exact Iff.rfl
    | some first => simp [Text.crlf_eq_iff "::=" (by decide)]
  unfold store
  simp only [hjoined, ne_eq, hassign, Text.crlf_eq_iff "DEFINITIONS" (by decide),
    Text.crlf_eq_iff "\x7b" (by decide), Text.crlf_eq_iff "::=" (by decide)]
  split
  next whole hwhole =>
    obtain ⟨first, -, hwhole⟩ := Option.bind_eq_some_iff.mp hwhole
    have hkeyword : Text.crlf whole = whole := Text.crlf_of_not_mem (not_mem_of_joined? hwhole)
    cases hstored : s.stored with
    | nil => simp [crlf, hstored]
    | cons symbol rest => simp [crlf, hstored, Symbol.crlf, hkeyword]
  next =>
    have hname : (s.crlf.neighbour?.map Symbol.text <|> s.declaredName.map Text.crlf) =
        (s.neighbour?.map Symbol.text <|> s.declaredName).map Text.crlf := by
      rw [neighbour_crlf]
      cases s.neighbour? <;> rfl
    simp only [crlf, Symbol.crlf, List.map_cons, apply_ite (Option.map Text.crlf), ← hname]

/-- A symbol is pending with carriage returns if one is without them. -/
theorem isEmpty_pending_crlf (s : Scanner) : s.crlf.pending.isEmpty = s.pending.isEmpty := by
  rw [Bool.eq_iff_iff, List.isEmpty_iff, List.isEmpty_iff, crlf, List.reverse_eq_nil_iff,
    Text.crlfChars_eq_nil_iff, List.reverse_eq_nil_iff]

/-- The pending symbol is ended in the same way with carriage returns. -/
theorem flush_crlf (s : Scanner) : s.crlf.flush = s.flush.crlf := by
  have htext : Text.trim (String.ofList s.crlf.pending.reverse) =
      Text.crlf (Text.trim (String.ofList s.pending.reverse)) := by
    have hpending : String.ofList s.crlf.pending.reverse =
        Text.crlf (String.ofList s.pending.reverse) := by
      simp [crlf, Text.crlf]
    rw [hpending, Text.trim_crlf]
  unfold flush
  dsimp only
  rw [isEmpty_pending_crlf, htext, Text.isEmpty_crlf]
  split
  · rfl
  · split
    · rfl
    · exact store_crlf { s with pending := [], afterAssign := false } _

/-- A character is taken in in the same way behind carriage returns. -/
theorem append_crlf (hc : c ≠ '\n') (s : Scanner) : s.crlf.append c = (s.append c).crlf := by
  have hpending : (s.append c).crlf.pending = c :: s.crlf.pending := by
    simp [append, crlf, Text.crlfChars, Text.returned_of_ne hc]
  rw [append, isEmpty_pending_crlf, ← hpending]
  rfl

/-- A character becomes a symbol of its own in the same way behind carriage returns. -/
theorem alone_crlf (hc : c ≠ '\n') (s : Scanner) : s.crlf.alone c = (s.alone c).crlf := by
  rw [alone, flush_crlf, append_crlf hc, flush_crlf]
  rfl

/-- A comment is opened in the same way behind carriage returns. -/
theorem openComment_crlf (s : Scanner) : s.crlf.openComment = s.openComment.crlf := by
  have hcut : { s.crlf with
      mode := s.mode.openComment
      pending := (beforeHyphens s.crlf.pending.reverse).reverse } =
      crlf { s with
        mode := s.mode.openComment
        pending := (beforeHyphens s.pending.reverse).reverse } := by
    simp only [crlf, List.reverse_reverse, beforeHyphens_crlfChars]
  have hflush := congrArg flush hcut
  rw [flush_crlf] at hflush
  exact congrArg (fun t => { t with
    pending := ['-', '-']
    start := ⟨t.position.row, t.position.column - 1⟩ }) hflush

/-! ### Reading -/

/-- A double quote is read in the same way behind carriage returns. -/
theorem readQuote_crlf (s : Scanner) : s.crlf.readQuote = s.readQuote.crlf := by
  have hne : '"' ≠ '\n' := by decide
  have hmode : s.crlf.mode = s.mode := rfl
  unfold readQuote
  rw [hmode]
  split
  · rw [flush_crlf]
    exact append_crlf hne { s.flush with mode := .string }
  · exact (congrArg flush (append_crlf hne { s with mode := .plain })).trans (flush_crlf _)
  · exact append_crlf hne { s with mode := .quotation }
  · exact append_crlf hne { s with mode := .comment }
  · rw [append_crlf hne, flush_crlf]

/-- A character other than a line feed is read in the same way behind carriage returns. -/
theorem read_crlf (hc : c ≠ '\n') (s : Scanner) : s.crlf.read c = (s.read c).crlf := by
  have hkeeps (s : Scanner) : s.crlf.keepsDelimiters = s.keepsDelimiters := rfl
  have hcount : s.crlf.count c = (s.count c).crlf := rfl
  have hmode : s.crlf.mode = s.mode := rfl
  cases readKind c with
  | space _ hread =>
    rw [hread, hread, readSpace, readSpace, hkeeps, append_crlf hc, flush_crlf, apply_ite crlf]
  | opening _ hread =>
    rw [hread, hread, hcount, hkeeps, append_crlf hc, alone_crlf hc, apply_ite crlf]
  | closing _ hread => rw [hread, hread, hcount, append_crlf hc]
  | separator _ hread =>
    rw [hread, hread, readSeparator, readSeparator, hmode, append_crlf hc, alone_crlf hc,
      apply_ite crlf]
  | lineEnd _ hread =>
    rw [hread, hread, readLineEnd, readLineEnd, hmode, append_crlf hc, flush_crlf, apply_ite crlf]
    rfl
  | hyphen _ hread =>
    have hprevious : s.crlf.previous = s.previous := rfl
    rw [hread, hread, readHyphen, readHyphen, hmode, hprevious, append_crlf (by decide),
      openComment_crlf, apply_ite crlf]
  | quote _ hread => rw [hread, hread, readQuote_crlf]
  | plain _ _ hread => rw [hread, hread, append_crlf hc]

/-- A scanner goes on in the same way behind carriage returns. -/
theorem step_crlf_of_ne (hc : c ≠ '\n') (s : Scanner) : s.crlf.step c = (s.step c).crlf := by
  rw [step, read_crlf hc]
  rfl

/-- In a string, the end of a line is taken in like any other character. -/
theorem step_lineEnd_of_string (hc : c = '\n' ∨ c = '\r') (hmode : s.mode = .string) :
    s.step c = { s.append c with previous := some c, position := s.position.after c } := by
  rcases hc with rfl | rfl <;> simp [step, read, readLineEnd, hmode, append]

/-- Outside strings, the end of a line ends the pending symbol. -/
theorem step_lineEnd_of_ne_string (hc : c = '\n' ∨ c = '\r') (hmode : s.mode ≠ .string) :
    s.step c = { s.flush with
      mode := s.mode.endLine
      rounds := 0
      previous := some c
      position := s.position.after c } := by
  rcases hc with rfl | rfl <;> simp [step, read, readLineEnd, hmode, flush_mode, flush_position]

/-- Behind a carriage return a line feed only begins the next line, or is kept in a string. -/
theorem step_crlf_lineFeed (s : Scanner) :
    (s.crlf.step '\r').step '\n' = (s.step '\n').crlf := by
  by_cases hmode : s.mode = .string
  · have hfirst := step_lineEnd_of_string (s := s.crlf) (.inr rfl) hmode
    have hmode' : (s.crlf.step '\r').mode = .string := by
      rw [hfirst]
      exact hmode
    have hpending : (s.append '\n').crlf.pending = '\n' :: '\r' :: s.crlf.pending := by
      simp [append, crlf, Text.crlfChars, Text.returned]
    rw [step_lineEnd_of_string (.inl rfl) hmode', step_lineEnd_of_string (.inl rfl) hmode, hfirst,
      append, append, List.isEmpty_cons, if_neg Bool.false_ne_true, isEmpty_pending_crlf,
      ← hpending]
    rfl
  · have hfirst := step_lineEnd_of_ne_string (s := s.crlf) (.inr rfl) hmode
    have hpending : (s.crlf.step '\r').pending = [] := by
      rw [hfirst]
      exact flush_pending _
    have hmode' : (s.crlf.step '\r').mode = s.mode.endLine := by rw [hfirst]; rfl
    have hended : s.mode.endLine ≠ .string ∧ s.mode.endLine.endLine = s.mode.endLine := by
      cases h : s.mode <;> simp_all [Mode.endLine]
    rw [step_lineEnd_of_ne_string (.inl rfl) (hmode' ▸ hended.1), flush_of_pending hpending,
      step_lineEnd_of_ne_string (.inl rfl) hmode, hmode', hended.2, hfirst, flush_crlf]
    rfl

/-- A scanner reads characters with carriage returns as it reads them without. -/
theorem foldl_step_crlf (s : Scanner) (cs : List Char) :
    (Text.crlfChars cs).foldl step s.crlf = (cs.foldl step s).crlf := by
  induction cs generalizing s with
  | nil => rfl
  | cons c rest ih =>
    by_cases hc : c = '\n'
    · rw [hc, Text.crlfChars_cons_lineFeed, List.foldl_cons, List.foldl_cons, step_crlf_lineFeed,
        ih, List.foldl_cons]
    · rw [Text.crlfChars_cons_of_ne hc, List.foldl_cons, step_crlf_of_ne hc, ih, List.foldl_cons]

end Scanner

namespace SymbolTable

/-- Symbols that stay in their lines stay in their groups. -/
theorem rows_map {table other : SymbolTable} {f : Symbol → Symbol}
    (hf : ∀ symbol, (f symbol).position = symbol.position)
    (h : other.symbols = table.symbols.map f) : other.rows = table.rows.map (List.map f) := by
  obtain ⟨hflatten, hnil, hlines, hborders⟩ := List.splitBy_eq_iff.mp (Eq.refl table.rows)
  rw [rows, h, List.splitBy_eq_iff]
  refine ⟨?_, ?_, ?_, ?_⟩
  · rw [← List.map_flatten, ← hflatten]
  · simpa using hnil
  · intro row hrow
    obtain ⟨line, hline, rfl⟩ := List.mem_map.mp hrow
    refine (List.isChain_map f).mpr ((hlines line hline).imp fun a b hab => ?_)
    rwa [hf, hf]
  · refine (List.isChain_map _).mpr (hborders.imp fun above below hneighbours => ?_)
    obtain ⟨hlast, hfirst, hborder⟩ := hneighbours
    refine ⟨by simpa using hlast, by simpa using hfirst, ?_⟩
    rwa [List.getLast_map, List.head_map, hf, hf]

/-- With carriage returns in front of its line feeds a text has the same symbols at the same places
and the same declared name. Only the line feeds within symbols have carriage returns in front of
them, too. -/
theorem ofText_crlf (unit text : String) :
    (ofText unit (Text.crlf text)).unit = (ofText unit text).unit ∧
      (ofText unit (Text.crlf text)).declaredName = (ofText unit text).declaredName ∧
      (ofText unit (Text.crlf text)).symbols = (ofText unit text).symbols.map Symbol.crlf ∧
      (ofText unit (Text.crlf text)).rows = (ofText unit text).rows.map (List.map Symbol.crlf) := by
  have htable (text : String) : ofText unit text =
      ⟨unit, (text.toList.foldl Scanner.step .initial).flush.declaredName,
        (text.toList.foldl Scanner.step .initial).flush.stored.reverse⟩ := rfl
  have hscanned : ((Text.crlf text).toList.foldl Scanner.step .initial).flush =
      (text.toList.foldl Scanner.step .initial).flush.crlf := by
    have hread := Scanner.foldl_step_crlf .initial text.toList
    rw [Text.toList_crlf, ← Scanner.flush_crlf, ← hread]
    rfl
  have hsymbols : (ofText unit (Text.crlf text)).symbols =
      (ofText unit text).symbols.map Symbol.crlf := by
    rw [htable, htable, hscanned]
    exact List.map_reverse.symm
  refine ⟨by rw [htable, htable], ?_, hsymbols, rows_map (fun _ => rfl) hsymbols⟩
  have hlines := (Scanner.initial_arranged.foldl text.toList).inOrder.flush.declaredName
  rw [htable, htable, hscanned]
  generalize (text.toList.foldl Scanner.step .initial).flush = s at hlines
  change s.declaredName.map Text.crlf = s.declaredName
  cases hname : s.declaredName with
  | none => rfl
  | some name => exact congrArg some (Text.crlf_of_not_mem (hlines name hname))

/-- Line ends stay in strings and end everything else. -/
example : (ofText "unit" (Text.crlf "x \"a\nb\"\ny")).rows =
    [[⟨"x", ⟨0, 0⟩⟩, ⟨"\"a\r\nb\"", ⟨0, 2⟩⟩], [⟨"y", ⟨2, 0⟩⟩]] := by
  decide +kernel

end SymbolTable

end Smi
