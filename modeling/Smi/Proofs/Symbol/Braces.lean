import Smi.Proofs.Symbol.Word

/-!
# Scanning between braces

A list in braces is cut into symbols at its commas and line breaks, and at its spaces only if its
opening brace stands alone. What a scan has cut is followed here from one word, gap or bracket to
the next, for texts that open at most one brace and hold neither strings nor comments.
-/

namespace Smi

/-- What a scan has cut from a text that holds neither strings nor comments. -/
structure Cut where
  /-- The texts of the symbols, the newest first. -/
  texts : List String
  /-- The characters of the pending symbol behind the blanks in front of it. -/
  held : List Char
  /-- A brace is open. -/
  braced : Bool
  /-- The brace is that of a list: it stands alone as a symbol. -/
  listed : Bool

/-- Whether characters are blanks between words. -/
def IsGap (cs : List Char) : Prop :=
  ∀ c ∈ cs, c = ' ' ∨ c = '\t' ∨ c = '\n'

instance (cs : List Char) : Decidable (IsGap cs) :=
  decidable_of_iff (cs.all fun c => c = ' ' || c = '\t' || c = '\n') (by simp [IsGap, or_assoc])

/-- No blanks at all are a gap. -/
theorem isGap_nil : IsGap [] :=
  List.forall_mem_nil _

/-- Whether a first character is the start of a symbol that is neither a comment nor `::=`. -/
def StartsPlain (cs : List Char) : Prop :=
  ∀ c ∈ cs.head?, Text.isBlank c = false ∧ c ≠ '-' ∧ c ≠ ':'

/-- No characters at all start plainly. -/
theorem startsPlain_nil : StartsPlain [] :=
  fun _ h => nomatch h

/-- Characters start plainly if those in front do. -/
theorem StartsPlain.append {cs : List Char} (h : StartsPlain cs) (hne : cs ≠ [])
    (rest : List Char) : StartsPlain (cs ++ rest) := by
  obtain ⟨c, others, rfl⟩ := List.exists_cons_of_ne_nil hne
  exact h

instance (cs : List Char) : Decidable (StartsPlain cs) :=
  decidable_of_iff (cs.head?.all fun c => !Text.isBlank c && c ≠ '-' && c ≠ ':')
    (by cases cs <;> simp [StartsPlain, and_assoc])

/-- An identifier begins with a letter. -/
theorem IsIdentifier.startsPlain {text : String} (h : IsIdentifier Char.isAlpha text) :
    StartsPlain text.toList := by
  intro c hc
  refine ⟨h.isBlank_eq_false (List.mem_of_mem_head? hc), ?_, ?_⟩
  · rintro rfl
    exact h.head?_ne (by decide) hc
  · rintro rfl
    exact h.head?_ne (by decide) hc

/-- An identifier ends visibly, and not with a brace. -/
theorem IsIdentifier.getLast?_visible {text : String} (h : IsIdentifier Char.isAlpha text) :
    ∀ c ∈ text.toList.getLast?, Text.isBlank c = false ∧ c ≠ '{' := by
  intro c hc
  have hmem := List.mem_of_mem_getLast? hc
  refine ⟨h.isBlank_eq_false hmem, ?_⟩
  rintro rfl
  exact h.not_mem (by decide) (by decide) hmem

/-- A gap consists of blanks. -/
theorem IsGap.isBlank {cs : List Char} (h : IsGap cs) : ∀ c ∈ cs, Text.isBlank c = true :=
  fun c hc => by rcases h c hc with rfl | rfl | rfl <;> decide

namespace Cut

/-- The text of the pending symbol. -/
def text (b : Cut) : String :=
  Text.trim (String.ofList b.held)

/-- Whether the pending symbol completes no keyword with the symbol before it. -/
def Apart (b : Cut) : Prop :=
  ∀ last ∈ b.texts.head?, joined? last b.text = none

/-- Store the pending symbol. -/
def flush (b : Cut) : Cut :=
  { b with
    texts := if b.held = [] then b.texts else b.text :: b.texts
    held := []
    listed := b.listed || b.text = "\x7b" }

/-- Whether spaces and tabs belong to the pending symbol. -/
def keeps (b : Cut) : Bool :=
  b.braced && !b.listed

/-- Whether a gap ends the pending symbol. -/
def Breaks (b : Cut) (blanks : List Char) : Prop :=
  '\n' ∈ blanks ∨ b.keeps = false ∧ blanks ≠ []

instance (b : Cut) (blanks : List Char) : Decidable (b.Breaks blanks) :=
  inferInstanceAs (Decidable (_ ∨ _))

/-- Read blanks that belong to the pending symbol. -/
def keep (b : Cut) (blanks : List Char) : Cut :=
  { b with held := if b.held = [] then [] else b.held ++ blanks }

/-- Read a gap. It ends the pending symbol or belongs to it. -/
def gap (b : Cut) (blanks : List Char) : Cut :=
  if b.Breaks blanks then b.flush else b.keep blanks

/-- Read characters that belong to the pending symbol. -/
def take (b : Cut) (cs : List Char) : Cut :=
  { b with held := b.held ++ cs }

/-- Read a comma, which is a symbol of its own. -/
def comma (b : Cut) : Cut :=
  { b.flush with texts := "," :: b.flush.texts }

/-- Read an opening brace. -/
def opened (b : Cut) : Cut :=
  { b.take ['{'] with braced := true }

/-- Read a closing brace. -/
def closed (b : Cut) : Cut :=
  { b.take ['}'] with braced := false, listed := false }

variable {b : Cut} {cs blanks : List Char}

/-- A pending symbol completes no keyword if its text is no second half of one. -/
theorem apart_of_text (h : b.text ∉ secondHalves) : b.Apart :=
  fun _ _ => joined?_eq_none h

/-- Without a pending symbol the text is empty. -/
theorem text_of_held (h : b.held = []) : b.text = "" := by
  rw [text, h]
  rfl

/-- No keyword is completed without a pending symbol. -/
theorem apart_of_held (h : b.held = []) : b.Apart :=
  apart_of_text (by rw [text_of_held h]; decide)

/-- The pending symbol begins like its text. -/
theorem toList_text (hplain : StartsPlain b.held) (hheld : b.held ≠ []) :
    b.text ≠ "" ∧ b.text.toList.head? = b.held.head? := by
  obtain ⟨c, rest, hchars⟩ := List.exists_cons_of_ne_nil hheld
  have hvisible : Text.isBlank c = false := (hplain c (by simp [hchars])).1
  have hfirst : ∀ d ∈ [c], Text.isBlank d = false := List.forall_mem_singleton.mpr hvisible
  obtain ⟨kept, hkept⟩ := Text.exists_trimChars_append rest
    (fun d hd => hfirst d (List.mem_of_mem_head? hd))
    (fun d hd => hfirst d (List.mem_of_mem_getLast? hd)) (List.cons_ne_nil _ _)
  have htext : b.text.toList = c :: kept := by
    rw [text, Text.trim, String.toList_ofList, String.toList_ofList, hchars]
    exact hkept
  exact ⟨fun hempty => by simp [hempty] at htext, by rw [htext, hchars]; rfl⟩

/-- An empty gap changes nothing. -/
theorem gap_nil (b : Cut) : b.gap [] = b := by
  obtain ⟨texts, held, braced, listed⟩ := b
  cases held <;> simp [gap, Breaks, keep]

/-- Blanks are not kept in front of a symbol. -/
theorem keep_of_held (h : b.held = []) (blanks : List Char) : b.keep blanks = b := by
  obtain ⟨texts, held, braced, listed⟩ := b
  obtain rfl : held = [] := h
  rfl

/-- A gap in front of a symbol changes nothing. -/
theorem gap_of_held (h : b.held = []) (blanks : List Char) : b.gap blanks = b := by
  rw [gap, keep_of_held h, flush, text_of_held h, if_pos h, ← h]
  simp

/-- Blanks behind the pending symbol are no part of its text. -/
theorem text_keep (hblanks : IsGap blanks) : (b.keep blanks).text = b.text := by
  by_cases hheld : b.held = []
  · simp [text, keep, hheld]
  · simp only [text, keep, if_neg hheld, Text.trim, String.toList_ofList,
      Text.trimChars_append_blanks hblanks.isBlank]

/-- Blanks behind the pending symbol are lost when it is stored. -/
theorem flush_keep (hblanks : IsGap blanks) : (b.keep blanks).flush = b.flush := by
  rw [flush, flush, text_keep hblanks]
  by_cases hheld : b.held = [] <;> simp [keep, hheld]

/-- Blanks can be kept in two parts. -/
theorem keep_keep (b : Cut) (first rest : List Char) :
    (b.keep first).keep rest = b.keep (first ++ rest) := by
  by_cases hheld : b.held = [] <;> simp [keep, hheld]

/-- Blanks that are kept complete no keyword. -/
theorem apart_keep (h : b.Apart) (hblanks : IsGap blanks) : (b.keep blanks).Apart := by
  rw [Apart, text_keep hblanks]
  exact h

/-- A gap is read blank by blank as long as it belongs to the pending symbol. -/
theorem gap_keep (hkeeps : b.keeps = true) (hblanks : IsGap blanks) (hline : '\n' ∉ blanks)
    (rest : List Char) : (b.keep blanks).gap rest = b.gap (blanks ++ rest) := by
  have hsame : (b.keep blanks).keeps = true := hkeeps
  have hbreaks : (b.keep blanks).Breaks rest ↔ b.Breaks (blanks ++ rest) := by
    simp [Breaks, hsame, hkeeps, hline]
  simp only [gap, flush_keep hblanks, keep_keep, hbreaks]

/-- A comma behind a stored symbol is pending alone. -/
theorem text_take_comma (b : Cut) : (b.flush.take [',']).text = "," := by
  have hheld : (b.flush.take [',']).held = [','] := rfl
  rw [text, hheld]
  decide

/-- A comma that is stored is a symbol of its own. -/
theorem flush_take_comma (b : Cut) : (b.flush.take [',']).flush = b.comma := by
  rw [flush, text_take_comma]
  simp [comma, take, flush]

end Cut

namespace Scanner

variable {s : Scanner} {b : Cut} {c : Char} {cs blanks : List Char}

/-- Whether a scanner has cut what is said, outside strings, comments and clauses. -/
structure Within (s : Scanner) (b : Cut) : Prop where
  mode : s.mode = .plain
  depth : s.depth = if b.braced then 1 else 0
  rounds : s.rounds = 0
  inClause : s.inClause = false
  afterAssign : s.afterAssign = false
  inList : s.inList = b.listed
  texts : s.stored.map Symbol.text = b.texts
  texts_plain : ∀ text ∈ b.texts, text ≠ "" ∧ StartsPlain text.toList
  pending : ∃ lead, (∀ c ∈ lead, Text.isBlank c = true) ∧ s.pending = (lead ++ b.held).reverse
  held_plain : StartsPlain b.held

/-- The scanner at the start of a text has cut nothing. -/
theorem initial_within : initial.Within ⟨[], [], false, false⟩ :=
  ⟨rfl, rfl, rfl, rfl, rfl, rfl, rfl, List.forall_mem_nil _, ⟨[], List.forall_mem_nil _, rfl⟩,
    startsPlain_nil⟩

/-- Blanks in front of the pending symbol are no part of its text. -/
theorem trim_pending {lead held : List Char} (hlead : ∀ c ∈ lead, Text.isBlank c = true) :
    Text.trim (String.ofList (lead ++ held)) = Text.trim (String.ofList held) := by
  simp only [Text.trim, Text.trimChars, String.toList_ofList, List.dropWhile_append_of_pos hlead]

/-- Storing a symbol behind one that neither joins it nor is `::=`. -/
theorem store_apart {text : String}
    (hjoined : ∀ last ∈ s.stored.head?, joined? last.text text = none)
    (hassign : ∀ last ∈ s.stored.head?, last.text ≠ "::=") : ∃ declaredName,
      s.store text = { s with
        stored := ⟨text, s.start⟩ :: s.stored
        declaredName := declaredName
        inList := s.inList || text = "\x7b"
        afterAssign := s.afterAssign || text = "::=" } := by
  have hneighbour {last : String} (h : s.neighbour?.map Symbol.text = some last) :
      ∃ symbol ∈ s.stored.head?, symbol.text = last := by
    obtain ⟨symbol, hsymbol, rfl⟩ := Option.map_eq_some_iff.mp h
    exact ⟨symbol, (Option.filter_eq_some_iff.mp hsymbol).1, rfl⟩
  have hnone : (s.neighbour?.map Symbol.text).bind (fun first => joined? first text) = none := by
    refine Option.bind_eq_none_iff.mpr fun last hlast => ?_
    obtain ⟨symbol, hsymbol, rfl⟩ := hneighbour hlast
    exact hjoined symbol hsymbol
  have hne : s.neighbour?.map Symbol.text ≠ some "::=" := fun hlast => by
    obtain ⟨symbol, hsymbol, htext⟩ := hneighbour hlast
    exact hassign symbol hsymbol htext
  rw [store, hnone, decide_eq_true hne, Bool.and_true]
  exact ⟨_, rfl⟩

/-- Ending the pending symbol. -/
theorem Within.flush (h : s.Within b) (hapart : b.Apart) : s.flush.Within b.flush := by
  obtain ⟨lead, hlead, hpending⟩ := h.pending
  have htrim : Text.trim (String.ofList s.pending.reverse) = b.text := by
    rw [hpending, List.reverse_reverse, trim_pending hlead, Cut.text]
  by_cases hheld : b.held = []
  · have hflush : s.flush = { s with pending := [] } := by
      rw [Scanner.flush, htrim, Cut.text_of_held hheld]
      split
      next hempty => rw [← List.isEmpty_iff.mp hempty]
      next => simp [← h.afterAssign]
    have hcut : b.flush = { b with held := [] } := by
      simp [Cut.flush, hheld, Cut.text_of_held hheld]
    rw [hflush, hcut]
    exact ⟨h.mode, h.depth, h.rounds, h.inClause, h.afterAssign, h.inList, h.texts, h.texts_plain,
      ⟨[], List.forall_mem_nil _, rfl⟩, startsPlain_nil⟩
  · obtain ⟨hne, hhead⟩ := Cut.toList_text h.held_plain hheld
    have hplain : StartsPlain b.text.toList := by
      rw [StartsPlain, hhead]
      exact h.held_plain
    have hassign {text : String} (h : StartsPlain text.toList) : text ≠ "::=" := by
      rintro rfl
      exact (h ':' rfl).2.2 rfl
    have hlast (last : Symbol) (hlast : last ∈ s.stored.head?) : last.text ∈ b.texts.head? := by
      rw [← h.texts, List.head?_map, hlast]
      rfl
    have hjoined (last : Symbol) (hmem : last ∈ s.stored.head?) : joined? last.text b.text = none :=
      hapart _ (hlast last hmem)
    have hbehind (last : Symbol) (hmem : last ∈ s.stored.head?) : last.text ≠ "::=" :=
      hassign (h.texts_plain _ (List.mem_of_mem_head? (hlast last hmem))).2
    obtain ⟨declaredName, hstore⟩ :=
      store_apart (s := { s with pending := [], afterAssign := false }) hjoined hbehind
    rw [Gathers.flush_eq ⟨htrim, by simpa using hne⟩, hstore]
    refine ⟨h.mode, h.depth, h.rounds, h.inClause, ?_, ?_, ?_, ?_,
      ⟨[], List.forall_mem_nil _, rfl⟩, startsPlain_nil⟩
    · simp [hassign hplain]
    · simp [Cut.flush, h.inList]
    · simp [Cut.flush, hheld, h.texts]
    · rw [Cut.flush, if_neg hheld]
      exact List.forall_mem_cons.mpr ⟨⟨hne, hplain⟩, h.texts_plain⟩

/-! ### Gaps and words -/

/-- A scanner keeps delimiters where blanks belong to the pending symbol. -/
theorem Within.keepsDelimiters (h : s.Within b) : s.keepsDelimiters = b.keeps := by
  have hdepth := h.depth
  cases hbraced : b.braced <;>
    simp_all [Scanner.keepsDelimiters, Cut.keeps, Mode.isVerbatim, h.mode, h.inClause, h.rounds,
      h.inList]

/-- A blank that ends the pending symbol. -/
theorem Within.step_break (h : s.Within b) (hapart : b.Apart)
    (hc : c = '\n' ∨ (c = ' ' ∨ c = '\t') ∧ s.keepsDelimiters = false) :
    (s.step c).Within b.flush := by
  have hflush := h.flush hapart
  have hstep : s.step c = { s.flush with
      previous := some c
      position := s.flush.position.after c
      rounds := 0 } := by
    have hrounds := hflush.rounds
    rcases hc with rfl | ⟨rfl | rfl, hkeeps⟩
    · simp [step, read, readLineEnd, h.mode, hflush.mode, Mode.endLine]
    · simp [step, read, readSpace, hkeeps, ← hrounds]
    · simp [step, read, readSpace, hkeeps, ← hrounds]
  rw [hstep]
  exact { hflush with rounds := rfl }

/-- A blank that belongs to the pending symbol. -/
theorem Within.step_keep (h : s.Within b) (hkeeps : s.keepsDelimiters = true)
    (hc : c = ' ' ∨ c = '\t') :
    (s.step c).Within (b.keep [c]) := by
  have htakes : s.Takes c := .inr (.inr ⟨hc, hkeeps⟩)
  have hblank : Text.isBlank c = true := by rcases hc with rfl | rfl <;> decide
  obtain ⟨lead, hlead, hpending⟩ := h.pending
  rw [htakes.step_eq]
  by_cases hheld : b.held = []
  · rw [Cut.keep_of_held hheld]
    refine { h with pending := ⟨lead ++ [c], ?_, by simp [gather, hpending, hheld]⟩ }
    simpa [or_imp, forall_and, hblank] using hlead
  · have hcut : b.keep [c] = b.take [c] := by rw [Cut.keep, if_neg hheld, Cut.take]
    rw [hcut]
    exact { h with
      pending := ⟨lead, hlead, by simp [gather, hpending, Cut.take]⟩
      held_plain := h.held_plain.append hheld _ }

/-- A gap ends the pending symbol or belongs to it. -/
theorem Within.gap (h : s.Within b) (hapart : b.Apart) (hblanks : IsGap blanks) :
    (blanks.foldl step s).Within (b.gap blanks) := by
  induction blanks generalizing s b with
  | nil => rwa [Cut.gap_nil]
  | cons c rest ih =>
    obtain ⟨hc, hrest⟩ := List.forall_mem_cons.mp hblanks
    rw [List.foldl_cons]
    by_cases hbreaks : c = '\n' ∨ b.keeps = false
    · have hstep : (s.step c).Within b.flush := by
        refine h.step_break hapart ?_
        rw [h.keepsDelimiters]
        tauto
      have hcut : b.flush.gap rest = b.gap (c :: rest) := by
        rw [Cut.gap_of_held rfl, Cut.gap, if_pos]
        rcases hbreaks with rfl | hkeeps
        · exact .inl List.mem_cons_self
        · exact .inr ⟨hkeeps, List.cons_ne_nil _ _⟩
      rw [← hcut]
      exact ih hstep (Cut.apart_of_held rfl) hrest
    · obtain ⟨hline, hkeeps⟩ := not_or.mp hbreaks
      have hkeeps : b.keeps = true := by simpa using hkeeps
      have hstep := h.step_keep (by rw [h.keepsDelimiters, hkeeps]) (by tauto)
      have hblank : IsGap [c] := List.forall_mem_singleton.mpr hc
      have hcut : (b.keep [c]).gap rest = b.gap (c :: rest) :=
        Cut.gap_keep hkeeps hblank (by simpa using Ne.symm hline) rest
      rw [← hcut]
      exact ih hstep (Cut.apart_keep hapart hblank) hrest

/-- The pending symbol still starts plainly with more characters behind it. -/
theorem startsPlain_held_append (h : s.Within b) (hcs : StartsPlain cs) :
    StartsPlain (b.held ++ cs) := by
  by_cases hheld : b.held = []
  · rwa [hheld, List.nil_append]
  · exact h.held_plain.append hheld _

/-- Characters are taken into the pending symbol. -/
theorem Within.take (h : s.Within b) (hcs : StartsPlain cs) (start position : Position)
    (previous : Option Char) : { s with
      pending := cs.reverse ++ s.pending
      start := start
      position := position
      previous := previous }.Within (b.take cs) := by
  obtain ⟨lead, hlead, hpending⟩ := h.pending
  exact { h with
    pending := ⟨lead, hlead, by simp [hpending, Cut.take]⟩
    held_plain := startsPlain_held_append h hcs }

/-- A word belongs to the pending symbol. -/
theorem Within.word (h : s.Within b) {text : String} (hword : IsWord text)
    (hplain : StartsPlain text.toList) :
    (text.toList.foldl step s).Within (b.take text.toList) := by
  have hhyphens : SingleHyphens (s.previous.toList ++ text.toList) := by
    refine SingleHyphens.append ?_ hword.hyphens fun hhead => (hplain _ hhead).2.1 rfl
    cases s.previous with
    | none => exact List.isChain_nil
    | some c => exact List.isChain_singleton c
  rw [foldl_step_eq_gather (fun c hc => (hword.characters c hc).imp_right .inl) hhyphens]
  exact h.take hplain _ _ _

/-- Where a scanner goes on is of no importance for what it has cut. -/
theorem Within.moved (h : s.Within b) (position : Position) (previous : Option Char) :
    { s with position := position, previous := previous }.Within b :=
  { h with }

/-- A comma ends the pending symbol and is one itself. -/
theorem Within.comma (h : s.Within b) (hapart : b.Apart) : (s.step ',').Within b.comma := by
  have hflush := h.flush hapart
  have htaken : (s.flush.append ',').Within (b.flush.take [',']) :=
    hflush.take (show StartsPlain [','] by decide) _ _ _
  have hcomma := htaken.flush (Cut.apart_of_text (by rw [Cut.text_take_comma]; decide))
  have hstep : s.step ',' = { (s.flush.append ',').flush with
      previous := some ','
      position := (s.flush.append ',').flush.position.after ',' } := by
    simp [step, read, readSeparator, h.mode, Mode.isVerbatim, alone]
  rw [Cut.flush_take_comma] at hcomma
  rw [hstep]
  exact hcomma.moved _ _

/-! ### Brackets -/

/-- An opening brace begins a symbol. -/
theorem Within.opened (h : s.Within b) (hbraced : b.braced = false) (hlisted : b.listed = false) :
    (s.step '{').Within b.opened := by
  have hdepth : s.depth = 0 := by rw [h.depth, hbraced]; rfl
  have hlist : s.inList = false := by rw [h.inList, hlisted]
  have hstep : s.step '{' = { s.append '{' with
      depth := 1
      previous := some '{'
      position := s.position.after '{' } := by
    simp [step, read, readOpening, Scanner.keepsDelimiters, append, hdepth, hlist,
      h.inClause, h.afterAssign]
  have htaken : (s.append '{').Within (b.take ['{']) :=
    h.take (show StartsPlain ['{'] by decide) _ _ _
  rw [hstep]
  exact { htaken with depth := rfl }

/-- A closing brace belongs to the pending symbol. -/
theorem Within.closed (h : s.Within b) (hbraced : b.braced = true) :
    (s.step '}').Within b.closed := by
  have hdepth : s.depth = 1 := by rw [h.depth, hbraced]; rfl
  have hstep : s.step '}' = { s.append '}' with
      depth := 0
      inList := false
      previous := some '}'
      position := s.position.after '}' } := by
    simp [step, read, readClosing, append, hdepth, h.inClause]
  have htaken : (s.append '}').Within (b.take ['}']) :=
    h.take (show StartsPlain ['}'] by decide) _ _ _
  rw [hstep]
  exact { htaken with depth := rfl, inList := rfl }

/-- Round brackets belong to the pending symbol, with the spaces and tabs in them. -/
theorem Within.bracketed (h : s.Within b) (hbraced : b.braced = true) {inside : List Char}
    (hinside : ∀ c ∈ inside, c ∉ delimiters ∨ c = '-' ∨ c = ' ' ∨ c = '\t')
    (hhyphens : SingleHyphens inside) :
    (('(' :: inside ++ [')']).foldl step s).Within (b.take ('(' :: inside ++ [')'])) := by
  have hdepth : s.depth = 1 := by rw [h.depth, hbraced]; rfl
  have hopen : s.step '(' = { s.append '(' with
      depth := 2
      rounds := 1
      previous := some '('
      position := s.position.after '(' } := by
    simp [step, read, readOpening, Scanner.keepsDelimiters, append, hdepth, h.rounds, h.inClause]
  have hkeeps : (s.step '(').keepsDelimiters = true := by
    simp [hopen, Scanner.keepsDelimiters]
  have hgather : inside.foldl step (s.step '(') = (s.step '(').gather inside :=
    foldl_step_eq_gather (fun c hc => (hinside c hc).imp_right (.imp_right (⟨·, hkeeps⟩)))
      (hhyphens.behind (by simp [hopen]))
  have hclose : ((s.step '(').gather inside).step ')' = { s with
      pending := ('(' :: inside ++ [')']).reverse ++ s.pending
      start := ((s.step '(').gather inside).start
      previous := some ')'
      position := ((s.step '(').gather inside).position.after ')' } := by
    rw [hopen]
    simp [gather, step, read, readClosing, append, hdepth, h.rounds]
  rw [List.cons_append, List.foldl_cons, List.foldl_append, hgather]
  simp only [List.foldl_cons, List.foldl_nil]
  rw [hclose]
  exact h.take (by simp [StartsPlain]; decide) _ _ _

/-- The symbols of a text that ends here. -/
theorem Within.compileSequence (h : s.Within b) (hapart : b.Apart) (unit : String) :
    (s.finish unit).compileSequence = b.flush.texts.reverse := by
  have hflush := h.flush hapart
  have hkept : ∀ symbol ∈ s.flush.stored.reverse, (!symbol.isComment) = true := by
    intro symbol hsymbol
    have htext : symbol.text ∈ b.flush.texts := by
      rw [← hflush.texts]
      exact List.mem_map_of_mem (List.mem_reverse.mp hsymbol)
    rw [isComment_eq_false fun hhead => ((hflush.texts_plain _ htext).2 _ hhead).2.1 rfl,
      Bool.not_false]
  rw [compileSequence_finish, compiledTexts, List.filter_eq_self.mpr hkept, List.map_reverse,
    hflush.texts]

end Scanner

end Smi
