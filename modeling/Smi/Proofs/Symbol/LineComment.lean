import Smi.Proofs.Symbol.Coherence
import Smi.Proofs.Symbol.Distinction

/-!
# Line comments

A line comment becomes symbols that are not compiled, but its double quotes and its brackets are
read, and it ends the symbol before it. So a comment has no effect on how the rest of a unit is cut
into compiled symbols exactly if the symbol before it is not `::=`, its double quotes are paired and
its brackets leave the nesting as it is.
-/

namespace Smi

/-- A character that does not begin two hyphens stands before them. -/
theorem beforeHyphens_cons {c : Char} {cs : List Char} (h : ¬(c = '-' ∧ cs.head? = some '-')) :
    beforeHyphens (c :: cs) = c :: beforeHyphens cs := by
  rw [beforeHyphens]
  rintro _ rfl rfl
  exact h ⟨rfl, rfl⟩

/-- Single hyphens are no comment. -/
theorem beforeHyphens_append {cs rest : List Char} (h : SingleHyphens cs)
    (hlast : cs.getLast? ≠ some '-') : beforeHyphens (cs ++ '-' :: '-' :: rest) = cs := by
  induction cs with
  | nil => rfl
  | cons c others ih =>
    obtain ⟨hnext, hothers⟩ := List.isChain_cons.mp h
    have hsingle : ¬(c = '-' ∧ (others ++ '-' :: '-' :: rest).head? = some '-') := by
      rintro ⟨rfl, hhead⟩
      cases others with
      | nil => exact hlast rfl
      | cons d _ =>
        cases hhead
        exact hnext '-' rfl ⟨rfl, rfl⟩
    rw [List.cons_append, beforeHyphens_cons hsingle, ih hothers]
    cases others with
    | nil => simp
    | cons d more => rwa [List.getLast?_cons_cons] at hlast

/-- The mode in a line comment: in a quotation behind an odd number of double quotes. -/
def commentMode (read : List Char) : Mode :=
  if read.count '"' % 2 = 0 then .comment else .quotation

/-- Delimiters are kept everywhere in a line comment. -/
theorem isVerbatim_commentMode (read : List Char) : (commentMode read).isVerbatim = true := by
  unfold commentMode
  split <;> rfl

/-- Only a double quote changes the mode in a line comment. -/
theorem commentMode_concat {read : List Char} {c : Char} (hc : c ≠ '"') :
    commentMode (read ++ [c]) = commentMode read := by
  simp [commentMode, List.count_append, hc]

namespace Scanner

variable {s t : Scanner} {read : List Char} {c : Char} {body unit : String}

/-- Whether a scanner is in a line comment that stands behind what `t` has stored, and has read
some characters of it. -/
structure Commenting (t : Scanner) (read : List Char) (s : Scanner) : Prop where
  stored : s.stored = t.stored
  afterAssign : s.afterAssign = t.afterAssign
  nesting : s.nesting = read.foldl (Nesting.after t.afterAssign) t.nesting
  mode : s.mode = commentMode read
  pending : ['-', '-'] <:+ s.pending
  start : s.start.row = t.position.row
  position : s.position.row = t.position.row

namespace Commenting

/-- The pending symbol is not empty in a line comment. -/
theorem pending_isEmpty (h : Commenting t read s) : s.pending.isEmpty = false := by
  obtain ⟨more, hmore⟩ := h.pending
  rw [← hmore]
  cases more <;> rfl

/-- Taking in a character that is counted. -/
theorem append (h : Commenting t read s) {c : Char} {mode : Mode}
    (hmode : mode = commentMode (read ++ [c])) :
    Commenting t (read ++ [c]) ({ s.count c with mode := mode }.append c) := by
  refine ⟨h.stored, h.afterAssign, ?_, hmode, ?_, ?_, h.position⟩
  · rw [List.foldl_append, ← h.nesting, ← h.afterAssign]
    rfl
  · exact h.pending.trans (List.suffix_cons _ _)
  · have hstart : (if s.pending.isEmpty then s.position else s.start).row = t.position.row := by
      rw [h.pending_isEmpty, if_neg Bool.false_ne_true, h.start]
    exact hstart

/-- Two hyphens in a comment begin it anew. -/
theorem openComment (h : Commenting t read s) : Commenting t read s.openComment := by
  obtain ⟨more, hmore⟩ := h.pending
  have hcut : (beforeHyphens s.pending.reverse).reverse = [] := by
    rw [← hmore]
    simp [beforeHyphens]
  have hmode : s.mode.openComment = s.mode := by
    rw [h.mode, commentMode]
    split <;> rfl
  have hopened : s.openComment = { s with
      pending := ['-', '-'], start := ⟨s.position.row, s.position.column - 1⟩ } := by
    rw [Scanner.openComment, flush_of_pending hcut]
    simp only [hmode]
  rw [hopened]
  exact ⟨h.stored, h.afterAssign, h.nesting, h.mode, List.suffix_refl _, h.position, h.position⟩

/-- A line comment goes on behind a character that is no line end, hyphen or double quote. -/
theorem step_of_ne (h : Commenting t read s) (hc : c ∉ ['\n', '\r', '-', '"']) :
    Commenting t (read ++ [c]) (s.read c) := by
  have hverbatim : s.mode.isVerbatim = true := by rw [h.mode, isVerbatim_commentMode]
  have hquote : c ≠ '"' := by
    rintro rfl
    exact hc (by decide)
  rw [read_of_isVerbatim hverbatim hc]
  exact h.append (h.mode.trans (commentMode_concat hquote).symm)

/-- A line comment goes on behind a double quote. -/
theorem step_quote (h : Commenting t read s) : Commenting t (read ++ ['"']) (s.read '"') := by
  have hcount : s.count '"' = s := count_of_not_mem (by decide)
  have hmode := h.mode
  unfold commentMode at hmode
  have hread (mode : Mode) (hquote : s.readQuote = { s.count '"' with mode := mode }.append '"')
      (hnext : mode = commentMode (read ++ ['"'])) : Commenting t (read ++ ['"']) (s.read '"') := by
    change Commenting t (read ++ ['"']) s.readQuote
    rw [hquote]
    exact h.append hnext
  split at hmode
  next heven =>
    refine hread .quotation (by rw [readQuote, hmode, hcount]) ?_
    have hodd : (read.count '"' + 1) % 2 ≠ 0 := by omega
    simp [commentMode, hodd]
  next hodd =>
    refine hread .comment (by rw [readQuote, hmode, hcount]) ?_
    have heven : (read.count '"' + 1) % 2 = 0 := by omega
    simp [commentMode, heven]

/-- A line comment goes on behind a hyphen. -/
theorem step_hyphen (h : Commenting t read s) : Commenting t (read ++ ['-']) (s.read '-') := by
  have hcount : s.count '-' = s := count_of_not_mem (by decide)
  have happend : Commenting t (read ++ ['-']) (s.append '-') := by
    have hmode := h.mode.trans (commentMode_concat (c := '-') (by decide)).symm
    have hnext := h.append hmode
    rwa [hcount] at hnext
  change Commenting t (read ++ ['-']) s.readHyphen
  unfold readHyphen
  dsimp only
  split
  · exact happend.openComment
  · exact happend

/-- Every character of the line is read in the comment. -/
theorem step (h : Commenting t read s) (hc : c ∉ ['\n', '\r']) :
    Commenting t (read ++ [c]) (s.step c) := by
  have hread : Commenting t (read ++ [c]) (s.read c) := by
    by_cases hhyphen : c = '-'
    · exact hhyphen ▸ h.step_hyphen
    by_cases hquote : c = '"'
    · exact hquote ▸ h.step_quote
    exact h.step_of_ne (by simp_all)
  have hrow : (s.step c).position.row = t.position.row := by
    refine (Position.after_row _ _).trans ?_
    rw [hread.position, if_neg (by rintro rfl; exact hc (by decide)), Nat.add_zero]
  exact ⟨hread.stored, hread.afterAssign, hread.nesting, hread.mode, hread.pending, hread.start,
    hrow⟩

/-- A line comment goes on to the end of its line. -/
theorem feed (h : Commenting t [] s) (hbody : ∀ c ∈ body.toList, c ∉ ['\n', '\r']) :
    Commenting t body.toList (s.feed body) := by
  have hfold : ∀ (cs read : List Char) (s : Scanner), Commenting t read s →
      (∀ c ∈ cs, c ∉ ['\n', '\r']) → Commenting t (read ++ cs) (cs.foldl Scanner.step s) := by
    intro cs
    induction cs with
    | nil => exact fun read s h _ => by rwa [List.append_nil]
    | cons c rest ih =>
      intro read s h hcs
      obtain ⟨hc, hrest⟩ := List.forall_mem_cons.mp hcs
      have hnext := ih (read ++ [c]) (s.step c) (h.step hc) hrest
      rwa [List.append_assoc] at hnext
  exact hfold body.toList [] s h hbody

/-- What is gathered of a comment begins with its hyphens. -/
theorem gathers (h : Commenting t read s) :
    ∃ kept, s.Gathers (String.ofList ('-' :: '-' :: kept)) := by
  obtain ⟨more, hmore⟩ := h.pending
  have hvisible : ∀ c ∈ some '-', Text.isBlank c = false := by
    rintro _ ⟨⟩
    decide
  obtain ⟨kept, hkept⟩ : ∃ kept,
      Text.trimChars (['-', '-'] ++ more.reverse) = ['-', '-'] ++ kept :=
    Text.exists_trimChars_append _ hvisible hvisible (List.cons_ne_nil _ _)
  refine ⟨kept, ?_, by simp⟩
  rw [← hmore, List.reverse_append, Text.trim, String.toList_ofList]
  exact congrArg String.ofList hkept

/-- The end of the line ends the comment, and what is stored of it is not compiled. -/
theorem step_newline (h : Commenting t read s) :
    (s.step '\n').pending = [] ∧
      (∃ symbol : Symbol, (s.step '\n').stored = symbol :: t.stored ∧ symbol.isComment = true ∧
        symbol.position.row < (s.step '\n').position.row) ∧
        (s.step '\n').bare = fresh '\n' (commentMode read).endLine false
          (read.foldl (Nesting.after t.afterAssign) t.nesting).endLine := by
  obtain ⟨kept, hgathers⟩ := h.gathers
  have hordinary : IsOrdinary (String.ofList ('-' :: '-' :: kept)) :=
    isOrdinary_of_head? (c := '-') (by simp) (by decide)
  have hread : s.read '\n' = { s.flush with mode := s.flush.mode.endLine, rounds := 0 } := by
    have hmode : s.mode ≠ .string := by
      rw [h.mode, commentMode]
      split <;> decide
    simp [Scanner.read, readLineEnd, hmode]
  have hstep : s.step '\n' = { s with
      pending := []
      afterAssign := false
      stored := ⟨String.ofList ('-' :: '-' :: kept), s.start⟩ :: t.stored
      mode := (commentMode read).endLine
      rounds := 0
      position := ⟨s.position.row + 1, 0⟩
      previous := some '\n' } := by
    rw [Scanner.step, hread, hgathers.flush_ordinary hordinary]
    simp [h.stored, h.mode, Position.after]
  rw [hstep]
  refine ⟨rfl, ⟨_, rfl, by simp [Symbol.isComment], ?_⟩, ?_⟩
  · change s.start.row < s.position.row + 1
    rw [h.start, h.position]
    omega
  · rw [bare_eq_fresh rfl rfl, ← h.nesting]
    rfl

end Commenting

/-! ### The beginning of a comment and the end of a line -/

/-- The character read last is that of the text, unless the text is empty. -/
theorem previous_feed (s : Scanner) (text : String) :
    (s.feed text).previous = text.toList.getLast?.or s.previous := by
  unfold feed
  generalize text.toList = cs
  induction cs generalizing s with
  | nil => rfl
  | cons c rest ih =>
    rw [List.foldl_cons, ih, List.getLast?_cons]
    cases rest.getLast? <;> rfl

/-- What the flush before a comment leaves does not depend on the first hyphen having been read. -/
theorem flush_before_comment (s : Scanner) (position : Position) (previous : Option Char) :
    ∃ start, { s with
      start := if s.pending.isEmpty then s.position else s.start
      position := position, previous := previous, mode := .comment }.flush =
        { s.flush with
          start := start, position := position, previous := previous, mode := .comment } := by
  by_cases hpending : s.pending = []
  · refine ⟨if s.pending.isEmpty then s.position else s.start, ?_⟩
    rw [flush_of_pending hpending]
    exact flush_of_pending hpending
  · have hempty : s.pending.isEmpty = false := by simpa using hpending
    refine ⟨s.flush.start, ?_⟩
    rw [hempty]
    exact s.flush_with position previous .comment

/-- Two hyphens in plain text end the symbol before them and begin a comment. -/
theorem commenting_feed (h : s.Coherent s.previous) (hmode : s.mode = .plain)
    (hprevious : s.previous ≠ some '-') : Commenting s.flush [] (s.feed "--") := by
  have hcut : (beforeHyphens ('-' :: '-' :: s.pending).reverse).reverse = s.pending := by
    have hsingle : SingleHyphens s.pending.reverse := (h.hyphens (by rw [hmode]; rfl)).reverse
    have hlast : s.pending.reverse.getLast? ≠ some '-' := by
      rw [List.getLast?_reverse]
      exact fun hhead => hprevious (h.pending '-' hhead)
    have hreverse : ('-' :: '-' :: s.pending).reverse = s.pending.reverse ++ ['-', '-'] := by simp
    rw [hreverse, beforeHyphens_append hsingle hlast, List.reverse_reverse]
  have hfirst : s.step '-' = { s.append '-' with
      previous := some '-', position := s.position.after '-' } := by
    simp [Scanner.step, Scanner.read, readHyphen, hprevious, append]
  have hsecond : (s.step '-').read '-' = ((s.step '-').append '-').openComment := by
    rw [hfirst]
    simp [Scanner.read, readHyphen, append, hmode]
  obtain ⟨start, hflush⟩ := s.flush_before_comment (s.position.after '-') (some '-')
  have hopened : ((s.step '-').append '-').openComment = { s.flush with
      mode := .comment
      pending := ['-', '-']
      start := ⟨s.position.row, s.position.column⟩
      position := s.position.after '-'
      previous := some '-' } := by
    rw [hfirst, openComment]
    simp only [append, List.isEmpty_cons, hcut, hmode, Mode.openComment, Bool.false_eq_true,
      if_false, hflush]
    simp [Position.after]
  have hfeed : s.feed "--" = (s.step '-').step '-' := rfl
  rw [hfeed, Scanner.step, hsecond, hopened]
  have hrow (position : Position) (hsame : position.row = s.position.row) :
      position.row = s.flush.position.row := by rw [hsame, flush_position]
  exact ⟨rfl, rfl, rfl, rfl, List.suffix_refl _, hrow _ rfl, hrow _ rfl⟩

/-- The end of a line ends the symbol before it. -/
theorem step_newline_plain (hmode : s.mode = .plain) :
    s.step '\n' = { s.flush with
      rounds := 0, position := ⟨s.position.row + 1, 0⟩, previous := some '\n' } := by
  have hflush : s.flush.mode = .plain := s.flush_mode.trans hmode
  simp [step, read, readLineEnd, hmode, hflush, Mode.endLine, Position.after, flush_position]

end Scanner

namespace SymbolTable

variable {before body : String} {unit : String}

/-- Behind a comment and the end of its line, a text is cut as by a scanner that knows no more than
the nesting of the brackets so far and whether the double quotes of the comment are paired. -/
theorem compileSequence_comment (hbefore : (Scanner.initial.feed before).mode = .plain)
    (hhyphen : before.toList.getLast? ≠ some '-')
    (hbody : ∀ c ∈ body.toList, c ≠ '\n' ∧ c ≠ '\r') (rest : String) :
    (ofText unit (before ++ "--" ++ body ++ "\n" ++ rest)).compileSequence =
      (ofText unit before).compileSequence ++
        (((Scanner.fresh '\n' (commentMode body.toList).endLine false
          ((Scanner.initial.feed before).nestingBehind body).endLine).feed rest).finish
            unit).compileSequence := by
  have hcoherent := Scanner.initial_coherent.feed before
  have hprevious : (Scanner.initial.feed before).previous ≠ some '-' := by
    rw [Scanner.previous_feed]
    simpa [Scanner.initial] using hhyphen
  have hline : ∀ c ∈ body.toList, c ∉ ['\n', '\r'] := fun c hc => by simpa using hbody c hc
  have hcomment := (Scanner.commenting_feed hcoherent hbefore hprevious).feed hline
  obtain ⟨hpending, ⟨symbol, hstored, hcompiled, hrow⟩, hbare⟩ := hcomment.step_newline
  generalize hs : (((Scanner.initial.feed before).feed "--").feed body).step '\n' = s at *
  have hsettled : s.Settled := fun first hfirst => by
    rw [hstored] at hfirst
    cases hfirst
    exact .inl hrow
  have hfeed :
      ofText unit (before ++ "--" ++ body ++ "\n" ++ rest) = (s.feed rest).finish unit := by
    rw [← hs]
    simp [ofText, ofPieces, Scanner.feed]
  rw [hfeed, Scanner.compileSequence_feed hpending hsettled, hstored, hbare, compiledTexts_cons,
    hcompiled, if_pos rfl, List.append_nil]
  rfl

/-- Behind the end of a line, a text is cut as by a scanner that knows no more than the nesting of
the brackets so far and whether the last symbol is `::=`. -/
theorem compileSequence_newline (hbefore : (Scanner.initial.feed before).mode = .plain)
    (rest : String) :
    (ofText unit (before ++ "\n" ++ rest)).compileSequence =
      (ofText unit before).compileSequence ++
        (((Scanner.fresh '\n' .plain (Scanner.initial.feed before).flush.afterAssign
          (Scanner.initial.feed before).flush.nesting.endLine).feed rest).finish
            unit).compileSequence := by
  have hplaced := (Scanner.initial_coherent.feed before).flush
  have hstep := Scanner.step_newline_plain hbefore
  have hfeed : ofText unit (before ++ "\n" ++ rest) =
      (((Scanner.initial.feed before).step '\n').feed rest).finish unit := by
    simp [ofText, ofPieces, Scanner.feed]
  have hpending : ((Scanner.initial.feed before).step '\n').pending = [] := by
    rw [hstep]
    exact Scanner.flush_pending _
  have hsettled : ((Scanner.initial.feed before).step '\n').Settled := fun symbol hsymbol => by
    rw [hstep] at hsymbol ⊢
    have hrow := hplaced.stored symbol hsymbol
    rw [Scanner.flush_position] at hrow
    exact .inl (Nat.lt_succ_of_le hrow)
  have hbare : ((Scanner.initial.feed before).step '\n').bare =
      .fresh '\n' .plain (Scanner.initial.feed before).flush.afterAssign
        (Scanner.initial.feed before).flush.nesting.endLine := by
    rw [Scanner.bare_eq_fresh hpending rfl, hstep, Scanner.flush_mode, hbefore]
    rfl
  rw [hfeed, Scanner.compileSequence_feed hpending hsettled, hbare, hstep]
  rfl

/-- A line comment has no effect on the compiled symbols of a unit, whatever stands behind it,
exactly if no `::=` stands right before it, its double quotes are paired, and its brackets leave
the nesting as it is at the end of the line. -/
theorem comment_ignored_iff (hbefore : (Scanner.initial.feed before).mode = .plain)
    (hhyphen : before.toList.getLast? ≠ some '-')
    (hbody : ∀ c ∈ body.toList, c ≠ '\n' ∧ c ≠ '\r') :
    (∀ rest, (ofText unit (before ++ "--" ++ body ++ "\n" ++ rest)).compileSequence =
      (ofText unit (before ++ "\n" ++ rest)).compileSequence) ↔
      (Scanner.initial.feed before).flush.afterAssign = false ∧
        body.toList.count '"' % 2 = 0 ∧
          ((Scanner.initial.feed before).nestingBehind body).endLine =
            (Scanner.initial.feed before).flush.nesting.endLine := by
  constructor
  · intro hignored
    have halike : Scanner.Alike unit
        (.fresh '\n' (commentMode body.toList).endLine false
          ((Scanner.initial.feed before).nestingBehind body).endLine)
        (.fresh '\n' .plain (Scanner.initial.feed before).flush.afterAssign
          (Scanner.initial.feed before).flush.nesting.endLine) := fun rest => by
      have hrest := hignored rest
      rw [compileSequence_comment hbefore hhyphen hbody, compileSequence_newline hbefore] at hrest
      exact List.append_cancel_left hrest
    have hverbatim : (commentMode body.toList).endLine.isVerbatim = false := by
      unfold commentMode
      split <;> rfl
    obtain ⟨hmode, hassigned, hnesting⟩ := halike.eq_of_fresh hverbatim rfl
    refine ⟨hassigned.symm, ?_, hnesting⟩
    unfold commentMode at hmode
    split at hmode
    next heven => exact heven
    next => cases hmode
  · rintro ⟨hassigned, heven, hnesting⟩ rest
    have hmode : (commentMode body.toList).endLine = .plain := by
      rw [commentMode, if_pos heven]
      rfl
    rw [compileSequence_comment hbefore hhyphen hbody, compileSequence_newline hbefore, hmode,
      hassigned, hnesting]

/-- A comment whose brackets and double quotes are paired has no effect. -/
theorem comment_ignored_ports :
    (Scanner.initial.feed "x STATUS current ").mode = .plain ∧ ∀ rest,
      (ofText "unit" ("x STATUS current " ++ "--" ++ " ports (\"0\" -- 65535)" ++ "\n" ++
          rest)).compileSequence =
        (ofText "unit" ("x STATUS current " ++ "\n" ++ rest)).compileSequence :=
  ⟨by decide, (comment_ignored_iff (by decide) (by decide) (by simp)).mpr (by decide)⟩

/-- An opening bracket in a comment joins the words behind the comment to one symbol. -/
theorem comment_not_ignored_see :
    (Scanner.initial.feed "x ").mode = .plain ∧ "x ".toList.getLast? ≠ some '-' ∧
      (∀ c ∈ " see (a".toList, c ≠ '\n' ∧ c ≠ '\r') ∧
      (ofText "unit" ("x " ++ "--" ++ " see (a" ++ "\n" ++ "STATUS current")).compileSequence ≠
        (ofText "unit" ("x " ++ "\n" ++ "STATUS current")).compileSequence := by
  refine ⟨by decide, by decide, by simp, by decide⟩

end SymbolTable

end Smi
