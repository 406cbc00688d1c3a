import Smi.Proofs.Symbol.Nesting
import Smi.Proofs.Text.Blank

/-!
# The pending symbol

What ending the pending symbol does: most symbols are stored and nothing else happens. Only a few
texts affect the symbols behind them, or what the scanner knows about clauses and lists.
-/

namespace Smi

/-- The second halves of the two-word keywords. -/
def secondHalves : List String :=
  ["NOTATION", "OF", "IDENTIFIER", "STRING"]

/-- A text that is no second half completes no keyword. -/
theorem joined?_eq_none {first second : String} (h : second ∉ secondHalves) :
    joined? first second = none := by
  unfold joined?
  split <;> first | rfl | exact absurd (by decide) h

/-- The first halves of the two-word keywords. -/
def firstHalves : List String :=
  ["TYPE", "VALUE", "SEQUENCE", "OBJECT", "OCTET"]

/-- A text that is no first half begins no keyword. -/
theorem joined?_eq_none_of_first {first second : String} (h : first ∉ firstHalves) :
    joined? first second = none := by
  unfold joined?
  split <;> first | rfl | exact absurd (by decide) h

/-- Whether a symbol has no effect on the symbols behind it in its line: it is neither `::=` nor
the first half of a two-word keyword. -/
structure IsInert (text : String) : Prop where
  ne_assign : text ≠ "::="
  joined : ∀ second, joined? text second = none

/-- Whether storing a symbol does nothing else: it is not the second half of a two-word keyword and
changes neither the declared name nor what the scanner knows about clauses and lists. -/
structure IsOrdinary (text : String) : Prop where
  joined : ∀ first, joined? first text = none
  ne_definitions : text ≠ "DEFINITIONS"
  ne_brace : text ≠ "\x7b"
  ne_assign : text ≠ "::="

/-- The first characters of the symbols that may have an effect. -/
def effective : List Char :=
  ['N', 'O', 'I', 'S', 'D', 'T', 'V', '{', ':']

/-- A symbol is ordinary if it begins with none of the characters that may have an effect. -/
theorem isOrdinary_of_head? {text : String} {c : Char} (hhead : text.toList.head? = some c)
    (hc : c ∉ effective) : IsOrdinary text where
  joined first := by
    unfold joined?
    split <;> first | rfl | (cases hhead; exact absurd (by decide) hc)
  ne_definitions := by rintro rfl; cases hhead; exact absurd (by decide) hc
  ne_brace := by rintro rfl; cases hhead; exact absurd (by decide) hc
  ne_assign := by rintro rfl; cases hhead; exact absurd (by decide) hc

/-- A symbol is inert if it begins with none of the characters that may have an effect. -/
theorem isInert_of_head? {text : String} {c : Char} (hhead : text.toList.head? = some c)
    (hc : c ∉ effective) : IsInert text where
  ne_assign := (isOrdinary_of_head? hhead hc).ne_assign
  joined second := by
    unfold joined?
    split <;> first | rfl | (cases hhead; exact absurd (by decide) hc)

/-- The texts of the symbols that are compiled, from stored symbols, the newest first. -/
def compiledTexts (stored : List Symbol) : List String :=
  (stored.reverse.filter fun symbol => !symbol.isComment).map Symbol.text

/-- The texts of added symbols follow those of the symbols before. -/
theorem compiledTexts_append (added base : List Symbol) :
    compiledTexts (added ++ base) = compiledTexts base ++ compiledTexts added := by
  simp [compiledTexts]

/-- The text of the newest symbol comes last, unless it is a comment. -/
theorem compiledTexts_cons (symbol : Symbol) (stored : List Symbol) :
    compiledTexts (symbol :: stored) =
      compiledTexts stored ++ if symbol.isComment then [] else [symbol.text] := by
  rw [← List.singleton_append, compiledTexts_append]
  cases h : symbol.isComment <;> simp [compiledTexts, h]

/-- A symbol is a comment if it begins with two hyphens. -/
theorem isComment_iff {symbol : Symbol} :
    symbol.isComment = true ↔ ['-', '-'] <+: symbol.text.toList := by
  unfold Symbol.isComment
  split
  next rest hchars => exact iff_of_true rfl (by rw [hchars]; exact ⟨rest, rfl⟩)
  next hne => exact iff_of_false Bool.false_ne_true fun ⟨rest, hrest⟩ => hne rest hrest.symm

/-- A symbol that does not begin with a hyphen is no comment. -/
theorem isComment_eq_false {symbol : Symbol} (h : symbol.text.toList.head? ≠ some '-') :
    symbol.isComment = false := by
  unfold Symbol.isComment
  split
  next hhyphens =>
    rw [hhyphens] at h
    exact absurd rfl h
  next => rfl

/-- How a symbol is added to stored symbols, the newest first: it becomes the newest one, or it is
the second half of a two-word keyword and the newest one becomes the keyword. -/
inductive Adds (symbol : Symbol) : List Symbol → List Symbol → Prop where
  | newest (stored : List Symbol) : Adds symbol stored (symbol :: stored)
  | joins {first : Symbol} {whole : String} (rest : List Symbol)
      (h : joined? first.text symbol.text = some whole) :
      Adds symbol (first :: rest) ({ first with text := whole } :: rest)

namespace Scanner

variable {s : Scanner} {text : String}

/-- What is compiled in the end are the stored symbols and the pending one. -/
theorem compileSequence_finish (s : Scanner) (unit : String) :
    (s.finish unit).compileSequence = compiledTexts s.flush.stored :=
  rfl

/-! ### What storing and ending leave alone -/

/-- Storing a symbol changes only what is known about the symbols so far. -/
theorem store_frame (s : Scanner) (text : String) : ∃ stored declaredName afterAssign inList,
    s.store text = { s with
      stored := stored, declaredName := declaredName, afterAssign := afterAssign,
      inList := inList } := by
  unfold store
  dsimp only
  split
  · exact ⟨_, _, _, _, rfl⟩
  · exact ⟨_, _, _, _, rfl⟩

/-- Ending the pending symbol changes only what is known about the symbols so far. -/
theorem flush_frame (s : Scanner) : ∃ stored declaredName afterAssign inList,
    s.flush = { s with
      pending := [], stored := stored, declaredName := declaredName, afterAssign := afterAssign,
      inList := inList } := by
  unfold flush
  dsimp only
  split
  next hempty =>
    rw [List.isEmpty_iff] at hempty
    exact ⟨s.stored, s.declaredName, s.afterAssign, s.inList, by rw [← hempty]⟩
  next =>
    split
    · exact ⟨_, _, _, _, rfl⟩
    · obtain ⟨stored, declaredName, afterAssign, inList, hstore⟩ :=
        store_frame { s with pending := [], afterAssign := false }
          (Text.trim (String.ofList s.pending.reverse))
      exact ⟨stored, declaredName, afterAssign, inList, hstore⟩

/-- No symbol is pending when it has been ended. -/
theorem flush_pending (s : Scanner) : s.flush.pending = [] := by
  obtain ⟨_, _, _, _, hflush⟩ := s.flush_frame
  rw [hflush]

/-- Ending the pending symbol leaves the mode alone. -/
theorem flush_mode (s : Scanner) : s.flush.mode = s.mode := by
  obtain ⟨_, _, _, _, hflush⟩ := s.flush_frame
  rw [hflush]

/-- A scanner does not move when it ends the pending symbol. -/
theorem flush_position (s : Scanner) : s.flush.position = s.position := by
  obtain ⟨_, _, _, _, hflush⟩ := s.flush_frame
  rw [hflush]

/-- Where a scanner goes on and in which mode is of no importance for a stored symbol. -/
theorem store_with (s : Scanner) (text : String) (position : Position) (previous : Option Char)
    (mode : Mode) : { s with position := position, previous := previous, mode := mode }.store text =
      { s.store text with position := position, previous := previous, mode := mode } := by
  unfold store neighbour?
  dsimp only
  split <;> rfl

/-- Where a scanner goes on and in which mode is of no importance for the pending symbol. -/
theorem flush_with (s : Scanner) (position : Position) (previous : Option Char) (mode : Mode) :
    { s with position := position, previous := previous, mode := mode }.flush =
      { s.flush with position := position, previous := previous, mode := mode } := by
  unfold flush
  dsimp only
  split
  · rfl
  · split
    · rfl
    · exact store_with { s with pending := [], afterAssign := false } _ position previous mode

/-- Without a pending symbol there is nothing to end. -/
theorem flush_of_pending (h : s.pending = []) : s.flush = s := by
  rw [flush, h, List.isEmpty_nil, if_pos rfl]

/-- The nesting that a string or a comment leaves behind, if its text follows what `s` has read. -/
def nestingBehind (s : Scanner) (body : String) : Nesting :=
  s.flush.nesting.through s.flush.afterAssign body

/-! ### Ordinary symbols -/

/-- An ordinary symbol is put in front of the stored ones, and nothing else happens. -/
theorem store_ordinary (h : IsOrdinary text) (s : Scanner) :
    s.store text = { s with stored := ⟨text, s.start⟩ :: s.stored } := by
  have hjoined : ((s.neighbour?.map Symbol.text).bind fun first => joined? first text) = none := by
    cases s.neighbour? with
    | none => rfl
    | some symbol => exact h.joined symbol.text
  simp [store, hjoined, h.ne_definitions, h.ne_brace, h.ne_assign]

/-- Whether the pending symbol, without the blanks at its ends, is a text. -/
structure Gathers (s : Scanner) (text : String) : Prop where
  trimmed : Text.trim (String.ofList s.pending.reverse) = text
  nonempty : text.toList ≠ []

/-- A scanner gathers what is pending if it has no blanks at its ends. -/
theorem gathers_of_trim (hpending : s.pending = text.toList.reverse)
    (htrim : Text.trim text = text) (hnonempty : text.toList ≠ []) : s.Gathers text :=
  ⟨by rw [hpending, List.reverse_reverse, String.ofList_toList, htrim], hnonempty⟩

/-- A scanner gathers what is pending if it begins and ends with visible characters. -/
theorem gathers_of_visible (hpending : s.pending = text.toList.reverse)
    (hnonempty : text.toList ≠ []) (hhead : ∀ c ∈ text.toList.head?, Text.isBlank c = false)
    (hlast : ∀ c ∈ text.toList.getLast?, Text.isBlank c = false) : s.Gathers text :=
  gathers_of_trim hpending
    (by rw [Text.trim, Text.trimChars_eq_self hhead hlast, String.ofList_toList]) hnonempty

/-- A gathered text is what is pending without the blanks at its ends. -/
theorem Gathers.toList_eq (h : s.Gathers text) :
    text.toList = Text.trimChars s.pending.reverse := by
  rw [← h.trimmed, Text.trim, String.toList_ofList, String.toList_ofList]

/-- What is pending is not empty if a text is gathered. -/
theorem Gathers.pending_ne_nil (h : s.Gathers text) : s.pending ≠ [] := fun hpending =>
  h.nonempty (by rw [h.toList_eq, hpending]; rfl)

/-- A gathered text is stored when the pending symbol is ended. -/
theorem Gathers.flush_eq (h : s.Gathers text) :
    s.flush = { s with pending := [], afterAssign := false }.store text := by
  have hempty : s.pending.isEmpty = false := List.isEmpty_eq_false_iff.mpr h.pending_ne_nil
  have htextEmpty : text.isEmpty = false := by simpa using h.nonempty
  rw [flush, hempty, if_neg Bool.false_ne_true]
  simp only [h.trimmed, htextEmpty]
  rfl

/-- A gathered text that is ordinary is put in front of the stored symbols when it is ended. -/
theorem Gathers.flush_ordinary (h : s.Gathers text) (htext : IsOrdinary text) :
    s.flush = { s with
      pending := [], afterAssign := false, stored := ⟨text, s.start⟩ :: s.stored } := by
  rw [h.flush_eq, store_ordinary htext]

/-- A gathered text that is ordinary leaves the nesting alone when it is ended. -/
theorem Gathers.nesting_flush (h : s.Gathers text) (htext : IsOrdinary text) :
    s.flush.nesting = s.nesting := by
  rw [h.flush_ordinary htext]
  simp only [nesting]

/-- The pending symbol is the last one of a text that ends here. -/
theorem Gathers.compileSequence (h : s.Gathers text) (htext : IsOrdinary text)
    (hcomment : text.toList.head? ≠ some '-') (unit : String) :
    (s.finish unit).compileSequence = compiledTexts s.stored ++ [text] := by
  have hcompiled : (Symbol.mk text s.start).isComment = false := isComment_eq_false hcomment
  rw [compileSequence_finish, h.flush_ordinary htext, compiledTexts_cons, hcompiled,
    if_neg Bool.false_ne_true]

/-- A gathered text is compiled last in the end, if it is ordinary and no comment. -/
theorem Gathers.getLast?_compileSequence (h : s.Gathers text) (htext : IsOrdinary text)
    (hcomment : text.toList.head? ≠ some '-') (unit : String) :
    (s.finish unit).compileSequence.getLast? = some text := by
  rw [h.compileSequence htext hcomment, List.getLast?_concat]

/-! ### What is added to the stored symbols -/

/-- Storing a symbol adds it to the stored ones. -/
theorem adds_store (s : Scanner) (text : String) :
    Adds ⟨text, s.start⟩ s.stored (s.store text).stored := by
  unfold store
  dsimp only
  split
  next whole hwhole =>
    obtain ⟨first, hfirst, hjoined⟩ := Option.bind_eq_some_iff.mp hwhole
    obtain ⟨symbol, hsymbol, rfl⟩ := Option.map_eq_some_iff.mp hfirst
    have hhead := (Option.filter_eq_some_iff.mp hsymbol).1
    cases hstored : s.stored with
    | nil =>
      rw [hstored] at hhead
      cases hhead
    | cons newest rest =>
      rw [hstored] at hhead
      cases hhead
      exact .joins rest hjoined
  next => exact .newest s.stored

/-- Ending the pending symbol adds the text that it gathers, or nothing if all of it is blank. -/
theorem stored_flush (s : Scanner) :
    s.flush.stored = s.stored ∧ Text.trimChars s.pending.reverse = [] ∨
      ∃ text, s.Gathers text ∧ Adds ⟨text, s.start⟩ s.stored s.flush.stored := by
  have htrim : Text.trim (String.ofList s.pending.reverse) =
      String.ofList (Text.trimChars s.pending.reverse) := by
    rw [Text.trim, String.toList_ofList]
  by_cases htext : Text.trimChars s.pending.reverse = []
  · left
    refine ⟨?_, htext⟩
    unfold flush
    dsimp only
    rw [htrim, htext]
    split <;> rfl
  · right
    have hgathers : s.Gathers (String.ofList (Text.trimChars s.pending.reverse)) :=
      ⟨htrim, by rwa [String.toList_ofList]⟩
    refine ⟨_, hgathers, ?_⟩
    rw [hgathers.flush_eq]
    exact adds_store { s with pending := [], afterAssign := false } _

end Scanner

end Smi
