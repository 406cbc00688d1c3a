import Mathlib.Data.List.TakeWhile
import Smi.Compiler.Capture
import Smi.Definition.Object
import Smi.Proofs.Symbol.Braces
import Smi.Proofs.Text.Dotted

/-!
# The text of a list in braces

However a list in braces is cut into symbols, their characters are those of its text apart from
blanks, and only the last symbol holds the closing brace. So all of them are captured.
-/

namespace Smi

namespace Cut

variable {b : Cut} {base : List String} {cs blanks : List Char}

/-! ### The characters of the symbols -/

/-- What is no part of the text of the pending symbol are the blanks behind it. -/
theorem exists_held_eq (hplain : StartsPlain b.held) :
    ∃ blanks, (∀ c ∈ blanks, Text.isBlank c = true) ∧ b.held = b.text.toList ++ blanks := by
  refine ⟨(b.held.reverse.takeWhile Text.isBlank).reverse, fun c hc => ?_, ?_⟩
  · exact List.mem_takeWhile_imp (List.mem_reverse.mp hc)
  · rw [text, Text.trim, String.toList_ofList, String.toList_ofList, Text.trimChars,
      Text.dropWhile_isBlank_of_head? fun c hc => (hplain c hc).1, ← List.reverse_append,
      List.takeWhile_append_dropWhile, List.reverse_reverse]

/-- What is held back is the text of a symbol if it neither begins nor ends with a blank. -/
theorem toList_text_of_visible (hplain : StartsPlain b.held)
    (hlast : ∀ c ∈ b.held.getLast?, Text.isBlank c = false) : b.text.toList = b.held := by
  rw [text, Text.trim, String.toList_ofList, String.toList_ofList,
    Text.trimChars_eq_self (fun c hc => (hplain c hc).1) hlast]

/-- Something is held back once characters have been taken. -/
theorem held_take_ne_nil (hne : cs ≠ []) : (b.take cs).held ≠ [] :=
  List.append_ne_nil_of_right_ne_nil _ hne

/-- What ends visibly is taken to the end of the pending symbol. -/
theorem toList_text_take (hplain : StartsPlain (b.take cs).held) (hne : cs ≠ [])
    (hlast : ∀ c ∈ cs.getLast?, Text.isBlank c = false) :
    (b.take cs).text.toList = b.held ++ cs := by
  refine toList_text_of_visible hplain fun c hc => hlast c ?_
  rwa [take, List.getLast?_append_of_ne_nil _ hne] at hc

/-- Whether the characters that are cut behind some symbols are those of a text. -/
def Behind (b : Cut) (base : List String) (cs : List Char) : Prop :=
  ∃ taken : List String, b.texts = taken.reverse ++ base ∧
    taken.flatMap String.toList ++ b.held = cs

/-- Behind more characters stand the more characters. -/
theorem Behind.take (h : b.Behind base cs) (more : List Char) :
    (b.take more).Behind base (cs ++ more) := by
  obtain ⟨taken, htexts, rfl⟩ := h
  exact ⟨taken, htexts, by simp [Cut.take]⟩

/-- Storing a pending symbol without the blanks behind it. -/
theorem Behind.flush_of_append (h : b.Behind base (cs ++ blanks))
    (htext : b.held = b.text.toList ++ blanks) : b.flush.Behind base cs := by
  obtain ⟨taken, htexts, hchars⟩ := h
  rw [htext, ← List.append_assoc] at hchars
  have hchars := List.append_cancel_right hchars
  by_cases hheld : b.held = []
  · refine ⟨taken, ?_, ?_⟩
    · rw [Cut.flush, if_pos hheld, htexts]
    · simpa [text_of_held hheld, Cut.flush] using hchars
  · refine ⟨taken ++ [b.text], ?_, ?_⟩
    · rw [Cut.flush, if_neg hheld, htexts]
      simp
    · simpa [Cut.flush] using hchars

/-- Storing the pending symbol drops nothing but blanks. -/
theorem Behind.flush (h : b.Behind base cs) (hplain : StartsPlain b.held) :
    ∃ kept blanks, b.flush.Behind base kept ∧ (∀ c ∈ blanks, Text.isBlank c = true) ∧
      cs = kept ++ blanks := by
  obtain ⟨blanks, hblanks, htext⟩ := exists_held_eq hplain
  have hsplit : ∃ kept, cs = kept ++ blanks := by
    obtain ⟨taken, _, rfl⟩ := h
    exact ⟨taken.flatMap String.toList ++ b.text.toList, by rw [htext, List.append_assoc]⟩
  obtain ⟨kept, rfl⟩ := hsplit
  exact ⟨kept, blanks, h.flush_of_append htext, hblanks, rfl⟩

/-- Nothing is dropped from a pending symbol that is its text. -/
theorem Behind.flush_of_toList_text (h : b.Behind base cs) (htext : b.text.toList = b.held) :
    b.flush.Behind base cs := by
  rw [← List.append_nil cs] at h
  exact h.flush_of_append (by rw [htext, List.append_nil])

/-- A gap behind what ends visibly is dropped if it ends the pending symbol. -/
theorem Behind.take_gap (h : b.Behind base cs) {more : List Char}
    (hplain : StartsPlain (b.take more).held) (hne : more ≠ [])
    (hlast : ∀ c ∈ more.getLast?, Text.isBlank c = false) (blanks : List Char) :
    ((b.take more).gap blanks).Behind base
      (cs ++ more ++ if (b.take more).Breaks blanks then [] else blanks) := by
  rw [Cut.gap]
  split
  · rw [List.append_nil]
    exact (h.take more).flush_of_toList_text (toList_text_take hplain hne hlast)
  · rw [Cut.keep, if_neg (held_take_ne_nil hne)]
    exact (h.take more).take blanks

/-- The closing brace is taken to the end of the pending symbol. -/
theorem toList_text_closed (hplain : StartsPlain b.closed.held) :
    b.closed.text.toList = b.held ++ ['}'] :=
  toList_text_of_visible hplain fun c hc => by
    rw [closed, take, List.getLast?_concat] at hc
    cases hc
    decide

/-- What is stored before a comma keeps all but blanks. -/
theorem Behind.comma (h : b.Behind base (cs ++ blanks)) (hplain : StartsPlain b.held)
    (hblanks : ∀ c ∈ blanks, Text.isBlank c = true) (hne : cs ≠ [])
    (hlast : ∀ c ∈ cs.getLast?, Text.isBlank c = false) :
    ∃ more, (∀ c ∈ more, Text.isBlank c = true) ∧ b.comma.Behind base (cs ++ more ++ [',']) := by
  obtain ⟨kept, dropped, hflush, hdropped, hsplit⟩ := h.flush hplain
  have hkept : ∃ more, kept = cs ++ more ∧ blanks = more ++ dropped := by
    rcases List.append_eq_append_iff.mp hsplit with ⟨more, rfl, rfl⟩ | ⟨more, rfl, rfl⟩
    · exact ⟨more, rfl, rfl⟩
    · cases more using List.reverseRecOn with
      | nil => exact ⟨[], by simp, by simp⟩
      | append_singleton others c =>
        have hblank := hdropped c (by simp)
        rw [hlast c (by rw [← List.append_assoc, List.getLast?_concat]; rfl)] at hblank
        cases hblank
  obtain ⟨more, rfl, rfl⟩ := hkept
  obtain ⟨taken, htexts, hchars⟩ := hflush
  have hheld : b.flush.held = [] := rfl
  refine ⟨more, fun c hc => hblanks c (List.mem_append_left _ hc), taken ++ [","], ?_, ?_⟩
  · simp [Cut.comma, htexts]
  · rw [hheld, List.append_nil] at hchars
    simp [Cut.comma, hheld, hchars]

/-- Whether a list is open behind some symbols. -/
def Open (b : Cut) (base : List String) : Prop :=
  ∃ cs, b.Behind base ('{' :: cs) ∧ '}' ∉ cs

/-- A list stays open behind characters without a closing brace. -/
theorem Open.take (h : b.Open base) (hcs : '}' ∉ cs) : (b.take cs).Open base := by
  obtain ⟨before, hbehind, hbefore⟩ := h
  exact ⟨before ++ cs, hbehind.take cs, by simp [hbefore, hcs]⟩

/-- A list stays open when a symbol ends. -/
theorem Open.flush (h : b.Open base) (hplain : StartsPlain b.held) : b.flush.Open base := by
  obtain ⟨before, hbehind, hbefore⟩ := h
  obtain ⟨kept, blanks, hkept, hblanks, hsplit⟩ := hbehind.flush hplain
  cases kept with
  | nil =>
    have hbrace := hblanks '{' (by rw [← List.nil_append blanks, ← hsplit]; exact .head _)
    exact absurd hbrace (by decide)
  | cons c cs =>
    obtain ⟨rfl, rfl⟩ := List.cons.inj hsplit
    exact ⟨cs, hkept, fun hmem => hbefore (List.mem_append_left _ hmem)⟩

/-- A list stays open in a gap. -/
theorem Open.gap (h : b.Open base) (hplain : StartsPlain b.held) (hblanks : IsGap blanks) :
    (b.gap blanks).Open base := by
  rw [Cut.gap]
  split
  · exact h.flush hplain
  · by_cases hheld : b.held = []
    · rwa [Cut.keep_of_held hheld]
    · rw [Cut.keep, if_neg hheld]
      exact h.take fun hmem => absurd (hblanks.isBlank _ hmem) (by decide)

/-- A list stays open behind a comma. -/
theorem Open.comma (h : b.Open base) (hplain : StartsPlain b.held) : b.comma.Open base := by
  obtain ⟨cs, ⟨taken, htexts, hchars⟩, hcs⟩ := h.flush hplain
  have hheld : b.flush.held = [] := rfl
  rw [hheld, List.append_nil] at hchars
  refine ⟨cs ++ [','], ⟨taken ++ [","], ?_, ?_⟩, by simp [hcs]⟩
  · simp [Cut.comma, htexts]
  · simp [Cut.comma, hheld, hchars]

/-! ### Items -/

variable {listed : Bool} {texts : List String}

/-- Whether a word of a list may come next. -/
structure Inside (b : Cut) (listed : Bool) : Prop where
  braced : b.braced = true
  listed : b.listed = listed
  inert : ∀ last ∈ b.texts.head?, last ∉ firstHalves

/-- Whether an item of a list comes next: nothing is pending but the opening brace, unless it is a
symbol of its own. -/
structure AtItem (b : Cut) (listed : Bool) : Prop extends Inside b listed where
  held : b.held = [] ∨ ∃ blanks, (∀ c ∈ blanks, Text.isBlank c = true) ∧ b.held = '{' :: blanks

/-- Whether an item of a list has been read. -/
structure PastItem (b : Cut) (listed : Bool) : Prop where
  braced : b.braced = true
  listed : b.listed = listed
  apart : b.Apart
  ne_brace : b.text ≠ "\x7b"

/-- What is cut after an opening brace and the gap behind it. -/
def start (texts : List String) (blanks : List Char) : Cut :=
  if '\n' ∈ blanks then ⟨"\x7b" :: texts, [], true, true⟩ else ⟨texts, '{' :: blanks, true, false⟩

/-- The symbol of an opening brace. -/
theorem text_opened (texts : List String) : (opened ⟨texts, [], false, false⟩).text = "\x7b" := by
  have hheld : (opened ⟨texts, [], false, false⟩).held = ['{'] := rfl
  rw [text, hheld]
  decide

/-- An opening brace and the gap behind it begin a list. -/
theorem gap_opened (texts : List String) (blanks : List Char) :
    (opened ⟨texts, [], false, false⟩).gap blanks = start texts blanks := by
  have htext := text_opened texts
  have hbreaks : (opened ⟨texts, [], false, false⟩).Breaks blanks ↔ '\n' ∈ blanks := by
    simp [Breaks, keeps, opened, take]
  simp only [gap, start, hbreaks, flush, htext]
  split
  · simp [opened, take]
  · simp [opened, take, keep]

/-- The first item of a list comes behind its opening brace. -/
theorem atItem_start (hblanks : IsGap blanks) (hinert : ∀ last ∈ texts.head?, last ∉ firstHalves) :
    (start texts blanks).AtItem (decide ('\n' ∈ blanks)) := by
  unfold start
  split
  next hline =>
    rw [decide_eq_true hline]
    exact ⟨⟨rfl, rfl, by simp; decide⟩, .inl rfl⟩
  next hline =>
    rw [decide_eq_false hline]
    exact ⟨⟨rfl, rfl, hinert⟩, .inr ⟨blanks, hblanks.isBlank, rfl⟩⟩

/-- The characters at the beginning of a list are the brace and blanks. -/
theorem behind_start (texts : List String) (hblanks : IsGap blanks) :
    ∃ lead, (∀ c ∈ lead, Text.isBlank c = true) ∧
      (start texts blanks).Behind texts ('{' :: lead) := by
  unfold start
  split
  · exact ⟨[], List.forall_mem_nil _, ["\x7b"], rfl, rfl⟩
  · exact ⟨blanks, hblanks.isBlank, [], rfl, rfl⟩

/-- A word that may come next completes no keyword. -/
theorem Inside.apart (h : b.Inside listed) (cs : List Char) : (b.take cs).Apart :=
  fun last hlast => joined?_eq_none_of_first (h.inert last hlast)

/-- An item has been read when its last character is taken. -/
theorem Inside.pastItem (h : b.Inside listed) (hplain : StartsPlain (b.take cs).held)
    (hne : cs ≠ []) (hlast : ∀ c ∈ cs.getLast?, Text.isBlank c = false ∧ c ≠ '{') :
    (b.take cs).PastItem listed where
  braced := h.braced
  listed := h.listed
  apart := h.apart cs
  ne_brace hbrace := by
    have htext := toList_text_take hplain hne fun c hc => (hlast c hc).1
    rw [hbrace] at htext
    exact (hlast '{' (by rw [← List.getLast?_append_of_ne_nil b.held hne, ← htext]; rfl)).2 rfl

/-- An item comes next behind a comma. -/
theorem PastItem.atItem_comma (h : b.PastItem listed) : b.comma.AtItem listed where
  braced := h.braced
  listed := by simp [comma, flush, h.listed, h.ne_brace]
  held := .inl rfl
  inert := by simp [comma]; decide

/-- Behind an item a line feed ends the symbol, and so does any blank if the opening brace is a
symbol of its own. -/
theorem PastItem.breaks_iff (h : b.PastItem listed) :
    b.Breaks blanks ↔ '\n' ∈ blanks ∨ listed = true ∧ blanks ≠ [] := by
  simp [Breaks, keeps, h.braced, h.listed]

/-- A gap behind an item leaves it read. -/
theorem PastItem.gap (h : b.PastItem listed) (hblanks : IsGap blanks) :
    (b.gap blanks).PastItem listed := by
  rw [Cut.gap]
  split
  · exact ⟨h.braced, by simp [flush, h.listed, h.ne_brace], apart_of_held rfl,
      by rw [text_of_held rfl]; decide⟩
  · exact ⟨h.braced, h.listed, apart_keep h.apart hblanks, by
      rw [text_keep hblanks]
      exact h.ne_brace⟩

end Cut

/-- An object with the fields that are captured from a text. -/
def ObjectDefinition.capture (object : ObjectDefinition) (keychain : List String)
    (unit text : String) : ObjectDefinition :=
  { object with
    fields := Capture.fieldMap keychain (SymbolTable.ofText unit text).compileSequence }

/-! ### Scanning a list -/

namespace Scanner

variable {s : Scanner} {b : Cut} {listed : Bool} {base texts : List String}
  {cs blanks : List Char}

/-- A word before a list, with a gap behind it. -/
theorem Within.keyword (h : s.Within ⟨texts, [], false, false⟩) {word : String}
    (hword : IsWord word) (hplain : StartsPlain word.toList)
    (hjoined : ∀ last ∈ texts.head?, joined? last word = none) (hblanks : IsGap blanks)
    (hne : blanks ≠ []) :
    ((word.toList ++ blanks).foldl step s).Within ⟨word :: texts, [], false, false⟩ := by
  have htext : (Cut.mk texts word.toList false false).text = word :=
    String.toList_injective (Cut.toList_text_of_visible hplain fun c hc =>
      hword.visible c (List.mem_of_mem_getLast? hc))
  have hbrace : word ≠ "\x7b" := by
    rintro rfl
    exact absurd hword (by decide)
  have hcut : (Cut.mk texts word.toList false false).gap blanks =
      ⟨word :: texts, [], false, false⟩ := by
    rw [Cut.gap, if_pos (.inr ⟨rfl, hne⟩), Cut.flush, htext]
    simp [hbrace, hword.nonempty]
  have hapart : (Cut.mk texts word.toList false false).Apart := by
    rw [Cut.Apart, htext]
    exact hjoined
  rw [List.foldl_append, ← hcut]
  exact (h.word hword hplain).gap hapart hblanks

/-- A list begins with its brace and a gap. -/
theorem Within.start (h : s.Within ⟨texts, [], false, false⟩) (hblanks : IsGap blanks) :
    (('{' :: blanks).foldl step s).Within (Cut.start texts blanks) := by
  have hapart : (Cut.opened ⟨texts, [], false, false⟩).Apart :=
    Cut.apart_of_text (by rw [Cut.text_opened]; decide)
  rw [List.foldl_cons, ← Cut.gap_opened]
  exact (h.opened rfl rfl).gap hapart hblanks

/-- The symbols of a list that is closed. -/
theorem Within.closing (h : s.Within b) (hbraced : b.braced = true) (hbehind : b.Behind base cs)
    (unit : String) : ∃ symbols, b.closed.flush.texts = symbols.reverse ++ base ∧
      ((s.step '}').finish unit).compileSequence = base.reverse ++ symbols ∧
      symbols.flatMap String.toList = cs ++ ['}'] ∧ ∀ text ∈ symbols, text ≠ "" := by
  have hclosed := h.closed hbraced
  have htext := Cut.toList_text_closed hclosed.held_plain
  have hapart : b.closed.Apart := Cut.apart_of_text fun hmem => by
    have hbrace : '}' ∈ b.closed.text.toList := by
      rw [htext]
      exact List.mem_append_right _ List.mem_cons_self
    have hnone : ∀ half ∈ secondHalves, '}' ∉ half.toList := by decide
    exact hnone _ hmem hbrace
  have hopen : b.closed.Behind base (cs ++ ['}']) := hbehind.take ['}']
  obtain ⟨symbols, htexts, hchars⟩ := hopen.flush_of_toList_text htext
  refine ⟨symbols, htexts, ?_, ?_, fun text hsymbol => ?_⟩
  · rw [hclosed.compileSequence hapart, htexts]
    simp
  · simpa [Cut.flush] using hchars
  · have hmem : text ∈ b.closed.flush.texts := by simp [htexts, hsymbol]
    exact ((hclosed.flush hapart).texts_plain text hmem).1

end Scanner

namespace Capture

variable {symbols : List String} {cs : List Char}

/-- Of two texts in a row that end with a brace and hold no other one, the first holds it if the
second is empty, and the second ends with it otherwise. -/
theorem brace_of_append {first second : List Char} (h : first ++ second = cs ++ ['}'])
    (hbrace : '}' ∉ cs) : '}' ∈ first ∧ second = [] ∨
      '}' ∉ first ∧ ∃ more, '}' ∉ more ∧ second = more ++ ['}'] := by
  rcases List.eq_nil_or_concat second with rfl | ⟨more, last, rfl⟩
  · rw [List.append_nil] at h
    exact .inl ⟨by simp [h], rfl⟩
  · rw [List.concat_eq_append, ← List.append_assoc] at h
    obtain ⟨rfl, hlast⟩ := List.append_inj' h rfl
    obtain rfl := List.singleton_inj.mp hlast
    rw [List.mem_append, not_or] at hbrace
    exact .inr ⟨hbrace.1, more, hbrace.2, List.concat_eq_append⟩

/-- The symbols of a list are captured to their end. -/
theorem throughBrace_eq_self (hchars : symbols.flatMap String.toList = cs ++ ['}'])
    (hbrace : '}' ∉ cs) (hne : ∀ text ∈ symbols, text ≠ "") :
    throughBrace symbols = (symbols, []) := by
  induction symbols generalizing cs with
  | nil => simp at hchars
  | cons symbol rest ih =>
    obtain ⟨_, hne⟩ := List.forall_mem_cons.mp hne
    rw [List.flatMap_cons] at hchars
    rcases brace_of_append hchars hbrace with ⟨hheld, hrest⟩ | ⟨hheld, more, hmore, hrest⟩
    · have hnil : rest = [] := List.eq_nil_iff_forall_not_mem.mpr fun text htext => by
        refine hne text htext (String.toList_eq_nil_iff.mp ?_)
        exact List.flatMap_eq_nil_iff.mp hrest text htext
      have hholds : Text.holds '}' symbol = true := by simpa [Text.holds] using hheld
      rw [throughBrace, hholds, hnil]
      rfl
    · have hholds : Text.holds '}' symbol = false := by simpa [Text.holds] using hheld
      rw [throughBrace, hholds, ih hrest hmore hne]
      rfl

/-- The first symbol of a list begins with its brace. -/
theorem beginsWith_of_chars {first : String} {rest : List String}
    (hchars : (first :: rest).flatMap String.toList = '{' :: cs) (hne : first ≠ "") :
    Text.beginsWith '{' first = true := by
  obtain ⟨c, others, hfirst⟩ := List.exists_cons_of_ne_nil (mt String.toList_eq_nil_iff.mp hne)
  rw [List.flatMap_cons, hfirst] at hchars
  rw [Text.beginsWith, hfirst, (List.cons.inj hchars).1]
  exact beq_self_eq_true _

/-- The items of a list in braces are the parts of its text between commas, without the blanks
around them. -/
theorem listItems_braced {parts : List (List Char)} (hbrace : ∀ part ∈ parts, '}' ∉ part)
    (hcomma : ∀ part ∈ parts, ',' ∉ part) (hne : parts ≠ []) :
    listItems (String.ofList ('{' :: [','].intercalate parts ++ ['}'])) =
      (parts.map fun part => Text.trim (String.ofList part)).filter fun item => !item.isEmpty := by
  have hfree : '}' ∉ [','].intercalate parts := fun hmem => by
    rcases Text.mem_of_mem_intercalate hmem with hsame | ⟨part, hpart, hmem⟩
    · cases hsame
    · exact hbrace part hpart hmem
  have hbare : Text.removeFirst '}' (Text.removeFirst '{'
      (String.ofList ('{' :: [','].intercalate parts ++ ['}']))) =
        String.ofList ([','].intercalate parts) := by
    apply String.toList_injective
    simp only [Text.removeFirst, String.toList_ofList, List.cons_append, List.erase_cons_head]
    rw [List.erase_append_right _ hfree]
    simp
  rw [listItems, hbare, Text.splitAt_eq_splitOn, String.toList_ofList,
    List.splitOn_intercalate _ hcomma hne, List.map_map]
  rfl

/-- The value of symbols whose characters are those of a list in braces. -/
theorem plainValue_of_chars {first : String} {rest : List String}
    (hchars : (first :: rest).flatMap String.toList = '{' :: cs ++ ['}'])
    (hfree : ∀ c ∈ cs, c ≠ '}' ∧ c ≠ '"') (hne : ∀ text ∈ first :: rest, text ≠ "") :
    plainValue first rest = (.list (listItems (String.ofList ('{' :: cs ++ ['}']))), []) := by
  have hbegins := beginsWith_of_chars hchars (hne first List.mem_cons_self)
  have hthrough := throughBrace_eq_self hchars
    (by simpa using fun hmem => (hfree _ hmem).1 rfl) hne
  have hquote : Text.remove '"' first = first := by
    rw [Text.remove, List.filter_eq_self.mpr, String.ofList_toList]
    intro c hc
    have hmem : c ∈ '{' :: cs ++ ['}'] := by
      rw [← hchars]
      exact List.mem_flatMap.mpr ⟨first, List.mem_cons_self, hc⟩
    rw [bne_iff_ne]
    rintro rfl
    exact absurd rfl (hfree _ (by simpa using hmem)).2
  have hwhole : String.ofList ('{' :: cs ++ ['}']) = first ++ String.join rest := by
    apply String.toList_injective
    rw [String.toList_ofList, ← hchars, String.toList_append, String.toList_join,
      List.flatMap_cons]
  rw [plainValue, hquote, hbegins, hwhole]
  rw [throughBrace] at hthrough
  simp only [Bool.not_true, Bool.false_eq_true, if_false]
  split
  next hheld =>
    rw [if_pos hheld] at hthrough
    obtain ⟨hrest, rfl⟩ := Prod.mk.inj hthrough
    rw [String.join_nil, String.append_empty]
  next hheld =>
    rw [if_neg hheld] at hthrough
    obtain ⟨hrest, hleft⟩ := Prod.mk.inj hthrough
    rw [(List.cons.inj hrest).2, hleft]

/-- A keyword and the symbols of its value are captured as one field. -/
theorem field?_of_value {keychain : List String} {key first : String} {rest : List String}
    {v : FieldValue} (hkey : key ∈ keychain) (hvalue : value key first rest = (v, [])) :
    (fieldMap keychain (key :: first :: rest)).get? key = some v := by
  have hfields : fields keychain (key :: first :: rest) = [(key, v)] := by
    rw [fields, if_pos hkey, hvalue]
    simp [fields]
  rw [fieldMap, hfields]
  exact (OrderedMap.get?_insert _ _ _ _).trans (if_pos rfl)

end Capture

end Smi
