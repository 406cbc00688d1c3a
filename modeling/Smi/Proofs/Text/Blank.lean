import Smi.Text.Blank

/-!
# Texts without blanks

Trimming leaves a text that neither begins nor ends with a blank as it is, and a text is cut into
words exactly where its blanks are.
-/

namespace Smi.Text

variable {cs first rest : List Char} {cut : Char → Bool}

/-! ### Trimming -/

/-- Nothing is trimmed off the front where a visible character stands. -/
theorem dropWhile_isBlank_of_head? (h : ∀ c ∈ cs.head?, isBlank c = false) :
    cs.dropWhile isBlank = cs := by
  cases cs with
  | nil => rfl
  | cons c rest => rw [List.dropWhile_cons, h c rfl, if_neg Bool.false_ne_true]

/-- A text is trimmed if no blank stands at its ends. -/
theorem trimChars_eq_self (hhead : ∀ c ∈ cs.head?, isBlank c = false)
    (hlast : ∀ c ∈ cs.getLast?, isBlank c = false) : trimChars cs = cs := by
  rw [← List.head?_reverse] at hlast
  rw [trimChars, dropWhile_isBlank_of_head? hhead, dropWhile_isBlank_of_head? hlast,
    List.reverse_reverse]

/-- Blanks in front are trimmed off up to the first visible character. -/
theorem dropWhile_isBlank_append {before : List Char} (hbefore : ∀ c ∈ before, isBlank c = true)
    (hhead : ∀ c ∈ cs.head?, isBlank c = false) : (before ++ cs).dropWhile isBlank = cs := by
  rw [List.dropWhile_append_of_pos hbefore, dropWhile_isBlank_of_head? hhead]

/-- Blanks around a text are trimmed away. -/
theorem trimChars_append {before behind : List Char} (hbefore : ∀ c ∈ before, isBlank c = true)
    (hbehind : ∀ c ∈ behind, isBlank c = true) (hnonempty : cs ≠ [])
    (hhead : ∀ c ∈ cs.head?, isBlank c = false) (hlast : ∀ c ∈ cs.getLast?, isBlank c = false) :
    trimChars (before ++ cs ++ behind) = cs := by
  obtain ⟨first, rest, rfl⟩ := List.exists_cons_of_ne_nil hnonempty
  have hfront :
      (before ++ first :: rest ++ behind).dropWhile isBlank = first :: rest ++ behind := by
    rw [List.append_assoc]
    exact dropWhile_isBlank_append hbefore hhead
  have hback : (first :: rest ++ behind).reverse.dropWhile isBlank = (first :: rest).reverse := by
    rw [List.reverse_append]
    refine dropWhile_isBlank_append (fun c hc => hbehind c (List.mem_reverse.mp hc)) fun c hc => ?_
    rw [List.head?_reverse] at hc
    exact hlast c hc
  rw [trimChars, hfront, hback, List.reverse_reverse]

/-- Blanks behind a text are trimmed off. -/
theorem trimChars_append_blanks {behind : List Char} (h : ∀ c ∈ behind, isBlank c = true) :
    trimChars (cs ++ behind) = trimChars cs := by
  have hbehind : behind.dropWhile isBlank = [] := by
    rw [← List.append_nil behind]
    exact dropWhile_isBlank_append h fun _ hc => nomatch hc
  have hback : ∀ c ∈ behind.reverse, isBlank c = true := fun c hc => h c (List.mem_reverse.mp hc)
  rw [trimChars, trimChars, List.dropWhile_append]
  split
  next hempty => rw [hbehind, List.isEmpty_iff.mp hempty]
  next => rw [List.reverse_append, List.dropWhile_append_of_pos hback]

/-- Trimming keeps what stands at the front of a text, up to a last character that is no blank. -/
theorem exists_trimChars_append (rest : List Char) (hhead : ∀ c ∈ first.head?, isBlank c = false)
    (hlast : ∀ c ∈ first.getLast?, isBlank c = false) (hnonempty : first ≠ []) :
    ∃ kept, trimChars (first ++ rest) = first ++ kept := by
  have hfront : (first ++ rest).dropWhile isBlank = first ++ rest := by
    obtain ⟨c, others, rfl⟩ := List.exists_cons_of_ne_nil hnonempty
    exact dropWhile_isBlank_of_head? hhead
  have hback : first.reverse.dropWhile isBlank = first.reverse :=
    dropWhile_isBlank_of_head? fun c hc => hlast c (by rwa [List.head?_reverse] at hc)
  rw [trimChars, hfront, List.reverse_append, List.dropWhile_append, hback]
  split
  · exact ⟨[], by rw [List.reverse_reverse, List.append_nil]⟩
  · exact ⟨_, by rw [List.reverse_append, List.reverse_reverse]⟩

/-- The characters that are no blanks. -/
def visible (cs : List Char) : List Char :=
  cs.filter fun c => !isBlank c

/-- The visible characters of two texts follow each other. -/
theorem visible_append (first rest : List Char) :
    visible (first ++ rest) = visible first ++ visible rest :=
  List.filter_append ..

/-- Nothing of blanks is visible. -/
theorem visible_eq_nil (h : ∀ c ∈ cs, isBlank c = true) : visible cs = [] :=
  List.filter_eq_nil_iff.mpr fun c hc => by simp [h c hc]

/-- The characters that are taken as blanks are blanks. -/
theorem isBlank_of_mem_takeWhile {c : Char} (h : c ∈ cs.takeWhile isBlank) : isBlank c = true :=
  List.all_eq_true.mp List.all_takeWhile c h

/-- The first character behind the blanks is visible. -/
theorem isBlank_of_head?_dropWhile {c : Char} (h : c ∈ (cs.dropWhile isBlank).head?) :
    isBlank c = false := by
  have hfirst := List.head?_dropWhile_not isBlank cs
  rw [Option.mem_def.mp h] at hfirst
  exact hfirst

/-- Trimming cuts blanks off the back of what is left when the front is cut off. -/
theorem exists_dropWhile_eq (cs : List Char) : ∃ behind, (∀ c ∈ behind, isBlank c = true) ∧
    cs.dropWhile isBlank = trimChars cs ++ behind := by
  refine ⟨((cs.dropWhile isBlank).reverse.takeWhile isBlank).reverse,
    fun c hc => isBlank_of_mem_takeWhile (List.mem_reverse.mp hc), ?_⟩
  rw [trimChars, ← List.reverse_append, List.takeWhile_append_dropWhile, List.reverse_reverse]

/-- No blank is left at the front of a trimmed text. -/
theorem isBlank_head?_trimChars (cs : List Char) :
    ∀ c ∈ (trimChars cs).head?, isBlank c = false := by
  intro c hc
  obtain ⟨behind, -, hdrop⟩ := exists_dropWhile_eq cs
  have hfirst : c ∈ (cs.dropWhile isBlank).head? := by
    rw [hdrop, Option.mem_def, List.head?_append, Option.mem_def.mp hc, Option.some_or]
  exact isBlank_of_head?_dropWhile hfirst

/-- No blank is left at the back of a trimmed text. -/
theorem isBlank_getLast?_trimChars (cs : List Char) :
    ∀ c ∈ (trimChars cs).getLast?, isBlank c = false := by
  intro c hc
  rw [trimChars, List.getLast?_reverse] at hc
  exact isBlank_of_head?_dropWhile hc

/-- Trimming takes only blanks away. -/
theorem exists_eq_trimChars (cs : List Char) : ∃ before behind,
    cs = before ++ trimChars cs ++ behind ∧ (∀ c ∈ before, isBlank c = true) ∧
      ∀ c ∈ behind, isBlank c = true := by
  obtain ⟨behind, hbehind, hdrop⟩ := exists_dropWhile_eq cs
  refine ⟨cs.takeWhile isBlank, behind, ?_, fun c => isBlank_of_mem_takeWhile, hbehind⟩
  rw [List.append_assoc, ← hdrop, List.takeWhile_append_dropWhile]

/-- Nothing visible is trimmed off. -/
theorem visible_trimChars (cs : List Char) : visible (trimChars cs) = visible cs := by
  obtain ⟨before, behind, hcs, hbefore, hbehind⟩ := exists_eq_trimChars cs
  have hvisible := congrArg visible hcs
  rw [visible_append, visible_append, visible_eq_nil hbefore, visible_eq_nil hbehind,
    List.nil_append, List.append_nil] at hvisible
  exact hvisible.symm

/-- A text without a character stays as it is when the character is removed. -/
theorem remove_of_not_mem {c : Char} {text : String} (h : c ∉ text.toList) :
    remove c text = text := by
  have hkept : ∀ other ∈ text.toList, (other != c) = true := fun other hother =>
    bne_iff_ne.mpr fun hsame => h (hsame ▸ hother)
  rw [remove, List.filter_eq_self.mpr hkept, String.ofList_toList]

/-- A character that is no blank occurs as often without the blanks at the ends. -/
theorem count_trimChars {c : Char} (hc : isBlank c = false) (cs : List Char) :
    (trimChars cs).count c = cs.count c := by
  have hvisible (cs : List Char) : (visible cs).count c = cs.count c :=
    List.count_filter (by rw [hc]; rfl)
  rw [← hvisible, visible_trimChars, hvisible]

/-! ### Cutting -/

/-- A text is taken and dropped up to the first occurrence of a character. -/
theorem span_of_not_mem {separator : Char} (h : separator ∉ first) (rest : List Char) :
    (first ++ separator :: rest).takeWhile (· ≠ separator) = first ∧
      (first ++ separator :: rest).dropWhile (· ≠ separator) = separator :: rest := by
  have hkept : ∀ c ∈ first, decide (c ≠ separator) = true := fun c hc =>
    decide_eq_true fun hsame => h (hsame ▸ hc)
  rw [List.takeWhile_append_of_pos hkept, List.dropWhile_append_of_pos hkept]
  simp

/-- Characters without a cut are one piece. -/
theorem pieces_of_forall (h : ∀ c ∈ cs, cut c = false) : pieces cut cs = [cs] := by
  induction cs with
  | nil => rfl
  | cons c rest ih =>
    obtain ⟨hc, hrest⟩ := List.forall_mem_cons.mp h
    rw [pieces, hc, if_neg Bool.false_ne_true, ih hrest]

/-- The parts of a text hold its characters except those at which it is cut. -/
theorem flatten_pieces (cut : Char → Bool) (cs : List Char) :
    (pieces cut cs).flatten = cs.filter fun c => !cut c := by
  induction cs with
  | nil => rfl
  | cons c rest ih =>
    unfold pieces
    split
    next hcut => simp [hcut, ih]
    next hcut =>
      split
      next hpieces => simp [hcut, ← ih, hpieces]
      next first others hpieces => simp [hcut, ← ih, hpieces]

/-- Another character occurs as often in the parts as in the text. -/
theorem count_splitAt {c separator : Char} (hc : c ≠ separator) (text : String) :
    ((splitAt separator text).flatMap String.toList).count c = text.toList.count c := by
  have hchars : (splitAt separator text).flatMap String.toList =
      (pieces (· == separator) text.toList).flatten := by
    simp [splitAt, List.flatMap_def]
  rw [hchars, flatten_pieces, List.count_filter (by simpa using hc)]

/-- A character that is no blank occurs as often in parts without their blank ends, even if the
empty ones of them are left out. -/
theorem count_trimmed {c : Char} (hc : isBlank c = false) (parts : List String) :
    (((parts.map trim).filter fun part => !part.isEmpty).flatMap String.toList).count c =
      (parts.flatMap String.toList).count c := by
  induction parts with
  | nil => rfl
  | cons part rest ih =>
    have htrim : (trim part).toList.count c = part.toList.count c := by
      rw [trim, String.toList_ofList, count_trimChars hc]
    rw [List.map_cons, List.filter_cons, List.flatMap_cons, List.count_append, ← htrim]
    split
    next => rw [List.flatMap_cons, List.count_append, ih]
    next hempty =>
      have hnone : trim part = "" := by simpa using hempty
      rw [ih, hnone, String.toList_empty, List.count_nil, Nat.zero_add]

/-- A text is cut behind its first part. -/
theorem pieces_append_cons {separator : Char} (hfirst : ∀ c ∈ first, cut c = false)
    (hseparator : cut separator = true) :
    pieces cut (first ++ separator :: rest) = first :: pieces cut rest := by
  induction first with
  | nil => rw [List.nil_append, pieces, if_pos hseparator]
  | cons c others ih =>
    obtain ⟨hc, hothers⟩ := List.forall_mem_cons.mp hfirst
    rw [List.cons_append, pieces, hc, if_neg Bool.false_ne_true, ih hothers]

/-- The first part of a text ends before the first cut. -/
theorem head?_pieces (cut : Char → Bool) (cs : List Char) :
    (pieces cut cs).head? = some (cs.takeWhile fun c => !cut c) := by
  induction cs with
  | nil => rfl
  | cons c rest ih =>
    unfold pieces
    split
    next hcut => simp [hcut]
    next hcut =>
      split
      next hnone => simp [hnone] at ih
      next first others hpieces =>
        rw [hpieces, List.head?_cons, Option.some.injEq] at ih
        simp [hcut, ih]

/-- A text without blanks is one word. -/
theorem words_of_visible {text : String} (h : ∀ c ∈ text.toList, isBlank c = false)
    (hne : text.toList ≠ []) : words text = [text] := by
  rw [words, pieces_of_forall h]
  simp [hne]

/-- Blanks in front of a text make no words. -/
theorem words_append {before : List Char} (h : ∀ c ∈ before, isBlank c = true) (text : String) :
    words (String.ofList (before ++ text.toList)) = words text := by
  induction before with
  | nil => rw [List.nil_append, String.ofList_toList]
  | cons c rest ih =>
    obtain ⟨hc, hrest⟩ := List.forall_mem_cons.mp h
    rw [← ih hrest, words, words, String.toList_ofList, String.toList_ofList, List.cons_append,
      pieces, if_pos hc]
    rfl

/-- Two words with blanks between them. -/
theorem words_two {a b : String} {blanks : List Char} (ha : ∀ c ∈ a.toList, isBlank c = false)
    (hb : ∀ c ∈ b.toList, isBlank c = false) (hane : a.toList ≠ []) (hbne : b.toList ≠ [])
    (hblanks : ∀ c ∈ blanks, isBlank c = true) (hne : blanks ≠ []) :
    words (String.ofList (a.toList ++ blanks ++ b.toList)) = [a, b] := by
  obtain ⟨c, rest, rfl⟩ := List.exists_cons_of_ne_nil hne
  obtain ⟨hc, hrest⟩ := List.forall_mem_cons.mp hblanks
  have hsecond := words_append hrest b
  rw [words_of_visible hb hbne, words, String.toList_ofList] at hsecond
  rw [words, String.toList_ofList, List.append_assoc, List.cons_append, pieces_append_cons ha hc,
    List.filter_cons_of_pos (by simpa using hane), List.map_cons, hsecond, String.ofList_toList]

/-- Two words with a space between them. -/
theorem words_pair {a b : String} (ha : ∀ c ∈ a.toList, isBlank c = false)
    (hb : ∀ c ∈ b.toList, isBlank c = false) (hane : a.toList ≠ []) (hbne : b.toList ≠ []) :
    words (a ++ " " ++ b) = [a, b] := by
  have hchars : a ++ " " ++ b = String.ofList (a.toList ++ [' '] ++ b.toList) :=
    String.toList_injective (by simp)
  rw [hchars, words_two ha hb hane hbne (List.all_eq_true.mp rfl) (List.cons_ne_nil _ _)]

end Smi.Text
