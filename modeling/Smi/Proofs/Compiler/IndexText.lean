import Mathlib.Data.List.Forall2
import Smi.Proofs.Compiler.BracedText
import Smi.Proofs.Text.Dotted

/-!
# Index clauses

An index clause lists columns in braces, with `IMPLIED` before some of them. How it is laid out in
lines decides which of its words are symbols of their own. The symbols are joined without blanks
when they are captured, so `IMPLIED` becomes a part of the column behind it wherever the two are
different symbols; apart from this the layout is of no importance.
-/

namespace Smi

open Scanner

/-- An item of an index as it is written: the blanks before it, those behind `IMPLIED`, and those
behind its column. -/
structure WrittenItem where
  item : IndexItem
  before : List Char
  between : List Char
  after : List Char
  column : IsIdentifier Char.isAlpha item.column
  before_gap : IsGap before
  between_gap : IsGap between
  between_ne : between ≠ []
  after_gap : IsGap after

namespace WrittenItem

variable {e : WrittenItem} {listed : Bool} {s : Scanner} {b : Cut} {base : List String}
  {cs : List Char}

/-- `IMPLIED` and the blanks behind it, if the item is implied. -/
def mark (e : WrittenItem) : List Char :=
  if e.item.implied then "IMPLIED".toList ++ e.between else []

/-- The characters of an item. -/
def chars (e : WrittenItem) : List Char :=
  e.before ++ (e.mark ++ e.item.column.toList ++ e.after)

/-- Whether `IMPLIED` and its column fall into different symbols. -/
def IsTorn (listed : Bool) (e : WrittenItem) : Prop :=
  e.item.implied = true ∧ (listed = true ∨ '\n' ∈ e.between)

instance (listed : Bool) (e : WrittenItem) : Decidable (e.IsTorn listed) :=
  inferInstanceAs (Decidable (_ ∧ _))

/-- What is left of an item when its symbols are joined. -/
def joined (listed : Bool) (e : WrittenItem) : String :=
  if e.IsTorn listed then "IMPLIED" ++ e.item.column
  else String.ofList (e.mark ++ e.item.column.toList)

/-- The item that is read from the symbols. -/
def captured (listed : Bool) (e : WrittenItem) : IndexItem :=
  if e.IsTorn listed then ⟨"IMPLIED" ++ e.item.column, false⟩
  else ⟨e.item.column, e.item.implied && e.item.column ≠ "IMPLIED"⟩

/-- The text of an index clause. -/
def clause (gap : List Char) (first : WrittenItem) (rest : List WrittenItem) : String :=
  String.ofList ("INDEX".toList ++ gap ++ '{' :: first.chars ++
    rest.flatMap (fun e => ',' :: e.chars) ++ ['}'])

/-! ### Reading an item -/

/-- The mark of an implied item is an identifier. -/
theorem isIdentifier_implied : IsIdentifier Char.isAlpha "IMPLIED" := by
  decide

/-- The name of a column has no blanks. -/
theorem isBlank_column (e : WrittenItem) : ∀ c ∈ e.item.column.toList, Text.isBlank c = false :=
  fun _ => e.column.isBlank_eq_false

/-- An item is read without its mark where it is torn. -/
theorem read?_joined (listed : Bool) (e : WrittenItem) :
    IndexItem.read? (e.joined listed) = some (e.captured listed) := by
  have himplied : ∀ c ∈ "IMPLIED".toList, Text.isBlank c = false :=
    fun _ => isIdentifier_implied.isBlank_eq_false
  unfold joined captured
  split
  next =>
    have hword : Text.words ("IMPLIED" ++ e.item.column) = ["IMPLIED" ++ e.item.column] := by
      refine Text.words_of_visible (fun c hc => ?_) (by simp)
      rw [String.toList_append, List.mem_append] at hc
      exact hc.elim (himplied c) (e.isBlank_column c)
    rw [IndexItem.read?, hword]
    simp
  next hwhole =>
    cases hitem : e.item.implied with
    | false =>
      have hword : Text.words e.item.column = [e.item.column] :=
        Text.words_of_visible e.isBlank_column e.column.nonempty
      simp [mark, hitem, IndexItem.read?, hword]
    | true =>
      have hwords := Text.words_two himplied e.isBlank_column (by decide) e.column.nonempty
        e.between_gap.isBlank e.between_ne
      rw [mark, if_pos hitem, IndexItem.read?, hwords]
      simp [eq_comm]

/-! ### Scanning an item -/

/-- A column is scanned up to the comma or brace behind it. -/
theorem within_column (h : s.Within b) (hinside : b.Inside listed) (hbehind : b.Behind base cs)
    (e : WrittenItem) : ∃ b' trail, (∀ c ∈ trail, Text.isBlank c = true) ∧
      ((e.item.column.toList ++ e.after).foldl step s).Within b' ∧ b'.PastItem listed ∧
      b'.Behind base (cs ++ e.item.column.toList ++ trail) := by
  have hword := h.word e.column.isWord e.column.startsPlain
  have hpast := hinside.pastItem hword.held_plain e.column.nonempty e.column.getLast?_visible
  have hgap := hbehind.take_gap hword.held_plain e.column.nonempty
    (fun c hc => (e.column.getLast?_visible c hc).1) e.after
  refine ⟨_, _, ?_, ?_, hpast.gap e.after_gap, hgap⟩
  · split
    · exact List.forall_mem_nil _
    · exact e.after_gap.isBlank
  · rw [List.foldl_append]
    exact hword.gap hpast.apart e.after_gap

/-- The mark of an implied item is scanned up to its column. -/
theorem within_mark (h : s.Within b) (hinside : b.Inside listed) (hbehind : b.Behind base cs)
    (e : WrittenItem) : ∃ b', (e.mark.foldl step s).Within b' ∧ b'.Inside listed ∧
      b'.Behind base (cs ++ if e.IsTorn listed then "IMPLIED".toList else e.mark) := by
  by_cases hitem : e.item.implied = true
  · have hword := h.word isIdentifier_implied.isWord isIdentifier_implied.startsPlain
    have hpast := hinside.pastItem hword.held_plain (by decide)
      isIdentifier_implied.getLast?_visible
    have hvisible : ∀ c ∈ "IMPLIED".toList.getLast?, Text.isBlank c = false :=
      fun c hc => (isIdentifier_implied.getLast?_visible c hc).1
    have hbreaks : (b.take "IMPLIED".toList).Breaks e.between ↔ e.IsTorn listed := by
      rw [hpast.breaks_iff, IsTorn]
      simp [hitem, e.between_ne, or_comm]
    have hinert : ∀ last ∈ ((b.take "IMPLIED".toList).gap e.between).texts.head?,
        last ∉ firstHalves := by
      rw [Cut.gap]
      split
      · have hends : ∀ half ∈ firstHalves, half.toList.getLast? ≠ some 'D' := by decide
        have htext := Cut.toList_text_take hword.held_plain (by decide) hvisible
        rw [Cut.flush, if_neg (Cut.held_take_ne_nil (by decide)), List.head?_cons]
        rintro last ⟨⟩ hmem
        exact hends _ hmem (by rw [htext, List.getLast?_append_of_ne_nil _ (by decide)]; rfl)
      · exact hinside.inert
    have hgap := hbehind.take_gap hword.held_plain (by decide) hvisible e.between
    have hpast := hpast.gap e.between_gap
    refine ⟨(b.take "IMPLIED".toList).gap e.between, ?_, ⟨hpast.braced, hpast.listed, hinert⟩, ?_⟩
    · rw [mark, if_pos hitem, List.foldl_append]
      exact hword.gap (hinside.apart _) e.between_gap
    · rw [List.append_assoc] at hgap
      convert hgap using 2
      simp only [hbreaks, mark, if_pos hitem]
      split <;> simp
  · have htorn : ¬e.IsTorn listed := fun h => hitem h.1
    refine ⟨b, ?_, hinside, ?_⟩
    · rwa [mark, if_neg hitem]
    · rwa [if_neg htorn, mark, if_neg hitem, List.append_nil]

/-- An item is scanned to its joined symbols and blanks. -/
theorem within_item (h : s.Within b) (hinside : b.Inside listed) (hbehind : b.Behind base cs)
    (e : WrittenItem) : ∃ b' trail, (∀ c ∈ trail, Text.isBlank c = true) ∧
      ((e.mark ++ e.item.column.toList ++ e.after).foldl step s).Within b' ∧
      b'.PastItem listed ∧ b'.Behind base (cs ++ (e.joined listed).toList ++ trail) := by
  obtain ⟨marked, hmarked, hinside, hbehind⟩ := within_mark h hinside hbehind e
  obtain ⟨b', trail, htrail, hwithin, hpast, hbehind⟩ := within_column hmarked hinside hbehind e
  refine ⟨b', trail, htrail, ?_, hpast, ?_⟩
  · rw [List.append_assoc, List.foldl_append]
    exact hwithin
  · convert hbehind using 2
    rw [joined]
    split <;> simp

/-! ### Scanning a clause -/

/-- Whether characters are those of a text with blanks around it. -/
def IsPadded (core : String) (cs : List Char) : Prop :=
  ∃ lead trail, (∀ c ∈ lead, Text.isBlank c = true) ∧ (∀ c ∈ trail, Text.isBlank c = true) ∧
    cs = lead ++ core.toList ++ trail

/-- The joined symbols of an item end with its column. -/
theorem exists_joined_eq (listed : Bool) (e : WrittenItem) : ∃ mark,
    (e.joined listed).toList = mark ++ e.item.column.toList ∧
      (mark = [] ∨ mark.head? = some 'I') ∧
      ∀ c ∈ mark, Text.isBlank c = true ∨ c.isAlphanum = true := by
  have himplied : ∀ c ∈ "IMPLIED".toList, c.isAlphanum = true := List.all_eq_true.mp (by decide)
  unfold joined mark
  split
  · exact ⟨"IMPLIED".toList, String.toList_append, .inr rfl, fun c hc => .inr (himplied c hc)⟩
  · refine ⟨_, String.toList_ofList, ?_, fun c hc => ?_⟩
    · split
      · exact .inr rfl
      · exact .inl rfl
    · split at hc
      · exact (List.mem_append.mp hc).symm.imp (e.between_gap.isBlank c) (himplied c)
      · cases hc

/-- The text of an item neither begins nor ends with a blank. -/
theorem joined_visible (listed : Bool) (e : WrittenItem) : (e.joined listed).toList ≠ [] ∧
    (∀ c ∈ (e.joined listed).toList.head?, Text.isBlank c = false) ∧
    ∀ c ∈ (e.joined listed).toList.getLast?, Text.isBlank c = false := by
  obtain ⟨mark, hjoined, hmark, -⟩ := exists_joined_eq listed e
  rw [hjoined]
  refine ⟨List.append_ne_nil_of_right_ne_nil _ e.column.nonempty, fun c hc => ?_, fun c hc => ?_⟩
  · rcases hmark with rfl | hmark
    · exact e.isBlank_column c (List.mem_of_mem_head? hc)
    · rw [List.head?_append, hmark] at hc
      cases hc
      decide
  · rw [List.getLast?_append_of_ne_nil _ e.column.nonempty] at hc
    exact e.isBlank_column c (List.mem_of_mem_getLast? hc)

/-- The items behind the first one are scanned one by one. -/
theorem within_rest (rest : List WrittenItem) (h : s.Within b) (hpast : b.PastItem listed)
    {cores : List String} {done : List (List Char)} (hdone : List.Forall₂ IsPadded cores done)
    {lead trail : List Char} (hlead : ∀ c ∈ lead, Text.isBlank c = true)
    (htrail : ∀ c ∈ trail, Text.isBlank c = true)
    (hbehind : b.Behind base ('{' :: done.flatMap (fun part => part ++ [',']) ++ lead ++
      (e.joined listed).toList ++ trail)) :
    ∃ b' parts, ((rest.flatMap fun e => ',' :: e.chars).foldl step s).Within b' ∧
      b'.braced = true ∧ b'.Behind base ('{' :: [','].intercalate parts) ∧
      List.Forall₂ IsPadded (cores ++ (e :: rest).map (joined listed)) parts := by
  induction rest generalizing s b cores done e lead trail with
  | nil =>
    refine ⟨b, done ++ [lead ++ (e.joined listed).toList ++ trail], h, hpast.braced, ?_, ?_⟩
    · rw [Text.intercalate_concat]
      convert hbehind using 1
      simp
    · exact List.rel_append hdone (.cons ⟨lead, trail, hlead, htrail, rfl⟩ .nil)
  | cons next rest ih =>
    obtain ⟨hne, _, hlast⟩ := joined_visible listed e
    obtain ⟨more, hmore, hcomma⟩ := hbehind.comma h.held_plain htrail
      (List.append_ne_nil_of_right_ne_nil _ hne)
      (by rwa [List.getLast?_append_of_ne_nil _ hne])
    have hwithin := h.comma hpast.apart
    have hgap := hwithin.gap (Cut.apart_of_held rfl) next.before_gap
    rw [Cut.gap_of_held rfl] at hgap
    obtain ⟨b', trail', htrail', hitem, hpast', hbehind'⟩ :=
      within_item hgap hpast.atItem_comma.toInside hcomma next
    have hdone : List.Forall₂ IsPadded (cores ++ [e.joined listed])
        (done ++ [lead ++ (e.joined listed).toList ++ more]) :=
      List.rel_append hdone (.cons ⟨lead, more, hlead, hmore, rfl⟩ .nil)
    obtain ⟨b'', parts, hrest, hbraced, hparts, hpadded⟩ :=
      ih (e := next) hitem hpast' hdone (List.forall_mem_nil _) htrail' (by
        convert hbehind' using 1
        simp)
    refine ⟨b'', parts, ?_, hbraced, hparts, by simpa using hpadded⟩
    rw [List.flatMap_cons, List.cons_append, List.foldl_cons, chars, List.append_assoc,
      List.foldl_append, List.foldl_append]
    exact hrest

/-- The characters of a whole index clause. -/
theorem toList_clause (gap : List Char) (first : WrittenItem) (rest : List WrittenItem) :
    (clause gap first rest).toList = ("INDEX".toList ++ gap) ++ ('{' :: first.before) ++
      (first.mark ++ first.item.column.toList ++ first.after) ++
      rest.flatMap (fun e => ',' :: e.chars) ++ ['}'] := by
  unfold clause
  refine String.toList_ofList.trans ?_
  simp only [chars, List.append_assoc, List.cons_append]

/-- A clause is scanned as `INDEX` and symbols whose characters are its joined items in braces, with
blanks around them. -/
theorem scan_clause {gap : List Char} (hgap : IsGap gap) (hne : gap ≠ []) (first : WrittenItem)
    (rest : List WrittenItem) (unit : String) : ∃ symbols parts,
      (SymbolTable.ofText unit (clause gap first rest)).compileSequence = "INDEX" :: symbols ∧
      symbols.flatMap String.toList = '{' :: [','].intercalate parts ++ ['}'] ∧
      (∀ text ∈ symbols, text ≠ "") ∧
      List.Forall₂ IsPadded ((first :: rest).map (joined ('\n' ∈ first.before))) parts := by
  have hkeyword := initial_within.keyword (show IsWord "INDEX" by decide) (by decide)
    (fun _ h => nomatch h) hgap hne
  have hstart := hkeyword.start first.before_gap
  have hinert : ∀ last ∈ ["INDEX"].head?, last ∉ firstHalves := by decide
  have hinside := (Cut.atItem_start first.before_gap hinert).toInside
  obtain ⟨lead, hlead, hbehind⟩ := Cut.behind_start ["INDEX"] first.before_gap
  obtain ⟨b, trail, htrail, hitem, hpast, hbehind⟩ := within_item hstart hinside hbehind first
  obtain ⟨b', parts, hrest, hbraced, hparts, hpadded⟩ :=
    within_rest rest hitem hpast .nil hlead htrail (by simpa using hbehind)
  obtain ⟨symbols, -, hsequence, hchars, hne⟩ := hrest.closing hbraced hparts unit
  refine ⟨symbols, parts, ?_, hchars, hne, by simpa using hpadded⟩
  rw [SymbolTable.ofText_eq, toList_clause]
  simp only [List.foldl_append, List.foldl_cons, List.foldl_nil] at hsequence ⊢
  exact hsequence

/-! ### Capturing a clause -/

/-- The parts of a clause hold nothing but the joined items and blanks. -/
theorem parts_of_padded (entries : List WrittenItem) {parts : List (List Char)}
    (h : List.Forall₂ IsPadded (entries.map (joined listed)) parts) :
    (∀ part ∈ parts, ∀ c ∈ part, Text.isBlank c = true ∨ c.isAlphanum = true ∨ c = '-') ∧
      parts.map (fun part => Text.trim (String.ofList part)) = entries.map (joined listed) := by
  induction entries generalizing parts with
  | nil =>
    cases h
    exact ⟨List.forall_mem_nil _, rfl⟩
  | cons e rest ih =>
    obtain ⟨part, others, ⟨lead, trail, hlead, htrail, rfl⟩, hothers, rfl⟩ :=
      List.forall₂_cons_left_iff.mp h
    obtain ⟨hchars, htrim⟩ := ih hothers
    obtain ⟨mark, hjoined, _, hmark⟩ := exists_joined_eq listed e
    obtain ⟨hne, hhead, hlast⟩ := joined_visible listed e
    refine ⟨List.forall_mem_cons.mpr ⟨fun c hc => ?_, hchars⟩, ?_⟩
    · rw [List.mem_append, List.mem_append, hjoined, List.mem_append] at hc
      rcases hc with (hc | hc | hc) | hc
      · exact .inl (hlead c hc)
      · exact (hmark c hc).imp_right .inl
      · exact .inr (e.column.characters c hc)
      · exact .inl (htrail c hc)
    · rw [List.map_cons, List.map_cons, htrim, Text.trim, String.toList_ofList,
        Text.trimChars_append hlead htrail hne hhead hlast, String.ofList_toList]

/-- The index of a captured clause has an item for each one that is written. -/
theorem index_clause {keychain : List String} (hkey : "INDEX" ∈ keychain) {gap : List Char}
    (hgap : IsGap gap) (hne : gap ≠ []) (first : WrittenItem) (rest : List WrittenItem)
    (unit : String) (object : ObjectDefinition) :
    (object.capture keychain unit (clause gap first rest)).index =
      (first :: rest).map (captured ('\n' ∈ first.before)) := by
  obtain ⟨symbols, parts, hsequence, hchars, hsymbols, hpadded⟩ :=
    scan_clause hgap hne first rest unit
  obtain ⟨hparts, htrim⟩ := parts_of_padded (first :: rest) hpadded
  have hfree (c : Char) (hc : Text.isBlank c = false ∧ c.isAlphanum = false ∧ c ≠ '-') :
      ∀ part ∈ parts, c ∉ part := fun part hpart hmem => by
    rcases hparts part hpart c hmem with h | h | h
    · rw [hc.1] at h
      cases h
    · rw [hc.2.1] at h
      cases h
    · exact hc.2.2 h
  obtain ⟨symbol, others, rfl⟩ : ∃ symbol others, symbols = symbol :: others :=
    List.exists_cons_of_ne_nil fun hnil => by simp [hnil] at hchars
  have hvalue := Capture.plainValue_of_chars hchars (fun c hc => by
    rcases Text.mem_of_mem_intercalate hc with rfl | ⟨part, hpart, hc⟩
    · decide
    · exact ⟨fun hsame => hfree '}' (by decide) part hpart (hsame ▸ hc),
        fun hsame => hfree '"' (by decide) part hpart (hsame ▸ hc)⟩) hsymbols
  have hpartsNe : parts ≠ [] := by
    rintro rfl
    cases hpadded
  rw [Capture.listItems_braced (hfree '}' (by decide)) (hfree ',' (by decide)) hpartsNe, htrim]
    at hvalue
  have hitems : ((first :: rest).map (joined ('\n' ∈ first.before))).filter
      (fun item => !item.isEmpty) = (first :: rest).map (joined ('\n' ∈ first.before)) := by
    refine List.filter_eq_self.mpr fun item hitem => ?_
    obtain ⟨e, _, rfl⟩ := List.mem_map.mp hitem
    simpa using (joined_visible _ e).1
  rw [hitems] at hvalue
  have hfield : (object.capture keychain unit (clause gap first rest)).field? "INDEX" =
      some (.list ((first :: rest).map (joined ('\n' ∈ first.before)))) := by
    rw [ObjectDefinition.field?, ObjectDefinition.capture, hsequence]
    exact Capture.field?_of_value hkey ((if_neg (by decide)).trans hvalue)
  rw [ObjectDefinition.index, hfield]
  simp only [List.filterMap_map, Function.comp_def, read?_joined, List.filterMap_eq_map']

/-- An item is read as it is written unless its mark is torn off or is the name of its column. -/
theorem captured_eq_item_iff : e.captured listed = e.item ↔
    (e.item.implied = true → listed = false ∧ '\n' ∉ e.between ∧ e.item.column ≠ "IMPLIED") := by
  obtain ⟨⟨column, implied⟩, before, between, after, _, _, _, _, _⟩ := e
  cases implied with
  | false => simp [captured, IsTorn]
  | true =>
    by_cases htorn : listed = true ∨ '\n' ∈ between
    · simp [captured, IsTorn, htorn]
      exact fun hlisted hline => absurd htorn (by simp [hlisted, hline])
    · rw [not_or, Bool.not_eq_true] at htorn
      simp [captured, IsTorn, htorn]

/-- A captured index has the items that are written, in their order, exactly where no implied item
is torn: the brace does not stand alone in its line, no line ends between `IMPLIED` and a column,
and no implied column is itself named `IMPLIED`. A torn item is read as a column whose name begins
with its mark, and which is not implied. -/
theorem index_eq_items_iff {keychain : List String} (hkey : "INDEX" ∈ keychain) {gap : List Char}
    (hgap : IsGap gap) (hne : gap ≠ []) (first : WrittenItem) (rest : List WrittenItem)
    (unit : String) (object : ObjectDefinition) :
    (object.capture keychain unit (clause gap first rest)).index =
        (first :: rest).map (captured ('\n' ∈ first.before)) ∧
      ((object.capture keychain unit (clause gap first rest)).index =
          (first :: rest).map item ↔ ∀ e ∈ first :: rest, e.item.implied = true →
            '\n' ∉ first.before ∧ '\n' ∉ e.between ∧ e.item.column ≠ "IMPLIED") := by
  have hindex := index_clause hkey hgap hne first rest unit object
  refine ⟨hindex, ?_⟩
  rw [hindex, List.map_inj_left]
  simp only [captured_eq_item_iff, decide_eq_false_iff_not]

/-- The number of a port, behind a gap. -/
def portNumber (gap : List Char) (hgap : IsGap gap) : WrittenItem where
  item := ⟨"portNumber", false⟩
  before := gap
  between := [' ']
  after := []
  column := by decide
  before_gap := hgap
  between_gap := by decide
  between_ne := by decide
  after_gap := isGap_nil

/-- The name of a port, which is implied, in a line of its own. -/
def portName : WrittenItem where
  item := ⟨"portName", true⟩
  before := ['\n', ' ', ' ']
  between := [' ']
  after := ['\n']
  column := by decide
  before_gap := by decide
  between_gap := by decide
  between_ne := by decide
  after_gap := by decide

/-- The ports are indexed as it is written where the list begins behind its brace. -/
theorem index_eq_items_ports :
    "INDEX" ∈ ["SYNTAX", "INDEX"] ∧ IsGap ['\n', '\t'] ∧ ['\n', '\t'] ≠ [] ∧
      ((ObjectDefinition.bare "portEntry" "PORT-MIB").capture ["SYNTAX", "INDEX"] "ports"
        (clause ['\n', '\t'] (portNumber [' '] (by decide)) [portName])).index =
          [⟨"portNumber", false⟩, ⟨"portName", true⟩] :=
  ⟨by decide, by decide, by decide, (index_eq_items_iff (by decide) (by decide) (by decide)
    (portNumber [' '] (by decide)) [portName] "ports" (.bare "portEntry" "PORT-MIB")).2.mpr
      (by decide)⟩

/-- Where the brace ends its line, the mark of the name becomes a part of its column. -/
theorem index_ports_torn :
    ((ObjectDefinition.bare "portEntry" "PORT-MIB").capture ["INDEX"] "ports"
        (clause [' '] (portNumber ['\n', ' ', ' '] (by decide)) [portName])).index =
          [⟨"portNumber", false⟩, ⟨"IMPLIEDportName", false⟩] ∧
      [⟨"portNumber", false⟩, ⟨"IMPLIEDportName", false⟩] ≠
        [portNumber ['\n', ' ', ' '] (by decide), portName].map item :=
  ⟨(index_clause (by decide) (by decide) (by decide) _ _ _ _).trans (by decide), by decide⟩

end WrittenItem

end Smi
