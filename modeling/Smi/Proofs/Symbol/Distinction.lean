import Smi.Proofs.Symbol.Resumption

/-!
# Telling scanners apart

Two scanners that have just ended a symbol cut every text alike only if they are in the same mode,
agree on whether the last symbol is `::=`, and have read the same brackets: whatever they differ
in, some text ends in the symbol `a b` for one of them and in `b` for the other. So a part of a
text is without effect on the rest exactly if it leaves all of this as it was.
-/

namespace Smi

/-! ### Brackets between commas -/

namespace Nesting

variable {n m : Nesting}

/-- The nesting behind a bracket with a comma behind it, where an opening brace begins a list. -/
def afterAlone (n : Nesting) (c : Char) : Nesting :=
  { n.after false c with inList := (n.after false c).inList || c = '{' }

/-- Closing square brackets take their number from the depth. -/
theorem foldl_replicate_square (n : Nesting) (k : Nat) :
    (List.replicate k ']').foldl afterAlone n = { n with depth := n.depth - k } := by
  induction k generalizing n with
  | zero => rfl
  | succ k ih =>
    rw [List.replicate_succ, List.foldl_cons, ih]
    simp [afterAlone, after, Nat.sub_sub, Nat.add_comm]

/-- Closing round brackets take their number from the depth and from the open round ones. -/
theorem foldl_replicate_round (n : Nesting) (k : Nat) :
    (List.replicate k ')').foldl afterAlone n =
      { n with depth := n.depth - k, rounds := n.rounds - k } := by
  induction k generalizing n with
  | zero => rfl
  | succ k ih =>
    rw [List.replicate_succ, List.foldl_cons, ih]
    simp [afterAlone, after, Nat.sub_sub, Nat.add_comm]

/-- Opening square brackets add their number to the depth. -/
theorem foldl_replicate_openSquare (n : Nesting) (k : Nat) :
    (List.replicate k '[').foldl afterAlone n = { n with depth := n.depth + k } := by
  induction k generalizing n with
  | zero => rfl
  | succ k ih =>
    rw [List.replicate_succ, List.foldl_cons, ih]
    simp [afterAlone, after, Nat.add_comm, Nat.add_left_comm]

/-- Whether blanks are treated differently behind some brackets. -/
def TellsApart (n m : Nesting) (cs : List Char) : Prop :=
  (∀ c ∈ cs, c ∈ brackets) ∧ (cs.foldl afterAlone n).keeps ≠ (cs.foldl afterAlone m).keeps

/-- Brackets tell two nestings apart in either order. -/
theorem TellsApart.symm {cs : List Char} (h : TellsApart n m cs) : TellsApart m n cs :=
  ⟨h.1, h.2.symm⟩

/-- Once all round brackets are closed, another bracket keeps blanks unless it is in a list. -/
theorem exists_tellsApart_inList (hn : n.inList = true) (hm : m.inList = false) :
    ∃ cs, TellsApart n m cs := by
  refine ⟨List.replicate (n.rounds + m.rounds) ')' ++ ['['], ?_, ?_⟩
  · intro c hc
    simp only [List.mem_append, List.mem_replicate, List.mem_singleton] at hc
    rcases hc with ⟨_, rfl⟩ | rfl <;> decide
  · rw [List.foldl_append, List.foldl_append, foldl_replicate_round, foldl_replicate_round]
    simp [afterAlone, after, keeps, hn, hm, Nat.sub_eq_zero_of_le]

/-- Once all brackets are closed and a round one has been opened, blanks are kept in a clause. -/
theorem exists_tellsApart_inClause (hn : n.inClause = true) (hm : m.inClause = false) :
    ∃ cs, TellsApart n m cs := by
  refine ⟨'(' :: List.replicate (n.depth + m.depth + 1) ']', ?_, ?_⟩
  · simp [brackets]
  · rw [List.foldl_cons, List.foldl_cons, foldl_replicate_square, foldl_replicate_square]
    have hdepth : m.depth + 1 - (n.depth + m.depth + 1) = 0 := by omega
    simp [afterAlone, after, keeps, hn, hm, hdepth]

/-- Outside clauses and lists, blanks are kept as long as not all brackets are closed. -/
theorem exists_tellsApart_depth (h : n.depth < m.depth) : ∃ cs, TellsApart n m cs := by
  refine ⟨'[' :: '}' :: List.replicate n.depth ']', ?_, ?_⟩
  · simp [brackets]
  · simp only [List.foldl_cons, foldl_replicate_square]
    have hopen : 0 < m.depth - n.depth := by omega
    simp [afterAlone, after, keeps, hopen]

/-- In a list, blanks are kept as long as not all round brackets are closed. -/
theorem exists_tellsApart_rounds (h : n.rounds < m.rounds) : ∃ cs, TellsApart n m cs := by
  refine ⟨List.replicate (n.rounds + 1) '[' ++ '{' :: List.replicate n.rounds ')', ?_, ?_⟩
  · simp [brackets]
  · simp only [List.foldl_append, List.foldl_cons, foldl_replicate_openSquare,
      foldl_replicate_round]
    have hopen : 0 < m.rounds - n.rounds := by omega
    have hdepth : 0 < m.depth + (n.rounds + 1) + 1 - n.rounds := by omega
    simp [afterAlone, after, keeps, hopen, hdepth]

/-- Different nestings are told apart by some brackets. -/
theorem exists_tellsApart (h : n ≠ m) : ∃ cs, TellsApart n m cs := by
  have hsymm : (∃ cs, TellsApart m n cs) → ∃ cs, TellsApart n m cs :=
    Exists.imp fun _ hcs => hcs.symm
  have hflags {a b : Bool} (hab : a ≠ b) : a = true ∧ b = false ∨ b = true ∧ a = false := by
    cases a <;> cases b <;> simp_all
  have hdiffer : n.depth ≠ m.depth ∨ n.rounds ≠ m.rounds ∨ n.inClause ≠ m.inClause ∨
      n.inList ≠ m.inList := by
    cases n
    cases m
    simp only [ne_eq, mk.injEq] at h ⊢
    grind
  rcases hdiffer with hdepth | hrounds | hclause | hlist
  · rcases Nat.lt_or_gt_of_ne hdepth with hlt | hgt
    · exact exists_tellsApart_depth hlt
    · exact hsymm (exists_tellsApart_depth hgt)
  · rcases Nat.lt_or_gt_of_ne hrounds with hlt | hgt
    · exact exists_tellsApart_rounds hlt
    · exact hsymm (exists_tellsApart_rounds hgt)
  · rcases hflags hclause with ⟨hn, hm⟩ | ⟨hm, hn⟩
    · exact exists_tellsApart_inClause hn hm
    · exact hsymm (exists_tellsApart_inClause hm hn)
  · rcases hflags hlist with ⟨hn, hm⟩ | ⟨hm, hn⟩
    · exact exists_tellsApart_inList hn hm
    · exact hsymm (exists_tellsApart_inList hm hn)

end Nesting

/-! ### Scanners that have just ended a symbol -/

namespace Scanner

variable {s t : Scanner} {mode : Mode} {n m : Nesting} {text : String} {c : Char}

/-- The scanner that has just ended a symbol but stored nothing yet. -/
def fresh (previous : Char) (mode : Mode) (assigned : Bool) (n : Nesting) : Scanner :=
  { initial with
    previous := some previous
    mode := mode
    afterAssign := assigned
    depth := n.depth
    rounds := n.rounds
    inClause := n.inClause
    inList := n.inList }

/-- Without a pending symbol a scanner is a fresh one, apart from what it has stored. -/
theorem bare_eq_fresh (hpending : s.pending = []) (hprevious : s.previous = some c) :
    s.bare = fresh c s.mode s.afterAssign s.nesting := by
  simp [bare, fresh, initial, nesting, hpending, hprevious]

/-- Whether a scanner outside strings and comments has just stored a comma. -/
structure Separated (s : Scanner) (mode : Mode) (n : Nesting) : Prop where
  isVerbatim : mode.isVerbatim = false
  mode : s.mode = mode
  nesting : s.nesting = n
  afterAssign : s.afterAssign = false
  pending : s.pending = []
  stored : s.stored.head?.map Symbol.text = some ","

/-- A comma ends the pending symbol. -/
theorem separated_step_comma (hmode : s.mode.isVerbatim = false) :
    (s.step ',').Separated s.mode s.flush.nesting := by
  have hgathers : (s.flush.append ',').Gathers "," :=
    gathers_of_trim (by rw [append, flush_pending]; rfl) (by decide) (by decide)
  have hordinary : IsOrdinary "," := isOrdinary_of_head? (c := ',') rfl (by decide)
  have hstep : s.step ',' = { s.flush with
      pending := []
      afterAssign := false
      stored := ⟨",", s.flush.position⟩ :: s.flush.stored
      start := s.flush.position
      previous := some ','
      position := s.flush.position.after ',' } := by
    have halone : s.read ',' = (s.flush.append ',').flush := by
      simp [read, readSeparator, hmode, alone]
    obtain ⟨_, _, _, _, hflush⟩ := s.flush_frame
    rw [step, halone, hgathers.flush_ordinary hordinary]
    simp [append, hflush]
  rw [hstep]
  exact ⟨hmode, s.flush_mode, rfl, rfl, rfl, rfl⟩

/-- An opening brace behind another symbol than `::=` begins a list. -/
theorem nesting_store_brace (h : ∀ symbol ∈ s.stored.head?, symbol.text ≠ "::=") :
    (s.store "\x7b").nesting = { s.nesting with inList := true } := by
  have hjoined :
      ((s.neighbour?.map Symbol.text).bind fun first => joined? first "\x7b") = none := by
    cases s.neighbour? with
    | none => rfl
    | some symbol => simp [joined?]
  have hassign : s.neighbour?.map Symbol.text ≠ some "::=" := fun hsome => by
    obtain ⟨symbol, hsymbol, htext⟩ := Option.map_eq_some_iff.mp hsome
    exact h symbol (Option.filter_eq_some_iff.mp hsymbol).1 htext
  simp [store, hjoined, hassign, nesting]

/-- A bracket between commas is counted, and an opening brace begins a list. -/
theorem Separated.nesting_flush (h : s.Separated mode n) (hc : c ∈ Nesting.brackets) :
    ((s.count c).append c).flush.nesting = n.afterAlone c := by
  have hnesting : (s.count c).nesting = n.after false c := by
    rw [← h.nesting, ← h.afterAssign]
    rfl
  have hpending : ((s.count c).append c).pending = [c] := congrArg (c :: ·) h.pending
  have hvisible : Text.isBlank c = false ∧ (c = '{' ∨ c ∉ effective) := by
    simp only [Nesting.brackets, List.mem_cons, List.not_mem_nil, or_false] at hc
    rcases hc with rfl | rfl | rfl | rfl | rfl | rfl <;> decide
  have hgathers : ((s.count c).append c).Gathers (String.ofList [c]) :=
    gathers_of_visible (by simp [hpending]) (by simp) (by simp [hvisible.1])
      (by simp [hvisible.1])
  rcases hvisible.2 with rfl | hordinary
  · rw [hgathers.flush_eq]
    refine (nesting_store_brace fun symbol hsymbol htext => ?_).trans ?_
    · have hcomma : some symbol.text = some "," := by
        rw [← h.stored]
        exact congrArg (Option.map Symbol.text) hsymbol.symm
      rw [htext] at hcomma
      exact absurd hcomma (by decide)
    · change { (s.count '{').nesting with inList := true } = n.afterAlone '{'
      rw [hnesting]
      simp [Nesting.afterAlone]
  · have hne : c ≠ '{' := by
      rintro rfl
      exact hordinary (by decide)
    rw [hgathers.nesting_flush (isOrdinary_of_head? (c := c) (by simp) hordinary)]
    refine hnesting.trans ?_
    simp [Nesting.afterAlone, hne]

/-- A bracket and a comma behind it lead from one separated scanner to another. -/
theorem Separated.step_bracket (h : s.Separated mode n) (hc : c ∈ Nesting.brackets) :
    ((s.step c).step ',').Separated mode (n.afterAlone c) := by
  have hcount : (s.count c).flush = s.count c := flush_of_pending h.pending
  have hread : s.read c = (s.count c).append c ∨ s.read c = ((s.count c).append c).flush := by
    by_cases hopening : c = '{' ∨ c = '[' ∨ c = '('
    · rw [read_opening hopening, alone, hcount]
      split
      · exact .inl rfl
      · exact .inr rfl
    · refine .inl (read_closing ?_)
      simp only [Nesting.brackets, List.mem_cons, List.not_mem_nil, or_false] at hc
      grind
  have hflush : (s.read c).flush.nesting = n.afterAlone c := by
    rcases hread with hread | hread
    · rw [hread, h.nesting_flush hc]
    · rw [hread, flush_of_pending (flush_pending _), h.nesting_flush hc]
  have hmode : (s.read c).mode = mode := by
    rcases hread with hread | hread
    · rw [hread]
      exact h.mode
    · rw [hread, flush_mode]
      exact h.mode
  have hstep : (s.step c).flush.nesting = n.afterAlone c := by
    rw [← hflush, step]
    generalize s.read c = u
    simp only [flush_with u (u.position.after c) (some c) u.mode, Scanner.nesting]
  have hseparated := separated_step_comma (s := s.step c) (by
    rw [step, hmode]
    exact h.isVerbatim)
  rw [hstep] at hseparated
  rwa [← hmode]

/-- Brackets between commas, one after the other. -/
theorem Separated.feed_brackets (h : s.Separated mode n) {cs : List Char}
    (hcs : ∀ c ∈ cs, c ∈ Nesting.brackets) :
    ((cs.flatMap fun c => [c, ',']).foldl step s).Separated mode
      (cs.foldl Nesting.afterAlone n) := by
  induction cs generalizing s n with
  | nil => exact h
  | cons c rest ih =>
    obtain ⟨hc, hrest⟩ := List.forall_mem_cons.mp hcs
    exact ih (h.step_bracket hc) hrest

/-- The last symbol of a text tells whether blanks were kept. -/
theorem Separated.finish_words (h : s.Separated mode n) (unit : String) :
    ((s.feed "a b").finish unit).compileSequence.getLast? =
      some (if n.keeps then "a b" else "b") := by
  have hkeeps : (s.step 'a').keepsDelimiters = n.keeps := by
    have hsame : (s.step 'a').keepsDelimiters = s.keepsDelimiters := rfl
    rw [hsame, keepsDelimiters_eq, h.mode, h.isVerbatim, Bool.false_or, h.nesting]
  have hpending : (s.feed "a b").pending = 'b' :: ((s.step 'a').readSpace ' ').pending := rfl
  rw [readSpace, hkeeps] at hpending
  cases hn : n.keeps with
  | true =>
    have hgathers : (s.feed "a b").Gathers "a b" := by
      refine gathers_of_trim ?_ (by decide) (by decide)
      rw [hpending, hn, if_pos rfl]
      exact congrArg (fun cs => 'b' :: ' ' :: 'a' :: cs) h.pending
    exact hgathers.getLast?_compileSequence (isOrdinary_of_head? (c := 'a') rfl (by decide))
      (by decide) unit
  | false =>
    have hgathers : (s.feed "a b").Gathers "b" := by
      refine gathers_of_trim ?_ (by decide) (by decide)
      rw [hpending, hn, if_neg Bool.false_ne_true, flush_pending]
      rfl
    exact hgathers.getLast?_compileSequence (isOrdinary_of_head? (c := 'b') rfl (by decide))
      (by decide) unit

/-! ### Telling apart -/

/-- Whether two scanners cut every text into the same symbols. -/
def Alike (unit : String) (s t : Scanner) : Prop :=
  ∀ text, ((s.feed text).finish unit).compileSequence = ((t.feed text).finish unit).compileSequence

/-- Scanners that cut every text alike do so behind the same characters. -/
theorem Alike.foldl {unit : String} (h : Alike unit s t) (cs : List Char) :
    Alike unit (cs.foldl step s) (cs.foldl step t) := fun text => by
  have htext := h (String.ofList cs ++ text)
  simpa [feed] using htext

/-- Behind a comma, scanners that are alike have read the same brackets. -/
theorem Alike.nesting_eq_of_separated {unit : String} {mode' : Mode} (h : Alike unit s t)
    (hs : s.Separated mode n) (ht : t.Separated mode' m) : n = m := by
  refine Decidable.byContradiction fun hne => ?_
  obtain ⟨cs, hcs, hkeeps⟩ := Nesting.exists_tellsApart hne
  have hlast := congrArg List.getLast? (h.foldl (cs.flatMap fun c => [c, ',']) "a b")
  rw [(hs.feed_brackets hcs).finish_words, (ht.feed_brackets hcs).finish_words] at hlast
  revert hkeeps hlast
  cases (cs.foldl Nesting.afterAlone n).keeps <;> cases (cs.foldl Nesting.afterAlone m).keeps <;>
    decide

variable {mode' : Mode} {assigned assigned' : Bool}

/-- A fresh scanner outside strings takes a double quote for the start of a string. -/
theorem getLast?_plain (unit : String) :
    (((fresh c .plain assigned n).feed "\"a").finish unit).compileSequence.getLast? =
      some "\"a" :=
  Gathers.getLast?_compileSequence (gathers_of_trim rfl (by decide) (by decide))
    (isOrdinary_of_head? (c := '"') rfl (by decide)) (by decide) unit

/-- Behind an unbalanced string, a double quote is not part of the symbol after it. -/
theorem getLast?_unbalanced (unit : String) :
    (((fresh c .unbalanced assigned n).feed "\"a").finish unit).compileSequence.getLast? =
      some "a" := by
  have hread : (fresh c .unbalanced assigned n).read '"' =
      ((fresh c .unbalanced assigned n).append '"').flush := rfl
  have hquote : ((fresh c .unbalanced assigned n).step '"').pending = [] := by
    rw [step, hread, flush_pending]
  have hpending : ((fresh c .unbalanced assigned n).feed "\"a").pending = ['a'] :=
    congrArg ('a' :: ·) hquote
  exact Gathers.getLast?_compileSequence (gathers_of_trim hpending (by decide) (by decide))
    (isOrdinary_of_head? (c := 'a') rfl (by decide)) (by decide) unit

/-- A double quote begins a string only in plain text. -/
theorem Alike.mode_eq {unit : String} (hmode : mode.isVerbatim = false)
    (hmode' : mode'.isVerbatim = false)
    (h : Alike unit (fresh c mode assigned n) (fresh c mode' assigned' m)) : mode = mode' := by
  have hlast := congrArg List.getLast? (h "\"a")
  cases mode <;> cases mode' <;>
    simp_all [Mode.isVerbatim, getLast?_plain, getLast?_unbalanced]

/-- Behind two braces and a comma a scanner is in a clause if the first text stood behind `::=`. -/
theorem separated_braces (hmode : mode.isVerbatim = false) :
    (['}', '{', ','].foldl step (fresh c mode assigned n)).Separated mode
      ⟨n.depth - 1 + 1, n.rounds, assigned, false⟩ := by
  have hopened : ((fresh c mode assigned n).step '}').step '{' =
      { fresh c mode assigned ⟨n.depth - 1 + 1, n.rounds, assigned, false⟩ with
        previous := some '{', pending := ['{', '}'], position := ⟨0, 2⟩ } := by
    simp [step, read, readClosing, readOpening, fresh, initial, append, keepsDelimiters, hmode,
      Position.after, Position.origin]
  have hgathers : (((fresh c mode assigned n).step '}').step '{').Gathers "\x7d\x7b" := by
    rw [hopened]
    exact gathers_of_trim rfl (by decide) (by decide)
  have hnesting : (((fresh c mode assigned n).step '}').step '{').flush.nesting =
      ⟨n.depth - 1 + 1, n.rounds, assigned, false⟩ := by
    rw [hgathers.nesting_flush (isOrdinary_of_head? (c := '}') rfl (by decide)), hopened]
    rfl
  have hmode' : (((fresh c mode assigned n).step '}').step '{').mode = mode := by rw [hopened]; rfl
  have hseparated := separated_step_comma (s := ((fresh c mode assigned n).step '}').step '{')
    (by rw [hmode', hmode])
  rwa [hnesting, hmode'] at hseparated

/-- Scanners that have just ended a symbol and are alike do not differ in what they know. -/
theorem Alike.eq_of_fresh {unit : String} (hmode : mode.isVerbatim = false)
    (hmode' : mode'.isVerbatim = false)
    (h : Alike unit (fresh c mode assigned n) (fresh c mode' assigned' m)) :
    mode = mode' ∧ assigned = assigned' ∧ n = m := by
  obtain rfl := h.mode_eq hmode hmode'
  have hassigned := (h.foldl ['}', '{', ',']).nesting_eq_of_separated (separated_braces hmode)
    (separated_braces hmode)
  have hnesting := (h.foldl [',']).nesting_eq_of_separated (separated_step_comma hmode)
    (separated_step_comma hmode)
  rw [flush_of_pending rfl, flush_of_pending rfl] at hnesting
  exact ⟨rfl, (Nesting.mk.inj hassigned).2.2.1, hnesting⟩

end Scanner

end Smi
