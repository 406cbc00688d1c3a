import Mathlib.Data.List.SplitBy
import Smi.Proofs.Symbol.Position

/-!
# The order of symbols

A symbol begins behind all that were stored before it, also if a comment restarts in the middle of
a line or a string runs over several lines. So the symbols of a text stand in the order of their
positions, and those of one line stand together. A keyword of two words is joined as soon as its
second word is stored, so the two words never stand side by side in a line.
-/

namespace Smi

namespace Position

/-- Whether a place comes before another one: in an earlier line, or further left in its line. -/
def Before (a b : Position) : Prop :=
  a.row < b.row ∨ a.row = b.row ∧ a.column < b.column

instance (a b : Position) : Decidable (a.Before b) :=
  inferInstanceAs (Decidable (_ ∨ _))

variable {a b c : Position}

/-- Places come before one another in one order. -/
theorem Before.trans (hab : a.Before b) (hbc : b.Before c) : a.Before c := by
  unfold Before at *
  omega

/-- A place that comes before another is in no later line. -/
theorem Before.row_le (h : a.Before b) : a.row ≤ b.row := by
  unfold Before at h
  omega

/-- A place comes before the one behind any character. -/
theorem before_after (place : Position) (c : Char) : place.Before (place.after c) := by
  unfold Before after
  split
  · exact .inl (Nat.lt_succ_self _)
  · exact .inr ⟨rfl, Nat.lt_succ_self _⟩

/-- What comes before a place comes before every place behind it. -/
theorem Before.foldl_after (h : a.Before b) (cs : List Char) : a.Before (cs.foldl after b) := by
  induction cs generalizing b with
  | nil => exact h
  | cons c rest ih => exact ih (h.trans (b.before_after c))

/-- The line behind some characters is further down by their line feeds. -/
theorem row_foldl_after (cs : List Char) (place : Position) :
    (cs.foldl after place).row = place.row + cs.count '\n' := by
  induction cs generalizing place with
  | nil => rfl
  | cons c rest ih =>
    rw [List.foldl_cons, ih, after_row, List.count_cons]
    simp only [beq_iff_eq]
    omega

/-- Whether characters that begin at a place end before a limit. -/
structure Precedes (start : Position) (cs : List Char) (limit : Position) : Prop where
  before : start.Before limit
  row_le : start.row + cs.count '\n' ≤ limit.row

namespace Precedes

variable {start limit further : Position} {first second : List Char}

/-- Characters that end before a limit end before a later one. -/
theorem of_before (h : start.Precedes first limit) (hlimit : limit.Before further) :
    start.Precedes first further :=
  ⟨h.before.trans hlimit, h.row_le.trans hlimit.row_le⟩

/-- Characters with no more line feeds end before the same limit. -/
theorem of_count_le (h : start.Precedes first limit)
    (hcount : second.count '\n' ≤ first.count '\n') : start.Precedes second limit :=
  ⟨h.before, (Nat.add_le_add_left hcount _).trans h.row_le⟩

/-- One more character is read. -/
theorem cons (h : start.Precedes first limit) (c : Char) :
    start.Precedes (c :: first) (limit.after c) := by
  refine ⟨h.before.trans (limit.before_after c), ?_⟩
  have hrow := h.row_le
  rw [after_row, List.count_cons]
  simp only [beq_iff_eq]
  omega

/-- A character ends before the place behind it. -/
theorem singleton (start : Position) (c : Char) : start.Precedes [c] (start.after c) := by
  refine ⟨start.before_after c, ?_⟩
  rw [after_row, List.count_cons]
  simp only [beq_iff_eq]
  exact Nat.add_le_add_left (Nat.le_of_eq (Nat.zero_add _)) _

/-- Characters end where those behind them begin. -/
theorem behind (read : List Char) (hne : first ≠ []) :
    (Position.behind read).Precedes first (.behind (read ++ first)) := by
  have hfurther : Position.behind (read ++ first) = first.foldl after (.behind read) :=
    List.foldl_append
  rw [hfurther]
  refine ⟨?_, (row_foldl_after first _).ge⟩
  obtain ⟨c, rest, rfl⟩ := List.exists_cons_of_ne_nil hne
  exact (before_after _ c).foldl_after rest

end Precedes

end Position

/-- The keywords of two words. -/
def keywordPairs : List (String × String) :=
  [("TYPE", "NOTATION"), ("VALUE", "NOTATION"), ("SEQUENCE", "OF"), ("OBJECT", "IDENTIFIER"),
    ("OCTET", "STRING")]

/-- Two symbols make no keyword if they are not its two words. -/
theorem joined?_eq_none_iff {first second : String} :
    joined? first second = none ↔ (first, second) ∉ keywordPairs := by
  unfold joined?
  split
  case h_6 => simp_all [keywordPairs]
  all_goals exact iff_of_false (by simp) (by simp [keywordPairs])

/-- A keyword of two words is no second half of another one. -/
theorem not_mem_secondHalves_of_joined? {first second whole : String}
    (h : joined? first second = some whole) : whole ∉ secondHalves := by
  unfold joined? at h
  split at h <;> first | (cases h; decide) | cases h

/-- A keyword of two words stands in one line. -/
theorem not_mem_of_joined? {first second whole : String} (h : joined? first second = some whole) :
    '\n' ∉ whole.toList := by
  unfold joined? at h
  split at h <;> first | (cases h; decide) | cases h

namespace Adds

variable {symbol : Symbol} {stored added : List Symbol}

/-- A symbol is added at its own position, or a keyword at that of its first half. -/
theorem precedes {limit : Position} (h : Adds symbol stored added)
    (hsymbol : symbol.position.Precedes symbol.text.toList limit)
    (hstored : ∀ other ∈ stored, other.position.Precedes other.text.toList limit) :
    ∀ other ∈ added, other.position.Precedes other.text.toList limit := by
  cases h with
  | newest => exact List.forall_mem_cons.mpr ⟨hsymbol, hstored⟩
  | joins rest hjoined =>
    obtain ⟨hfirst, hrest⟩ := List.forall_mem_cons.mp hstored
    have hwhole := List.count_eq_zero.mpr (not_mem_of_joined? hjoined)
    exact List.forall_mem_cons.mpr
      ⟨hfirst.of_count_le (hwhole.trans_le (Nat.zero_le _)), hrest⟩

/-- Stored symbols stay in order when one behind them is added. -/
theorem sorted (h : Adds symbol stored added)
    (hstored : ∀ other ∈ stored, other.position.Before symbol.position)
    (hsorted : stored.Pairwise fun later earlier => earlier.position.Before later.position) :
    added.Pairwise fun later earlier => earlier.position.Before later.position := by
  cases h with
  | newest => exact List.pairwise_cons.mpr ⟨hstored, hsorted⟩
  | joins rest _ => exact List.pairwise_cons.mpr (List.pairwise_cons.mp hsorted)

end Adds

namespace Scanner

variable {s : Scanner} {cs : List Char} {c : Char} {limit further : Position}

/-! ### Reading -/

/-- Whether two scanners have stored and gathered the same. -/
structure HoldsSame (s t : Scanner) : Prop where
  stored : s.stored = t.stored
  declaredName : s.declaredName = t.declaredName
  pending : s.pending = t.pending
  start : s.start = t.start

/-- Reading a character ends symbols, takes the character in, passes over it or opens a comment. So
it keeps what these keep, if that speaks of symbols and of a place before which all of them are. -/
theorem reading_induction {P : Position → Scanner → Prop}
    (hsame : ∀ {limit : Position} {s t : Scanner}, P limit s → s.HoldsSame t → P limit t)
    (hflush : ∀ {limit : Position} {s : Scanner}, P limit s → P limit s.flush)
    (hpass : ∀ {limit further : Position} {s : Scanner}, limit.Before further → P limit s →
      P further s)
    (happend : ∀ {s : Scanner} (c : Char), P s.position s → P (s.position.after c) (s.append c))
    (hcomment : s.previous = some '-' → P (s.position.after '-') (s.append '-').openComment)
    (h : P s.position s) (c : Char) : P (s.position.after c) (s.read c) := by
  have hpassed (c : Char) : P (s.position.after c) s.flush :=
    hflush (hpass (s.position.before_after c) h)
  have hbegun (t : Scanner) (ht : P t.position t) (c : Char) :
      P (t.position.after c) (t.flush.append c) := by
    have hflushed : P t.flush.position t.flush := t.flush_position ▸ hflush ht
    exact t.flush_position ▸ happend c hflushed
  have halone (t : Scanner) (ht : P t.position t) : P (t.position.after c) (t.alone c) :=
    hflush (hbegun t ht c)
  have hcounted : P (s.count c).position (s.count c) := hsame h ⟨rfl, rfl, rfl, rfl⟩
  cases readKind c with
  | space _ hread =>
    rw [hread, readSpace]
    split
    · exact happend c h
    · exact hpassed c
  | opening _ hread =>
    rw [hread]
    split
    · exact happend c hcounted
    · exact halone (s.count c) hcounted
  | closing _ hread =>
    rw [hread]
    exact happend c hcounted
  | separator _ hread =>
    rw [hread, readSeparator]
    split
    · exact happend c h
    · exact halone s h
  | lineEnd _ hread =>
    rw [hread, readLineEnd]
    split
    · exact happend c h
    · exact hsame (hpassed c) ⟨rfl, rfl, rfl, rfl⟩
  | hyphen hc hread =>
    rw [hread, readHyphen, hc]
    split
    next hopens =>
      simp only [Bool.and_eq_true, decide_eq_true_eq] at hopens
      exact hcomment hopens.1
    next => exact happend '-' h
  | quote hc hread =>
    have hmode (mode : Mode) : P (s.position.after '"') ({ s with mode := mode }.append '"') :=
      hsame (happend '"' h) ⟨rfl, rfl, rfl, rfl⟩
    rw [hread, readQuote, hc]
    split
    · exact hsame (hbegun s h '"') ⟨rfl, rfl, rfl, rfl⟩
    · exact hflush (hmode .plain)
    · exact hmode .quotation
    · exact hmode .comment
    · exact hflush (happend '"' h)
  | plain _ _ hread =>
    rw [hread]
    exact happend c h

/-! ### Positions -/

/-- A gathered text has no more of a character than what is pending. -/
theorem Gathers.count_le {text : String} (h : s.Gathers text) (c : Char) :
    text.toList.count c ≤ s.pending.count c := by
  obtain ⟨before, behind, hpending, -, -⟩ := Text.exists_eq_trimChars s.pending.reverse
  rw [← h.toList_eq] at hpending
  have hcount := congrArg (List.count c) hpending
  rw [List.count_reverse, List.count_append, List.count_append] at hcount
  omega

/-- The declared name stays, or it becomes the text of the symbol before the pending one. -/
theorem declaredName_flush (s : Scanner) : s.flush.declaredName = s.declaredName ∨
    s.pending ≠ [] ∧ s.flush.declaredName = (s.neighbour?.map Symbol.text <|> s.declaredName) := by
  unfold flush
  dsimp only
  split
  next => exact .inl rfl
  next hpending =>
    split
    next => exact .inl rfl
    next =>
      unfold store
      dsimp only
      split
      next => exact .inl rfl
      next =>
        split
        next => exact .inr ⟨by simpa using hpending, rfl⟩
        next => exact .inl rfl

/-- Whether the stored symbols stand in order and end before the pending one begins, and that one
ends before a limit. Without a pending symbol the stored ones end before the limit. The declared
name stands in one line. -/
structure InOrder (limit : Position) (s : Scanner) : Prop where
  sorted : s.stored.Pairwise fun later earlier => earlier.position.Before later.position
  stored : ∀ symbol ∈ s.stored,
    symbol.position.Precedes symbol.text.toList (if s.pending = [] then limit else s.start)
  start : s.pending ≠ [] → s.start.Precedes s.pending limit
  declaredName : ∀ name ∈ s.declaredName, '\n' ∉ name.toList

namespace InOrder

/-- All that is stored ends before the limit. -/
theorem stored_precedes (h : s.InOrder limit) :
    ∀ symbol ∈ s.stored, symbol.position.Precedes symbol.text.toList limit := by
  intro symbol hsymbol
  have hstored := h.stored symbol hsymbol
  split at hstored
  next => exact hstored
  next hpending => exact hstored.of_before (h.start hpending).before

/-- The order depends only on what is stored and gathered. -/
theorem of_same {t : Scanner} (h : s.InOrder limit) (hsame : s.HoldsSame t) : t.InOrder limit := by
  obtain ⟨hstored, hdeclared, hpending, hstart⟩ := hsame
  exact ⟨hstored ▸ h.sorted, hstored ▸ hpending ▸ hstart ▸ h.stored,
    hpending ▸ hstart ▸ h.start, hdeclared ▸ h.declaredName⟩

/-- What stands in order before a limit does so before a later one. -/
theorem of_before (h : s.InOrder limit) (hlimit : limit.Before further) : s.InOrder further := by
  refine ⟨h.sorted, fun symbol hsymbol => ?_,
    fun hpending => (h.start hpending).of_before hlimit, h.declaredName⟩
  have hstored := h.stored symbol hsymbol
  split at hstored
  next hpending =>
    rw [if_pos hpending]
    exact hstored.of_before hlimit
  next hpending => rwa [if_neg hpending]

/-- A symbol in the line of the pending one has ended in this line. -/
theorem not_mem_of_neighbour? (h : s.InOrder limit) (hne : s.pending ≠ []) :
    ∀ symbol ∈ s.neighbour?, '\n' ∉ symbol.text.toList := by
  intro symbol hsymbol
  obtain ⟨hhead, hrow⟩ := Option.filter_eq_some_iff.mp hsymbol
  have hstored := (h.stored symbol (List.mem_of_mem_head? hhead)).row_le
  rw [if_neg hne, beq_iff_eq.mp hrow] at hstored
  exact List.count_eq_zero.mp (by omega)

/-- The declared name stands in one line when the pending symbol is ended. -/
theorem declaredName_flush (h : s.InOrder limit) :
    ∀ name ∈ s.flush.declaredName, '\n' ∉ name.toList := by
  intro name hname
  rcases s.declaredName_flush with hsame | ⟨hne, hdeclared⟩
  · exact h.declaredName name (hsame ▸ hname)
  · rw [hdeclared] at hname
    cases hneighbour : s.neighbour? with
    | none =>
      rw [hneighbour] at hname
      exact h.declaredName name hname
    | some symbol =>
      rw [hneighbour] at hname
      cases hname
      exact h.not_mem_of_neighbour? hne symbol hneighbour

/-- The pending symbol becomes the last one of those in order, or joins it at its place. -/
theorem flush (h : s.InOrder limit) : s.flush.InOrder limit := by
  rcases s.stored_flush with ⟨hsame, -⟩ | ⟨text, hgathers, hadds⟩
  · refine ⟨hsame ▸ h.sorted, ?_, fun hne => absurd s.flush_pending hne, h.declaredName_flush⟩
    rw [hsame, s.flush_pending, if_pos rfl]
    exact h.stored_precedes
  · have hne := hgathers.pending_ne_nil
    have hstored := h.stored
    rw [if_neg hne] at hstored
    refine ⟨hadds.sorted (fun other hother => (hstored other hother).before) h.sorted, ?_,
      fun hne => absurd s.flush_pending hne, h.declaredName_flush⟩
    rw [s.flush_pending, if_pos rfl]
    exact hadds.precedes ((h.start hne).of_count_le (hgathers.count_le '\n')) h.stored_precedes

/-- What is stored and gathered stands in order with one more character. -/
theorem append (h : s.InOrder s.position) (c : Char) :
    (s.append c).InOrder (s.position.after c) := by
  have hstart : (s.append c).start = if s.pending = [] then s.position else s.start := by
    simp [Scanner.append]
  refine ⟨h.sorted, fun symbol hsymbol => ?_, fun _ => ?_, h.declaredName⟩
  · have hpending : (s.append c).pending ≠ [] := List.cons_ne_nil _ _
    rw [if_neg hpending, hstart]
    exact h.stored symbol hsymbol
  · have hchars : (s.append c).pending = c :: s.pending := rfl
    rw [hstart, hchars]
    split
    next hpending =>
      rw [hpending]
      exact .singleton s.position c
    next hpending => exact (h.start hpending).cons c

end InOrder

/-- If only a front of what is gathered is left, all ends before the places behind that front. -/
theorem InOrder.shorten {before front rest : List Char} (h : s.InOrder limit) (hne : s.pending ≠ [])
    (hstart : s.start = .behind before) (hfront : front <+: rest) (mode : Mode) :
    InOrder (.behind (before ++ rest)) { s with mode := mode, pending := front.reverse } := by
  refine ⟨h.sorted, fun symbol hsymbol => ?_, fun hleft => ?_, h.declaredName⟩
  · have hstored := h.stored symbol hsymbol
    rw [if_neg hne, hstart] at hstored
    split
    next =>
      by_cases hrest : rest = []
      · rwa [hrest, List.append_nil]
      · exact hstored.of_before (Position.Precedes.behind before hrest).before
    next =>
      change symbol.position.Precedes symbol.text.toList s.start
      rwa [hstart]
  · have hrest : rest ≠ [] := by
      rintro rfl
      exact hleft (by simp [List.prefix_nil.mp hfront])
    have hcount : front.reverse.count '\n' ≤ rest.count '\n' := by
      rw [List.count_reverse]
      exact hfront.sublist.count_le '\n'
    exact hstart ▸ (Position.Precedes.behind before hrest).of_count_le hcount

/-- A comment begins behind what stood before its hyphens. -/
theorem InOrder.openComment (h : s.InOrder s.position) (hlocated : s.Located cs)
    (hhyphen : s.pending.head? = some '-') :
    (s.append '-').openComment.InOrder (s.position.after '-') := by
  obtain ⟨more, hpending⟩ := List.head?_eq_some_iff.mp hhyphen
  have hne : s.pending ≠ [] := by simp [hpending]
  obtain ⟨before, hread, hstart, -⟩ := hlocated.pending hne
  -- The hyphen read before is the last character gathered, and the comment begins at it.
  have hposition : s.position = (Position.behind (before ++ more.reverse)).after '-' := by
    rw [hlocated.position, hread, hpending, List.reverse_cons, ← List.append_assoc,
      Position.behind_concat]
  have hopened : (s.append '-').openComment.start = .behind (before ++ more.reverse) := by
    have hopened : (s.append '-').openComment.start = ⟨s.position.row, s.position.column - 1⟩ := by
      simp [Scanner.openComment, flush_position, Scanner.append]
    rw [hopened, hposition]
    rfl
  have hfront : beforeHyphens (s.append '-').pending.reverse <+: more.reverse := by
    have hchars : (s.append '-').pending.reverse = more.reverse ++ ['-', '-'] := by
      simp [Scanner.append, hpending]
    rw [hchars]
    exact prefix_beforeHyphens_concat _
  have happended : (s.append '-').start = .behind before := by
    simp [Scanner.append, hne, hstart]
  have hcut := ((h.append '-').shorten (List.cons_ne_nil _ _) happended hfront
    s.mode.openComment).flush
  refine ⟨hcut.sorted, fun symbol hsymbol => ?_, fun _ => ?_, hcut.declaredName⟩
  · have hpending : (s.append '-').openComment.pending ≠ [] := List.cons_ne_nil _ _
    rw [if_neg hpending, hopened]
    exact hcut.stored_precedes symbol hsymbol
  · rw [hopened, hposition]
    exact (Position.Precedes.singleton _ '-').cons '-'

/-- Whether a scanner that has read some characters locates what it has taken in and has stored it
in order. -/
structure Arranged (cs : List Char) (s : Scanner) : Prop extends s.Located cs where
  inOrder : s.InOrder s.position

/-- The scanner at the start of a text has everything in order. -/
theorem initial_arranged : initial.Arranged [] :=
  ⟨initial_located, ⟨.nil, List.forall_mem_nil _, fun h => absurd rfl h, fun _ h => nomatch h⟩⟩

/-- What a scanner has stored and gathered is in order when it has read a character. -/
theorem Arranged.read (h : s.Arranged cs) (c : Char) : (s.read c).InOrder (s.position.after c) :=
  reading_induction (P := InOrder) InOrder.of_same InOrder.flush
    (fun hbefore h => h.of_before hbefore) (fun c h => h.append c)
    (fun hprevious => h.inOrder.openComment h.toLocated (h.hyphen hprevious)) h.inOrder c

/-- A scanner still has everything in order behind one more character. -/
theorem Arranged.step (h : s.Arranged cs) (c : Char) : (s.step c).Arranged (cs ++ [c]) := by
  have hread := h.read c
  have hposition : (s.step c).position = s.position.after c :=
    congrArg (·.after c) (s.position_read c)
  refine ⟨h.toLocated.step c, ?_⟩
  rw [hposition]
  exact ⟨hread.sorted, hread.stored, hread.start, hread.declaredName⟩

/-- A scanner still has everything in order behind more characters. -/
theorem Arranged.foldl (h : s.Arranged cs) (more : List Char) :
    (more.foldl Scanner.step s).Arranged (cs ++ more) := by
  induction more generalizing s cs with
  | nil => rwa [List.append_nil]
  | cons c rest ih =>
    rw [List.append_cons]
    exact ih (h.step c)

/-! ### Keywords -/

/-- Whether no two neighbours in a line are the words of a keyword. -/
def Coalesced (stored : List Symbol) : Prop :=
  stored.IsChain fun later earlier =>
    earlier.position.row = later.position.row → (earlier.text, later.text) ∉ keywordPairs

/-- No words of a keyword are left apart when a symbol is stored. -/
theorem coalesced_store (h : Coalesced s.stored) (text : String) :
    Coalesced (s.store text).stored := by
  unfold store
  dsimp only
  split
  next whole hwhole =>
    obtain ⟨first, _, hjoined⟩ := Option.bind_eq_some_iff.mp hwhole
    have hwhole := not_mem_secondHalves_of_joined? hjoined
    cases hstored : s.stored with
    | nil => exact .nil
    | cons symbol rest =>
      rw [hstored] at h
      refine List.isChain_cons.mpr ⟨fun earlier hearlier _ => ?_, (List.isChain_cons.mp h).2⟩
      exact joined?_eq_none_iff.mp (joined?_eq_none hwhole)
  next hnone =>
    refine List.isChain_cons.mpr ⟨fun earlier hearlier hrow => ?_, h⟩
    have hneighbour : s.neighbour? = some earlier := by
      rw [neighbour?, hearlier, Option.filter_some, if_pos (beq_iff_eq.mpr hrow)]
    rw [hneighbour] at hnone
    exact joined?_eq_none_iff.mp hnone

/-- No words of a keyword are left apart when the pending symbol is ended. -/
theorem coalesced_flush (s : Scanner) (h : Coalesced s.stored) : Coalesced s.flush.stored := by
  unfold flush
  dsimp only
  split
  · exact h
  · split
    · exact h
    · exact coalesced_store (s := { s with pending := [], afterAssign := false }) h _

/-- No words of a keyword are left apart when more characters have been read. -/
theorem coalesced_foldl (h : Coalesced s.stored) (cs : List Char) :
    Coalesced (cs.foldl step s).stored := by
  induction cs generalizing s with
  | nil => exact h
  | cons c rest ih =>
    exact ih (s := s.step c)
      (read_induction (P := fun stored _ => Coalesced stored) coalesced_flush h c)

end Scanner

namespace SymbolTable

variable {table : SymbolTable} {row : List Symbol}

/-- The number of a group: that of the line in which its first symbol begins. -/
def lineOf (row : List Symbol) : ℕ :=
  row.head?.elim 0 fun symbol => symbol.position.row

/-- All symbols of a group begin in one line. -/
theorem row_eq_lineOf (hrow : row ∈ table.rows) :
    ∀ symbol ∈ row, symbol.position.row = lineOf row := by
  have hchain : (row.map fun symbol => symbol.position.row).IsChain (· = ·) := by
    have hequal := List.isChain_of_mem_splitBy hrow
    exact (List.isChain_map _).mpr (hequal.imp fun _ _ => beq_iff_eq.mp)
  intro symbol hsymbol
  cases row with
  | nil => cases hsymbol
  | cons first rest =>
    rcases List.mem_cons.mp hsymbol with rfl | hmem
    · rfl
    · exact (hchain.rel_cons (List.mem_map_of_mem hmem)).symm

/-- Groups of symbols with one more symbol. It joins the last group if the first symbol of that
group begins in the same line, and begins a group of its own otherwise. -/
def push (rows : List (List Symbol)) (symbol : Symbol) : List (List Symbol) :=
  match rows.getLast? with
  | some row =>
    if row.head?.any fun first => first.position.row == symbol.position.row then
      rows.dropLast ++ [row ++ [symbol]]
    else rows ++ [[symbol]]
  | none => [[symbol]]

/-- A symbol joins a last group that is not empty, or begins a group behind it. -/
theorem push_concat (above : List (List Symbol)) (first : Symbol) (others : List Symbol)
    (symbol : Symbol) : push (above ++ [first :: others]) symbol =
      if first.position.row = symbol.position.row then above ++ [first :: others ++ [symbol]]
      else above ++ [first :: others] ++ [[symbol]] := by
  simp [push]

/-- The last symbol of a group stands in the same line as its first one. -/
theorem row_eq_of_getLast? {table : SymbolTable} {first newest : Symbol} {others : List Symbol}
    (hrow : first :: others ∈ table.rows) (hnewest : newest ∈ (first :: others).getLast?) :
    newest.position.row = first.position.row :=
  row_eq_lineOf hrow newest (List.mem_of_mem_getLast? hnewest)

/-- One more symbol joins the last group if the group stands in its line. -/
theorem rows_concat_join {table : SymbolTable} {above : List (List Symbol)} {first symbol : Symbol}
    {others : List Symbol} (hrows : table.rows = above ++ [first :: others])
    (hline : first.position.row = symbol.position.row) :
    { table with symbols := table.symbols ++ [symbol] }.rows =
      above ++ [first :: others ++ [symbol]] := by
  obtain ⟨hflatten, hnil, hchains, hborders⟩ := List.splitBy_eq_iff.mp hrows
  have hrow : first :: others ∈ table.rows := by simp [hrows]
  rw [rows, List.splitBy_eq_iff]
  refine ⟨by simp [hflatten], by simpa using hnil, fun group hgroup => ?_, ?_⟩
  · rcases List.mem_append.mp hgroup with habove | hlast
    · exact hchains group (List.mem_append_left _ habove)
    · rw [List.mem_singleton.mp hlast, List.isChain_append]
      refine ⟨hchains _ (by simp), .singleton symbol, fun newest hnewest next hnext => ?_⟩
      obtain rfl : symbol = next := Option.some.inj hnext
      exact beq_iff_eq.mpr ((row_eq_of_getLast? hrow hnewest).trans hline)
  · rw [List.isChain_append] at hborders ⊢
    refine ⟨hborders.1, .singleton _, fun before hbefore group hgroup => ?_⟩
    obtain rfl : first :: others ++ [symbol] = group := Option.some.inj hgroup
    obtain ⟨hne, _, hborder⟩ := hborders.2.2 before hbefore _ rfl
    exact ⟨hne, by simp, hborder⟩

/-- One more symbol begins a group if the last group stands in another line. -/
theorem rows_concat_begin {table : SymbolTable} {above : List (List Symbol)} {first symbol : Symbol}
    {others : List Symbol} (hrows : table.rows = above ++ [first :: others])
    (hline : first.position.row ≠ symbol.position.row) :
    { table with symbols := table.symbols ++ [symbol] }.rows = table.rows ++ [[symbol]] := by
  have hflatten := (List.splitBy_eq_iff.mp hrows).1
  have hrow : first :: others ∈ table.rows := by simp [hrows]
  refine List.splitBy_append_cons [] fun newest hnewest => ?_
  rw [hflatten, List.flatten_concat, List.getLast?_append_of_ne_nil _ (List.cons_ne_nil _ _)]
    at hnewest
  rw [row_eq_of_getLast? hrow hnewest]
  exact beq_eq_false_iff_ne.mpr hline

/-- The groups of a table with one more symbol behind all others. The text of the symbol does not
matter, so a keyword whose second half follows later stays in its group. -/
theorem rows_concat (table : SymbolTable) (symbol : Symbol) :
    { table with symbols := table.symbols ++ [symbol] }.rows = push table.rows symbol := by
  rcases List.eq_nil_or_concat' table.rows with hrows | ⟨above, row, hrows⟩
  · have hsymbols : table.symbols = [] := List.splitBy_eq_nil.mp hrows
    rw [hrows, rows, hsymbols]
    rfl
  · have hmem : row ∈ table.rows := by simp [hrows]
    obtain ⟨first, others, rfl⟩ := List.exists_cons_of_ne_nil (List.ne_nil_of_mem_splitBy hmem)
    rw [hrows, push_concat]
    split
    next hline => exact rows_concat_join hrows hline
    next hline =>
      rw [← hrows]
      exact rows_concat_begin hrows hline

/-- The groups of a table are those that arise when its symbols are stored one by one. -/
theorem rows_eq_foldl_push (table : SymbolTable) : table.rows = table.symbols.foldl push [] := by
  obtain ⟨unit, declaredName, symbols⟩ := table
  induction symbols using List.reverseRecOn with
  | nil => rfl
  | append_singleton symbols symbol ih =>
    rw [List.foldl_concat, ← ih]
    exact rows_concat ⟨unit, declaredName, symbols⟩ symbol

/-- The groups of symbols in order stand in the order of their lines. -/
theorem lines_pairwise
    (h : table.symbols.Pairwise fun a b => a.position.Before b.position) :
    (table.rows.map lineOf).Pairwise (· < ·) := by
  have hflatten : table.rows.flatten = table.symbols := List.flatten_splitBy _ _
  rw [← hflatten, List.pairwise_flatten] at h
  have hborders := List.isChain_getLast_head_splitBy
    (fun a b => a.position.row == b.position.row) table.symbols
  refine List.IsChain.pairwise ((List.isChain_map lineOf).mpr ?_)
  rw [List.isChain_iff_forall_rel_of_append_cons_cons] at hborders ⊢
  intro above below before behind hrows
  have habove : above ∈ table.rows := by simp [hrows]
  have hbelow : below ∈ table.rows := by simp [hrows]
  obtain ⟨hlast, hfirst, hborder⟩ := hborders hrows
  -- Two groups side by side differ in their lines where they meet.
  have hle := (List.isChain_iff_forall_rel_of_append_cons_cons.mp h.2.isChain hrows
    _ (List.getLast_mem hlast) _ (List.head_mem hfirst)).row_le
  have hne := beq_eq_false_iff_ne.mp hborder
  rw [row_eq_lineOf habove _ (List.getLast_mem hlast),
    row_eq_lineOf hbelow _ (List.head_mem hfirst)] at hle hne
  omega

/-- The symbols of a text stand in the order of their positions. The groups of a table are its
symbols cut into lines: none is empty, each belongs to one line, and the numbers of their lines
increase. No two neighbours in a group are the two words of a keyword. -/
theorem ofText_ordered (unit text : String) :
    (ofText unit text).symbols.Pairwise (fun a b => a.position.Before b.position) ∧
      (ofText unit text).rows.flatten = (ofText unit text).symbols ∧
      (∃ lines : List ℕ, lines.Pairwise (· < ·) ∧
        List.Forall₂ (fun line row => row ≠ [] ∧ ∀ symbol ∈ row, symbol.position.row = line)
          lines (ofText unit text).rows) ∧
      ∀ row ∈ (ofText unit text).rows, row.IsChain fun a b => (a.text, b.text) ∉ keywordPairs := by
  have hflatten : (ofText unit text).rows.flatten = (ofText unit text).symbols :=
    List.flatten_splitBy _ _
  have hsorted : (ofText unit text).symbols.Pairwise fun a b => a.position.Before b.position :=
    List.pairwise_reverse.mpr
      (Scanner.initial_arranged.foldl text.toList).inOrder.flush.sorted
  have hcoalesced : (ofText unit text).symbols.IsChain fun a b =>
      a.position.row = b.position.row → (a.text, b.text) ∉ keywordPairs :=
    List.isChain_reverse.mpr (Scanner.coalesced_flush _
      (Scanner.coalesced_foldl (s := .initial) .nil text.toList))
  refine ⟨hsorted, hflatten, ⟨_, lines_pairwise hsorted, ?_⟩, fun row hrow => ?_⟩
  · rw [List.forall₂_map_left_iff, List.forall₂_same]
    exact fun row hrow => ⟨List.ne_nil_of_mem_splitBy hrow, row_eq_lineOf hrow⟩
  · have hinfix : row <:+: (ofText unit text).symbols :=
      hflatten ▸ List.infix_of_mem_flatten hrow
    have hchain := List.IsChain.infix hcoalesced hinfix
    refine hchain.imp_of_mem_imp fun a b ha hb hapart => hapart ?_
    rw [row_eq_lineOf hrow a ha, row_eq_lineOf hrow b hb]

/-- A comment that begins anew keeps its last part, and a string belongs to its first line. -/
example : (ofText "unit" "a -- b -- c\n\"d\n\"e").rows =
    [[⟨"a", ⟨0, 0⟩⟩, ⟨"-- c", ⟨0, 7⟩⟩], [⟨"\"d\n\"", ⟨1, 0⟩⟩], [⟨"e", ⟨2, 1⟩⟩]] := by
  decide +kernel

end SymbolTable

end Smi
