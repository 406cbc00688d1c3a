import Mathlib.Data.List.Forall2
import Smi.Proofs.Symbol.Pending

/-!
# Scanning behind stored symbols

What a scanner has stored reaches the rest of a text only through the symbol before it in the same
line. A scanner with nothing pending, whose last symbol stands in an earlier line or has no effect
on its neighbours, therefore cuts the rest of a text as a scanner does that has stored nothing.
-/

namespace Smi

/-- Whether two symbols have the same text and the first stands `line` lines below the second. -/
structure Symbol.Below (line : Nat) (a b : Symbol) : Prop where
  text : a.text = b.text
  row : a.position.row = b.position.row + line

/-- A symbol further down is a comment if the other is. -/
theorem Symbol.Below.isComment {line : Nat} {a b : Symbol} (h : a.Below line b) :
    a.isComment = b.isComment := by
  rw [Symbol.isComment, Symbol.isComment, h.text]

/-- Symbols further down are compiled like the others. -/
theorem compiledTexts_eq_of_below {line : Nat} {added stored : List Symbol}
    (h : List.Forall₂ (Symbol.Below line) added stored) :
    compiledTexts added = compiledTexts stored := by
  induction h with
  | nil => rfl
  | cons hhead _ ih => rw [compiledTexts_cons, compiledTexts_cons, ih, hhead.isComment, hhead.text]

/-- Only a line feed leads to the next line. -/
theorem Position.after_row (position : Position) (c : Char) :
    (position.after c).row = position.row + if c = '\n' then 1 else 0 := by
  unfold Position.after
  split <;> rfl

namespace Scanner

/-- The scanner without what it has stored and where it stands. -/
def bare (s : Scanner) : Scanner :=
  { s with stored := [], declaredName := none, start := .origin, position := .origin }

/-- Whether the symbol stored last cannot affect what is stored from now on: it stands in an
earlier line, or it is inert. -/
def Settled (s : Scanner) : Prop :=
  ∀ symbol ∈ s.stored.head?, symbol.position.row < s.position.row ∨ IsInert symbol.text

/-- Whether two scanners differ only in that the first has stored the symbols of `base` before and
stands `line` lines further down. -/
structure Resumes (base : List Symbol) (line : Nat) (s t : Scanner) : Prop where
  settled : ∀ symbol ∈ base.head?, symbol.position.row < line ∨ IsInert symbol.text
  bare : s.bare = t.bare
  stored : ∃ added, s.stored = added ++ base ∧ List.Forall₂ (Symbol.Below line) added t.stored
  start : s.pending ≠ [] → s.start.row = t.start.row + line
  position : s.position.row = t.position.row + line

namespace Resumes

variable {base : List Symbol} {line : Nat} {s t : Scanner}

/-- Both scanners have the same symbol pending. -/
theorem pending (h : Resumes base line s t) : s.pending = t.pending :=
  (congrArg Scanner.pending h.bare :)

/-- Both scanners are in the same mode. -/
theorem mode (h : Resumes base line s t) : s.mode = t.mode :=
  (congrArg Scanner.mode h.bare :)

/-- Both scanners keep delimiters, or neither does. -/
theorem keepsDelimiters (h : Resumes base line s t) : s.keepsDelimiters = t.keepsDelimiters :=
  (congrArg Scanner.keepsDelimiters h.bare :)

/-- Changes that have nothing to do with symbols and places keep two scanners together. -/
theorem update (h : Resumes base line s t) (f : Scanner → Scanner)
    (hbare : ∀ s, (f s).bare = (f s.bare).bare) (hstored : ∀ s, (f s).stored = s.stored)
    (hpending : ∀ s, (f s).pending = s.pending) (hstart : ∀ s, (f s).start = s.start)
    (hposition : ∀ s, (f s).position = s.position) : Resumes base line (f s) (f t) where
  settled := h.settled
  bare := by rw [hbare s, h.bare, ← hbare t]
  stored := by rw [hstored, hstored]; exact h.stored
  start := by rw [hpending, hstart, hstart]; exact h.start
  position := by rw [hposition, hposition]; exact h.position

/-! ### Storing -/

/-- Both scanners see the same symbol before the one that begins at `start`, or only the first
scanner sees one and it is inert. -/
theorem neighbour (h : Resumes base line s t) (hstart : s.start.row = t.start.row + line) :
    s.neighbour?.map Symbol.text = t.neighbour?.map Symbol.text ∨
      t.neighbour? = none ∧ ∀ first ∈ s.neighbour?.map Symbol.text, IsInert first := by
  obtain ⟨added, hs, hadded⟩ := h.stored
  generalize ht : t.stored = stored at hadded
  cases hadded with
  | nil =>
    refine .inr ⟨by rw [neighbour?, ht]; rfl, fun first hfirst => ?_⟩
    obtain ⟨symbol, hsymbol, rfl⟩ := Option.map_eq_some_iff.mp hfirst
    obtain ⟨hhead, hrow⟩ := Option.filter_eq_some_iff.mp hsymbol
    rw [hs] at hhead
    have hrow : symbol.position.row = s.start.row := beq_iff_eq.mp hrow
    rcases h.settled symbol hhead with hearlier | hinert
    · omega
    · exact hinert
  | @cons a b _ _ hbelow _ =>
    left
    rw [neighbour?, neighbour?, hs, ht, List.cons_append, List.head?_cons, List.head?_cons,
      Option.filter_some, Option.filter_some]
    have hrows : (a.position.row == s.start.row) = (b.position.row == t.start.row) := by
      rw [hbelow.row, hstart, Bool.eq_iff_iff, beq_iff_eq, beq_iff_eq, Nat.add_right_cancel_iff]
    rw [hrows]
    split
    · exact congrArg some hbelow.text
    · rfl

/-- The symbol before the pending one has the same effect on both scanners. -/
theorem neighbour_effect (h : Resumes base line s t) (hstart : s.start.row = t.start.row + line)
    (text : String) :
    ((s.neighbour?.map Symbol.text).bind fun first => joined? first text) =
        ((t.neighbour?.map Symbol.text).bind fun first => joined? first text) ∧
      (s.neighbour?.map Symbol.text = some "::=" ↔ t.neighbour?.map Symbol.text = some "::=") := by
  rcases h.neighbour hstart with hsame | ⟨hnone, hinert⟩
  · rw [hsame]
    exact ⟨rfl, Iff.rfl⟩
  · rw [hnone]
    cases hfirst : s.neighbour?.map Symbol.text with
    | none => exact ⟨rfl, Iff.rfl⟩
    | some first =>
      have hinert := hinert first hfirst
      exact ⟨hinert.joined text, by simp [hinert.ne_assign]⟩

/-- A scanner still resumes another one when both have stored a text. -/
theorem store (h : Resumes base line s t) (hstart : s.start.row = t.start.row + line)
    (text : String) : Resumes base line (s.store text) (t.store text) := by
  obtain ⟨hjoined, hassign⟩ := h.neighbour_effect hstart text
  obtain ⟨added, hs, hadded⟩ := h.stored
  unfold Scanner.store
  simp only [hjoined, ne_eq, hassign]
  split
  next whole hwhole =>
    obtain ⟨first, hfirst, _⟩ := Option.bind_eq_some_iff.mp hwhole
    obtain ⟨symbol, hsymbol, _⟩ := Option.map_eq_some_iff.mp hfirst
    obtain ⟨hhead, _⟩ := Option.filter_eq_some_iff.mp hsymbol
    generalize ht : t.stored = stored at hadded hhead
    cases hadded with
    | nil => cases hhead
    | @cons a _ others _ hbelow hothers =>
      exact ⟨h.settled, h.bare, ⟨⟨whole, a.position⟩ :: others, by rw [hs]; rfl,
        .cons ⟨rfl, hbelow.row⟩ hothers⟩, h.start, h.position⟩
  next =>
    have hbare := h.bare
    simp only [Scanner.bare, mk.injEq] at hbare
    refine ⟨h.settled, ?_, ⟨⟨text, s.start⟩ :: added, by rw [hs]; rfl,
      .cons ⟨rfl, hstart⟩ hadded⟩, h.start, h.position⟩
    simp [Scanner.bare, hbare]

/-- A scanner still resumes another one when both have ended their symbols. -/
theorem flush (h : Resumes base line s t) : Resumes base line s.flush t.flush := by
  have hcleared : Resumes base line { s with pending := [], afterAssign := false }
      { t with pending := [], afterAssign := false } :=
    ⟨h.settled, congrArg (fun u => { u with pending := [], afterAssign := false }) h.bare, h.stored,
      fun hne => absurd rfl hne, h.position⟩
  unfold Scanner.flush
  rw [h.pending]
  split
  next => exact h
  next hne =>
    have hstart := h.start (by simpa [h.pending] using hne)
    dsimp only
    split
    · exact hcleared
    · exact hcleared.store hstart _

/-- A scanner still resumes another one when both have taken a character in. -/
theorem append (h : Resumes base line s t) (c : Char) :
    Resumes base line (s.append c) (t.append c) := by
  refine ⟨h.settled, ?_, h.stored, fun _ => ?_, h.position⟩
  · exact congrArg (fun u => (u.append c).bare) h.bare
  · simp only [Scanner.append, h.pending]
    split
    next => exact h.position
    next hne => exact h.start (by simpa [h.pending] using hne)

/-- A scanner still resumes another one behind a symbol of a single character. -/
theorem alone (h : Resumes base line s t) (c : Char) : Resumes base line (s.alone c) (t.alone c) :=
  (h.flush.append c).flush

/-! ### Reading -/

/-- A scanner still resumes another one when both have read a space. -/
theorem readSpace (h : Resumes base line s t) (c : Char) :
    Resumes base line (s.readSpace c) (t.readSpace c) := by
  unfold Scanner.readSpace
  rw [h.keepsDelimiters]
  split
  · exact h.append c
  · exact h.flush

/-- A scanner still resumes another one when both have counted a bracket. -/
theorem count (h : Resumes base line s t) (c : Char) : Resumes base line (s.count c) (t.count c) :=
  h.update (Scanner.count · c) (fun _ => rfl) (fun _ => rfl) (fun _ => rfl) (fun _ => rfl)
    fun _ => rfl

/-- A scanner still resumes another one when both have read a separator. -/
theorem readSeparator (h : Resumes base line s t) (c : Char) :
    Resumes base line (s.readSeparator c) (t.readSeparator c) := by
  unfold Scanner.readSeparator
  rw [h.mode]
  split
  · exact h.append c
  · exact h.alone c

/-- A scanner still resumes another one when both have read the end of a line. -/
theorem readLineEnd (h : Resumes base line s t) (c : Char) :
    Resumes base line (s.readLineEnd c) (t.readLineEnd c) := by
  unfold Scanner.readLineEnd
  rw [h.mode]
  split
  · exact h.append c
  · exact h.flush.update (fun u => { u with mode := u.mode.endLine, rounds := 0 }) (fun _ => rfl)
      (fun _ => rfl) (fun _ => rfl) (fun _ => rfl) fun _ => rfl

/-- A scanner still resumes another one when both have opened a comment. -/
theorem openComment (h : Resumes base line s t) (hpending : s.pending ≠ []) :
    Resumes base line s.openComment t.openComment := by
  have hcut : Resumes base line
      { s with mode := s.mode.openComment, pending := (beforeHyphens s.pending.reverse).reverse }
      { t with mode := t.mode.openComment, pending := (beforeHyphens t.pending.reverse).reverse } :=
    ⟨h.settled, congrArg (fun u => { u with
      mode := u.mode.openComment, pending := (beforeHyphens u.pending.reverse).reverse }) h.bare,
      h.stored, fun _ => h.start hpending, h.position⟩
  have hflush := hcut.flush
  exact ⟨hflush.settled, congrArg (fun u => { u with pending := ['-', '-'] }) hflush.bare,
    hflush.stored, fun _ => hflush.position, hflush.position⟩

/-- A scanner still resumes another one when both have read a hyphen. -/
theorem readHyphen (h : Resumes base line s t) :
    Resumes base line s.readHyphen t.readHyphen := by
  have hprevious : s.previous = t.previous := (congrArg Scanner.previous h.bare :)
  unfold Scanner.readHyphen
  dsimp only
  rw [hprevious, h.mode]
  split
  · exact (h.append '-').openComment (List.cons_ne_nil _ _)
  · exact h.append '-'

/-- A scanner still resumes another one when both have read a double quote. -/
theorem readQuote (h : Resumes base line s t) : Resumes base line s.readQuote t.readQuote := by
  have hmode {u v : Scanner} (huv : Resumes base line u v) (mode : Mode) :
      Resumes base line { u with mode := mode } { v with mode := mode } :=
    huv.update (fun u => { u with mode := mode }) (fun _ => rfl) (fun _ => rfl) (fun _ => rfl)
      (fun _ => rfl) fun _ => rfl
  unfold Scanner.readQuote
  rw [h.mode]
  split
  · exact (hmode h.flush .string).append '"'
  · exact ((hmode h .plain).append '"').flush
  · exact (hmode h .quotation).append '"'
  · exact (hmode h .comment).append '"'
  · exact (h.append '"').flush

/-- A scanner still resumes another one when both have read a character. -/
theorem read (h : Resumes base line s t) (c : Char) : Resumes base line (s.read c) (t.read c) := by
  have hcount := h.count c
  cases readKind c with
  | space _ hread =>
    rw [hread, hread]
    exact h.readSpace c
  | opening _ hread =>
    rw [hread, hread, hcount.keepsDelimiters]
    split
    · exact hcount.append c
    · exact hcount.alone c
  | closing _ hread =>
    rw [hread, hread]
    exact hcount.append c
  | separator _ hread =>
    rw [hread, hread]
    exact h.readSeparator c
  | lineEnd _ hread =>
    rw [hread, hread]
    exact h.readLineEnd c
  | hyphen _ hread =>
    rw [hread, hread]
    exact h.readHyphen
  | quote _ hread =>
    rw [hread, hread]
    exact h.readQuote
  | plain _ _ hread =>
    rw [hread, hread]
    exact h.append c

/-- A scanner still resumes another one when both have gone on by one character. -/
theorem step (h : Resumes base line s t) (c : Char) : Resumes base line (s.step c) (t.step c) := by
  have hread := h.read c
  refine ⟨hread.settled, congrArg (fun u => { u with previous := some c }) hread.bare,
    hread.stored, hread.start, ?_⟩
  rw [Scanner.step, Scanner.step]
  dsimp only
  have hposition := hread.position
  rw [Position.after_row, Position.after_row]
  omega

/-- A scanner still resumes another one when both have read a text. -/
theorem feed (h : Resumes base line s t) (text : String) :
    Resumes base line (s.feed text) (t.feed text) := by
  unfold Scanner.feed
  induction text.toList generalizing s t with
  | nil => exact h
  | cons c rest ih => exact ih (h.step c)

/-- The symbols of the first scanner are those stored before and those of the second. -/
theorem compileSequence (h : Resumes base line s t) (unit : String) :
    (s.finish unit).compileSequence = compiledTexts base ++ (t.finish unit).compileSequence := by
  obtain ⟨added, hs, hadded⟩ := h.flush.stored
  rw [compileSequence_finish, compileSequence_finish, hs, compiledTexts_append,
    compiledTexts_eq_of_below hadded]

end Resumes

variable {s : Scanner}

/-- Behind a scanner that is settled and has nothing pending, a text is cut as at the start. -/
theorem compileSequence_feed (hpending : s.pending = []) (hsettled : s.Settled)
    (unit text : String) :
    ((s.feed text).finish unit).compileSequence =
      compiledTexts s.stored ++ ((s.bare.feed text).finish unit).compileSequence := by
  have hresumes : Resumes s.stored s.position.row s s.bare :=
    ⟨hsettled, rfl, ⟨[], rfl, .nil⟩, fun hne => absurd hpending hne, (Nat.zero_add _).symm⟩
  exact (hresumes.feed text).compileSequence unit

end Scanner

end Smi
