import Smi.Proofs.Symbol.Conservation
import Smi.Proofs.Symbol.Gathering
import Smi.Proofs.Symbol.Resumption

/-!
# Where symbols stand

The position of a symbol is the place of the first character that was gathered for it. In brackets
a scanner may gather blanks first, which are then trimmed away, so a symbol begins at its position
or behind blanks that stand there, always in the same line. The position is the place of its first
character exactly if no blank stands there. That is so unless the text in front of this character
leaves blanks pending to which the character is added.
-/

namespace Smi

namespace Position

/-- The place behind some characters. -/
def behind (cs : List Char) : Position :=
  cs.foldl after origin

/-- The place behind one more character is the next one. -/
theorem behind_concat (cs : List Char) (c : Char) : behind (cs ++ [c]) = (behind cs).after c := by
  rw [behind, List.foldl_append]
  rfl

/-- Characters without a line feed lead further right in the same line. -/
theorem behind_append_of_not_mem {cs : List Char} (hcs : '\n' ∉ cs) (before : List Char) :
    behind (before ++ cs) = ⟨(behind before).row, (behind before).column + cs.length⟩ := by
  induction cs using List.reverseRecOn with
  | nil => rw [List.append_nil, List.length_nil, Nat.add_zero]
  | append_singleton cs c ih =>
    simp only [List.mem_append, List.mem_singleton, not_or] at hcs
    rw [← List.append_assoc, behind_concat, ih hcs.1, after, if_neg (Ne.symm hcs.2),
      List.length_append, List.length_singleton, Nat.add_assoc]

/-- The place some lines further down. -/
def down (lines : Nat) (place : Position) : Position :=
  ⟨place.row + lines, place.column⟩

/-- Characters further down lead to places further down. -/
theorem foldl_after_down (lines : Nat) (place : Position) (cs : List Char) :
    cs.foldl after (place.down lines) = (cs.foldl after place).down lines := by
  induction cs generalizing place with
  | nil => rfl
  | cons c rest ih =>
    have hafter : (place.down lines).after c = (place.after c).down lines := by
      unfold after
      split
      · simp [down, Nat.add_right_comm]
      · rfl
    rw [List.foldl_cons, List.foldl_cons, hafter, ih]

end Position

namespace Text

/-- The lines of a text, without the line feeds that end them. -/
def lines (text : String) : List (List Char) :=
  pieces (· == '\n') text.toList

/-- The rest of a line from a place on. -/
def lineFrom (text : String) (place : Position) : List Char :=
  ((lines text)[place.row]?.getD []).drop place.column

/-- The character at a place. -/
def charAt? (text : String) (place : Position) : Option Char :=
  (lines text)[place.row]?.bind fun chars => chars[place.column]?

/-- The rest of a line begins with the character at the place. -/
theorem head?_lineFrom (text : String) (place : Position) :
    (lineFrom text place).head? = charAt? text place := by
  rw [lineFrom, charAt?, List.head?_drop]
  cases (lines text)[place.row]? <;> rfl

/-- Behind the beginning of a line and some more characters, the rest of the line is what comes next
up to a line feed. -/
theorem drop_pieces {line : List Char} (hline : '\n' ∉ line) (before rest : List Char) :
    ((pieces (· == '\n') (line ++ (before ++ rest)))[
        (before.foldl Position.after ⟨0, line.length⟩).row]?.getD []).drop
      (before.foldl Position.after ⟨0, line.length⟩).column = rest.takeWhile (· != '\n') := by
  -- A character of the same line moves over to `line`, and a line feed begins an empty one.
  induction before generalizing line with
  | nil =>
    have hkept : ∀ c ∈ line, (!c == '\n') = true := fun c hc => by
      simpa using fun heq : c = '\n' => hline (heq ▸ hc)
    rw [List.foldl_nil, List.nil_append, ← List.head?_eq_getElem?, head?_pieces,
      List.takeWhile_append_of_pos hkept, Option.getD_some, List.drop_left]
    rfl
  | cons c others ih =>
    rw [List.foldl_cons, Position.after]
    split
    next hc =>
      have hcut : pieces (· == '\n') (line ++ (c :: others ++ rest)) =
          line :: pieces (· == '\n') (others ++ rest) :=
        pieces_append_cons (fun d hd => by simpa using fun heq : d = '\n' => hline (heq ▸ hd))
          (by simpa using hc)
      have hdown : others.foldl Position.after ⟨0 + 1, 0⟩ =
          (others.foldl Position.after ⟨0, 0⟩).down 1 :=
        Position.foldl_after_down 1 ⟨0, 0⟩ others
      rw [hdown, hcut]
      exact ih List.not_mem_nil
    next hc =>
      have hlonger : '\n' ∉ line ++ [c] := by simp [hline, Ne.symm hc]
      have hnext := ih hlonger
      rw [List.length_append, List.append_assoc] at hnext
      exact hnext

/-- The rest of the line behind some characters. -/
theorem lineFrom_behind {text : String} {before rest : List Char}
    (htext : text.toList = before ++ rest) :
    lineFrom text (Position.behind before) = rest.takeWhile (· != '\n') := by
  rw [lineFrom, lines, htext]
  exact drop_pieces List.not_mem_nil before rest

end Text

/-- Whether a symbol stands in a text that has been read: its first character stands at its position
or behind blanks that do not reach the end of the line. It stands behind blanks exactly if they were
held back and it was added to them, unless it is a comment. -/
def Symbol.StandsIn (symbol : Symbol) (read : List Char) : Prop :=
  ∃ before blanks c rest, read = before ++ (blanks ++ c :: rest) ∧
    symbol.position = .behind before ∧ symbol.text.toList.head? = some c ∧
      (∀ blank ∈ blanks, Text.isBlank blank = true ∧ blank ≠ '\n') ∧
      (blanks ≠ [] ↔ symbol.isComment = false ∧ (Scanner.behind (before ++ blanks)).HoldsBlanks ∧
        (Scanner.behind (before ++ blanks)).takes c = true)

namespace Symbol.StandsIn

variable {symbol : Symbol} {read more : List Char} {text : String}

/-- A symbol still stands in a text when more of it has been read. -/
theorem append (h : symbol.StandsIn read) (more : List Char) : symbol.StandsIn (read ++ more) := by
  obtain ⟨before, blanks, c, rest, rfl, hplace⟩ := h
  exact ⟨before, blanks, c, rest ++ more, by simp, hplace⟩

/-- From the position of a symbol on, its first character is the first that is no blank. -/
theorem head?_dropWhile (h : symbol.StandsIn text.toList) (htrimmed : IsTrimmed symbol.text) :
    ((Text.lineFrom text symbol.position).dropWhile Text.isBlank).head? =
      symbol.text.toList.head? := by
  obtain ⟨before, blanks, c, rest, htext, hposition, hhead, hblanks, -⟩ := h
  have hvisible : Text.isBlank c = false := htrimmed.head c hhead
  have hline : c ≠ '\n' := by
    rintro rfl
    cases hvisible
  rw [hposition, Text.lineFrom_behind htext,
    List.takeWhile_append_of_pos fun blank hblank => bne_iff_ne.mpr (hblanks blank hblank).2,
    List.dropWhile_append_of_pos fun blank hblank => (hblanks blank hblank).1, hhead]
  simp [hline, hvisible]

end Symbol.StandsIn

/-- Neither the first half of a two-word keyword nor the keyword is a comment. -/
theorem isComment_of_joined? {first second whole : String}
    (h : joined? first second = some whole) (position : Position) :
    (Symbol.mk first position).isComment = false ∧
      (Symbol.mk whole position).isComment = false := by
  have hword {text : String} (htext : text.toList.head? ≠ some '-') :
      (Symbol.mk text position).isComment = false := isComment_eq_false htext
  unfold joined? at h
  split at h <;> first | (cases h; exact ⟨hword (by decide), hword (by decide)⟩) | cases h

/-- What is added stands where it says, and a keyword stands where its first half does. -/
theorem Adds.standsIn {symbol : Symbol} {stored added : List Symbol} {read : List Char}
    (h : Adds symbol stored added) (hsymbol : symbol.StandsIn read)
    (hstored : ∀ other ∈ stored, other.StandsIn read) : ∀ other ∈ added, other.StandsIn read := by
  cases h with
  | newest => exact List.forall_mem_cons.mpr ⟨hsymbol, hstored⟩
  | @joins first whole rest hjoined =>
    obtain ⟨hfirst, hrest⟩ := List.forall_mem_cons.mp hstored
    refine List.forall_mem_cons.mpr ⟨?_, hrest⟩
    obtain ⟨before, blanks, c, behind, hread, hposition, hhead, hblanks, hheld⟩ := hfirst
    have hwhole : whole.toList.head? = some c := by
      rw [eq_of_joined? hjoined, String.toList_append, String.toList_append, List.append_assoc,
        List.head?_append, hhead, Option.some_or]
    obtain ⟨hfirst, hkeyword⟩ := isComment_of_joined? hjoined first.position
    refine ⟨before, blanks, c, behind, hread, hposition, hwhole, hblanks, ?_⟩
    rw [hheld, hfirst, hkeyword]

/-- What stands before two hyphens is part of what was read before them. -/
theorem prefix_beforeHyphens_concat (cs : List Char) :
    beforeHyphens (cs ++ ['-', '-']) <+: cs := by
  induction cs with
  | nil => exact List.prefix_rfl
  | cons c rest ih =>
    rw [List.cons_append]
    unfold beforeHyphens
    split
    next => exact List.nil_prefix
    next d others _ heq =>
      obtain ⟨rfl, rfl⟩ := List.cons.inj heq
      exact (List.prefix_cons_inj c).mpr ih
    next => exact List.nil_prefix

namespace Scanner

variable {s : Scanner} {c : Char} {cs before blanks rest : List Char} {text : String}

/-! ### Ending symbols -/

/-- A comment is no text that was added to blanks: its second hyphen would have begun it anew. -/
theorem not_gathered_hyphens (h : GatheredBehind before (blanks ++ '-' :: '-' :: rest))
    (hblanks : ∀ blank ∈ blanks, Text.isBlank blank = true) (hne : blanks ≠ []) : False := by
  have hhyphens : blanks ++ ['-'] ++ ['-'] <+: blanks ++ '-' :: '-' :: rest := ⟨rest, by simp⟩
  obtain ⟨hpending, htakes⟩ := h.next _ _ hhyphens (by simp)
  have hprevious : (behind (before ++ (blanks ++ ['-']))).previous = some '-' := by
    rw [previous_behind, ← List.append_assoc, List.getLast?_concat]
  have hmode : (behind (before ++ (blanks ++ ['-']))).mode = .string := by
    simpa [takes, hprevious] using htakes
  have hquote := getLast?_pending_behind _ hmode
  rw [hpending, List.getLast?_reverse, List.head?_append_of_ne_nil _ hne] at hquote
  cases hblanks '"' (List.mem_of_mem_head? hquote)

/-- A symbol that was gathered behind blanks was added to them, and it is no comment. -/
theorem added_of_gathered {position : Position} {others : List Char}
    (hhead : text.toList.head? = some c)
    (hgathered : GatheredBehind before (blanks ++ (text.toList ++ others)))
    (hblanks : ∀ blank ∈ blanks, Text.isBlank blank = true) (hne : blanks ≠ []) :
    (Symbol.mk text position).isComment = false ∧ (behind (before ++ blanks)).HoldsBlanks ∧
      (behind (before ++ blanks)).takes c = true := by
  obtain ⟨more, hchars⟩ := List.head?_eq_some_iff.mp hhead
  rw [hchars, List.cons_append] at hgathered
  have hbegin : blanks ++ [c] <+: blanks ++ c :: (more ++ others) :=
    ⟨more ++ others, List.append_assoc _ _ _⟩
  obtain ⟨hpending, htakes⟩ := hgathered.next blanks c hbegin hne
  refine ⟨?_, ⟨by rw [hpending]; simpa using hne, fun d hd => ?_⟩, htakes⟩
  · by_contra hcomment
    obtain ⟨tail, htail⟩ := isComment_iff.mp (Bool.not_eq_false _ ▸ hcomment)
    obtain ⟨rfl, rfl⟩ := List.cons.inj (htail.trans hchars)
    exact not_gathered_hyphens hgathered hblanks hne
  · rw [hpending] at hd
    exact hblanks d (List.mem_reverse.mp hd)

/-- Two hyphens in front of a text with blanks behind it belong to the text. -/
theorem hyphens_prefix_of_append {others : List Char} (hne : cs ≠ [])
    (hothers : ∀ other ∈ others, Text.isBlank other = true)
    (h : ['-', '-'] <+: cs ++ others) : ['-', '-'] <+: cs := by
  obtain ⟨tail, htail⟩ := h
  obtain ⟨c, more, rfl⟩ := List.exists_cons_of_ne_nil hne
  obtain ⟨rfl, hmore⟩ := List.cons.inj htail
  cases more with
  | nil =>
    obtain rfl : '-' :: tail = others := hmore
    cases hothers '-' List.mem_cons_self
  | cons d more =>
    obtain rfl : '-' = d := (List.cons.inj hmore).1
    exact ⟨more, rfl⟩

/-- A symbol that was gathered stands behind blanks exactly if they were held back and its first
character was added to them, unless it is a comment. -/
theorem blanks_ne_nil_iff {position : Position} {others : List Char}
    (hhead : text.toList.head? = some c)
    (hblanks : ∀ blank ∈ blanks, Text.isBlank blank = true)
    (hothers : ∀ other ∈ others, Text.isBlank other = true)
    (hgathered : ['-', '-'] <+: blanks ++ (text.toList ++ others) ∨
      GatheredBehind before (blanks ++ (text.toList ++ others))) :
    blanks ≠ [] ↔ (Symbol.mk text position).isComment = false ∧
      (behind (before ++ blanks)).HoldsBlanks ∧ (behind (before ++ blanks)).takes c = true := by
  constructor
  · intro hne
    rcases hgathered with ⟨tail, htail⟩ | hgathered
    · -- A comment begins with a hyphen, so there are no blanks in front of it.
      obtain ⟨blank, _, rfl⟩ := List.exists_cons_of_ne_nil hne
      obtain rfl : '-' = blank := (List.cons.inj htail).1
      cases hblanks '-' List.mem_cons_self
    · exact added_of_gathered hhead hgathered hblanks hne
  · rintro ⟨hcomment, hholds, htakes⟩ rfl
    rw [List.append_nil] at hholds htakes
    obtain ⟨more, hchars⟩ := List.head?_eq_some_iff.mp hhead
    rcases hgathered with hhyphens | hgathered
    · have htext := hyphens_prefix_of_append (by simp [hchars]) hothers hhyphens
      rw [isComment_iff.mpr htext] at hcomment
      cases hcomment
    · rcases hgathered.first c (by simp [hchars]) with hnothing | hends
      · exact hholds.1 hnothing
      · rw [htakes] at hends
        cases hends

/-- What is gathered stands where the gathering began. -/
theorem Gathers.standsIn (h : s.Gathers text)
    (hread : cs = before ++ (s.pending.reverse ++ rest)) (hstart : s.start = .behind before)
    (hgathered : ['-', '-'] <+: s.pending.reverse ∨ GatheredBehind before s.pending.reverse)
    (hquoted : '\n' ∈ s.pending → s.pending.getLast? = some '"') :
    Symbol.StandsIn ⟨text, s.start⟩ cs := by
  obtain ⟨blanks, others, hpending, hblanks, hothers⟩ := Text.exists_eq_trimChars s.pending.reverse
  rw [← h.toList_eq] at hpending
  obtain ⟨c, more, hchars⟩ := List.exists_cons_of_ne_nil h.nonempty
  have hhead : text.toList.head? = some c := by rw [hchars]; rfl
  refine ⟨before, blanks, c, more ++ (others ++ rest), ?_, hstart, hhead,
    fun blank hblank => ⟨hblanks blank hblank, ?_⟩, ?_⟩
  · rw [hread, hpending, hchars]
    simp
  · -- A string begins with its double quote, so it has no blanks in front.
    rintro rfl
    have hmem : '\n' ∈ s.pending := by
      rw [← List.mem_reverse, hpending]
      simp [hblank]
    have hfirst : (blanks ++ (text.toList ++ others)).head? = some '"' := by
      rw [← List.append_assoc, ← hpending, List.head?_reverse, hquoted hmem]
    rw [List.head?_append_of_ne_nil _ (List.ne_nil_of_mem hblank)] at hfirst
    cases hblanks '"' (List.mem_of_mem_head? hfirst)
  · rw [hpending, List.append_assoc] at hgathered
    exact blanks_ne_nil_iff hhead hblanks hothers hgathered

/-- Ending the pending symbol, even if only the front of it is left, stores it where it stands. -/
theorem standsIn_flush (hstored : ∀ symbol ∈ s.stored, symbol.StandsIn cs)
    (hpending : s.pending ≠ [] →
      ∃ before rest, cs = before ++ (s.pending.reverse ++ rest) ∧ s.start = .behind before ∧
        (['-', '-'] <+: s.pending.reverse ∨ GatheredBehind before s.pending.reverse))
    (hquoted : '\n' ∈ s.pending → s.pending.getLast? = some '"') :
    ∀ symbol ∈ s.flush.stored, symbol.StandsIn cs := by
  rcases s.stored_flush with ⟨hsame, -⟩ | ⟨text, hgathers, hadds⟩
  · rwa [hsame]
  · obtain ⟨before, rest, hread, hstart, hgathered⟩ := hpending hgathers.pending_ne_nil
    exact hadds.standsIn (hgathers.standsIn hread hstart hgathered hquoted) hstored

/-! ### Reading -/

/-- A scanner stands behind what it has read. -/
theorem position_behind (cs : List Char) : (behind cs).position = .behind cs := by
  induction cs using List.reverseRecOn with
  | nil => rfl
  | append_singleton cs c ih =>
    rw [behind_concat, Position.behind_concat, ← ih, ← (behind cs).position_read c]
    rfl

/-- Whether what a scanner has stored and gathered stands where it says, in the characters that it
has read. What it has gathered is a comment or was gathered character by character. Line ends are
gathered only behind the double quote of a string. -/
structure Locates (cs : List Char) (s : Scanner) : Prop where
  stored : ∀ symbol ∈ s.stored, symbol.StandsIn cs
  pending : s.pending ≠ [] →
    ∃ before, cs = before ++ s.pending.reverse ∧ s.start = .behind before ∧
      (['-', '-'] <+: s.pending.reverse ∨ GatheredBehind before s.pending.reverse)
  quoted : '\n' ∈ s.pending → s.pending.getLast? = some '"'

/-- Whether a scanner is ready for a character behind what has been read: the character is added to
what is pending there, or that has been ended. -/
def ReadyFor (s : Scanner) (cs : List Char) (c : Char) : Prop :=
  s.pending = (behind cs).pending ∧ (behind cs).takes c = true ∨
    s.pending = [] ∧ (behind cs).takes c = false

namespace Locates

/-- Symbols stand where they say when the pending one is ended. -/
theorem flush (h : s.Locates cs) : s.flush.Locates cs := by
  refine ⟨standsIn_flush h.stored (fun hne => ?_) h.quoted, fun hne => absurd s.flush_pending hne,
    fun hmem => absurd (s.flush_pending ▸ hmem) List.not_mem_nil⟩
  obtain ⟨before, hread, hstart, hgathered⟩ := h.pending hne
  exact ⟨before, [], by rw [List.append_nil, hread], hstart, hgathered⟩

/-- A scanner that gathers nothing passes over a character. -/
theorem pass (h : s.Locates cs) (hpending : s.pending = []) (c : Char) :
    s.Locates (cs ++ [c]) :=
  ⟨fun symbol hsymbol => (h.stored symbol hsymbol).append [c], fun hne => absurd hpending hne,
    h.quoted⟩

/-- Symbols stand where they say when a character is taken in. -/
theorem append (h : s.Locates cs) (hposition : s.position = .behind cs) (hready : s.ReadyFor cs c)
    (hc : c = '\n' → s.pending.getLast? = some '"') : (s.append c).Locates (cs ++ [c]) := by
  refine ⟨fun symbol hsymbol => (h.stored symbol hsymbol).append [c], fun _ => ?_, fun hmem => ?_⟩
  · by_cases hpending : s.pending = []
    · refine ⟨cs, by simp [Scanner.append, hpending],
        by simp [Scanner.append, hpending, hposition], .inr ?_⟩
      have hbegins : (behind cs).pending = [] ∨ (behind cs).takes c = false :=
        hready.imp (fun hadded => hadded.1.symm.trans hpending) And.right
      simpa [Scanner.append, hpending] using GatheredBehind.singleton hbegins
    · obtain ⟨before, hread, hstart, hgathered⟩ := h.pending hpending
      obtain ⟨hsame, htakes⟩ := hready.resolve_right fun hended => hpending hended.1
      have hchars : (s.append c).pending.reverse = s.pending.reverse ++ [c] := by
        simp [Scanner.append]
      refine ⟨before, by rw [hchars, ← List.append_assoc, ← hread],
        by simp [Scanner.append, hpending, hstart], ?_⟩
      rw [hchars]
      refine hgathered.imp (fun hhyphens => hhyphens.trans (List.prefix_append _ _)) fun hfrom => ?_
      rw [hread] at hsame htakes
      exact hfrom.concat (by simpa using hpending) (by rw [← hsame, List.reverse_reverse]) htakes
  · have hquote : s.pending.getLast? = some '"' :=
      (List.mem_cons.mp hmem).elim (fun hnew => hc hnew.symm) h.quoted
    exact (List.getLast?_cons).trans (by rw [hquote]; rfl)

/-- Symbols stand where they say when a character other than a line feed is taken in. -/
theorem append_ne (h : s.Locates cs) (hposition : s.position = .behind cs)
    (hready : s.ReadyFor cs c) (hc : c ≠ '\n') : (s.append c).Locates (cs ++ [c]) :=
  h.append hposition hready fun heq => absurd heq hc

/-- Symbols stand where they say behind a symbol of a single character. -/
theorem alone (h : s.Locates cs) (hposition : s.position = .behind cs)
    (hends : (behind cs).takes c = false) (hc : c ≠ '\n') : (s.alone c).Locates (cs ++ [c]) :=
  (h.flush.append_ne (s.flush_position.trans hposition) (.inr ⟨s.flush_pending, hends⟩) hc).flush

/-- The symbol of a comment stands where the first of its two hyphens does. -/
theorem openComment (h : s.Locates cs) (hposition : s.position = .behind cs)
    (hprevious : cs.getLast? = some '-') (hhyphen : s.pending.head? = some '-') :
    (s.append '-').openComment.Locates (cs ++ ['-']) := by
  obtain ⟨older, holder⟩ := List.head?_eq_some_iff.mp hhyphen
  have hchars : s.pending.reverse = older.reverse ++ ['-'] := by rw [holder, List.reverse_cons]
  have hcut : beforeHyphens (s.append '-').pending.reverse <+: s.pending.reverse := by
    have happended : (s.append '-').pending.reverse = older.reverse ++ ['-', '-'] := by
      simp [Scanner.append, hchars]
    rw [happended, hchars]
    exact (prefix_beforeHyphens_concat _).trans (List.prefix_append _ _)
  have hstart : (s.append '-').start = s.start := by simp [Scanner.append, holder]
  obtain ⟨before, hread, hbegun, hgathered⟩ := h.pending (by simp [holder])
  obtain ⟨rest, hrest⟩ := hcut
  -- The front of what was gathered is stored, and the gathering begins anew at the first hyphen.
  refine ⟨standsIn_flush (fun symbol hsymbol => (h.stored symbol hsymbol).append ['-'])
    (fun hne => ?_) fun hmem => ?_, fun _ => ?_, fun hmem => ?_⟩
  · refine ⟨before, rest ++ ['-'], ?_, hstart.trans hbegun, ?_⟩
    · rw [List.reverse_reverse, hread, ← hrest, List.append_assoc, List.append_assoc]
    · rw [List.reverse_reverse]
      have hbefore : ¬['-', '-'] <+: s.pending.reverse := by
        rintro ⟨others, hothers⟩
        have hcomment : (s.append '-').pending.reverse = '-' :: '-' :: (others ++ ['-']) := by
          simp [Scanner.append, ← hothers]
        refine hne ?_
        rw [hcomment]
        rfl
      exact .inr ((hgathered.resolve_left hbefore).of_isPrefix ⟨rest, hrest⟩)
  · change '\n' ∈ (beforeHyphens (s.append '-').pending.reverse).reverse at hmem
    rw [List.mem_reverse] at hmem
    have hquote := h.quoted (List.mem_reverse.mp (hrest ▸ List.mem_append_left rest hmem))
    rw [← List.head?_reverse, ← hrest, List.head?_append_of_ne_nil _ (List.ne_nil_of_mem hmem)]
      at hquote
    exact List.getLast?_reverse.trans hquote
  · obtain ⟨first, rfl⟩ := List.getLast?_eq_some_iff.mp hprevious
    refine ⟨first, List.append_assoc _ _ _, ?_, .inl List.prefix_rfl⟩
    have hposition' : s.position = (Position.behind first).after '-' := by
      rw [hposition, Position.behind_concat]
    have hopened : (s.append '-').openComment.start = ⟨s.position.row, s.position.column - 1⟩ := by
      simp [Scanner.openComment, flush_position, Scanner.append]
    rw [hopened, hposition']
    rfl
  · exact absurd hmem (by simp [Scanner.openComment])

/-- Symbols stand where they say when the end of a line is read. -/
theorem readLineEnd (h : s.Locates cs) (hscan : s = behind cs) (hc : c = '\n' ∨ c = '\r') :
    (s.readLineEnd c).Locates (cs ++ [c]) := by
  rw [Scanner.readLineEnd]
  split
  next hmode =>
    have htakes : (behind cs).takes c = true := by
      rw [← hscan, takes_of_lineEnd hc, decide_eq_true hmode]
    refine h.append (hscan ▸ position_behind cs) (.inl ⟨by rw [hscan], htakes⟩) fun _ => ?_
    rw [hscan] at hmode ⊢
    exact getLast?_pending_behind cs hmode
  next =>
    have hpassed := h.flush.pass s.flush_pending c
    exact ⟨hpassed.stored, hpassed.pending, hpassed.quoted⟩

/-- Symbols stand where they say when a hyphen is read. -/
theorem readHyphen (h : s.Locates cs) (hscan : s = behind cs) :
    s.readHyphen.Locates (cs ++ ['-']) := by
  have hposition : s.position = .behind cs := hscan ▸ position_behind cs
  rw [Scanner.readHyphen]
  split
  next hopens =>
    simp only [Bool.and_eq_true, decide_eq_true_eq] at hopens
    have hprevious := hopens.1
    rw [hscan] at hprevious
    exact h.openComment hposition (previous_behind cs ▸ hprevious)
      (hscan ▸ head?_pending_behind cs hprevious)
  next hadds =>
    refine h.append_ne hposition (.inl ⟨by rw [hscan], ?_⟩) (by decide)
    rw [← hscan]
    simpa [takes, imp_iff_not_or] using hadds

/-- Symbols stand where they say when a double quote is read. -/
theorem readQuote (h : s.Locates cs) (hscan : s = behind cs) :
    s.readQuote.Locates (cs ++ ['"']) := by
  have hposition : s.position = .behind cs := hscan ▸ position_behind cs
  have hne : '"' ≠ '\n' := by decide
  have hmode (mode : Mode) : Locates cs { s with mode := mode } :=
    ⟨h.stored, h.pending, h.quoted⟩
  have hbegun : Locates cs { s.flush with mode := .string } :=
    ⟨h.flush.stored, h.flush.pending, h.flush.quoted⟩
  have hpending : s.pending = (behind cs).pending := congrArg Scanner.pending hscan
  have htakes : (behind cs).takes '"' = decide (s.mode ≠ .plain) := by rw [hscan]; rfl
  have hready (mode : Mode) (hmode : s.mode ≠ .plain) :
      ReadyFor { s with mode := mode } cs '"' :=
    .inl ⟨hpending, by rw [htakes, decide_eq_true hmode]⟩
  rw [Scanner.readQuote]
  split
  next hplain =>
    refine hbegun.append_ne (s.flush_position.trans hposition) (.inr ⟨s.flush_pending, ?_⟩) hne
    rw [htakes, hplain]
    rfl
  next hstring =>
    exact ((hmode .plain).append_ne hposition (hready _ (by simp [hstring])) hne).flush
  next hcomment =>
    exact (hmode .quotation).append_ne hposition (hready _ (by simp [hcomment])) hne
  next hquotation =>
    exact (hmode .comment).append_ne hposition (hready _ (by simp [hquotation])) hne
  next hunbalanced =>
    exact (h.append_ne hposition (hready s.mode (by simp [hunbalanced])) hne).flush

end Locates

/-- Every character is passed over, taken in or stored at its own place. -/
theorem Locates.read (h : s.Locates cs) (hscan : s = behind cs) (c : Char) :
    (s.read c).Locates (cs ++ [c]) := by
  have hcount : (s.count c).Locates cs := ⟨h.stored, h.pending, h.quoted⟩
  have hposition : s.position = .behind cs := hscan ▸ position_behind cs
  have hpending : s.pending = (behind cs).pending := congrArg Scanner.pending hscan
  by_cases hne : c = '\n'
  · rw [hne]
    exact h.readLineEnd hscan (.inl rfl)
  cases readKind c with
  | space hc hread =>
    have htakes : (behind cs).takes c = s.keepsDelimiters := hscan ▸ takes_of_space hc (behind cs)
    rw [hread, readSpace]
    split
    next hkeeps => exact h.append_ne hposition (.inl ⟨hpending, htakes.trans hkeeps⟩) hne
    next => exact h.flush.pass s.flush_pending c
  | opening hc hread =>
    have htakes : (behind cs).takes c = (s.count c).keepsDelimiters :=
      hscan ▸ takes_of_opening hc (behind cs)
    rw [hread]
    split
    next hkeeps => exact hcount.append_ne hposition (.inl ⟨hpending, htakes.trans hkeeps⟩) hne
    next hends => exact hcount.alone hposition (htakes.trans (Bool.eq_false_iff.mpr hends)) hne
  | closing hc hread =>
    rw [hread]
    exact hcount.append_ne hposition (.inl ⟨hpending, takes_of_closing hc (behind cs)⟩) hne
  | separator hc hread =>
    have htakes : (behind cs).takes c = s.mode.isVerbatim :=
      hscan ▸ takes_of_separator hc (behind cs)
    rw [hread, readSeparator]
    split
    next hverbatim => exact h.append_ne hposition (.inl ⟨hpending, htakes.trans hverbatim⟩) hne
    next hends => exact h.alone hposition (htakes.trans (Bool.eq_false_iff.mpr hends)) hne
  | lineEnd hc hread =>
    rw [hread]
    exact h.readLineEnd hscan hc
  | hyphen hc hread =>
    rw [hread, hc]
    exact h.readHyphen hscan
  | quote hc hread =>
    rw [hread, hc]
    exact h.readQuote hscan
  | plain hhyphen hc hread =>
    rw [hread]
    exact h.append_ne hposition
      (.inl ⟨hpending, takes_of_read_eq_append hhyphen hc hread (behind cs)⟩) hne

/-! ### Scanning -/

/-- Whether a scanner has read some characters and locates what it has taken in. -/
structure Located (cs : List Char) (s : Scanner) : Prop extends s.Locates cs where
  scanned : s = behind cs

namespace Located

/-- A scanner is at the place behind what it has read. -/
theorem position (h : s.Located cs) : s.position = .behind cs :=
  h.scanned ▸ position_behind cs

/-- A hyphen that was read last is pending. -/
theorem hyphen (h : s.Located cs) (hprevious : s.previous = some '-') :
    s.pending.head? = some '-' := by
  have hscan := h.scanned
  rw [hscan] at hprevious ⊢
  exact head?_pending_behind cs hprevious

/-- A scanner still locates what it has taken in behind one more character. -/
theorem step (h : s.Located cs) (c : Char) : (s.step c).Located (cs ++ [c]) := by
  have hread := h.toLocates.read h.scanned c
  exact ⟨⟨hread.stored, hread.pending, hread.quoted⟩, by rw [behind_concat, ← h.scanned]⟩

end Located

/-- The scanner at the start of a text has taken nothing in. -/
theorem initial_located : initial.Located [] :=
  ⟨⟨List.forall_mem_nil _, fun h => absurd rfl h, fun h => absurd h List.not_mem_nil⟩, rfl⟩

/-- A scanner still locates what it has taken in behind more characters. -/
theorem Located.foldl (h : s.Located cs) (more : List Char) :
    (more.foldl Scanner.step s).Located (cs ++ more) := by
  induction more generalizing s cs with
  | nil => rwa [List.append_nil]
  | cons c rest ih =>
    rw [List.append_cons]
    exact ih (h.step c)

end Scanner

namespace SymbolTable

/-- Every symbol of a text stands where it says. -/
theorem standsIn_of_mem {unit text : String} {symbol : Symbol}
    (hsymbol : symbol ∈ (ofText unit text).symbols) : symbol.StandsIn text.toList :=
  (Scanner.initial_located.foldl text.toList).toLocates.flush.stored symbol
    (List.mem_reverse.mp hsymbol)

/-- A symbol begins at the first character from its position on that is no blank, so its position is
the place of its first character exactly if no blank stands there. -/
theorem position_eq_iff (unit text : String) :
    ∀ symbol ∈ (ofText unit text).symbols,
      ((Text.lineFrom text symbol.position).dropWhile Text.isBlank).head? =
          symbol.text.toList.head? ∧
        (Text.charAt? text symbol.position = symbol.text.toList.head? ↔
          ∀ c ∈ Text.charAt? text symbol.position, Text.isBlank c = false) := by
  intro symbol hsymbol
  have htrimmed := isTrimmed_of_mem hsymbol
  have hfirst := (standsIn_of_mem hsymbol).head?_dropWhile htrimmed
  refine ⟨hfirst, fun hsame => ?_, fun hvisible => ?_⟩
  · rw [hsame]
    exact htrimmed.head
  · rw [← Text.head?_lineFrom] at hvisible ⊢
    rw [← hfirst, Text.dropWhile_isBlank_of_head? hvisible]

/-- The first character of a symbol stands somewhere in the line of the symbol. Its place is the
position of the symbol unless the scanner that has read the text in front of it holds back blanks
and adds it to them. A comment always stands at its position. -/
theorem position_eq_behind_iff (unit text : String) :
    ∀ symbol ∈ (ofText unit text).symbols, ∃ front c rest, text.toList = front ++ c :: rest ∧
      symbol.text.toList.head? = some c ∧ symbol.position.row = (Position.behind front).row ∧
        (symbol.position = .behind front ↔ symbol.isComment = true ∨
          ¬((Scanner.behind front).HoldsBlanks ∧ (Scanner.behind front).takes c = true)) := by
  intro symbol hsymbol
  obtain ⟨before, blanks, c, rest, htext, hposition, hhead, hblanks, hheld⟩ :=
    standsIn_of_mem hsymbol
  have hplace := Position.behind_append_of_not_mem
    (fun hmem => (hblanks _ hmem).2 rfl : '\n' ∉ blanks) before
  refine ⟨before ++ blanks, c, rest, by rw [htext, List.append_assoc], hhead, ?_, ?_⟩
  · rw [hposition, hplace]
  · have hsame : symbol.position = .behind (before ++ blanks) ↔ blanks = [] := by
      rw [hposition, hplace, Position.mk.injEq]
      simp
    rw [hsame, ← not_iff_not, not_or, not_not, Bool.not_eq_true]
    exact hheld

/-- Behind the comma in the braces of an index a blank is held back. -/
example : (Scanner.behind "INDEX \x7b ifIndex, ".toList).HoldsBlanks := by
  decide +kernel

/-- The position of the index clause is that of its first character; its second column begins
behind the blank at its position. -/
theorem position_eq_iff_index :
    (⟨"INDEX", ⟨0, 0⟩⟩ : Symbol) ∈ (ofText "unit" "INDEX \x7b ifIndex, ifType \x7d").symbols ∧
      Text.charAt? "INDEX \x7b ifIndex, ifType \x7d" ⟨0, 0⟩ = some 'I' ∧
        (⟨"ifType \x7d", ⟨0, 16⟩⟩ : Symbol) ∈
            (ofText "unit" "INDEX \x7b ifIndex, ifType \x7d").symbols ∧
          ((Text.lineFrom "INDEX \x7b ifIndex, ifType \x7d" ⟨0, 16⟩).dropWhile
            Text.isBlank).head? = some 'i' := by
  have hindex : (⟨"INDEX", ⟨0, 0⟩⟩ : Symbol) ∈
      (ofText "unit" "INDEX \x7b ifIndex, ifType \x7d").symbols := by decide +kernel
  have htype : (⟨"ifType \x7d", ⟨0, 16⟩⟩ : Symbol) ∈
      (ofText "unit" "INDEX \x7b ifIndex, ifType \x7d").symbols := by decide +kernel
  exact ⟨hindex, (position_eq_iff "unit" _ _ hindex).2.mpr (by rintro _ ⟨⟩; decide), htype,
    (position_eq_iff "unit" _ _ htype).1⟩

/-- In the braces of an index the second column is reported one place too far left, where a blank
stands. -/
theorem position_ne_ifType :
    ¬∀ symbol ∈ (ofText "unit" "INDEX \x7b ifIndex, ifType \x7d").symbols,
      Text.charAt? "INDEX \x7b ifIndex, ifType \x7d" symbol.position =
        symbol.text.toList.head? := by
  decide +kernel

end SymbolTable

end Smi
