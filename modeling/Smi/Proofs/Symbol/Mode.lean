import Mathlib.Data.List.Infix
import Smi.Proofs.Symbol.Pending

/-!
# Modes

The mode of a scanner follows from the characters that it has read, whatever they have been cut
into. In a text without comments the double quotes alone decide: a scanner is in a string behind an
odd number of them.
-/

namespace Smi

namespace Mode

/-- The mode behind a double quote. -/
def quote : Mode → Mode
  | plain => string
  | string => plain
  | comment => quotation
  | quotation => comment
  | unbalanced => unbalanced

/-- A double quote begins a string only outside strings and comments. -/
theorem quote_eq_string_iff {mode : Mode} : mode.quote = .string ↔ mode = .plain := by
  cases mode <;> decide

/-- The mode behind one more character. -/
def after (previous : Option Char) (mode : Mode) (c : Char) : Mode :=
  match c with
  | '"' => mode.quote
  | '-' => if previous = some '-' then mode.openComment else mode
  | '\n' | '\r' => mode.endLine
  | _ => mode

/-- Other characters than double quotes, hyphens and line ends leave the mode alone. -/
theorem after_of_not_mem {c : Char} (hc : c ∉ ['"', '-', '\n', '\r']) (previous : Option Char)
    (mode : Mode) : mode.after previous c = mode := by
  unfold after
  split <;> first | rfl | exact absurd (by decide) hc

/-- A string ends only at a double quote, and nothing else begins one. -/
theorem after_eq_string_iff {c : Char} (hc : c ≠ '"') (previous : Option Char) (mode : Mode) :
    mode.after previous c = .string ↔ mode = .string := by
  unfold after
  split
  next => exact absurd rfl hc
  next =>
    split
    · cases mode <;> decide
    · exact Iff.rfl
  next => cases mode <;> decide
  next => cases mode <;> decide
  next => exact Iff.rfl

end Mode

/-- Whether no two hyphens follow each other outside quoted strings. A character stands in a string
if an odd number of double quotes stands before it. -/
def HasNoComment (cs : List Char) : Prop :=
  ∀ before, before ++ ['-', '-'] <+: cs → before.count '"' % 2 = 1

instance (cs : List Char) : Decidable (HasNoComment cs) :=
  decidable_of_iff (∀ before ∈ cs.inits, before ++ ['-', '-'] <+: cs → before.count '"' % 2 = 1)
    ⟨fun h before hbegins =>
      h before ((List.mem_inits _ _).mpr ((List.prefix_append before _).trans hbegins)) hbegins,
      fun h before _ => h before⟩

/-- The start of a text without comments has none. -/
theorem HasNoComment.of_prefix {first cs : List Char} (h : HasNoComment cs)
    (hfirst : first <+: cs) : HasNoComment first :=
  fun before hbegins => h before (hbegins.trans hfirst)

/-- The mode outside comments: in a string behind an odd number of double quotes. -/
def quoteMode (read : List Char) : Mode :=
  if read.count '"' % 2 = 0 then .plain else .string

/-- A double quote leads into a string or out of it. -/
theorem quoteMode_concat_quote (read : List Char) :
    quoteMode (read ++ ['"']) = (quoteMode read).quote := by
  have hcount : (read ++ ['"']).count '"' = read.count '"' + 1 := by simp
  rw [quoteMode, quoteMode, hcount]
  by_cases heven : read.count '"' % 2 = 0
  · rw [if_pos heven, if_neg (by omega)]
    rfl
  · rw [if_neg heven, if_pos (by omega)]
    rfl

/-- Other characters lead neither into a string nor out of it. -/
theorem quoteMode_concat {c : Char} (hc : c ≠ '"') (read : List Char) :
    quoteMode (read ++ [c]) = quoteMode read := by
  simp [quoteMode, List.count_append, hc]

/-- The end of a line leads neither into a string nor out of it. -/
theorem endLine_quoteMode (read : List Char) : (quoteMode read).endLine = quoteMode read := by
  unfold quoteMode
  split <;> rfl

namespace Scanner

variable {s : Scanner} {c : Char} {cs read : List Char}

/-- A symbol of a single character leaves the mode alone. -/
theorem mode_alone (s : Scanner) (c : Char) : (s.alone c).mode = s.mode := by
  rw [alone, flush_mode]
  exact s.flush_mode

/-- A hyphen opens a comment if it stands behind another one. -/
theorem mode_readHyphen (s : Scanner) :
    s.readHyphen.mode = if s.previous = some '-' then s.mode.openComment else s.mode := by
  have hopened : (s.append '-').openComment.mode = s.mode.openComment := flush_mode _
  rw [readHyphen]
  by_cases hprevious : s.previous = some '-'
  · by_cases hstring : s.mode = .string
    · simp [hprevious, hstring, append, Mode.openComment]
    · simp [hprevious, hstring, hopened]
  · simp [hprevious, append]

/-- A double quote changes the mode. -/
theorem mode_readQuote (s : Scanner) : s.readQuote.mode = s.mode.quote := by
  unfold readQuote
  split
  next hmode =>
    rw [hmode]
    rfl
  next hmode =>
    rw [hmode]
    exact flush_mode _
  next hmode =>
    rw [hmode]
    rfl
  next hmode =>
    rw [hmode]
    rfl
  next hmode =>
    rw [flush_mode]
    exact hmode.trans (congrArg Mode.quote hmode).symm

/-- The end of a line ends a comment. -/
theorem mode_readLineEnd (s : Scanner) (c : Char) : (s.readLineEnd c).mode = s.mode.endLine := by
  rw [readLineEnd]
  split
  next hstring =>
    rw [hstring]
    exact hstring
  next => exact congrArg Mode.endLine s.flush_mode

/-- Reading another character leaves the mode alone. -/
theorem mode_read_of_not_mem (hc : c ∉ ['"', '-', '\n', '\r']) (s : Scanner) :
    (s.read c).mode = s.mode := by
  cases readKind c with
  | space _ hread =>
    rw [hread, readSpace]
    split
    · rfl
    · exact s.flush_mode
  | opening _ hread =>
    rw [hread]
    split
    · rfl
    · exact (s.count c).mode_alone c
  | closing _ hread =>
    rw [hread]
    rfl
  | separator _ hread =>
    rw [hread, readSeparator]
    split
    · rfl
    · exact s.mode_alone c
  | lineEnd hend => exact absurd (by rcases hend with rfl | rfl <;> decide) hc
  | hyphen hhyphen => exact absurd (by rw [hhyphen]; decide) hc
  | quote hquote => exact absurd (by rw [hquote]; decide) hc
  | plain _ _ hread =>
    rw [hread]
    rfl

/-- Neither brackets nor the symbols so far have an influence on the mode. -/
theorem mode_read (s : Scanner) (c : Char) : (s.read c).mode = s.mode.after s.previous c := by
  by_cases hc : c ∈ ['"', '-', '\n', '\r']
  · simp only [List.mem_cons, List.not_mem_nil, or_false] at hc
    rcases hc with rfl | rfl | rfl | rfl
    · exact s.mode_readQuote
    · exact s.mode_readHyphen
    · exact s.mode_readLineEnd '\n'
    · exact s.mode_readLineEnd '\r'
  · rw [mode_read_of_not_mem hc, Mode.after_of_not_mem hc]

/-! ### Texts without comments -/

/-- Whether a scanner that has read some characters has met no comment in them. -/
structure Uncommented (read : List Char) (s : Scanner) : Prop where
  mode : s.mode = quoteMode read
  previous : s.previous = read.getLast?

/-- The scanner at the start of a text has met no comment. -/
theorem initial_uncommented : initial.Uncommented [] :=
  ⟨rfl, rfl⟩

/-- A second hyphen is read only in a string. -/
theorem Uncommented.mode_eq_string (h : s.Uncommented read) (hnone : HasNoComment (read ++ [c]))
    (hc : c = '-') (hprevious : s.previous = some '-') : s.mode = .string := by
  -- The first hyphen is the last character read, so the text before it decides.
  obtain ⟨before, rfl⟩ := List.getLast?_eq_some_iff.mp (h.previous.symm.trans hprevious)
  have hodd := hnone before (by rw [hc, List.append_assoc]; exact List.prefix_refl _)
  have hcount : (before ++ ['-']).count '"' = before.count '"' := by simp
  rw [h.mode, quoteMode, hcount, if_neg (by omega)]

/-- A scanner meets no comment with a character that opens none. -/
theorem Uncommented.step (h : s.Uncommented read) (hnone : HasNoComment (read ++ [c])) :
    (s.step c).Uncommented (read ++ [c]) := by
  refine ⟨?_, List.getLast?_concat.symm⟩
  have hread : (s.step c).mode = s.mode.after s.previous c := s.mode_read c
  rw [hread]
  unfold Mode.after
  split
  next => rw [quoteMode_concat_quote, h.mode]
  next =>
    rw [quoteMode_concat (by decide), ← h.mode]
    split
    next hprevious =>
      rw [h.mode_eq_string hnone rfl hprevious]
      rfl
    next => rfl
  next => rw [quoteMode_concat (by decide), h.mode, endLine_quoteMode]
  next => rw [quoteMode_concat (by decide), h.mode, endLine_quoteMode]
  next hquote _ _ _ => rw [quoteMode_concat hquote, h.mode]

end Scanner

end Smi
