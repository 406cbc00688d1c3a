import Smi.Symbol.Scanner

/-!
# Nesting of brackets

What a scanner knows about the brackets of a text: how many are open, and whether it is inside an
assigned clause or a list. Every bracket changes it, those in strings and in comments as well.
-/

namespace Smi

/-- How the brackets read so far are nested. -/
structure Nesting where
  /-- How many brackets of any kind are open. -/
  depth : Nat
  /-- How many round brackets have been opened and not closed in this line. -/
  rounds : Nat
  /-- Inside the braces that follow `::=`. -/
  inClause : Bool
  /-- Inside the braces of a list. -/
  inList : Bool
  deriving DecidableEq, Repr

namespace Nesting

/-- Whether blanks and opening brackets belong to the pending symbol. -/
def keeps (n : Nesting) : Bool :=
  (n.inClause || 0 < n.depth) && (!n.inList || 0 < n.rounds)

/-- The nesting behind one more character. An opening brace begins a clause if `assigned` says that
the symbol before it is `::=`. -/
def after (assigned : Bool) (n : Nesting) (c : Char) : Nesting :=
  match c with
  | '{' => { n with depth := n.depth + 1, inClause := n.inClause || assigned }
  | '[' => { n with depth := n.depth + 1 }
  | '(' => { n with depth := n.depth + 1, rounds := n.rounds + 1 }
  | '}' => { n with depth := n.depth - 1, inClause := false, inList := false }
  | ']' => { n with depth := n.depth - 1 }
  | ')' => { n with depth := n.depth - 1, rounds := n.rounds - 1 }
  | _ => n

/-- The nesting behind the characters of a string or a comment. -/
def through (assigned : Bool) (n : Nesting) (text : String) : Nesting :=
  text.toList.foldl (after assigned) n

/-- The nesting at the start of the next line. -/
def endLine (n : Nesting) : Nesting :=
  { n with rounds := 0 }

/-- The brackets. -/
def brackets : List Char :=
  ['{', '[', '(', '}', ']', ')']

/-- A character that is no bracket leaves the nesting alone. -/
theorem after_of_not_mem {c : Char} (hc : c ∉ brackets) (assigned : Bool) (n : Nesting) :
    n.after assigned c = n := by
  unfold after
  split <;> first | rfl | exact absurd (by decide) hc

end Nesting

namespace Scanner

variable {s : Scanner} {c : Char}

/-- The brackets that a scanner has read. -/
def nesting (s : Scanner) : Nesting :=
  ⟨s.depth, s.rounds, s.inClause, s.inList⟩

/-- The scanner with other brackets behind it. -/
def withNesting (s : Scanner) (n : Nesting) : Scanner :=
  { s with depth := n.depth, rounds := n.rounds, inClause := n.inClause, inList := n.inList }

/-- The scanner that has counted the brackets of a character but not taken it in. -/
def count (s : Scanner) (c : Char) : Scanner :=
  s.withNesting (s.nesting.after s.afterAssign c)

/-- Delimiters are kept in strings and comments, and where the nesting keeps blanks. -/
theorem keepsDelimiters_eq (s : Scanner) :
    s.keepsDelimiters = (s.mode.isVerbatim || s.nesting.keeps) :=
  rfl

/-- Delimiters are kept in strings and comments. -/
theorem keepsDelimiters_of_isVerbatim (h : s.mode.isVerbatim = true) :
    s.keepsDelimiters = true := by
  rw [keepsDelimiters_eq, h, Bool.true_or]

/-- An opening bracket is counted, then taken into the pending symbol or stored. -/
theorem read_opening (hc : c = '{' ∨ c = '[' ∨ c = '(') :
    s.read c =
      if (s.count c).keepsDelimiters then (s.count c).append c else (s.count c).alone c := by
  rcases hc with rfl | rfl | rfl <;>
    simp [read, readOpening, count, nesting, withNesting, Nesting.after]

/-- A closing bracket is counted and taken into the pending symbol. -/
theorem read_closing (hc : c = '}' ∨ c = ']' ∨ c = ')') : s.read c = (s.count c).append c := by
  rcases hc with rfl | rfl | rfl <;>
    simp [read, readClosing, count, nesting, withNesting, Nesting.after, append]

/-- A character that is no bracket is not counted. -/
theorem count_of_not_mem (hc : c ∉ Nesting.brackets) : s.count c = s := by
  rw [count, Nesting.after_of_not_mem hc]
  rfl

/-- What every scanner does with a character, by the kind of the character. -/
inductive ReadKind (c : Char) : Prop where
  | space (hc : c = ' ' ∨ c = '\t') (hread : ∀ s : Scanner, s.read c = s.readSpace c)
  | opening (hc : c = '{' ∨ c = '[' ∨ c = '(') (hread : ∀ s : Scanner, s.read c =
      if (s.count c).keepsDelimiters then (s.count c).append c else (s.count c).alone c)
  | closing (hc : c = '}' ∨ c = ']' ∨ c = ')')
      (hread : ∀ s : Scanner, s.read c = (s.count c).append c)
  | separator (hc : c = ',' ∨ c = ';') (hread : ∀ s : Scanner, s.read c = s.readSeparator c)
  | lineEnd (hc : c = '\n' ∨ c = '\r') (hread : ∀ s : Scanner, s.read c = s.readLineEnd c)
  | hyphen (hc : c = '-') (hread : ∀ s : Scanner, s.read c = s.readHyphen)
  | quote (hc : c = '"') (hread : ∀ s : Scanner, s.read c = s.readQuote)
  | plain (hhyphen : c ≠ '-') (hc : c ∉ Nesting.brackets)
      (hread : ∀ s : Scanner, s.read c = s.append c)

/-- Every character is of one of these kinds. -/
theorem readKind (c : Char) : ReadKind c := by
  by_cases hspace : c = ' ' ∨ c = '\t'
  · exact .space hspace fun s => by rcases hspace with rfl | rfl <;> rfl
  by_cases hopening : c = '{' ∨ c = '[' ∨ c = '('
  · exact .opening hopening fun s => read_opening hopening
  by_cases hclosing : c = '}' ∨ c = ']' ∨ c = ')'
  · exact .closing hclosing fun s => read_closing hclosing
  by_cases hseparator : c = ',' ∨ c = ';'
  · exact .separator hseparator fun s => by rcases hseparator with rfl | rfl <;> rfl
  by_cases hlineEnd : c = '\n' ∨ c = '\r'
  · exact .lineEnd hlineEnd fun s => by rcases hlineEnd with rfl | rfl <;> rfl
  by_cases hhyphen : c = '-'
  · exact .hyphen hhyphen fun s => by rw [hhyphen]; rfl
  by_cases hquote : c = '"'
  · exact .quote hquote fun s => by rw [hquote]; rfl
  have hbrackets : c ∉ Nesting.brackets := by
    simpa [Nesting.brackets, and_assoc] using And.intro hopening hclosing
  refine .plain hhyphen hbrackets fun s => ?_
  unfold read
  split <;> simp_all

/-- In a string or a comment, brackets are counted and every character but a hyphen, a double quote
and the end of a line is taken in. -/
theorem read_of_isVerbatim (hmode : s.mode.isVerbatim = true) (hc : c ∉ ['\n', '\r', '-', '"']) :
    s.read c = (s.count c).append c := by
  cases readKind c with
  | space hspace hread =>
    have hcount : s.count c = s := count_of_not_mem (by rcases hspace with rfl | rfl <;> decide)
    rw [hread, hcount, readSpace, if_pos (keepsDelimiters_of_isVerbatim hmode)]
  | opening _ hread =>
    have hkeeps : (s.count c).keepsDelimiters = true := keepsDelimiters_of_isVerbatim hmode
    rw [hread, if_pos hkeeps]
  | closing _ hread => exact hread s
  | separator hseparator hread =>
    have hcount : s.count c = s :=
      count_of_not_mem (by rcases hseparator with rfl | rfl <;> decide)
    rw [hread, hcount, readSeparator, if_pos hmode]
  | plain _ hbrackets hread => rw [hread, count_of_not_mem hbrackets]
  | lineEnd hend => exact absurd hc (by rcases hend with rfl | rfl <;> decide)
  | hyphen hhyphen => exact absurd hc (by rw [hhyphen]; decide)
  | quote hquote => exact absurd hc (by rw [hquote]; decide)

/-- In a string, brackets are counted and every character but a double quote is taken in. -/
theorem read_of_string (hmode : s.mode = .string) (hc : c ≠ '"') :
    s.read c = (s.count c).append c := by
  by_cases hend : c ∈ ['\n', '\r', '-', '"']
  · have hcount : s.count c = s := count_of_not_mem (by
      simp only [List.mem_cons, List.not_mem_nil, or_false] at hend
      rcases hend with rfl | rfl | rfl | rfl <;> decide)
    rw [hcount]
    simp only [List.mem_cons, List.not_mem_nil, or_false] at hend
    rcases hend with rfl | rfl | rfl | rfl
    · simp [read, readLineEnd, hmode]
    · simp [read, readLineEnd, hmode]
    · simp [read, readHyphen, hmode]
    · exact absurd rfl hc
  · exact read_of_isVerbatim (by rw [hmode]; rfl) hend

end Scanner

end Smi
