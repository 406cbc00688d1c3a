import Mathlib.Data.List.Induction
import Smi.Proofs.Symbol.Mode
import Smi.Proofs.Symbol.Pending

/-!
# How a symbol is gathered

A scanner adds a character to what is pending, or the character ends that. So what is pending was
gathered character by character since nothing was pending or something ended, and a scanner holds
back blanks exactly as long as it adds blanks to nothing or to blanks. A string is gathered from its
double quote on, and a hyphen read last is always pending.
-/

namespace Smi

namespace Scanner

variable {s : Scanner} {c : Char} {cs before chars front : List Char}

/-! ### What has been read -/

/-- The scanner that has read some characters. -/
def behind (read : List Char) : Scanner :=
  read.foldl step initial

/-- One more character is one more step. -/
theorem behind_concat (cs : List Char) (c : Char) : behind (cs ++ [c]) = (behind cs).step c :=
  List.foldl_concat ..

/-- The character read last is the last one that has been read. -/
theorem previous_behind (cs : List Char) : (behind cs).previous = cs.getLast? := by
  rcases List.eq_nil_or_concat' cs with rfl | ⟨cs, c, rfl⟩
  · rfl
  · rw [behind_concat, List.getLast?_concat]
    rfl

/-- Reading a character keeps the double quote at the front of a string. -/
theorem getLast?_pending_read (hstring : s.mode = .string → s.pending.getLast? = some '"')
    (hmode : (s.read c).mode = .string) : (s.read c).pending.getLast? = some '"' := by
  rw [mode_read] at hmode
  by_cases hc : c = '"'
  · rw [hc] at hmode ⊢
    have hplain : s.mode = .plain := Mode.quote_eq_string_iff.mp hmode
    change s.readQuote.pending.getLast? = _
    rw [readQuote, hplain]
    simp [Scanner.append, flush_pending]
  · rw [Mode.after_eq_string_iff hc] at hmode
    have hquote : (s.count c).pending.getLast? = some '"' := hstring hmode
    rw [read_of_string hmode hc, append, List.getLast?_cons, hquote]
    rfl

/-- The text of a string begins with its double quote. -/
theorem getLast?_pending_behind (cs : List Char) (hmode : (behind cs).mode = .string) :
    (behind cs).pending.getLast? = some '"' := by
  induction cs using List.reverseRecOn with
  | nil => cases hmode
  | append_singleton cs c ih =>
    rw [behind_concat] at hmode ⊢
    exact getLast?_pending_read ih hmode

/-- A hyphen read last is gathered, so a second one finds it. -/
theorem head?_pending_behind (cs : List Char) (hprevious : (behind cs).previous = some '-') :
    (behind cs).pending.head? = some '-' := by
  rcases List.eq_nil_or_concat' cs with rfl | ⟨cs, c, rfl⟩
  · cases hprevious
  · rw [behind_concat] at hprevious ⊢
    obtain rfl : c = '-' := Option.some.inj hprevious
    change (behind cs).readHyphen.pending.head? = some '-'
    rw [readHyphen]
    split <;> rfl

/-! ### Gathering -/

/-- Whether all that a scanner has gathered are blanks, and there are some. -/
def HoldsBlanks (s : Scanner) : Prop :=
  s.pending ≠ [] ∧ ∀ c ∈ s.pending, Text.isBlank c = true

instance (s : Scanner) : Decidable s.HoldsBlanks :=
  decidable_of_iff (s.pending.isEmpty = false ∧ s.pending.all Text.isBlank = true)
    (by simp [HoldsBlanks])

/-- Whether a scanner adds a character to what is pending. Otherwise the character ends that, and is
passed over, begins a symbol or opens a comment. -/
def takes (s : Scanner) (c : Char) : Bool :=
  match c with
  | ' ' | '\t' => s.keepsDelimiters
  | '{' | '[' | '(' => (s.count c).keepsDelimiters
  | ',' | ';' => s.mode.isVerbatim
  | '\n' | '\r' => s.mode = .string
  | '-' => s.previous ≠ some '-' || s.mode = .string
  | '"' => s.mode ≠ .plain
  | _ => true

/-- A space or a tab is added where delimiters are kept. -/
theorem takes_of_space (hc : c = ' ' ∨ c = '\t') (s : Scanner) :
    s.takes c = s.keepsDelimiters := by
  rcases hc with rfl | rfl <;> rfl

/-- An opening bracket is added where delimiters are kept once it has been counted. -/
theorem takes_of_opening (hc : c = '{' ∨ c = '[' ∨ c = '(') (s : Scanner) :
    s.takes c = (s.count c).keepsDelimiters := by
  rcases hc with rfl | rfl | rfl <;> rfl

/-- A closing bracket is always added. -/
theorem takes_of_closing (hc : c = '}' ∨ c = ']' ∨ c = ')') (s : Scanner) :
    s.takes c = true := by
  rcases hc with rfl | rfl | rfl <;> rfl

/-- A separator is added in strings and comments. -/
theorem takes_of_separator (hc : c = ',' ∨ c = ';') (s : Scanner) :
    s.takes c = s.mode.isVerbatim := by
  rcases hc with rfl | rfl <;> rfl

/-- The end of a line is added in strings. -/
theorem takes_of_lineEnd (hc : c = '\n' ∨ c = '\r') (s : Scanner) :
    s.takes c = decide (s.mode = .string) := by
  rcases hc with rfl | rfl <;> rfl

/-- A character that is always gathered is always added. -/
theorem takes_of_read_eq_append (hhyphen : c ≠ '-') (hc : c ∉ Nesting.brackets)
    (hread : ∀ s : Scanner, s.read c = s.append c) (s : Scanner) : s.takes c = true := by
  have hplain : ((initial.read c).pending, (initial.read c).mode) = ([c], .plain) := by
    rw [hread]
    rfl
  unfold takes
  split <;> first
    | rfl
    | exact absurd hplain (by decide)
    | exact absurd rfl hhyphen
    | exact absurd (by decide) hc

/-- A blank is added to what is pending, or it ends that. -/
theorem pending_read_of_isBlank (hc : Text.isBlank c = true) (s : Scanner) :
    (s.read c).pending = if s.takes c then c :: s.pending else [] := by
  cases readKind c with
  | space hspace hread =>
    rw [hread, readSpace, takes_of_space hspace]
    split
    · rfl
    · exact s.flush_pending
  | lineEnd hend hread =>
    rw [hread, readLineEnd, takes_of_lineEnd hend]
    simp only [decide_eq_true_eq]
    split
    · rfl
    · exact s.flush_pending
  | plain hhyphen hbrackets hread =>
    rw [takes_of_read_eq_append hhyphen hbrackets hread s, hread]
    rfl
  | opening hopening => rcases hopening with rfl | rfl | rfl <;> cases hc
  | closing hclosing => rcases hclosing with rfl | rfl | rfl <;> cases hc
  | separator hseparator => rcases hseparator with rfl | rfl <;> cases hc
  | hyphen hhyphen => cases hhyphen ▸ hc
  | quote hquote => cases hquote ▸ hc

/-- Behind a character that is no blank, blanks alone are never pending. -/
theorem not_holdsBlanks_read (hc : Text.isBlank c = false) (s : Scanner) :
    ¬(s.read c).HoldsBlanks := by
  have hended (t : Scanner) : ¬t.flush.HoldsBlanks := fun h => h.1 t.flush_pending
  have hadded (t : Scanner) (ht : c ∈ t.pending) : ¬t.HoldsBlanks := fun h => by
    rw [h.2 c ht] at hc
    cases hc
  cases readKind c with
  | space hspace => rcases hspace with rfl | rfl <;> cases hc
  | lineEnd hend => rcases hend with rfl | rfl <;> cases hc
  | opening _ hread =>
    rw [hread]
    split
    · exact hadded _ List.mem_cons_self
    · exact hended _
  | closing _ hread =>
    rw [hread]
    exact hadded _ List.mem_cons_self
  | separator _ hread =>
    rw [hread, readSeparator]
    split
    · exact hadded _ List.mem_cons_self
    · exact hended _
  | hyphen hhyphen hread =>
    obtain rfl := hhyphen
    rw [hread, readHyphen]
    split
    · exact hadded _ List.mem_cons_self
    · exact hadded _ List.mem_cons_self
  | quote hquote hread =>
    rw [hread, readQuote]
    split
    · exact hadded _ (hquote ▸ List.mem_cons_self)
    · exact hended _
    · exact hadded _ (hquote ▸ List.mem_cons_self)
    · exact hadded _ (hquote ▸ List.mem_cons_self)
    · exact hended _
  | plain _ _ hread =>
    rw [hread]
    exact hadded _ List.mem_cons_self

/-- A scanner comes to hold back blanks, or goes on to do so, with every blank that it adds to
nothing or to blanks. -/
theorem holdsBlanks_step_iff (s : Scanner) (c : Char) : (s.step c).HoldsBlanks ↔
    Text.isBlank c = true ∧ s.takes c = true ∧ (s.pending = [] ∨ s.HoldsBlanks) := by
  have hread : (s.step c).HoldsBlanks ↔ (s.read c).HoldsBlanks := Iff.rfl
  rw [hread]
  cases hc : Text.isBlank c with
  | false => simp [not_holdsBlanks_read hc s]
  | true =>
    rw [HoldsBlanks, HoldsBlanks, pending_read_of_isBlank hc]
    cases s.takes c <;> by_cases hpending : s.pending = [] <;> simp [hpending, hc]

/-- Blanks are held back exactly behind a text that ends in blanks, all of which were added, from a
place on where nothing was pending. -/
theorem holdsBlanks_behind_iff : (behind cs).HoldsBlanks ↔ ∃ before blanks, cs = before ++ blanks ∧
    blanks ≠ [] ∧ (behind before).pending = [] ∧ ∀ front c, front ++ [c] <+: blanks →
      Text.isBlank c = true ∧ (behind (before ++ front)).takes c = true := by
  induction cs using List.reverseRecOn with
  | nil =>
    refine iff_of_false (fun h => h.1 rfl) ?_
    rintro ⟨before, blanks, hread, hne, -⟩
    exact hne (List.append_eq_nil_iff.mp hread.symm).2
  | append_singleton cs c ih =>
    rw [behind_concat, holdsBlanks_step_iff]
    constructor
    · rintro ⟨hblank, htakes, hpending⟩
      have hbegun : ∃ before blanks, cs = before ++ blanks ∧ (behind before).pending = [] ∧
          ∀ front c, front ++ [c] <+: blanks →
            Text.isBlank c = true ∧ (behind (before ++ front)).takes c = true := by
        rcases hpending with hnothing | hholds
        · exact ⟨cs, [], by simp, hnothing, fun front c hfront => by simp at hfront⟩
        · obtain ⟨before, blanks, hread, -, hrest⟩ := ih.mp hholds
          exact ⟨before, blanks, hread, hrest⟩
      obtain ⟨before, blanks, rfl, hnothing, hadded⟩ := hbegun
      refine ⟨before, blanks ++ [c], List.append_assoc _ _ _, by simp, hnothing,
        fun front d hfront => ?_⟩
      rcases List.prefix_concat_iff.mp hfront with hwhole | hfront
      · obtain ⟨rfl, hlast⟩ := List.append_inj' hwhole rfl
        obtain rfl := List.singleton_inj.mp hlast
        exact ⟨hblank, htakes⟩
      · exact hadded front d hfront
    · rintro ⟨before, blanks, hread, hne, hnothing, hadded⟩
      obtain ⟨front, last, rfl⟩ := (List.eq_nil_or_concat' blanks).resolve_left hne
      rw [← List.append_assoc] at hread
      obtain ⟨rfl, hlast⟩ := List.append_inj' hread rfl
      obtain rfl := List.singleton_inj.mp hlast
      obtain ⟨hblank, htakes⟩ := hadded front c List.prefix_rfl
      refine ⟨hblank, htakes, ?_⟩
      by_cases hfront : front = []
      · exact .inl (by rwa [hfront, List.append_nil])
      · exact .inr (ih.mpr ⟨before, front, rfl, hfront, hnothing, fun first d hfirst =>
          hadded first d (hfirst.trans (List.prefix_append _ _))⟩)

/-- Whether some characters were gathered one after the other: the first of them was added to
nothing, and every other one to those before it. -/
structure GatheredBehind (before chars : List Char) : Prop where
  first : ∀ c ∈ chars.head?, (behind before).pending = [] ∨ (behind before).takes c = false
  next (front : List Char) (c : Char) : front ++ [c] <+: chars → front ≠ [] →
    (behind (before ++ front)).pending = front.reverse ∧
      (behind (before ++ front)).takes c = true

namespace GatheredBehind

/-- A first character is added to nothing. -/
theorem singleton (h : (behind cs).pending = [] ∨ (behind cs).takes c = false) :
    GatheredBehind cs [c] := by
  refine ⟨fun d hd => Option.some.inj hd ▸ h, fun front d hchars hfront => ?_⟩
  have hlength := hchars.length_le
  rw [List.length_append] at hlength
  exact absurd (List.eq_nil_of_length_eq_zero (Nat.le_zero.mp (Nat.le_of_succ_le_succ hlength)))
    hfront

/-- One more character is added to those that are pending. -/
theorem concat (h : GatheredBehind before chars) (hne : chars ≠ [])
    (hpending : (behind (before ++ chars)).pending = chars.reverse)
    (htakes : (behind (before ++ chars)).takes c = true) :
    GatheredBehind before (chars ++ [c]) := by
  refine ⟨fun d hd => h.first d ?_, fun front d hchars hfront => ?_⟩
  · rwa [List.head?_append_of_ne_nil _ hne] at hd
  · rcases List.prefix_concat_iff.mp hchars with hwhole | hchars
    · obtain ⟨rfl, hlast⟩ := List.append_inj' hwhole rfl
      obtain rfl := List.singleton_inj.mp hlast
      exact ⟨hpending, htakes⟩
    · exact h.next front d hchars hfront

/-- The front of what was gathered was gathered in the same way. -/
theorem of_isPrefix (h : GatheredBehind before chars) (hfront : front <+: chars) :
    GatheredBehind before front := by
  refine ⟨fun c hc => h.first c ?_, fun first c hchars => h.next first c (hchars.trans hfront)⟩
  obtain ⟨rest, rfl⟩ := hfront
  rw [List.head?_append, hc]
  rfl

end GatheredBehind

end Scanner

end Smi
