import Smi.Proofs.Symbol.Pending
import Smi.Proofs.Symbol.Resumption
import Smi.Proofs.Text.Identifier

/-!
# Coherent scanners

In every scan the symbols and the pending characters stand no further down than the scanner, the
pending symbol ends in the character read last, and outside strings and comments no two hyphens
follow each other in it.
-/

namespace Smi.Scanner

variable {s : Scanner} {c : Char} {previous next : Option Char} {mode : Mode}

/-- Whether neither the symbol stored last nor the pending one begins below the current line. -/
structure Placed (s : Scanner) : Prop where
  stored : ∀ symbol ∈ s.stored.head?, symbol.position.row ≤ s.position.row
  start : s.start.row ≤ s.position.row

/-- Whether the places and the pending characters of a scanner that has read `previous` last agree
with what it has read. -/
structure Coherent (previous : Option Char) (s : Scanner) : Prop extends Placed s where
  pending : ∀ c ∈ s.pending.head?, previous = some c
  hyphens : s.mode.isVerbatim = false → SingleHyphens s.pending

/-- The scanner at the start of a text is coherent. -/
theorem initial_coherent : initial.Coherent initial.previous :=
  ⟨⟨by simp [initial], Nat.le_refl _⟩, by simp [initial], fun _ => List.isChain_nil⟩

/-- Storing a symbol leaves nothing below the current line. -/
theorem Placed.store (h : s.Placed) (text : String) : (s.store text).Placed := by
  unfold Scanner.store
  dsimp only
  split
  next whole _ =>
    cases hstored : s.stored with
    | nil => exact ⟨by simp, h.start⟩
    | cons symbol rest =>
      refine ⟨fun first hfirst => ?_, h.start⟩
      cases hfirst
      exact h.stored symbol (by rw [hstored]; rfl)
  next =>
    refine ⟨fun first hfirst => ?_, h.start⟩
    cases hfirst
    exact h.start

/-- Ending the pending symbol leaves nothing below the current line. -/
theorem Placed.flush (h : s.Placed) : s.flush.Placed := by
  unfold Scanner.flush
  dsimp only
  split
  · exact h
  · have hcleared : Placed { s with pending := [], afterAssign := false } := ⟨h.stored, h.start⟩
    split
    · exact hcleared
    · exact hcleared.store _

/-- A scanner with nothing pending is coherent whatever it has read. -/
theorem Placed.coherent (h : s.Placed) (hpending : s.pending = []) (next : Option Char) :
    s.Coherent next :=
  ⟨h, by simp [hpending], fun _ => by rw [hpending]; exact List.isChain_nil⟩

/-- A scanner is coherent when it has ended the pending symbol. -/
theorem Placed.coherent_flush (h : s.Placed) (next : Option Char) : s.flush.Coherent next :=
  h.flush.coherent s.flush_pending next

/-- Taking a character in leaves nothing below the current line. -/
theorem Placed.append (h : s.Placed) (c : Char) : (s.append c).Placed := by
  refine ⟨h.stored, ?_⟩
  unfold Scanner.append
  dsimp only
  split
  · exact Nat.le_refl _
  · exact h.start

/-- A scanner is coherent behind a symbol of a single character. -/
theorem Placed.coherent_alone (h : s.Placed) (c : Char) (next : Option Char) :
    (s.alone c).Coherent next :=
  (h.flush.append c).coherent_flush next

/-- Taking in a character keeps a scanner coherent, unless it is a second hyphen in plain text. -/
theorem Coherent.append (h : s.Coherent previous)
    (hhyphen : s.mode.isVerbatim = false → c = '-' → previous ≠ some '-') :
    (s.append c).Coherent (some c) := by
  refine ⟨h.toPlaced.append c, fun d hd => hd, fun hmode => ?_⟩
  refine List.isChain_cons.mpr ⟨fun d hd hboth => ?_, h.hyphens hmode⟩
  exact hhyphen hmode hboth.1 (hboth.2 ▸ h.pending d hd)

/-- A scanner stays coherent when it takes in a character other than a hyphen. -/
theorem Coherent.append_ne (h : s.Coherent previous) (hc : c ≠ '-') :
    (s.append c).Coherent (some c) :=
  h.append fun _ heq => absurd heq hc

/-- A scanner stays coherent when it counts a bracket. -/
theorem Coherent.count (h : s.Coherent previous) (c : Char) : (s.count c).Coherent previous :=
  ⟨⟨h.stored, h.start⟩, h.pending, h.hyphens⟩

/-! ### Reading -/

/-- Two hyphens outside strings lead into a comment. -/
theorem isVerbatim_openComment {mode : Mode} (h : mode ≠ .string) :
    mode.openComment.isVerbatim = true := by
  cases mode with
  | string => exact absurd rfl h
  | plain | comment | quotation | unbalanced => rfl

/-- A scanner is coherent when it has opened a comment. -/
theorem Placed.openComment (h : s.Placed) (hmode : s.mode ≠ .string) :
    s.openComment.Coherent (some '-') := by
  have hcut : Placed { s with
      mode := s.mode.openComment
      pending := (beforeHyphens s.pending.reverse).reverse } := ⟨h.stored, h.start⟩
  refine ⟨⟨hcut.flush.stored, Nat.le_refl _⟩, by simp [Scanner.openComment], fun hverbatim => ?_⟩
  have hopened : s.openComment.mode = s.mode.openComment := flush_mode _
  rw [hopened, isVerbatim_openComment hmode] at hverbatim
  cases hverbatim

/-- A scanner stays coherent when it reads a space. -/
theorem Coherent.readSpace (h : s.Coherent previous) (hc : c ≠ '-') :
    (s.readSpace c).Coherent (some c) := by
  unfold Scanner.readSpace
  split
  · exact h.append_ne hc
  · exact h.coherent_flush _

/-- A scanner stays coherent when it reads a separator. -/
theorem Coherent.readSeparator (h : s.Coherent previous) (hc : c ≠ '-') :
    (s.readSeparator c).Coherent (some c) := by
  unfold Scanner.readSeparator
  split
  · exact h.append_ne hc
  · exact h.coherent_alone c _

/-- A scanner stays coherent when it reads the end of a line. -/
theorem Coherent.readLineEnd (h : s.Coherent previous) (hc : c ≠ '-') :
    (s.readLineEnd c).Coherent (some c) := by
  unfold Scanner.readLineEnd
  split
  · exact h.append_ne hc
  · exact Placed.coherent (s := { s.flush with mode := s.flush.mode.endLine, rounds := 0 })
      ⟨h.flush.stored, h.flush.start⟩ s.flush_pending _

/-- A scanner stays coherent when it reads a hyphen. -/
theorem Coherent.readHyphen (h : s.Coherent s.previous) : s.readHyphen.Coherent (some '-') := by
  unfold Scanner.readHyphen
  simp only [Bool.and_eq_true, decide_eq_true_eq]
  split
  next hsecond => exact (h.toPlaced.append '-').openComment hsecond.2
  next hfirst =>
    refine h.append fun hverbatim _ hprevious => hfirst ⟨hprevious, fun hstring => ?_⟩
    rw [hstring] at hverbatim
    cases hverbatim

/-- A scanner stays coherent when it reads a double quote. -/
theorem Coherent.readQuote (h : s.Coherent previous) : s.readQuote.Coherent (some '"') := by
  have hmode (mode : Mode) : Placed { s with mode := mode } := ⟨h.stored, h.start⟩
  have hquote : '"' ≠ '-' := by decide
  unfold Scanner.readQuote
  split
  · exact (Placed.coherent (s := { s.flush with mode := .string }) ⟨h.flush.stored, h.flush.start⟩
      s.flush_pending previous).append_ne hquote
  · exact ((hmode .plain).append '"').coherent_flush _
  · exact Coherent.append_ne ⟨hmode _, h.pending, fun hverbatim => nomatch hverbatim⟩ hquote
  · exact Coherent.append_ne ⟨hmode _, h.pending, fun hverbatim => nomatch hverbatim⟩ hquote
  · exact (h.toPlaced.append '"').coherent_flush _

/-- A scanner stays coherent when it reads a character. -/
theorem Coherent.read (h : s.Coherent s.previous) (c : Char) : (s.read c).Coherent (some c) := by
  cases readKind c with
  | space hc hread =>
    rw [hread]
    exact h.readSpace (by rcases hc with rfl | rfl <;> decide)
  | opening hc hread =>
    rw [hread]
    split
    · exact (h.count c).append_ne (by rcases hc with rfl | rfl | rfl <;> decide)
    · exact (h.count c).coherent_alone c _
  | closing hc hread =>
    rw [hread]
    exact (h.count c).append_ne (by rcases hc with rfl | rfl | rfl <;> decide)
  | separator hc hread =>
    rw [hread]
    exact h.readSeparator (by rcases hc with rfl | rfl <;> decide)
  | lineEnd hc hread =>
    rw [hread]
    exact h.readLineEnd (by rcases hc with rfl | rfl <;> decide)
  | hyphen hc hread =>
    rw [hread, hc]
    exact h.readHyphen
  | quote hc hread =>
    rw [hread, hc]
    exact h.readQuote
  | plain hhyphen _ hread =>
    rw [hread]
    exact h.append_ne hhyphen

/-- A scanner stays coherent when it goes on by one character. -/
theorem Coherent.step (h : s.Coherent s.previous) (c : Char) :
    (s.step c).Coherent (s.step c).previous := by
  have hread := h.read c
  have hrow : (s.step c).position.row =
      (s.read c).position.row + if c = '\n' then 1 else 0 := Position.after_row _ _
  refine ⟨⟨fun symbol hsymbol => ?_, ?_⟩, hread.pending, hread.hyphens⟩
  · have hstored := hread.stored symbol hsymbol
    omega
  · have hstart := hread.start
    change (s.read c).start.row ≤ _
    omega

/-- Every scanner that has read a text is coherent. -/
theorem Coherent.feed (h : s.Coherent s.previous) (text : String) :
    (s.feed text).Coherent (s.feed text).previous := by
  unfold Scanner.feed
  induction text.toList generalizing s with
  | nil => exact h
  | cons c rest ih => exact ih (h.step c)

end Smi.Scanner
