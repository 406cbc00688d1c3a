import Smi.Proofs.Symbol.Distinction

/-!
# Quoted strings

A quoted string becomes one symbol whatever stands in it, but its brackets are counted like those
of the text around it. So the text of a string has no effect on how the rest of a unit is cut into
symbols exactly if it nests its brackets like the text that it is exchanged for.
-/

namespace Smi

/-- A text in double quotes. -/
def quoted (body : String) : String :=
  "\"" ++ body ++ "\""

/-- A text in double quotes has one at each end. -/
theorem toList_quoted (body : String) : (quoted body).toList = '"' :: (body.toList ++ ['"']) := by
  simp [quoted]

/-- A text in double quotes begins with one. -/
theorem head?_quoted (body : String) : (quoted body).toList.head? = some '"' := by
  rw [toList_quoted]
  rfl

/-- A text in double quotes ends with one. -/
theorem getLast?_quoted (body : String) : (quoted body).toList.getLast? = some '"' := by
  rw [toList_quoted, ← List.cons_append, List.getLast?_concat]

namespace Scanner

variable {s : Scanner} {cs : List Char} {body : String} {unit : String}

/-- Texts one behind the other are read one after the other. -/
theorem feed_append (s : Scanner) (first rest : String) :
    s.feed (first ++ rest) = (s.feed first).feed rest := by
  simp [feed]

/-! ### Inside a string -/

/-- A double quote in plain text ends the symbol before it and begins a string. -/
theorem step_quote_of_plain (hmode : s.mode = .plain) : s.step '"' = { s.flush with
    mode := .string
    pending := ['"']
    start := s.flush.position
    position := s.flush.position.after '"'
    previous := some '"' } := by
  simp [step, read, readQuote, hmode, append, flush_pending]

/-- Inside a string all characters are taken in, and brackets are counted. -/
theorem foldl_step_string (hmode : s.mode = .string) (hcs : ∀ c ∈ cs, c ≠ '"')
    (hpending : s.pending ≠ []) : ∃ position previous,
    cs.foldl step s = { s.withNesting (cs.foldl (Nesting.after s.afterAssign) s.nesting) with
      pending := cs.reverse ++ s.pending, position := position, previous := previous } := by
  induction cs generalizing s with
  | nil => exact ⟨s.position, s.previous, rfl⟩
  | cons c rest ih =>
    obtain ⟨hc, hrest⟩ := List.forall_mem_cons.mp hcs
    have hempty : s.pending.isEmpty = false := by simpa using hpending
    have hstep : s.step c = { s.count c with
        pending := c :: s.pending, position := s.position.after c, previous := some c } := by
      rw [step, read_of_string hmode hc]
      simp [append, count, withNesting, hempty]
    rw [List.foldl_cons, hstep]
    obtain ⟨position, previous, hfold⟩ := ih (s := { s.count c with
      pending := c :: s.pending, position := s.position.after c, previous := some c }) hmode hrest
      (List.cons_ne_nil _ _)
    refine ⟨position, previous, hfold.trans ?_⟩
    simp [count, withNesting, nesting]

/-- A string in plain text is stored as one symbol; all else that it changes is the nesting. -/
theorem feed_quoted (hmode : s.mode = .plain) (hbody : ∀ c ∈ body.toList, c ≠ '"') :
    (s.feed (quoted body)).pending = [] ∧
      (∃ position, (s.feed (quoted body)).stored = ⟨quoted body, position⟩ :: s.flush.stored) ∧
        (s.feed (quoted body)).bare = fresh '"' .plain false (s.nestingBehind body) := by
  have hopen := step_quote_of_plain hmode
  obtain ⟨position, previous, hfold⟩ := foldl_step_string (s := s.step '"') (by rw [hopen]) hbody
    (by rw [hopen]; exact List.cons_ne_nil _ _)
  have hfeed : s.feed (quoted body) = (body.toList.foldl step (s.step '"')).step '"' := by
    simp [feed, toList_quoted]
  rw [hopen] at hfold hfeed
  generalize body.toList.foldl step _ = u at hfold hfeed
  have hvisible : ∀ c ∈ some '"', Text.isBlank c = false := by
    rintro _ ⟨⟩
    decide
  have hgathers : ({ u with mode := .plain }.append '"').Gathers (quoted body) :=
    gathers_of_visible (by simp [hfold, append, toList_quoted]) (by simp [toList_quoted])
      (by rwa [head?_quoted]) (by rwa [getLast?_quoted])
  have hordinary : IsOrdinary (quoted body) :=
    isOrdinary_of_head? (head?_quoted body) (by decide)
  have hclose : u.step '"' = { s.flush.withNesting (s.nestingBehind body) with
      mode := .plain
      pending := []
      afterAssign := false
      stored := ⟨quoted body, s.flush.position⟩ :: s.flush.stored
      start := s.flush.position
      position := position.after '"'
      previous := some '"' } := by
    have hread : u.read '"' = ({ u with mode := .plain }.append '"').flush := by
      simp [read, readQuote, hfold, withNesting]
    rw [step, hread, hgathers.flush_ordinary hordinary]
    simp [hfold, append, withNesting, nesting, nestingBehind, Nesting.through]
  rw [hfeed, hclose]
  exact ⟨rfl, ⟨_, rfl⟩, rfl⟩

end Scanner

namespace SymbolTable

variable {before body body' rest : String} {unit : String}

/-- Behind the symbol for a string, a text is cut as by a scanner that knows no more than the
nesting of the brackets so far. -/
theorem compileSequence_quoted (hbefore : (Scanner.initial.feed before).mode = .plain)
    (hbody : '"' ∉ body.toList) (rest : String) :
    (ofText unit (before ++ quoted body ++ rest)).compileSequence =
      (ofText unit before).compileSequence ++ quoted body ::
        (((Scanner.fresh '"' .plain false ((Scanner.initial.feed before).nestingBehind body)).feed
          rest).finish unit).compileSequence := by
  obtain ⟨hpending, ⟨position, hstored⟩, hbare⟩ :=
    Scanner.feed_quoted hbefore fun c hc heq => hbody (heq ▸ hc)
  have hinert : IsInert (quoted body) := isInert_of_head? (head?_quoted body) (by decide)
  have hsettled : ((Scanner.initial.feed before).feed (quoted body)).Settled := by
    intro symbol hsymbol
    rw [hstored] at hsymbol
    cases hsymbol
    exact .inr hinert
  have hcompiled : (Symbol.mk (quoted body) position).isComment = false :=
    isComment_eq_false (by rw [head?_quoted]; decide)
  have hfeed : ofText unit (before ++ quoted body ++ rest) =
      (((Scanner.initial.feed before).feed (quoted body)).feed rest).finish unit := by
    simp [ofText, ofPieces, Scanner.feed_append]
  rw [hfeed, Scanner.compileSequence_feed hpending hsettled, hstored, hbare, compiledTexts_cons,
    hcompiled, if_neg Bool.false_ne_true, List.append_assoc]
  rfl

/-- Two strings can be exchanged without an effect on the other symbols of a unit, whatever stands
behind them, exactly if they nest their brackets alike. -/
theorem quoted_exchangeable_iff (hbefore : (Scanner.initial.feed before).mode = .plain)
    (hbody : '"' ∉ body.toList) (hbody' : '"' ∉ body'.toList) :
    (∀ rest, ∃ symbols,
      (ofText unit (before ++ quoted body ++ rest)).compileSequence =
          (ofText unit before).compileSequence ++ quoted body :: symbols ∧
        (ofText unit (before ++ quoted body' ++ rest)).compileSequence =
          (ofText unit before).compileSequence ++ quoted body' :: symbols) ↔
      (Scanner.initial.feed before).nestingBehind body =
        (Scanner.initial.feed before).nestingBehind body' := by
  constructor
  · intro hexchangeable
    have halike : Scanner.Alike unit
        (.fresh '"' .plain false ((Scanner.initial.feed before).nestingBehind body))
        (.fresh '"' .plain false ((Scanner.initial.feed before).nestingBehind body')) := by
      intro rest
      obtain ⟨symbols, hsymbols, hsymbols'⟩ := hexchangeable rest
      rw [compileSequence_quoted hbefore hbody] at hsymbols
      rw [compileSequence_quoted hbefore hbody'] at hsymbols'
      have htail := (List.cons.inj (List.append_cancel_left hsymbols)).2
      have htail' := (List.cons.inj (List.append_cancel_left hsymbols')).2
      rw [htail, htail']
    exact (halike.eq_of_fresh rfl rfl).2.2
  · intro hnesting rest
    exact ⟨_, compileSequence_quoted hbefore hbody rest, by
      rw [compileSequence_quoted hbefore hbody', hnesting]⟩

/-- A string with all its brackets closed again can be exchanged for one without brackets. -/
theorem quoted_exchangeable_description :
    (Scanner.initial.feed "x OBJECT-TYPE DESCRIPTION ").mode = .plain ∧ ∀ rest, ∃ symbols,
      (ofText "unit" ("x OBJECT-TYPE DESCRIPTION " ++ quoted "a [b] (c)" ++ rest)).compileSequence =
          (ofText "unit" "x OBJECT-TYPE DESCRIPTION ").compileSequence ++
            quoted "a [b] (c)" :: symbols ∧
        (ofText "unit" ("x OBJECT-TYPE DESCRIPTION " ++ quoted "none" ++ rest)).compileSequence =
          (ofText "unit" "x OBJECT-TYPE DESCRIPTION ").compileSequence ++
            quoted "none" :: symbols :=
  ⟨by decide, (quoted_exchangeable_iff (by decide) (by decide) (by decide)).mpr (by decide)⟩

/-- An opening bracket in a string joins the words behind the string to one symbol. -/
theorem quoted_not_exchangeable_see :
    (Scanner.initial.feed "x DESCRIPTION ").mode = .plain ∧
      '"' ∉ "see (a".toList ∧ '"' ∉ "see a".toList ∧ ¬∃ first behind,
        (ofText "unit" ("x DESCRIPTION " ++ quoted "see (a" ++ " STATUS current")).compileSequence =
            first ++ quoted "see (a" :: behind ∧
        (ofText "unit" ("x DESCRIPTION " ++ quoted "see a" ++ " STATUS current")).compileSequence =
            first ++ quoted "see a" :: behind := by
  refine ⟨by decide, by decide, by decide, fun ⟨first, behind, hopen, hplain⟩ => ?_⟩
  have hopen_length := congrArg List.length hopen
  have hplain_length := congrArg List.length hplain
  rw [List.length_append, List.length_cons] at hopen_length hplain_length
  have hfour : (ofText "unit" ("x DESCRIPTION " ++ quoted "see (a" ++ " STATUS current")
    ).compileSequence = ["x", "DESCRIPTION", "\"see (a\"", "STATUS current"] := by decide
  have hfive : (ofText "unit" ("x DESCRIPTION " ++ quoted "see a" ++ " STATUS current")
    ).compileSequence = ["x", "DESCRIPTION", "\"see a\"", "STATUS", "current"] := by decide
  rw [hfour] at hopen_length
  rw [hfive] at hplain_length
  simp at hopen_length hplain_length
  omega

end SymbolTable

end Smi
