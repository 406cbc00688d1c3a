import Mathlib.Data.List.TakeWhile
import Smi.Proofs.Text.Identifier
import Smi.Proofs.Text.Blank
import Smi.Compiler.OidClause

/-!
# What a clause says

A clause is read word by word. The first word is the parent, and each of the others is a step: a
number, or a label with a number in round brackets. A word that begins with a round bracket belongs
to the word before it.
-/

namespace Smi

namespace Text

/-! ### Numbers and words -/

/-- The characters of a number are digits, behind at most a plus sign. -/
theorem mem_of_readBelow? {bound n : Nat} {text : String} (h : readBelow? bound text = some n)
    {c : Char} (hc : c ∈ text.toList) : c = '+' ∨ c.isDigit = true := by
  have hdigits {cs : List Char} (h : readDigits? cs = some n) (hc : c ∈ cs) : c.isDigit = true := by
    rw [readDigits?, Option.ite_none_right_eq_some, isNumeral, Bool.and_eq_true] at h
    exact List.all_eq_true.mp h.1.2 c hc
  obtain ⟨hread, _⟩ := Option.filter_eq_some_iff.mp h
  unfold readUnsigned? at hread
  split at hread
  · rename_i rest hplus
    rw [hplus] at hc
    exact (List.mem_cons.mp hc).imp_right (hdigits hread)
  · exact .inr (hdigits hread hc)

/-- No round bracket stands in a number. -/
theorem not_mem_of_readBelow? {bound n : Nat} {text : String}
    (h : readBelow? bound text = some n) : '(' ∉ text.toList := fun hmem => by
  rcases mem_of_readBelow? h hmem with hplus | hdigit
  · cases hplus
  · exact absurd hdigit (by decide)

/-- A text without blanks is trimmed. -/
theorem trim_eq_self {text : String} (h : ∀ c ∈ text.toList, isBlank c = false) :
    trim text = text := by
  rw [trim, trimChars_eq_self (fun c hc => h c (List.mem_of_mem_head? hc))
    (fun c hc => h c (List.mem_of_mem_getLast? hc)), String.ofList_toList]

/-- No piece of a text has a character at which the text is cut. -/
theorem forall_mem_pieces {cut : Char → Bool} {cs piece : List Char} (h : piece ∈ pieces cut cs) :
    ∀ c ∈ piece, cut c = false := by
  induction cs generalizing piece with
  | nil => simp_all [pieces]
  | cons c rest ih =>
    unfold pieces at h
    split at h
    next hcut =>
      rcases List.mem_cons.mp h with rfl | hpiece
      · simp
      · exact ih hpiece
    next hkeep =>
      have hc : cut c = false := Bool.eq_false_iff.mpr hkeep
      split at h
      next hnil => simp_all
      next first others hpieces =>
        rw [hpieces] at ih
        rcases List.mem_cons.mp h with rfl | hpiece
        · exact List.forall_mem_cons.mpr ⟨hc, ih List.mem_cons_self⟩
        · exact ih (List.mem_cons_of_mem _ hpiece)

/-- No blank stands in a word. -/
theorem isBlank_of_mem_words {text word : String} (h : word ∈ words text) :
    ∀ c ∈ word.toList, isBlank c = false := by
  obtain ⟨piece, hpiece, rfl⟩ := List.mem_map.mp h
  rw [String.toList_ofList]
  exact forall_mem_pieces (List.mem_filter.mp hpiece).1

end Text

namespace OidClause

variable {clause word first : String} {arc : ClauseArc} {parsed : OidClause}

/-! ### Steps -/

/-- Whether a word is a step: a number, or a label with a number in round brackets. -/
inductive ArcText : String → ClauseArc → Prop where
  | number {text : String} {n : Nat} (hnumber : Text.readBelow? Text.bound32 text = some n) :
      ArcText text ⟨none, n⟩
  | labelled {label numeral : String} {n : Nat} (hlabel : label ≠ "")
      (hbracket : '(' ∉ label.toList)
      (hnumber : Text.readBelow? Text.bound32 numeral = some n) :
      ArcText (label ++ "(" ++ numeral ++ ")") ⟨some label, n⟩

/-- A word without a bracket can only be a number. -/
theorem readArc?_of_not_mem (h : '(' ∉ word.toList) :
    readArc? word = (Text.readBelow? Text.bound32 word).map (⟨none, ·⟩) := by
  have hdrop : word.toList.dropWhile (· ≠ '(') = [] := by
    rw [List.dropWhile_eq_nil_iff]
    exact fun c hc => decide_eq_true fun hsame => h (hsame ▸ hc)
  rw [readArc?, hdrop]
  cases Text.readBelow? Text.bound32 word <;> rfl

/-- A word with a bracket is read as a label and a number if it ends with a bracket. -/
theorem readArc?_of_append {label inside : List Char} (hword : word.toList = label ++ '(' :: inside)
    (hbracket : '(' ∉ label) (hlabel : label ≠ []) :
    readArc? word =
      if inside.getLast? = some ')' then
        (Text.readBelow? Text.bound32 (Text.trim (String.ofList inside.dropLast))).map
          (⟨some (String.ofList label), ·⟩)
      else none := by
  have hnone : Text.readBelow? Text.bound32 word = none := by
    refine Option.eq_none_iff_forall_not_mem.mpr fun m hm => ?_
    exact Text.not_mem_of_readBelow? hm (by simp [hword])
  obtain ⟨htake, hdrop⟩ := Text.span_of_not_mem hbracket inside
  have hempty : (String.ofList label).isEmpty = false := by simpa using hlabel
  rw [readArc?, hnone, hword]
  simp only [htake, hdrop, hempty]
  rfl

/-- A word that does not begin with a bracket is read as the step that it is. -/
theorem readArc?_eq_some_iff (hvisible : ∀ c ∈ word.toList, Text.isBlank c = false)
    (hhead : word.toList.head? ≠ some '(') : readArc? word = some arc ↔ ArcText word arc := by
  by_cases hmem : '(' ∈ word.toList
  · obtain ⟨label, inside, hword, hbracket⟩ := List.eq_append_cons_of_mem hmem
    have hlabel : label ≠ [] := by
      rintro rfl
      exact hhead (by rw [hword]; rfl)
    rw [readArc?_of_append hword hbracket hlabel, Option.ite_none_right_eq_some,
      Option.map_eq_some_iff]
    constructor
    · rintro ⟨hlast, n, hnumber, rfl⟩
      obtain ⟨numeral, rfl⟩ := List.getLast?_eq_some_iff.mp hlast
      have htrim : Text.trim (String.ofList numeral) = String.ofList numeral := by
        refine Text.trim_eq_self fun c hc => hvisible c ?_
        rw [String.toList_ofList] at hc
        simp [hword, hc]
      rw [List.dropLast_concat, htrim] at hnumber
      have htext : word = String.ofList label ++ "(" ++ String.ofList numeral ++ ")" :=
        String.toList_injective (by simp [hword])
      rw [htext]
      exact .labelled (by simpa using hlabel) (by simpa using hbracket) hnumber
    · generalize htext : word = text
      rintro (⟨hnumber⟩ | @⟨given, numeral, n, hgiven, hfree, hnumber⟩)
      · exact absurd (htext ▸ hmem) (Text.not_mem_of_readBelow? hnumber)
      · have hchars : label ++ '(' :: inside =
            given.toList ++ '(' :: (numeral.toList ++ [')']) := by
          rw [← hword, htext]
          simp
        have hsame := congrArg (List.takeWhile (· ≠ '(')) hchars
        rw [(Text.span_of_not_mem hbracket _).1, (Text.span_of_not_mem hfree _).1] at hsame
        subst hsame
        obtain rfl := (List.cons.inj (List.append_cancel_left hchars)).2
        have htrim : Text.trim numeral = numeral :=
          Text.trim_eq_self fun c hc => hvisible c (by simp [hword, hc])
        refine ⟨by simp, n, ?_, by simp⟩
        rwa [List.dropLast_concat, String.ofList_toList, htrim]
  · rw [readArc?_of_not_mem hmem, Option.map_eq_some_iff]
    constructor
    · rintro ⟨n, hnumber, rfl⟩
      exact .number hnumber
    · rintro (⟨hnumber⟩ | _)
      · exact ⟨_, hnumber, rfl⟩
      · exact absurd (by simp) hmem

/-! ### Words -/

/-- A word that is extended stays the start of a word, and no other word begins with a bracket. -/
theorem exists_extend_eq (word : String) {rest : List String} (hrest : ∀ w ∈ rest, w ≠ "") :
    ∃ first others, joinBracketed.extend word rest = first :: others ∧
      word.toList <+: first.toList ∧ ∀ w ∈ others, w.toList.head? ≠ some '(' := by
  induction rest generalizing word with
  | nil => exact ⟨word, [], rfl, List.prefix_rfl, List.forall_mem_nil _⟩
  | cons next rest ih =>
    obtain ⟨hnext, hrest⟩ := List.forall_mem_cons.mp hrest
    rw [joinBracketed.extend]
    by_cases hbracket : Text.beginsWith '(' next
    · obtain ⟨first, others, hextend, hprefix, hothers⟩ := ih (word ++ next) hrest
      rw [if_pos hbracket]
      rw [String.toList_append] at hprefix
      exact ⟨first, others, hextend, (List.prefix_append _ _).trans hprefix, hothers⟩
    · obtain ⟨first, others, hextend, ⟨tail, htail⟩, hothers⟩ := ih next hrest
      rw [if_neg hbracket, hextend]
      refine ⟨word, _, rfl, List.prefix_rfl, List.forall_mem_cons.mpr ⟨?_, hothers⟩⟩
      obtain ⟨c, cs, hchars⟩ := List.exists_cons_of_ne_nil (mt String.toList_eq_nil_iff.mp hnext)
      have hhead : next.toList.head? ≠ some '(' := by simpa [Text.beginsWith] using hbracket
      rw [← htail]
      rw [hchars] at hhead ⊢
      exact hhead

/-- Joining words brings in no new characters. -/
theorem forall_mem_extend {p : Char → Prop} {rest : List String} (hword : ∀ c ∈ word.toList, p c)
    (hrest : ∀ w ∈ rest, ∀ c ∈ w.toList, p c) :
    ∀ w ∈ joinBracketed.extend word rest, ∀ c ∈ w.toList, p c := by
  induction rest generalizing word with
  | nil => simpa [joinBracketed.extend] using hword
  | cons next rest ih =>
    obtain ⟨hnext, hrest⟩ := List.forall_mem_cons.mp hrest
    rw [joinBracketed.extend]
    split
    · refine ih (fun c hc => ?_) hrest
      rw [String.toList_append] at hc
      exact (List.mem_append.mp hc).elim (hword c) (hnext c)
    · exact List.forall_mem_cons.mpr ⟨hword, ih hnext hrest⟩

/-- Whether texts are words, each with those behind it that begin with a round bracket. -/
inductive Joined : List String → List String → Prop where
  | nil : Joined [] []
  | cons {word : String} {bracketed words joined : List String}
      (hbracketed : ∀ w ∈ bracketed, w.toList.head? = some '(')
      (hwords : ∀ w ∈ words.head?, w.toList.head? ≠ some '(') (hjoined : Joined words joined) :
      Joined (word :: bracketed ++ words) (String.join (word :: bracketed) :: joined)

/-- A word in front of one without a bracket stays alone. -/
theorem Joined.alone {word : String} {words joined : List String}
    (hwords : ∀ w ∈ words.head?, w.toList.head? ≠ some '(') (hjoined : Joined words joined) :
    Joined (word :: words) (word :: joined) := by
  have hcons : Joined (word :: [] ++ words) (String.join [word] :: joined) :=
    .cons (List.forall_mem_nil _) hwords hjoined
  simpa [String.join_cons] using hcons

/-- A word takes in the words in brackets behind it. -/
theorem extend_bracketed {bracketed : List String}
    (h : ∀ w ∈ bracketed, w.toList.head? = some '(') (word : String) (words : List String) :
    joinBracketed.extend word (bracketed ++ words) =
      joinBracketed.extend (String.join (word :: bracketed)) words := by
  induction bracketed generalizing word with
  | nil => simp
  | cons next rest ih =>
    obtain ⟨hnext, hrest⟩ := List.forall_mem_cons.mp h
    have hbegins : Text.beginsWith '(' next = true := by
      rw [Text.beginsWith, hnext]
      exact beq_self_eq_true _
    rw [List.cons_append, joinBracketed.extend, if_pos hbegins, ih hrest, String.join_cons,
      String.join_cons, String.join_cons, String.append_assoc]

/-- Extending a word gives it the words in brackets behind it. -/
theorem joined_extend (word : String) (rest : List String) :
    Joined (word :: rest) (joinBracketed.extend word rest) := by
  induction rest generalizing word with
  | nil =>
    rw [joinBracketed.extend]
    exact .alone (fun _ h => nomatch h) .nil
  | cons next rest ih =>
    rw [joinBracketed.extend]
    split
    next hbegins =>
      have hnext : next.toList.head? = some '(' := by simpa [Text.beginsWith] using hbegins
      have hmore := ih (word ++ next)
      generalize hall : (word ++ next) :: rest = all at hmore
      generalize joinBracketed.extend (word ++ next) rest = result at hmore ⊢
      cases hmore with
      | nil => cases hall
      | @cons word' bracketed words joined hbracketed hwords hjoined =>
        obtain ⟨rfl, rfl⟩ := List.cons.inj hall
        have hlonger : Joined (word :: (next :: bracketed) ++ words)
            (String.join (word :: next :: bracketed) :: joined) :=
          .cons (List.forall_mem_cons.mpr ⟨hnext, hbracketed⟩) hwords hjoined
        rwa [String.join_cons, String.join_cons, ← String.append_assoc, ← String.join_cons]
          at hlonger
    next hbegins =>
      have hnext : next.toList.head? ≠ some '(' := by simpa [Text.beginsWith] using hbegins
      exact .alone (by simpa using hnext) (ih next)

/-- Words are joined as they belong together. -/
theorem joinBracketed_eq_iff {words joined : List String} :
    joinBracketed words = joined ↔ Joined words joined := by
  constructor
  · rintro rfl
    cases words with
    | nil => exact .nil
    | cons word rest => exact joined_extend word rest
  · intro h
    induction h with
    | nil => rfl
    | @cons word bracketed words joined hbracketed hwords _ ih =>
      rw [List.cons_append, joinBracketed, extend_bracketed hbracketed]
      subst ih
      cases words with
      | nil => rfl
      | cons next rest =>
        have hnext : ¬Text.beginsWith '(' next = true := by
          simpa [Text.beginsWith] using hwords next rfl
        rw [joinBracketed.extend, if_neg hnext, joinBracketed]

/-- Whether a text is the clause of a parent and steps: of its words, with those that begin with a
bracket joined to the ones before them, the first is the parent, up to a bracket, and the others
are the steps. -/
def Says (clause : String) (parsed : OidClause) : Prop :=
  ∃ first rest, Joined (Text.words clause) (first :: rest) ∧
    parsed.parent.toList = first.toList.takeWhile (· ≠ '(') ∧ List.Forall₂ ArcText rest parsed.arcs

/-- The steps of a clause are read one by one. -/
theorem mapM_readArc?_eq_some_iff {rest : List String} {arcs : List ClauseArc}
    (hvisible : ∀ w ∈ rest, ∀ c ∈ w.toList, Text.isBlank c = false)
    (hhead : ∀ w ∈ rest, w.toList.head? ≠ some '(') :
    rest.mapM readArc? = some arcs ↔ List.Forall₂ ArcText rest arcs := by
  induction rest generalizing arcs with
  | nil => cases arcs <;> simp
  | cons w rest ih =>
    obtain ⟨hw, hvisible⟩ := List.forall_mem_cons.mp hvisible
    obtain ⟨hwHead, hhead⟩ := List.forall_mem_cons.mp hhead
    cases arcs with
    | nil => simp [List.mapM_cons, Option.bind_eq_some_iff]
    | cons arc others =>
      rw [List.forall₂_cons, ← readArc?_eq_some_iff hw hwHead, ← ih hvisible hhead]
      simp [List.mapM_cons, Option.bind_eq_some_iff]

/-- A clause is read as the parent and the steps that it says. -/
theorem read?_eq_some_iff : read? clause = some parsed ↔ Says clause parsed := by
  have hwords (w : String) (hw : w ∈ Text.words clause) :
      (∀ c ∈ w.toList, Text.isBlank c = false) ∧ w ≠ "" := by
    refine ⟨Text.isBlank_of_mem_words hw, fun hempty => ?_⟩
    obtain ⟨piece, hpiece, rfl⟩ := List.mem_map.mp hw
    simp_all
  cases hsplit : Text.words clause with
  | nil => simp [read?, Says, hsplit, ← joinBracketed_eq_iff, joinBracketed]
  | cons word rest =>
    rw [hsplit] at hwords
    obtain ⟨hword, hrest⟩ := List.forall_mem_cons.mp hwords
    obtain ⟨first, others, hextend, _, hothers⟩ :=
      exists_extend_eq word fun w hw => (hrest w hw).2
    have hvisible := forall_mem_extend hword.1 fun w hw => (hrest w hw).1
    rw [hextend] at hvisible
    have hjoined : joinBracketed (Text.words clause) = first :: others := by
      rw [hsplit, joinBracketed, hextend]
    have hmap (arcs : List ClauseArc) :
        others.mapM readArc? = some arcs ↔ List.Forall₂ ArcText others arcs :=
      mapM_readArc?_eq_some_iff (List.forall_mem_cons.mp hvisible).2 hothers
    rw [read?, hjoined]
    simp only [Option.map_eq_some_iff, hmap]
    constructor
    · rintro ⟨arcs, harcs, rfl⟩
      exact ⟨first, others, joinBracketed_eq_iff.mp hjoined, String.toList_ofList, harcs⟩
    · rintro ⟨first', others', hsame, hparent, harcs⟩
      rw [← joinBracketed_eq_iff, hjoined] at hsame
      obtain ⟨rfl, rfl⟩ := List.cons.inj hsame
      refine ⟨parsed.arcs, harcs, ?_⟩
      rw [← hparent, String.ofList_toList]

end OidClause

end Smi
