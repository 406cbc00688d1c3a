import Smi.Proofs.Compiler.BracedText
import Smi.Proofs.Oid.Dotted
import Smi.Proofs.OrderedMap

/-!
# Enumerations

An enumeration lists labels in braces, each with its code in round brackets. A label and its code
may fall into one symbol or into two, and the first label into the symbol of the brace. All of this
is read alike, so that the layout of an enumeration is of no importance.
-/

namespace Smi

open Scanner

/-- A member of an enumeration as it is written: the blanks before its label, between the label and
the round bracket, around the code, and behind the member. -/
structure WrittenMember where
  label : String
  code : Int64
  before : List Char
  between : List Char
  inFront : List Char
  behind : List Char
  after : List Char
  identifier : IsIdentifier Char.isAlpha label
  before_gap : IsGap before
  between_gap : IsGap between
  inFront_spaces : ∀ c ∈ inFront, c = ' ' ∨ c = '\t'
  behind_spaces : ∀ c ∈ behind, c = ' ' ∨ c = '\t'
  after_gap : IsGap after

namespace WrittenMember

/-- The characters between the round brackets of a member. -/
def inside (m : WrittenMember) : List Char :=
  m.inFront ++ (toString m.code.toInt).toList ++ m.behind

/-- The code of a member in its round brackets. -/
def bracketed (m : WrittenMember) : List Char :=
  '(' :: m.inside ++ [')']

/-- The characters of a member. -/
def chars (m : WrittenMember) : List Char :=
  m.before ++ (m.label.toList ++ m.between ++ m.bracketed ++ m.after)

/-- The code and the label of a member. -/
def entry (m : WrittenMember) : Int64 × String :=
  (m.code, m.label)

/-- The text of an enumeration of a base type. -/
def text (base : String) (lead gap : List Char) (first : WrittenMember)
    (rest : List WrittenMember) : String :=
  String.ofList ("SYNTAX".toList ++ lead ++ base.toList ++ gap ++ '{' :: first.chars ++
    rest.flatMap (fun m => ',' :: m.chars) ++ ['}'])

end WrittenMember

namespace Capture

variable {previous symbol label type : String} {code : Int64} {pre inside tail cs : List Char}
  {symbols : List String}

/-- The members completed by symbols, the newest of which comes first. -/
def completed : List String → List (Int64 × String)
  | symbol :: previous :: rest =>
    completed (previous :: rest) ++ (member? previous symbol).toList
  | _ => []

/-- Symbols complete the members that are read from each of them and the one before it. -/
theorem completed_append (symbols : List String) (base : String) (before : List String) :
    completed (symbols.reverse ++ base :: before) = completed (base :: before) ++
      ((base :: symbols).zip symbols).filterMap (fun pair => member? pair.1 pair.2) := by
  induction symbols generalizing base before with
  | nil => simp
  | cons symbol rest ih =>
    rw [List.reverse_cons, List.append_assoc, List.singleton_append, ih, completed,
      List.append_assoc, List.zip_cons_cons, List.filterMap_cons]
    cases member? base symbol <;> simp

/-- A symbol without a round bracket completes no member. -/
theorem member?_of_not_mem (h : '(' ∉ symbol.toList) : member? previous symbol = none := by
  have hdrop : symbol.toList.dropWhile (· ≠ '(') = [] := by
    rw [List.dropWhile_eq_nil_iff]
    exact fun c hc => decide_eq_true fun hsame => h (hsame ▸ hc)
  rw [member?, parenthesised?, hdrop]
  rfl

/-- A symbol with a code in round brackets completes a member. -/
theorem member?_of_append (hsymbol : symbol.toList = pre ++ '(' :: (inside ++ ')' :: tail))
    (hpre : '(' ∉ pre) (hinside : ')' ∉ inside) (hne : inside ≠ [])
    (hcode : Text.readInt64? (Text.trim (String.ofList inside)) = some code) :
    member? previous symbol = some (code, memberLabel previous symbol) := by
  have hcontent : parenthesised? symbol = some (String.ofList inside) := by
    rw [parenthesised?, hsymbol, (Text.span_of_not_mem hpre _).2]
    simp only [(Text.span_of_not_mem hinside _).1]
    simp [hne]
  rw [member?, hcontent, Option.bind_some, hcode, Option.map_some]

/-- Whether characters are those of a label, with blanks around it and perhaps a brace in front. -/
def Labels (label : String) (cs : List Char) : Prop :=
  ∃ lead trail, (∀ c ∈ lead, Text.isBlank c = true) ∧ (∀ c ∈ trail, Text.isBlank c = true) ∧
    (cs = label.toList ++ trail ∨ cs = '{' :: lead ++ label.toList ++ trail)

/-- What a label is taken from: what stands before the round bracket of a symbol, or the symbol
before it. -/
def labelSource (previous symbol : String) : List Char :=
  match symbol.toList with
  | '(' :: _ :: _ => previous.toList
  | cs => cs.takeWhile (· ≠ '(')

/-- A label without a brace in front and the blanks around it. -/
def bareLabel (cs : List Char) : String :=
  match Text.trimChars cs with
  | '{' :: label => String.ofList (Text.trimChars label)
  | label => String.ofList label

/-- The label of a member is the bare label of the symbol that holds it. -/
theorem memberLabel_eq (previous symbol : String) :
    memberLabel previous symbol = bareLabel (labelSource previous symbol) :=
  rfl

/-- A brace and blanks around a label are no part of it. -/
theorem bareLabel_eq (hlabel : IsIdentifier Char.isAlpha label) (h : Labels label pre) :
    bareLabel pre = label := by
  have hhead : ∀ c ∈ label.toList.head?, Text.isBlank c = false := fun c hc =>
    hlabel.isBlank_eq_false (List.mem_of_mem_head? hc)
  have hlast : ∀ c ∈ label.toList.getLast?, Text.isBlank c = false := fun c hc =>
    hlabel.isBlank_eq_false (List.mem_of_mem_getLast? hc)
  obtain ⟨lead, trail, hlead, htrail, rfl | rfl⟩ := h
  · have htrim : Text.trimChars (label.toList ++ trail) = label.toList :=
      (Text.trimChars_append_blanks htrail).trans (Text.trimChars_eq_self hhead hlast)
    rw [bareLabel, htrim]
    split
    next rest hbrace => exact absurd (by rw [hbrace]; rfl) (hlabel.head?_ne (c := '{') (by decide))
    next => exact String.ofList_toList
  · have htrim : Text.trimChars ('{' :: lead ++ label.toList ++ trail) =
        '{' :: lead ++ label.toList := by
      refine (Text.trimChars_append_blanks htrail).trans (Text.trimChars_eq_self ?_ ?_)
      · simp
        decide
      · rwa [List.getLast?_append_of_ne_nil _ hlabel.nonempty]
    have hinner : Text.trimChars (lead ++ label.toList) = label.toList := by
      rw [← List.append_nil (lead ++ label.toList)]
      exact Text.trimChars_append hlead (List.forall_mem_nil _) hlabel.nonempty hhead hlast
    rw [bareLabel, htrim]
    simp only [List.cons_append, hinner, String.ofList_toList]

/-- The label in front of the round bracket of its symbol. -/
theorem memberLabel_of_append (hlabel : IsIdentifier Char.isAlpha label)
    (hsymbol : symbol.toList = pre ++ '(' :: tail) (hpre : '(' ∉ pre)
    (hlabels : Labels label pre) : memberLabel previous symbol = label := by
  have hne : pre ≠ [] := by
    rintro rfl
    obtain ⟨lead, trail, -, -, hnil | hnil⟩ := hlabels
    · exact hlabel.nonempty (List.append_eq_nil_iff.mp hnil.symm).1
    · cases hnil
  have hsource : labelSource previous symbol = pre := by
    obtain ⟨c, others, rfl⟩ := List.exists_cons_of_ne_nil hne
    rw [labelSource, hsymbol]
    split
    next hcs =>
      rw [(List.cons.inj hcs).1] at hpre
      exact absurd List.mem_cons_self hpre
    next => exact (Text.span_of_not_mem hpre _).1
  rw [memberLabel_eq, hsource, bareLabel_eq hlabel hlabels]

/-- The label in the symbol before that of its code. -/
theorem memberLabel_of_previous (hlabel : IsIdentifier Char.isAlpha label)
    (hsymbol : symbol.toList = '(' :: tail) (htail : tail ≠ [])
    (hlabels : Labels label previous.toList) : memberLabel previous symbol = label := by
  obtain ⟨c, rest, rfl⟩ := List.exists_cons_of_ne_nil htail
  have hsource : labelSource previous symbol = previous.toList := by
    rw [labelSource, hsymbol]
    rfl
  rw [memberLabel_eq, hsource, bareLabel_eq hlabel hlabels]

/-! ### Types -/

/-- The base types of enumerations. -/
def baseTypes : List String :=
  ["INTEGER", "BITS"]

/-- The type that is captured from symbols whose characters are those of a list in braces. -/
theorem typeValue_of_chars (htype : type ∈ baseTypes)
    (hchars : symbols.flatMap String.toList = '{' :: cs ++ ['}']) (hbrace : '}' ∉ cs)
    (hne : ∀ symbol ∈ symbols, symbol ≠ "") :
    typeValue type symbols = (.enumeration type (members type symbols), []) := by
  have hbare : ∀ type ∈ baseTypes, Text.remove '"' type = type ∧
      (type = "INTEGER" ∨ type = "BITS") := by decide
  obtain ⟨hbare, hbase⟩ := hbare type htype
  have hopens : opensBrace symbols = true := by
    obtain ⟨symbol, others, rfl⟩ : ∃ symbol others, symbols = symbol :: others :=
      List.exists_cons_of_ne_nil fun hnil => by simp [hnil] at hchars
    exact beginsWith_of_chars hchars (hne symbol List.mem_cons_self)
  have hthrough := throughBrace_eq_self hchars (by simpa using hbrace) hne
  unfold typeValue
  simp [hbare, hopens, hbase, hthrough]

end Capture

namespace Cut

variable {b : Cut} {blanks : List Char} {entries : List (Int64 × String)}

/-- Whether the symbols and the pending one complete some members, whatever without round brackets
is still added to it. -/
def Completes (b : Cut) (entries : List (Int64 × String)) : Prop :=
  ∀ text : String, (∃ tail, '(' ∉ tail ∧ text.toList = b.text.toList ++ tail) →
    Capture.completed (text :: b.texts) = entries

/-- A symbol without a round bracket completes nothing. -/
theorem completed_cons {text last : String} {rest : List String} (h : '(' ∉ text.toList) :
    Capture.completed (text :: last :: rest) = Capture.completed (last :: rest) := by
  rw [Capture.completed, Capture.member?_of_not_mem h, Option.toList_none, List.append_nil]

/-- A gap completes nothing. -/
theorem Completes.gap (h : b.Completes entries) (hblanks : IsGap blanks) (hheld : b.held ≠ []) :
    (b.gap blanks).Completes entries := by
  rw [Cut.gap]
  split
  · rintro text ⟨tail, htail, htext⟩
    rw [text_of_held rfl] at htext
    have htexts : b.flush.texts = b.text :: b.texts := if_neg hheld
    rw [htexts, completed_cons (by rw [htext]; simpa using htail)]
    exact h b.text ⟨[], List.not_mem_nil, (List.append_nil _).symm⟩
  · rw [Completes, text_keep hblanks]
    exact h

/-- A comma completes nothing. -/
theorem Completes.comma (h : b.Completes entries) :
    Capture.completed b.comma.texts = entries := by
  by_cases hheld : b.held = []
  · have htexts : b.comma.texts = "," :: b.texts := by
      rw [Cut.comma, Cut.flush, if_pos hheld]
    rw [htexts]
    exact h "," ⟨[','], by decide, by rw [text_of_held hheld]; rfl⟩
  · have htexts : b.comma.texts = "," :: b.text :: b.texts := by
      rw [Cut.comma, Cut.flush, if_neg hheld]
    rw [htexts, completed_cons (by decide)]
    exact h b.text ⟨[], List.not_mem_nil, (List.append_nil _).symm⟩

/-- The closing brace completes nothing. -/
theorem Completes.closed (h : b.Completes entries) (hplain : StartsPlain b.held)
    (hclosed : StartsPlain b.closed.held) : Capture.completed b.closed.flush.texts = entries := by
  obtain ⟨blanks, hblanks, hheld⟩ := exists_held_eq hplain
  have htexts : b.closed.flush.texts = b.closed.text :: b.texts :=
    if_neg (held_take_ne_nil (List.cons_ne_nil _ _))
  rw [htexts]
  refine h _ ⟨blanks ++ ['}'], fun hmem => ?_, ?_⟩
  · rcases List.mem_append.mp hmem with hmem | hmem
    · exact absurd (hblanks _ hmem) (by decide)
    · exact absurd hmem (by decide)
  · rw [toList_text_closed hclosed, ← List.append_assoc, ← hheld]

end Cut

namespace WrittenMember

variable {m : WrittenMember} {listed : Bool} {s : Scanner} {b : Cut} {base : List String}
  {entries : List (Int64 × String)}

/-! ### The code of a member -/

/-- The numeral of a code has only digits and a hyphen. -/
theorem mem_numeral {c : Char} (hc : c ∈ (toString m.code.toInt).toList) :
    c.isDigit = true ∨ c = '-' := by
  rw [Text.toList_toString_int] at hc
  split at hc
  · exact (List.mem_cons.mp hc).symm.imp_left Text.isDigit_of_mem_toString
  · exact .inl (Text.isDigit_of_mem_toString hc)

/-- The numeral of a code has no blanks. -/
theorem isBlank_numeral {c : Char} (hc : c ∈ (toString m.code.toInt).toList) :
    Text.isBlank c = false := by
  rcases mem_numeral hc with hdigit | rfl
  · exact Text.isBlank_of_isAlphanum (by rw [Char.isAlphanum, hdigit, Bool.or_true])
  · decide

/-- In the round brackets of a member stand letters, digits, hyphens, spaces and tabs. -/
theorem mem_inside {c : Char} (hc : c ∈ m.inside) :
    c.isAlphanum = true ∨ c = '-' ∨ c = ' ' ∨ c = '\t' := by
  rw [inside, List.mem_append, List.mem_append] at hc
  rcases hc with (hc | hc) | hc
  · exact .inr (.inr (m.inFront_spaces c hc))
  · exact (mem_numeral hc).imp (fun hdigit => by rw [Char.isAlphanum, hdigit, Bool.or_true]) .inl
  · exact .inr (.inr (m.behind_spaces c hc))

/-- No two hyphens stand side by side in the round brackets of a member. -/
theorem singleHyphens_inside (m : WrittenMember) : SingleHyphens m.inside := by
  have hspaces {cs : List Char} (hcs : ∀ c ∈ cs, c = ' ' ∨ c = '\t') : ∀ c ∈ cs, c ≠ '-' := by
    rintro _ hc rfl
    have hspace := hcs _ hc
    revert hspace
    decide
  have hdigits : ∀ c ∈ (toString m.code.toInt.natAbs).toList, c ≠ '-' := by
    rintro _ hc rfl
    exact absurd (Text.isDigit_of_mem_toString hc) (by decide)
  have hnumeral : SingleHyphens (toString m.code.toInt).toList := by
    rw [Text.toList_toString_int]
    split
    · exact List.isChain_cons.mpr ⟨fun c hc hboth => hdigits c (List.mem_of_mem_head? hc) hboth.2,
        singleHyphens_of_forall_ne hdigits⟩
    · exact singleHyphens_of_forall_ne hdigits
  have hfront : SingleHyphens (m.inFront ++ (toString m.code.toInt).toList) :=
    List.isChain_append.mpr ⟨singleHyphens_of_forall_ne (hspaces m.inFront_spaces), hnumeral,
      fun c hc _ _ hboth => hspaces m.inFront_spaces c (List.mem_of_mem_getLast? hc) hboth.1⟩
  exact hfront.append (singleHyphens_of_forall_ne (hspaces m.behind_spaces))
    fun hhead => hspaces m.behind_spaces _ (List.mem_of_mem_head? hhead) rfl

/-- The code is read from between the round brackets. -/
theorem readInt64?_inside (m : WrittenMember) :
    Text.readInt64? (Text.trim (String.ofList m.inside)) = some m.code := by
  have hspaces {cs : List Char} (hcs : ∀ c ∈ cs, c = ' ' ∨ c = '\t') :
      ∀ c ∈ cs, Text.isBlank c = true := fun c hc => by
    rcases hcs c hc with rfl | rfl <;> decide
  have hne : (toString m.code.toInt).toList ≠ [] := by
    rw [Text.toList_toString_int]
    split
    · exact List.cons_ne_nil _ _
    · exact Text.toString_ne_nil _
  rw [Text.trim, String.toList_ofList, inside, Text.trimChars_append (hspaces m.inFront_spaces)
    (hspaces m.behind_spaces) hne (fun c hc => isBlank_numeral (List.mem_of_mem_head? hc))
    (fun c hc => isBlank_numeral (List.mem_of_mem_getLast? hc)), String.ofList_toList,
    Text.readInt64?_toString_toInt]

/-- The round brackets of a member are not empty. -/
theorem inside_ne_nil (m : WrittenMember) : m.inside ≠ [] := fun hnil => by
  have hread := m.readInt64?_inside
  rw [hnil] at hread
  cases hread

/-- No other character stands in the round brackets of a member. -/
theorem not_mem_inside {c : Char} (halphanum : c.isAlphanum = false) (hc : c ∉ ['-', ' ', '\t']) :
    c ∉ m.inside := fun hmem => by
  rcases mem_inside hmem with h | h | h | h
  · rw [halphanum] at h
    cases h
  all_goals exact hc (by simp [h])

/-! ### Scanning a member -/

/-- What is pending behind a label, and perhaps a gap, names the label. -/
theorem labels_held (hitem : b.AtItem listed) (m : WrittenMember) {blanks : List Char}
    (hblanks : IsGap blanks) : Capture.Labels m.label (b.held ++ m.label.toList ++ blanks) ∧
      '(' ∉ b.held ++ m.label.toList ++ blanks := by
  have hlabel : '(' ∉ m.label.toList := m.identifier.not_mem (by decide) (by decide)
  have hgap {cs : List Char} (hcs : ∀ c ∈ cs, Text.isBlank c = true) : '(' ∉ cs := fun hmem =>
    absurd (hcs _ hmem) (by decide)
  have hbehind := hgap hblanks.isBlank
  rcases hitem.held with hheld | ⟨lead, hlead, hheld⟩
  · rw [hheld, List.nil_append]
    exact ⟨⟨[], blanks, List.forall_mem_nil _, hblanks.isBlank, .inl rfl⟩,
      by simp [hlabel, hbehind]⟩
  · rw [hheld]
    exact ⟨⟨lead, blanks, hlead, hblanks.isBlank, .inr rfl⟩,
      by simp [hlabel, hbehind, hgap hlead]⟩

/-- A code in round brackets goes to the symbol that is held back. -/
theorem toList_text_bracketed (m : WrittenMember) (hplain : StartsPlain (b.take m.bracketed).held) :
    (b.take m.bracketed).text.toList = b.held ++ m.bracketed := by
  refine Cut.toList_text_take hplain (List.cons_ne_nil _ _) fun c hc => ?_
  rw [bracketed, List.getLast?_concat] at hc
  cases hc
  decide

/-- A code completes the member whose label is pending. -/
theorem completes_pending (m : WrittenMember) (hne : b.texts ≠ [])
    (hdone : Capture.completed b.texts = entries) (hlabels : Capture.Labels m.label b.held)
    (hheld : '(' ∉ b.held) (hplain : StartsPlain (b.take m.bracketed).held) :
    (b.take m.bracketed).Completes (entries ++ [m.entry]) := by
  obtain ⟨last, others, htexts⟩ := List.exists_cons_of_ne_nil hne
  rintro text ⟨tail, -, htext⟩
  have hsplit : text.toList = b.held ++ '(' :: (m.inside ++ ')' :: tail) := by
    rw [htext, toList_text_bracketed m hplain, bracketed]
    simp
  have hmember : Capture.member? last text = some (m.code, m.label) := by
    rw [Capture.member?_of_append hsplit hheld (m.not_mem_inside (by decide) (by decide))
      m.inside_ne_nil m.readInt64?_inside,
      Capture.memberLabel_of_append m.identifier hsplit hheld hlabels]
  have hsame : (b.take m.bracketed).texts = last :: others := htexts
  rw [hsame, Capture.completed, hmember, ← htexts, hdone]
  rfl

/-- A code completes the member whose label is the last symbol. -/
theorem completes_stored (m : WrittenMember) {last : String} {others : List String}
    (htexts : b.texts = last :: others) (hheld : b.held = [])
    (hdone : Capture.completed b.texts = entries) (hlabels : Capture.Labels m.label last.toList)
    (hplain : StartsPlain (b.take m.bracketed).held) :
    (b.take m.bracketed).Completes (entries ++ [m.entry]) := by
  rintro text ⟨tail, -, htext⟩
  have hsplit : text.toList = [] ++ '(' :: (m.inside ++ ')' :: tail) := by
    rw [htext, toList_text_bracketed m hplain, bracketed, hheld]
    simp
  have hmember : Capture.member? last text = some (m.code, m.label) := by
    rw [Capture.member?_of_append hsplit List.not_mem_nil
      (m.not_mem_inside (by decide) (by decide)) m.inside_ne_nil m.readInt64?_inside,
      Capture.memberLabel_of_previous m.identifier hsplit
        (List.append_ne_nil_of_left_ne_nil m.inside_ne_nil _) hlabels]
  have hsame : (b.take m.bracketed).texts = last :: others := htexts
  rw [hsame, Capture.completed, hmember, ← htexts, hdone]
  rfl

/-- The code completes a member, whether the gap behind its label has ended a symbol or not. -/
theorem completes_bracketed (hitem : b.AtItem listed) (hne : b.texts ≠ [])
    (hdone : Capture.completed b.texts = entries) (m : WrittenMember)
    (hplain : StartsPlain (b.take m.label.toList).held)
    (hbracketed : StartsPlain (((b.take m.label.toList).gap m.between).take m.bracketed).held) :
    (((b.take m.label.toList).gap m.between).take m.bracketed).Completes
      (entries ++ [m.entry]) := by
  have hheld : (b.take m.label.toList).held ≠ [] := Cut.held_take_ne_nil m.identifier.nonempty
  by_cases hbreaks : (b.take m.label.toList).Breaks m.between
  · have htext : (b.take m.label.toList).text.toList = b.held ++ m.label.toList :=
      Cut.toList_text_take hplain m.identifier.nonempty fun c hc =>
        (m.identifier.getLast?_visible c hc).1
    obtain ⟨hlabels, hbracket⟩ := labels_held hitem m isGap_nil
    rw [List.append_nil, ← htext] at hlabels hbracket
    obtain ⟨last, others, htexts⟩ := List.exists_cons_of_ne_nil hne
    have hflush : (b.take m.label.toList).flush.texts =
        (b.take m.label.toList).text :: last :: others := by
      rw [← htexts]
      exact if_neg hheld
    rw [Cut.gap, if_pos hbreaks] at hbracketed ⊢
    refine completes_stored m hflush rfl ?_ hlabels hbracketed
    rw [hflush, Cut.completed_cons hbracket, ← htexts, hdone]
  · obtain ⟨hlabels, hbracket⟩ := labels_held hitem m m.between_gap
    rw [Cut.gap, if_neg hbreaks, Cut.keep, if_neg hheld] at hbracketed ⊢
    exact completes_pending m hne hdone hlabels hbracket hbracketed

/-- A code in its round brackets ends a member. -/
theorem pastItem_bracketed (m : WrittenMember) (hbraced : b.braced = true)
    (hlisted : b.listed = listed) (hplain : StartsPlain (b.take m.bracketed).held) :
    (b.take m.bracketed).PastItem listed := by
  have hbracket : '(' ∈ (b.take m.bracketed).text.toList := by
    rw [toList_text_bracketed m hplain, bracketed]
    simp
  have hnone : ∀ text ∈ "\x7b" :: secondHalves, '(' ∉ text.toList := by decide
  refine ⟨hbraced, hlisted, Cut.apart_of_text fun hmem => ?_, fun hbrace => ?_⟩
  · exact hnone _ (List.mem_cons_of_mem _ hmem) hbracket
  · exact hnone _ (hbrace ▸ List.mem_cons_self) hbracket

/-- A member is scanned up to the comma or brace behind it. -/
theorem within_member (h : s.Within b) (hitem : b.AtItem listed) (hopen : b.Open base)
    (hne : b.texts ≠ []) (hdone : Capture.completed b.texts = entries) (m : WrittenMember) :
    ∃ b', ((m.label.toList ++ m.between ++ m.bracketed ++ m.after).foldl step s).Within b' ∧
      b'.PastItem listed ∧ b'.Open base ∧ b'.Completes (entries ++ [m.entry]) := by
  have hword := h.word m.identifier.isWord m.identifier.startsPlain
  have hlabel := hitem.toInside.pastItem hword.held_plain m.identifier.nonempty
    m.identifier.getLast?_visible
  have hgap := hword.gap hlabel.apart m.between_gap
  have hlabel := hlabel.gap m.between_gap
  have hbracketed : (m.bracketed.foldl step _).Within _ :=
    hgap.bracketed hlabel.braced (fun c hc => (m.mem_inside hc).imp_left not_mem_delimiters)
      m.singleHyphens_inside
  have hpast := pastItem_bracketed m hlabel.braced hlabel.listed hbracketed.held_plain
  have hcode := completes_bracketed hitem hne hdone m hword.held_plain hbracketed.held_plain
  have hheld : '}' ∉ m.bracketed := by
    simp [bracketed, m.not_mem_inside (c := '}') (by decide) (by decide)]
  have hopen := ((hopen.take (m.identifier.not_mem (by decide) (by decide))).gap hword.held_plain
    m.between_gap).take hheld
  refine ⟨_, ?_, hpast.gap m.after_gap, hopen.gap hbracketed.held_plain m.after_gap,
    hcode.gap m.after_gap (Cut.held_take_ne_nil (List.cons_ne_nil _ _))⟩
  rw [List.foldl_append, List.foldl_append, List.foldl_append]
  exact hbracketed.gap hpast.apart m.after_gap

/-! ### Scanning an enumeration -/

/-- The members behind the first one are scanned one by one. -/
theorem within_rest (rest : List WrittenMember) (h : s.Within b) (hpast : b.PastItem listed)
    (hopen : b.Open base) (hcompletes : b.Completes entries) :
    ∃ b', ((rest.flatMap fun m => ',' :: m.chars).foldl step s).Within b' ∧ b'.braced = true ∧
      b'.Open base ∧ b'.Completes (entries ++ rest.map entry) := by
  induction rest generalizing s b entries with
  | nil => exact ⟨b, h, hpast.braced, hopen, by rwa [List.map_nil, List.append_nil]⟩
  | cons m rest ih =>
    have hgap := (h.comma hpast.apart).gap (Cut.apart_of_held rfl) m.before_gap
    rw [Cut.gap_of_held rfl] at hgap
    obtain ⟨b', hmember, hpast', hopen', hcompletes'⟩ :=
      within_member hgap hpast.atItem_comma (hopen.comma h.held_plain) (List.cons_ne_nil _ _)
        hcompletes.comma m
    obtain ⟨b'', hrest, hbraced, hopen'', hcompletes''⟩ := ih hmember hpast' hopen' hcompletes'
    refine ⟨b'', ?_, hbraced, hopen'', by simpa using hcompletes''⟩
    rw [List.flatMap_cons, List.cons_append, List.foldl_cons, chars, List.append_assoc,
      List.foldl_append, List.foldl_append]
    exact hrest

/-- The characters of a whole enumeration. -/
theorem toList_text (base : String) (lead gap : List Char) (first : WrittenMember)
    (rest : List WrittenMember) :
    (text base lead gap first rest).toList = ("SYNTAX".toList ++ lead) ++ (base.toList ++ gap) ++
      ('{' :: first.before) ++ (first.label.toList ++ first.between ++ first.bracketed ++
        first.after) ++ rest.flatMap (fun m => ',' :: m.chars) ++ ['}'] := by
  unfold text
  refine String.toList_ofList.trans ?_
  simp only [chars, List.append_assoc, List.cons_append]

/-- An enumeration is scanned as its keyword, its base type and symbols that complete its
members. -/
theorem scan_text {type : String} (htype : type ∈ Capture.baseTypes) {lead gap : List Char}
    (hlead : IsGap lead) (hleadNe : lead ≠ []) (hgap : IsGap gap) (hgapNe : gap ≠ [])
    (first : WrittenMember) (rest : List WrittenMember) (unit : String) : ∃ symbols cs,
      (SymbolTable.ofText unit (text type lead gap first rest)).compileSequence =
        "SYNTAX" :: type :: symbols ∧
      symbols.flatMap String.toList = '{' :: cs ++ ['}'] ∧ '}' ∉ cs ∧
      (∀ symbol ∈ symbols, symbol ≠ "") ∧
      Capture.members type symbols = .ofList ((first :: rest).map entry) := by
  have hword : ∀ type ∈ Capture.baseTypes, IsWord type ∧ StartsPlain type.toList ∧
      joined? "SYNTAX" type = none ∧ type ∉ firstHalves ∧ '(' ∉ type.toList := by decide
  obtain ⟨hword, hplain, hjoined, hinert, hbracket⟩ := hword type htype
  have hkeyword := initial_within.keyword (show IsWord "SYNTAX" by decide) (by decide)
    (fun _ h => nomatch h) hlead hleadNe
  have htyped := hkeyword.keyword hword hplain (by simpa using hjoined) hgap hgapNe
  have hstart := htyped.start first.before_gap
  have hinert : ∀ last ∈ [type, "SYNTAX"].head?, last ∉ firstHalves := by simpa using hinert
  have hitem := Cut.atItem_start first.before_gap hinert
  obtain ⟨lead', hlead', hbehind⟩ := Cut.behind_start [type, "SYNTAX"] first.before_gap
  have hopen : (Cut.start [type, "SYNTAX"] first.before).Open [type, "SYNTAX"] :=
    ⟨lead', hbehind, fun hmem => absurd (hlead' _ hmem) (by decide)⟩
  have hnone : Capture.completed [type, "SYNTAX"] = [] := Cut.completed_cons hbracket
  have hbegun : (Cut.start [type, "SYNTAX"] first.before).texts ≠ [] ∧
      Capture.completed (Cut.start [type, "SYNTAX"] first.before).texts = [] := by
    unfold Cut.start
    split
    · exact ⟨List.cons_ne_nil _ _, (Cut.completed_cons (by decide)).trans hnone⟩
    · exact ⟨List.cons_ne_nil _ _, hnone⟩
  obtain ⟨b, hmember, hpast, hopen, hcompletes⟩ :=
    within_member hstart hitem hopen hbegun.1 hbegun.2 first
  obtain ⟨b', hrest, hbraced, ⟨cs, hbehind, hcs⟩, hcompletes⟩ :=
    within_rest rest hmember hpast hopen hcompletes
  obtain ⟨symbols, htexts, hsequence, hchars, hne⟩ := hrest.closing hbraced hbehind unit
  have hcompleted := hcompletes.closed hrest.held_plain (hrest.closed hbraced).held_plain
  rw [htexts, Capture.completed_append, hnone, List.nil_append] at hcompleted
  refine ⟨symbols, cs, ?_, hchars, hcs, hne, ?_⟩
  · rw [SymbolTable.ofText_eq, toList_text]
    simp only [List.foldl_append, List.foldl_cons, List.foldl_nil] at hsequence ⊢
    exact hsequence
  · rw [Capture.members, hcompleted]
    rfl

/-- An enumeration is captured with its base type and exactly the labels of its codes, however it is
laid out. -/
theorem capture_enumeration {type : String} (htype : type ∈ Capture.baseTypes)
    {keychain : List String} (hkey : "SYNTAX" ∈ keychain) {lead gap : List Char}
    (hlead : IsGap lead) (hleadNe : lead ≠ []) (hgap : IsGap gap) (hgapNe : gap ≠ [])
    (first : WrittenMember) (rest : List WrittenMember)
    (hdistinct : ((first :: rest).map code).Nodup) (unit : String) (object : ObjectDefinition) :
    ∃ labels, (object.capture keychain unit (text type lead gap first rest)).type? =
        some (.enumeration type labels) ∧
      ∀ code label, labels.get? code = some label ↔
        ∃ m ∈ first :: rest, m.code = code ∧ m.label = label := by
  obtain ⟨symbols, cs, hsequence, hchars, hbrace, hne, hmembers⟩ :=
    scan_text htype hlead hleadNe hgap hgapNe first rest unit
  have hvalue := Capture.typeValue_of_chars htype hchars hbrace hne
  rw [hmembers] at hvalue
  refine ⟨.ofList ((first :: rest).map entry), ?_, fun code label => ?_⟩
  · rw [ObjectDefinition.type?, ObjectDefinition.field?, ObjectDefinition.capture, hsequence]
    exact Capture.field?_of_value hkey ((if_pos rfl).trans hvalue)
  · have hkeys : (((first :: rest).map entry).map Prod.fst).Nodup := by
      rwa [List.map_map]
    rw [OrderedMap.get?_ofList_iff hkeys, List.mem_map]
    simp only [entry, Prod.mk.injEq]

/-- A member in a line of its own, with its code right behind its label. -/
def up : WrittenMember where
  label := "up"
  code := 1
  before := ['\n', ' ']
  between := []
  inFront := []
  behind := []
  after := []
  identifier := by decide
  before_gap := by decide
  between_gap := isGap_nil
  inFront_spaces := List.forall_mem_nil _
  behind_spaces := List.forall_mem_nil _
  after_gap := isGap_nil

/-- A member whose label and code stand in different lines, with blanks around its code. -/
def lowerLayerDown : WrittenMember where
  label := "lower-layer-down"
  code := -7
  before := ['\t']
  between := ['\n', '\t']
  inFront := [' ']
  behind := ['\t', ' ']
  after := [' ', '\n']
  identifier := by decide
  before_gap := by decide
  between_gap := by decide
  inFront_spaces := by simp
  behind_spaces := by simp
  after_gap := by decide

/-- The states of a link are captured from lines in which labels and codes are spread. -/
theorem capture_enumeration_link :
    "BITS" ∈ Capture.baseTypes ∧ "SYNTAX" ∈ ["STATUS", "SYNTAX"] ∧ IsGap [' '] ∧
      IsGap ['\n', '\t'] ∧ ([up, lowerLayerDown].map code).Nodup ∧
      ∃ labels, ((ObjectDefinition.bare "linkState" "LINK-MIB").capture ["STATUS", "SYNTAX"] "link"
          (text "BITS" [' '] ['\n', '\t'] up [lowerLayerDown])).type? =
            some (.enumeration "BITS" labels) ∧
        labels.get? 1 = some "up" ∧ labels.get? (-7) = some "lower-layer-down" ∧
          labels.get? 0 = none := by
  obtain ⟨labels, htype, hlabels⟩ := capture_enumeration (show "BITS" ∈ Capture.baseTypes by decide)
    (show "SYNTAX" ∈ ["STATUS", "SYNTAX"] by decide) (show IsGap [' '] by decide) (by decide)
    (show IsGap ['\n', '\t'] by decide) (by decide) up [lowerLayerDown] (by decide) "link"
    (.bare "linkState" "LINK-MIB")
  refine ⟨by decide, by decide, by decide, by decide, by decide, labels, htype,
    (hlabels _ _).mpr ⟨up, by simp, rfl, rfl⟩,
    (hlabels _ _).mpr ⟨lowerLayerDown, by simp, rfl, rfl⟩, ?_⟩
  refine Option.eq_none_iff_forall_not_mem.mpr fun label hlabel => ?_
  obtain ⟨m, hm, hcode, _⟩ := (hlabels _ _).mp hlabel
  have hnone : ∀ m ∈ [up, lowerLayerDown], m.code ≠ 0 := by
    simp [up, lowerLayerDown]
  exact hnone m hm hcode

end WrittenMember

end Smi
