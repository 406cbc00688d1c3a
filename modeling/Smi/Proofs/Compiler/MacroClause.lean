import Mathlib.Data.List.Induction
import Smi.Compiler.Template

/-!
# Macro clauses

A clause of a macro definition is written as a list of items and ends at the name of the next
production or at `END`. Reading it lists each keyword once, in the order of first occurrence and
with its last literal, and no keyword comes from behind the clause. The reader looks one symbol
ahead for the end of the clause, so a bare symbol that stands alone directly before `END` is not
read. This makes a difference unless the keyword is already listed without a literal.
-/

namespace Smi

open TemplateItem

/-- An item of a macro clause as it is written: a quoted keyword with its literal or a bare symbol,
and behind either perhaps a parenthesised symbol. -/
structure NotationItem where
  symbol : String
  literal : Option String
  bracketed : Option String
  quoted_eq : Text.beginsWith '"' symbol = literal.isSome
  symbol_inside : endsClause symbol = false
  symbol_plain : Text.beginsWith '(' symbol = false
  literal_inside : ∀ text ∈ literal, endsClause text = false
  literal_plain : ∀ text ∈ literal, Text.beginsWith '(' text = false
  bracketed_begins : ∀ text ∈ bracketed, Text.beginsWith '(' text = true

namespace NotationItem

/-- The symbols of an item. -/
def symbols (item : NotationItem) : List String :=
  item.symbol :: (item.literal.toList ++ item.bracketed.toList)

/-- The keyword that an item lists. -/
def keyword (item : NotationItem) : String :=
  if item.literal.isSome then Text.remove '"' item.symbol else item.symbol

/-- An item as a template lists it: the parenthesised symbol goes before the literal. -/
def listing (item : NotationItem) : TemplateItem :=
  ⟨item.keyword, item.bracketed.or item.literal⟩

/-- The literal of the last item of a keyword. -/
def lastLiteral (items : List NotationItem) (keyword : String) : Option String :=
  (items.reverse.find? fun item => item.keyword = keyword).bind fun item => item.listing.literal

/-- What a clause lists: each keyword once, in the order of first occurrence and with the literal of
its last item. -/
def listed (items : List NotationItem) : List TemplateItem :=
  (items.map keyword).eraseDups.map fun key => ⟨key, lastLiteral items key⟩

end NotationItem

/-- What stands behind the items of a macro clause. -/
inductive ClauseEnd
  /-- The name of the next production and its `::=`. -/
  | production (name : String)
  /-- The end of the macro. -/
  | macroEnd
  deriving DecidableEq, Repr

namespace ClauseEnd

/-- The first symbol behind a clause. -/
def first : ClauseEnd → String
  | production name => name
  | macroEnd => "END"

/-- The symbols behind a clause. -/
def symbols : ClauseEnd → List String
  | production name => [name, "::="]
  | macroEnd => ["END"]

end ClauseEnd

/-- The symbols from the first item of a clause on, with all that stands behind the clause. -/
def NotationItem.clause (items : List NotationItem) (ending : ClauseEnd) (rest : List String) :
    List String :=
  items.flatMap symbols ++ (ending.symbols ++ rest)

/-! ### Setting items -/

namespace TemplateItem

variable {items : List TemplateItem} {item : TemplateItem}

/-- An item that is put into a list is in it. -/
theorem mem_upsert_self (items : List TemplateItem) (item : TemplateItem) :
    item ∈ upsert items item := by
  induction items with
  | nil => simp [upsert]
  | cons first rest ih =>
    rw [upsert]
    split
    · exact List.mem_cons_self
    · exact List.mem_cons_of_mem _ ih

/-- What is in a list after an item is put into it was there before or is the item. -/
theorem eq_or_mem_of_mem_upsert {other : TemplateItem} (h : other ∈ upsert items item) :
    other = item ∨ other ∈ items := by
  induction items with
  | nil => simpa [upsert] using h
  | cons first rest ih =>
    rw [upsert] at h
    split at h
    · exact (List.mem_cons.mp h).imp_right (List.mem_cons_of_mem _)
    · rcases List.mem_cons.mp h with rfl | hrest
      · exact .inr List.mem_cons_self
      · exact (ih hrest).imp_right (List.mem_cons_of_mem _)

/-- With different keywords, setting an item changes nothing exactly if it is listed already. -/
theorem upsert_eq_self_iff (hdistinct : (items.map keyword).Nodup) :
    upsert items item = items ↔ item ∈ items := by
  refine ⟨fun h => h ▸ mem_upsert_self items item, fun hmem => ?_⟩
  induction items with
  | nil => cases hmem
  | cons first rest ih =>
    obtain ⟨hfirst, hrest⟩ := List.nodup_cons.mp hdistinct
    rw [upsert]
    rcases List.mem_cons.mp hmem with rfl | hlater
    · rw [if_pos rfl]
    · have hother : first.keyword ≠ item.keyword :=
        fun h => hfirst (h ▸ List.mem_map_of_mem hlater)
      rw [if_neg hother, ih hrest hlater]

/-- Two literals set for one keyword give the same list only if they are equal. -/
theorem upsert_literal_injective {key : String} {one other : Option String}
    (h : upsert items ⟨key, one⟩ = upsert items ⟨key, other⟩) : one = other := by
  induction items with
  | nil => simpa [upsert] using h
  | cons first rest ih =>
    rw [upsert, upsert] at h
    split at h
    · simpa using h
    · exact ih (List.cons.inj h).2

/-- Setting an item in a list given by its keywords and a function to literals. -/
theorem upsert_map {keys : List String} (hdistinct : keys.Nodup) (literal : String → Option String)
    (item : TemplateItem) :
    upsert (keys.map fun key => ⟨key, literal key⟩) item =
      (if item.keyword ∈ keys then keys else keys ++ [item.keyword]).map fun key =>
        ⟨key, if key = item.keyword then item.literal else literal key⟩ := by
  induction keys with
  | nil => simp [upsert]
  | cons key rest ih =>
    obtain ⟨hkey, hrest⟩ := List.nodup_cons.mp hdistinct
    rw [List.map_cons, upsert]
    by_cases hsame : key = item.keyword
    · subst hsame
      rw [if_pos rfl, if_pos List.mem_cons_self, List.map_cons, if_pos rfl]
      refine congrArg _ (List.map_congr_left fun other hmem => ?_)
      rw [if_neg fun h : other = item.keyword => hkey (h ▸ hmem)]
    · have hsplit : (if item.keyword ∈ key :: rest then key :: rest
          else key :: rest ++ [item.keyword]) =
          key :: if item.keyword ∈ rest then rest else rest ++ [item.keyword] := by
        simp only [List.mem_cons, Ne.symm hsame, false_or]
        split <;> rfl
      rw [if_neg hsame, ih hrest, hsplit, List.map_cons, if_neg hsame]

/-! ### One step of the reader -/

section Step

variable {symbol next : String}

/-- A parenthesised symbol does not end a clause. -/
theorem endsClause_of_begins {text : String} (h : Text.beginsWith '(' text = true) :
    endsClause text = false := by
  by_contra hends
  simp only [Bool.not_eq_false, endsClause, Bool.or_eq_true, decide_eq_true_eq] at hends
  rcases hends with rfl | rfl <;> exact absurd h (by decide)

/-- At the end of a clause nothing more is listed. -/
theorem occurrences_of_endsClause (hsymbol : endsClause symbol = true) (rest : List String) :
    occurrences (symbol :: rest) = [] := by
  cases rest with
  | nil => rfl
  | cons next rest =>
    rw [occurrences.eq_def]
    simp [hsymbol]

/-- A symbol directly before the end of a clause lists nothing. -/
theorem occurrences_ended (symbol : String) (hnext : endsClause next = true) (rest : List String) :
    occurrences (symbol :: next :: rest) = [] := by
  rw [occurrences.eq_def]
  simp [hnext]

/-- A quoted keyword lists the symbol behind it, or the parenthesised one behind that. -/
theorem occurrences_quoted (hsymbol : endsClause symbol = false) (hnext : endsClause next = false)
    (hquoted : Text.beginsWith '"' symbol = true) (third : String) (rest : List String) :
    occurrences (symbol :: next :: third :: rest) =
      if Text.beginsWith '(' third then
        ⟨Text.remove '"' symbol, some third⟩ :: occurrences rest
      else ⟨Text.remove '"' symbol, some next⟩ :: occurrences (third :: rest) := by
  rw [occurrences.eq_def]
  simp [hsymbol, hnext, hquoted]

/-- A bare symbol lists itself, with a parenthesised symbol behind it as its literal. -/
theorem occurrences_bare (hsymbol : endsClause symbol = false) (hnext : endsClause next = false)
    (hquoted : Text.beginsWith '"' symbol = false) (rest : List String) :
    occurrences (symbol :: next :: rest) =
      if Text.beginsWith '(' next then ⟨symbol, some next⟩ :: occurrences rest
      else ⟨symbol, none⟩ :: occurrences (next :: rest) := by
  rw [occurrences.eq_def]
  simp [hsymbol, hnext, hquoted]

end Step

end TemplateItem

namespace NotationItem

variable {items : List NotationItem} {item : NotationItem} {next : String}

/-! ### What a clause lists -/

/-- One more key changes the different keys only if it is new. -/
theorem eraseDups_concat (keys : List String) (key : String) :
    (keys ++ [key]).eraseDups =
      if key ∈ keys.eraseDups then keys.eraseDups else keys.eraseDups ++ [key] := by
  rw [List.eraseDups_append]
  by_cases hmem : key ∈ keys
  · simp [List.removeAll, hmem]
  · simp [List.removeAll, List.eraseDups_cons, hmem]

/-- Keys without repetition are different. -/
theorem nodup_eraseDups (keys : List String) : keys.eraseDups.Nodup := by
  induction keys using List.reverseRecOn with
  | nil => simp
  | append_singleton keys key ih =>
    rw [eraseDups_concat]
    split
    · exact ih
    · exact List.nodup_append.mpr ⟨ih, by simp, by grind⟩

/-- A clause lists every keyword once. -/
theorem nodup_keywords_listed (items : List NotationItem) :
    ((listed items).map TemplateItem.keyword).Nodup := by
  simpa [listed, Function.comp_def] using nodup_eraseDups (items.map keyword)

/-- What a clause lists has the keyword of one of its items. -/
theorem keyword_mem_of_mem_listed {read : TemplateItem} (h : read ∈ listed items) :
    read.keyword ∈ items.map keyword := by
  obtain ⟨key, hkey, rfl⟩ := List.mem_map.mp h
  exact List.mem_eraseDups.mp hkey

/-- One more item changes the last literal of its own keyword alone. -/
theorem lastLiteral_append (items : List NotationItem) (item : NotationItem) (key : String) :
    lastLiteral (items ++ [item]) key =
      if key = item.keyword then item.listing.literal else lastLiteral items key := by
  by_cases hkey : item.keyword = key
  · simp [lastLiteral, hkey]
  · simp [lastLiteral, hkey, Ne.symm hkey]

/-- One more item is set in what the items before it list. -/
theorem listed_append (items : List NotationItem) (item : NotationItem) :
    listed (items ++ [item]) = upsert (listed items) item.listing := by
  rw [listed, listed, upsert_map (nodup_eraseDups _), List.map_append, List.map_singleton,
    eraseDups_concat]
  refine List.map_congr_left fun key _ => ?_
  rw [lastLiteral_append]
  rfl

/-- Putting the items into a list one after the other gives what the clause lists. -/
theorem foldl_upsert_eq_listed (items : List NotationItem) :
    (items.map listing).foldl upsert [] = listed items := by
  induction items using List.reverseRecOn with
  | nil => rfl
  | append_singleton items item ih =>
    rw [List.map_append, List.foldl_append, ih, listed_append]
    rfl

/-! ### Reading an item -/

/-- Whether an item is read as it is written when `next` stands behind it: a parenthesised symbol
would be taken in, and a bare symbol is not read directly before the end of the clause. -/
def ReadableBefore (item : NotationItem) (next : String) : Prop :=
  item.bracketed = none → Text.beginsWith '(' next = false ∧
    (item.literal = none → endsClause next = false)

/-- A parenthesised symbol behind the keyword and the literal of an item takes the place of the
literal. -/
theorem occurrences_keyword (item : NotationItem)
    (hinside : item.literal = none → endsClause next = false) (rest : List String) :
    occurrences (item.symbol :: (item.literal.toList ++ next :: rest)) =
      if Text.beginsWith '(' next then ⟨item.keyword, some next⟩ :: occurrences rest
      else ⟨item.keyword, item.literal⟩ :: occurrences (next :: rest) := by
  have hquoted := item.quoted_eq
  unfold keyword
  cases hliteral : item.literal with
  | some literal =>
    rw [hliteral, Option.isSome_some] at hquoted
    exact occurrences_quoted item.symbol_inside (item.literal_inside literal hliteral) hquoted next
      rest
  | none =>
    rw [hliteral, Option.isSome_none] at hquoted
    exact occurrences_bare item.symbol_inside (hinside hliteral) hquoted rest

/-- An item that is readable before the next symbol is listed, and then what follows. -/
theorem occurrences_symbols (hnext : item.ReadableBefore next) (rest : List String) :
    occurrences (item.symbols ++ next :: rest) = item.listing :: occurrences (next :: rest) := by
  rw [symbols, listing, List.cons_append, List.append_assoc]
  cases hbracketed : item.bracketed with
  | some bracketed =>
    have hopen := item.bracketed_begins bracketed hbracketed
    exact (item.occurrences_keyword (fun _ => endsClause_of_begins hopen) _).trans (if_pos hopen)
  | none =>
    obtain ⟨hopen, hinside⟩ := hnext hbracketed
    exact (item.occurrences_keyword hinside rest).trans (if_neg (by simp [hopen]))

/-- The first symbol of an item does not keep the item before it from being read. -/
theorem readableBefore_symbol (item next : NotationItem) : item.ReadableBefore next.symbol :=
  fun _ => ⟨next.symbol_plain, fun _ => next.symbol_inside⟩

/-- Items are read one by one if the last of them is readable before what follows. -/
theorem occurrences_flatMap (hlast : ∀ last ∈ items.getLast?, last.ReadableBefore next)
    (rest : List String) :
    occurrences (items.flatMap symbols ++ next :: rest) =
      items.map listing ++ occurrences (next :: rest) := by
  induction items with
  | nil => rfl
  | cons item later ih =>
    rw [List.flatMap_cons, List.append_assoc, List.map_cons, List.cons_append]
    cases later with
    | nil => exact occurrences_symbols (hlast item (by simp)) rest
    | cons other later =>
      rw [← ih fun last hmem => hlast last (by simpa using hmem)]
      exact occurrences_symbols (readableBefore_symbol item other) _

/-- Reading the items up to the last one leaves the last one to be set in what they list. -/
theorem ofSymbols_concat (items : List NotationItem) (last : NotationItem) (behind : List String) :
    ofSymbols ((items ++ [last]).flatMap symbols ++ behind) =
      (occurrences (last.symbols ++ behind)).foldl upsert (listed items) := by
  rw [ofSymbols, List.flatMap_append, List.flatMap_singleton, List.append_assoc, symbols,
    List.cons_append, occurrences_flatMap fun item _ => item.readableBefore_symbol last,
    List.foldl_append, foldl_upsert_eq_listed]

end NotationItem

namespace ClauseEnd

/-- The symbols that end a clause list nothing. -/
theorem occurrences_symbols (ending : ClauseEnd) (rest : List String) :
    occurrences (ending.symbols ++ rest) = [] := by
  cases ending with
  | production name => exact occurrences_ended name (by decide) rest
  | macroEnd => exact occurrences_of_endsClause (by decide) rest

/-- What stands behind a clause begins with its first symbol. -/
theorem symbols_append (ending : ClauseEnd) (rest : List String) :
    ∃ later, ending.symbols ++ rest = ending.first :: later := by
  cases ending
  · exact ⟨_, rfl⟩
  · exact ⟨_, rfl⟩

end ClauseEnd

namespace NotationItem

/-! ### The end of a clause -/

/-- A clause whose last item is readable before its end lists all its items. -/
theorem ofSymbols_readable {ending : ClauseEnd}
    (hlast : ∀ last ∈ items.getLast?, last.ReadableBefore ending.first) (rest : List String) :
    ofSymbols (clause items ending rest) = listed items := by
  obtain ⟨later, hend⟩ := ending.symbols_append rest
  rw [ofSymbols, clause, hend, occurrences_flatMap hlast, ← hend, ending.occurrences_symbols,
    List.append_nil, foldl_upsert_eq_listed]

/-- The parenthesised name of a production is taken in as the literal of the last item. -/
theorem ofSymbols_open {last : NotationItem} {ending : ClauseEnd} (hnone : last.bracketed = none)
    (hopen : Text.beginsWith '(' ending.first = true) (rest : List String) :
    ofSymbols (clause (items ++ [last]) ending rest) =
      upsert (listed items) ⟨last.keyword, some ending.first⟩ := by
  cases ending with
  | production name =>
    rw [ClauseEnd.first] at hopen
    have hlast : occurrences (last.symbol :: (last.literal.toList ++ name :: "::=" :: rest)) =
        [⟨last.keyword, some name⟩] := by
      rw [last.occurrences_keyword fun _ => endsClause_of_begins hopen, if_pos hopen,
        occurrences_of_endsClause (by decide)]
    rw [clause, ofSymbols_concat, symbols, hnone, Option.toList_none, List.append_nil]
    exact congrArg (List.foldl upsert (listed items)) hlast
  | macroEnd => exact absurd hopen (by decide)

/-- A bare symbol directly before the end is taken for the name of a production. -/
theorem ofSymbols_ended {last : NotationItem} {ending : ClauseEnd} (hnone : last.bracketed = none)
    (hbare : last.literal = none) (hends : endsClause ending.first = true) (rest : List String) :
    ofSymbols (clause (items ++ [last]) ending rest) = listed items := by
  obtain ⟨later, hend⟩ := ending.symbols_append rest
  rw [clause, ofSymbols_concat, hend, symbols, hnone, hbare]
  exact congrArg (List.foldl upsert (listed items)) (occurrences_ended last.symbol hends later)

/-- A clause lists only keywords of its own items. It lists its items completely exactly if its last
item ends with a parenthesised symbol, or the symbol behind the clause is not parenthesised and a
last bare symbol either is not followed by the end of the clause or is listed without it. -/
theorem ofSymbols_eq_listed_iff (items : List NotationItem) (ending : ClauseEnd)
    (rest : List String) :
    (∀ read ∈ ofSymbols (clause items ending rest), read.keyword ∈ items.map keyword) ∧
    (ofSymbols (clause items ending rest) = listed items ↔
      ∀ last ∈ items.getLast?, last.bracketed = none →
        Text.beginsWith '(' ending.first = false ∧
        (last.literal = none → endsClause ending.first = true →
          last.listing ∈ listed items.dropLast)) := by
  rcases List.eq_nil_or_concat items with rfl | ⟨earlier, last, rfl⟩
  · rw [ofSymbols_readable (by simp)]
    exact ⟨fun read => keyword_mem_of_mem_listed, by simp⟩
  · simp only [List.concat_eq_append, List.getLast?_concat, List.dropLast_concat,
      Option.mem_some_iff, forall_eq']
    by_cases hready : last.ReadableBefore ending.first
    · rw [ofSymbols_readable (by simpa using hready)]
      refine ⟨fun read => keyword_mem_of_mem_listed, iff_of_true rfl fun hnone => ?_⟩
      refine ⟨(hready hnone).1, fun hbare hends => ?_⟩
      simp [(hready hnone).2 hbare] at hends
    · obtain ⟨hnone, hnot⟩ := Classical.not_imp.mp hready
      have hearlier : ∀ read ∈ listed earlier, read.keyword ∈ (earlier ++ [last]).map keyword :=
        fun read hread => by
          rw [List.map_append]
          exact List.mem_append_left _ (keyword_mem_of_mem_listed hread)
      by_cases hopen : Text.beginsWith '(' ending.first = true
      · rw [ofSymbols_open hnone hopen, listed_append]
        refine ⟨fun read hread => ?_, iff_of_false (fun h => ?_) fun h => ?_⟩
        · rcases eq_or_mem_of_mem_upsert hread with rfl | hread
          · simp
          · exact hearlier read hread
        · -- A literal of the last item is not parenthesised, but the one that is read is.
          have hliteral : some ending.first = last.bracketed.or last.literal :=
            upsert_literal_injective h
          rw [hnone, Option.none_or] at hliteral
          exact absurd hopen (by simp [last.literal_plain _ hliteral.symm])
        · exact absurd hopen (by simp [(h hnone).1])
      · obtain ⟨hbare, hends⟩ : last.literal = none ∧ endsClause ending.first = true := by
          simpa [hopen] using hnot
        rw [ofSymbols_ended hnone hbare hends, listed_append, eq_comm,
          upsert_eq_self_iff (nodup_keywords_listed earlier)]
        exact ⟨hearlier, fun h _ => ⟨by simpa using hopen, fun _ _ => h⟩,
          fun h => (h hnone).2 hbare hends⟩

/-- The item `"STATUS" Status`. -/
def statusPart : NotationItem where
  symbol := "\"STATUS\""
  literal := some "Status"
  bracketed := none
  quoted_eq := by decide
  symbol_inside := by decide
  symbol_plain := by decide
  literal_inside := by decide
  literal_plain := by decide
  bracketed_begins := by decide

/-- The item `ReferPart`. -/
def referPart : NotationItem where
  symbol := "ReferPart"
  literal := none
  bracketed := none
  quoted_eq := by decide
  symbol_inside := by decide
  symbol_plain := by decide
  literal_inside := by decide
  literal_plain := by decide
  bracketed_begins := by decide

/-- The bare symbol of `"STATUS" Status ReferPart END` is not read, though it is before the name of
a production. -/
theorem ofSymbols_statusPart_referPart :
    listed [statusPart, referPart] = [⟨"STATUS", some "Status"⟩, ⟨"ReferPart", none⟩] ∧
    clause [statusPart, referPart] .macroEnd [] = ["\"STATUS\"", "Status", "ReferPart", "END"] ∧
    ofSymbols (clause [statusPart, referPart] .macroEnd []) = [⟨"STATUS", some "Status"⟩] ∧
    ofSymbols (clause [statusPart, referPart] (.production "VALUE NOTATION") []) =
      [⟨"STATUS", some "Status"⟩, ⟨"ReferPart", none⟩] := by
  decide

end NotationItem

end Smi
