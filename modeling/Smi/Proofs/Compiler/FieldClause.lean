import Smi.Proofs.Compiler.EnumerationText

/-!
# Clauses of an invocation

The fields of an invocation are captured in one pass over its symbols. The pass takes a clause at a
time: a symbol that is no keyword, or a keyword with its value, which is a single symbol, an entry
behind `SEQUENCE OF`, a list in braces or an enumeration. It comes to some symbols exactly if those
before them are written as clauses, and then it has captured the fields of these clauses. The
quotes of a list are kept, except in its first symbol.
-/

namespace Smi

/-- A clause of an invocation as it is written in symbols. -/
inductive FieldClause where
  /-- A symbol that is no keyword. -/
  | other (symbol : String)
  /-- A keyword and the symbol of its value. -/
  | single (key symbol : String)
  /-- `SYNTAX`, `SEQUENCE OF` and its entry. -/
  | sequence (symbol entry : String)
  /-- A keyword and the symbols of a list in braces. -/
  | list (key first : String) (more : List String)
  /-- `SYNTAX`, a base type and the symbols of its members in braces. -/
  | enumeration (base first : String) (more : List String)
  deriving DecidableEq, Repr

namespace Capture

variable {keychain symbols taken left rest : List String} {key symbol first : String}
  {captured : List (String × FieldValue)}

/-! ### Closing braces -/

/-- Whether the last of some symbols holds a closing brace and no other one does. -/
def IsClosed : List String → Prop
  | [] => False
  | [last] => Text.holds '}' last = true
  | symbol :: next :: rest => Text.holds '}' symbol = false ∧ IsClosed (next :: rest)

instance instDecidableIsClosed : (symbols : List String) → Decidable (IsClosed symbols)
  | [] => inferInstanceAs (Decidable False)
  | [_] => inferInstanceAs (Decidable (_ = _))
  | _ :: next :: rest =>
    have := instDecidableIsClosed (next :: rest)
    inferInstanceAs (Decidable (_ ∧ _))

/-- Symbols up to a closing brace are taken as they are. -/
theorem throughBrace_of_isClosed (h : IsClosed symbols) (rest : List String) :
    throughBrace (symbols ++ rest) = (symbols, rest) := by
  induction symbols with
  | nil => exact h.elim
  | cons symbol more ih =>
    cases more with
    | nil =>
      have hheld : Text.holds '}' symbol = true := h
      rw [List.singleton_append, throughBrace, if_pos hheld]
    | cons next more =>
      obtain ⟨hfree, hclosed⟩ := h
      have hthrough := ih hclosed
      rw [List.cons_append, throughBrace, hthrough]
      simp [hfree]

/-- Symbols that are closed stay so behind one more without a closing brace. -/
theorem IsClosed.cons (hfree : Text.holds '}' symbol = false) (h : IsClosed symbols) :
    IsClosed (symbol :: symbols) := by
  cases symbols with
  | nil => exact h.elim
  | cons next rest => exact ⟨hfree, h⟩

/-- What is taken ends with its only closing brace, unless nothing is left. -/
theorem isClosed_of_throughBrace (h : throughBrace symbols = (taken, left)) (hleft : left ≠ []) :
    symbols = taken ++ left ∧ IsClosed taken := by
  induction symbols generalizing taken with
  | nil =>
    obtain ⟨rfl, rfl⟩ := Prod.mk.inj h
    exact absurd rfl hleft
  | cons symbol more ih =>
    unfold throughBrace at h
    split at h
    next hheld =>
      obtain ⟨rfl, rfl⟩ := Prod.mk.inj h
      exact ⟨rfl, hheld⟩
    next hfree =>
      obtain ⟨rfl, rfl⟩ := Prod.mk.inj h
      obtain ⟨hsplit, hclosed⟩ := ih (Prod.eta (throughBrace more)).symm
      exact ⟨congrArg (symbol :: ·) hsplit, hclosed.cons (by simpa using hfree)⟩

/-! ### Values -/

/-- A symbol that opens no brace is a value of its own. -/
theorem plainValue_of_not_beginsWith (h : Text.beginsWith '{' (Text.remove '"' symbol) = false)
    (rest : List String) : plainValue symbol rest = (.text (Text.remove '"' symbol), rest) := by
  simp [plainValue, h]

/-- The value of a list in braces. Quotes are removed from its first symbol only. -/
theorem plainValue_of_isClosed {more : List String}
    (hbegins : Text.beginsWith '{' (Text.remove '"' first) = true)
    (hclosed : IsClosed (first :: more)) (rest : List String) : plainValue first (more ++ rest) =
      (.list (listItems (Text.remove '"' first ++ String.join more)), rest) := by
  cases more with
  | nil =>
    have hheld : Text.holds '}' first = true := hclosed
    simp [plainValue, hbegins, hheld]
  | cons next more =>
    obtain ⟨hfree, hclosed⟩ := hclosed
    unfold plainValue
    rw [throughBrace_of_isClosed hclosed rest]
    simp [hbegins, hfree]

/-- A list ends with its only closing brace, unless nothing is left behind it. -/
theorem isClosed_of_plainValue {v : FieldValue}
    (hbegins : Text.beginsWith '{' (Text.remove '"' first) = true)
    (hvalue : plainValue first rest = (v, left)) (hleft : left ≠ []) :
    ∃ more, rest = more ++ left ∧ IsClosed (first :: more) := by
  unfold plainValue at hvalue
  rw [if_neg (by simp [hbegins])] at hvalue
  split at hvalue
  next hheld =>
    obtain ⟨-, rfl⟩ := Prod.mk.inj hvalue
    exact ⟨[], rfl, hheld⟩
  next hfree =>
    obtain ⟨-, rfl⟩ := Prod.mk.inj hvalue
    obtain ⟨hrest, hclosed⟩ := isClosed_of_throughBrace (Prod.eta (throughBrace rest)).symm hleft
    exact ⟨_, hrest, hclosed.cons (by simpa using hfree)⟩

/-- A symbol that names no table and no base type with its members is a plain value. -/
theorem typeValue_eq_plainValue (hsequence : Text.remove '"' symbol ≠ "SEQUENCE OF")
    (hbase : Text.remove '"' symbol ∈ baseTypes → opensBrace rest = false) :
    typeValue symbol rest = plainValue symbol rest := by
  have hplain : ¬((opensBrace rest &&
      (Text.remove '"' symbol = "INTEGER" || Text.remove '"' symbol = "BITS")) = true) := by
    simp only [Bool.and_eq_true, Bool.or_eq_true, decide_eq_true_eq, not_and]
    intro hopens htype
    rw [hbase (by simpa [baseTypes] using htype)] at hopens
    cases hopens
  simp only [typeValue, if_neg hplain, if_neg hsequence]

/-- Only `SYNTAX` gives some symbols another meaning. -/
theorem value_eq_plainValue (h : key = "SYNTAX" → Text.remove '"' symbol ≠ "SEQUENCE OF" ∧
    (Text.remove '"' symbol ∈ baseTypes → opensBrace rest = false)) :
    value key symbol rest = plainValue symbol rest := by
  unfold value
  split
  next hkey => exact typeValue_eq_plainValue (h hkey).1 (h hkey).2
  next => rfl

/-- The value of `SYNTAX` with the entry of a table. -/
theorem typeValue_sequence (h : Text.remove '"' symbol = "SEQUENCE OF") (entry : String)
    (rest : List String) :
    typeValue symbol (entry :: rest) = (.text ("SEQUENCE OF " ++ entry), rest) := by
  simp [typeValue, h]

/-- The members of a base type are taken through their closing brace. -/
theorem typeValue_of_baseType {base : String} (hbase : Text.remove '"' base ∈ baseTypes)
    (hopens : opensBrace rest = true) : typeValue base rest =
      (.enumeration (Text.remove '"' base) (members base (throughBrace rest).1),
        (throughBrace rest).2) := by
  have htype : Text.remove '"' base = "INTEGER" ∨ Text.remove '"' base = "BITS" := by
    simpa [baseTypes] using hbase
  unfold typeValue
  simp [hopens, htype]

/-- The value of `SYNTAX` with the members of a base type. -/
theorem typeValue_of_isClosed {base : String} {more : List String}
    (hbase : Text.remove '"' base ∈ baseTypes) (hbegins : Text.beginsWith '{' first = true)
    (hclosed : IsClosed (first :: more)) (rest : List String) :
    typeValue base (first :: more ++ rest) =
      (.enumeration (Text.remove '"' base) (members base (first :: more)), rest) := by
  have hopens : opensBrace (first :: more ++ rest) = true := hbegins
  rw [typeValue_of_baseType hbase hopens, throughBrace_of_isClosed hclosed rest]

/-- The members of a base type end with their only closing brace, unless nothing is left behind
them. -/
theorem isClosed_of_typeValue {base : String} {v : FieldValue}
    (hbase : Text.remove '"' base ∈ baseTypes) (hopens : opensBrace rest = true)
    (hvalue : typeValue base rest = (v, left)) (hleft : left ≠ []) :
    ∃ first more, rest = first :: more ++ left ∧ Text.beginsWith '{' first = true ∧
      IsClosed (first :: more) := by
  rw [typeValue_of_baseType hbase hopens] at hvalue
  obtain ⟨-, rfl⟩ := Prod.mk.inj hvalue
  obtain ⟨hrest, hclosed⟩ := isClosed_of_throughBrace (Prod.eta (throughBrace rest)).symm hleft
  cases htaken : (throughBrace rest).1 with
  | nil =>
    rw [htaken] at hclosed
    exact hclosed.elim
  | cons first more =>
    rw [htaken] at hrest hclosed
    rw [hrest] at hopens
    exact ⟨first, more, hrest, hopens, hclosed⟩

/-! ### Reaching symbols -/

/-- Whether the capture of fields comes from some symbols to others, and what it captures on the
way. -/
inductive Reaches (keychain : List String) :
    List String → List (String × FieldValue) → List String → Prop
  | here (symbols : List String) : Reaches keychain symbols [] symbols
  | pass {symbol : String} {rest left : List String} {captured : List (String × FieldValue)}
    (hsymbol : symbol ∉ keychain) (hrest : Reaches keychain rest captured left) :
    Reaches keychain (symbol :: rest) captured left
  | take {key symbol : String} {rest left : List String} {captured : List (String × FieldValue)}
    (hkey : key ∈ keychain) (hrest : Reaches keychain (value key symbol rest).2 captured left) :
    Reaches keychain (key :: symbol :: rest) ((key, (value key symbol rest).1) :: captured) left

/-- The fields of all symbols are those captured on the way to the symbols that are reached, and
those of these symbols. -/
theorem fields_of_reaches (h : Reaches keychain symbols captured left) :
    fields keychain symbols = captured ++ fields keychain left := by
  induction h with
  | here symbols => rfl
  | @pass symbol rest left captured hsymbol hrest ih =>
    rw [← ih]
    cases rest with
    | nil => rw [fields, fields] <;> simp
    | cons next rest => rw [fields, if_neg hsymbol]
  | take hkey hrest ih => rw [fields, if_pos hkey, ih, List.cons_append]

/-- The fields of all symbols are those captured on the way to their end. -/
theorem fields_of_reaches_nil (h : Reaches keychain symbols captured []) :
    fields keychain symbols = captured := by
  have hnil : fields keychain [] = [] := by rw [fields]; simp
  rw [fields_of_reaches h, hnil, List.append_nil]

/-- What is captured on two ways, one behind the other, is captured on the whole way. -/
theorem Reaches.trans {more : List (String × FieldValue)} {last : List String}
    (h : Reaches keychain symbols captured left) (hlast : Reaches keychain left more last) :
    Reaches keychain symbols (captured ++ more) last := by
  induction h with
  | here symbols => exact hlast
  | pass hsymbol hrest ih => exact .pass hsymbol (ih hlast)
  | take hkey hrest ih => exact .take hkey (ih hlast)

/-- Nothing is reached behind the last symbol. -/
theorem Reaches.eq_nil (h : Reaches keychain [] captured left) : left = [] := by
  cases h
  rfl

/-- A keyword is reached with its value. -/
theorem Reaches.of_value {v : FieldValue} (rest : List String) (hkey : key ∈ keychain)
    (hvalue : value key symbol rest = (v, left)) :
    Reaches keychain (key :: symbol :: rest) [(key, v)] left := by
  have hreaches : Reaches keychain (key :: symbol :: rest) [(key, (value key symbol rest).1)]
      (value key symbol rest).2 := .take hkey (.here _)
  rwa [hvalue] at hreaches

end Capture

namespace FieldClause

open Capture

/-! ### What a clause says -/

/-- The symbols of a clause. -/
def symbols : FieldClause → List String
  | other symbol => [symbol]
  | single key symbol => [key, symbol]
  | sequence symbol entry => ["SYNTAX", symbol, entry]
  | list key first more => key :: first :: more
  | enumeration base first more => "SYNTAX" :: base :: first :: more

/-- The keyword of a clause. -/
def key? : FieldClause → Option String
  | other _ => none
  | single key _ => some key
  | sequence _ _ => some "SYNTAX"
  | list key _ _ => some key
  | enumeration _ _ _ => some "SYNTAX"

/-- The value that is written in a clause. -/
def value? : FieldClause → Option FieldValue
  | other _ => none
  | single _ symbol => some (.text (Text.remove '"' symbol))
  | sequence _ entry => some (.text ("SEQUENCE OF " ++ entry))
  | list _ first more => some (.list (listItems (first ++ String.join more)))
  | enumeration base first more =>
    some (.enumeration (Text.remove '"' base) (members base (first :: more)))

/-- The clause without the quotes in the first symbol of a list. -/
def unquoted : FieldClause → FieldClause
  | list key first more => list key (Text.remove '"' first) more
  | c => c

/-- The field that is captured from a clause. -/
def captured? (c : FieldClause) : Option (String × FieldValue) :=
  c.key?.bind fun key => c.unquoted.value?.map (key, ·)

/-- Whether a clause is taken by itself when another symbol comes next. A single symbol opens no
brace once its quotes are removed, and behind `SYNTAX` it is neither `SEQUENCE OF` nor a base type
whose members follow. -/
def Fits (keychain : List String) (next : Option String) : FieldClause → Prop
  | other symbol => symbol ∉ keychain
  | single key symbol => key ∈ keychain ∧
    Text.beginsWith '{' (Text.remove '"' symbol) = false ∧
    (key = "SYNTAX" → Text.remove '"' symbol ≠ "SEQUENCE OF" ∧
      (Text.remove '"' symbol ∈ baseTypes → next.any (Text.beginsWith '{') = false))
  | sequence symbol _ => "SYNTAX" ∈ keychain ∧ Text.remove '"' symbol = "SEQUENCE OF"
  | list key first more => key ∈ keychain ∧
    Text.beginsWith '{' (Text.remove '"' first) = true ∧ IsClosed (first :: more)
  | enumeration base first more => "SYNTAX" ∈ keychain ∧ Text.remove '"' base ∈ baseTypes ∧
    Text.beginsWith '{' first = true ∧ IsClosed (first :: more)

instance (keychain : List String) (next : Option String) (c : FieldClause) :
    Decidable (c.Fits keychain next) :=
  match c with
  | other _ => inferInstanceAs (Decidable (_ ∉ _))
  | single _ _ => inferInstanceAs (Decidable (_ ∧ _ ∧ (_ → _)))
  | sequence _ _ => inferInstanceAs (Decidable (_ ∧ _))
  | list _ _ _ => inferInstanceAs (Decidable (_ ∧ _ ∧ _))
  | enumeration _ _ _ => inferInstanceAs (Decidable (_ ∧ _ ∧ _ ∧ _))

/-- Whether each of some clauses is taken by itself when another symbol comes behind them. -/
def AllFit (keychain : List String) (next : Option String) : List FieldClause → Prop
  | [] => True
  | c :: rest => c.Fits keychain ((rest.flatMap symbols).head?.or next) ∧ AllFit keychain next rest

instance instDecidableAllFit (keychain : List String) (next : Option String) :
    (clauses : List FieldClause) → Decidable (AllFit keychain next clauses)
  | [] => inferInstanceAs (Decidable True)
  | _ :: rest =>
    have := instDecidableAllFit keychain next rest
    inferInstanceAs (Decidable (_ ∧ _))

variable {keychain all left rest : List String} {key symbol : String}
  {captured : List (String × FieldValue)} {c : FieldClause} {clauses : List FieldClause}

/-- A symbol that begins with a brace is no type. -/
theorem ne_of_beginsWith (h : Text.beginsWith '{' symbol = true) :
    symbol ≠ "SEQUENCE OF" ∧ symbol ∉ baseTypes := by
  have hbase : ∀ type ∈ "SEQUENCE OF" :: baseTypes, Text.beginsWith '{' type = false := by decide
  have hnot (hmem : symbol ∈ "SEQUENCE OF" :: baseTypes) : False := by
    rw [hbase symbol hmem] at h
    cases h
  exact ⟨fun heq => hnot (heq ▸ List.mem_cons_self), fun hmem => hnot (List.mem_cons_of_mem _ hmem)⟩

/-! ### Capturing clauses -/

/-- One clause is captured, and the symbols behind it are reached. -/
theorem Fits.reaches (h : c.Fits keychain rest.head?) :
    Reaches keychain (c.symbols ++ rest) c.captured?.toList rest := by
  cases c with
  | other symbol => exact .pass h (.here rest)
  | single key symbol =>
    obtain ⟨hkey, hplain, htype⟩ := h
    refine .of_value rest hkey ?_
    rw [value_eq_plainValue htype, plainValue_of_not_beginsWith hplain]
  | sequence symbol entry =>
    obtain ⟨hkey, hsequence⟩ := h
    refine .of_value (entry :: rest) hkey ?_
    rw [value, if_pos rfl, typeValue_sequence hsequence]
  | list key first more =>
    obtain ⟨hkey, hbegins, hclosed⟩ := h
    obtain ⟨hsequence, hbase⟩ := ne_of_beginsWith hbegins
    refine .of_value (more ++ rest) hkey ?_
    rw [value_eq_plainValue fun _ => ⟨hsequence, fun h => absurd h hbase⟩,
      plainValue_of_isClosed hbegins hclosed]
  | enumeration base first more =>
    obtain ⟨hkey, hbase, hbegins, hclosed⟩ := h
    refine .of_value (first :: more ++ rest) hkey ?_
    rw [value, if_pos rfl, typeValue_of_isClosed hbase hbegins hclosed]

/-- All clauses are captured, and the symbols behind them are reached. -/
theorem AllFit.reaches (h : AllFit keychain rest.head? clauses) :
    Reaches keychain (clauses.flatMap symbols ++ rest) (clauses.filterMap captured?) rest := by
  induction clauses with
  | nil => exact .here rest
  | cons c clauses ih =>
    obtain ⟨hfits, hclauses⟩ := h
    rw [← List.head?_append] at hfits
    have hreaches := hfits.reaches.trans (ih hclauses)
    rw [List.flatMap_cons, List.append_assoc, List.filterMap_cons]
    cases hcaptured : c.captured? with
    | none => rwa [hcaptured] at hreaches
    | some field => rwa [hcaptured] at hreaches

/-! ### Clauses of what has been captured -/

/-- A keyword and its plain value are written as a clause, unless nothing is left behind them. -/
theorem exists_fits_of_plainValue {v : FieldValue} (hkey : key ∈ keychain)
    (htype : key = "SYNTAX" → Text.remove '"' symbol ≠ "SEQUENCE OF" ∧
      (Text.remove '"' symbol ∈ baseTypes → opensBrace rest = false))
    (hvalue : plainValue symbol rest = (v, left)) (hleft : left ≠ []) :
    ∃ c : FieldClause, key :: symbol :: rest = c.symbols ++ left ∧
      c.captured? = some (key, v) ∧ c.Fits keychain left.head? := by
  cases hbegins : Text.beginsWith '{' (Text.remove '"' symbol) with
  | false =>
    rw [plainValue_of_not_beginsWith hbegins] at hvalue
    obtain ⟨rfl, rfl⟩ := Prod.mk.inj hvalue
    exact ⟨single key symbol, rfl, rfl, hkey, hbegins, htype⟩
  | true =>
    obtain ⟨more, rfl, hclosed⟩ := isClosed_of_plainValue hbegins hvalue hleft
    rw [plainValue_of_isClosed hbegins hclosed] at hvalue
    obtain ⟨rfl, -⟩ := Prod.mk.inj hvalue
    exact ⟨list key symbol more, rfl, rfl, hkey, hbegins, hclosed⟩

/-- A keyword and its value are written as a clause, unless nothing is left behind them. -/
theorem exists_fits {v : FieldValue} (hkey : key ∈ keychain)
    (hvalue : value key symbol rest = (v, left)) (hleft : left ≠ []) :
    ∃ c : FieldClause, key :: symbol :: rest = c.symbols ++ left ∧
      c.captured? = some (key, v) ∧ c.Fits keychain left.head? := by
  by_cases htype : key = "SYNTAX" → Text.remove '"' symbol ≠ "SEQUENCE OF" ∧
      (Text.remove '"' symbol ∈ baseTypes → opensBrace rest = false)
  · rw [value_eq_plainValue htype] at hvalue
    exact exists_fits_of_plainValue hkey htype hvalue hleft
  simp only [not_forall, not_and_or, not_not, Bool.not_eq_false] at htype
  obtain ⟨rfl, hsequence | ⟨hbase, hopens⟩⟩ := htype
  · rw [value, if_pos rfl] at hvalue
    cases rest with
    | nil =>
      have hlast : (typeValue symbol []).2 = [] := by simp [typeValue, opensBrace, hsequence]
      rw [hvalue] at hlast
      exact absurd hlast hleft
    | cons entry rest =>
      rw [typeValue_sequence hsequence] at hvalue
      obtain ⟨rfl, rfl⟩ := Prod.mk.inj hvalue
      exact ⟨sequence symbol entry, rfl, rfl, hkey, hsequence⟩
  · rw [value, if_pos rfl] at hvalue
    obtain ⟨first, more, rfl, hbegins, hclosed⟩ := isClosed_of_typeValue hbase hopens hvalue hleft
    rw [typeValue_of_isClosed hbase hbegins hclosed] at hvalue
    obtain ⟨rfl, -⟩ := Prod.mk.inj hvalue
    exact ⟨enumeration symbol first more, rfl, rfl, hkey, hbase, hbegins, hclosed⟩

/-- Symbols that are reached stand behind clauses, whose fields have been captured. -/
theorem exists_allFit_of_reaches (h : Reaches keychain all captured left) (hleft : left ≠ []) :
    ∃ clauses : List FieldClause, all = clauses.flatMap symbols ++ left ∧
      captured = clauses.filterMap captured? ∧ AllFit keychain left.head? clauses := by
  induction h with
  | here => exact ⟨[], rfl, rfl, trivial⟩
  | @pass symbol rest left captured hsymbol hrest ih =>
    obtain ⟨clauses, rfl, rfl, hclauses⟩ := ih hleft
    exact ⟨other symbol :: clauses, rfl, rfl, hsymbol, hclauses⟩
  | @take key symbol rest left captured hkey hrest ih =>
    obtain ⟨clauses, hbehind, rfl, hclauses⟩ := ih hleft
    have hne : (value key symbol rest).2 ≠ [] := fun hnil => by
      rw [hnil] at hrest
      exact hleft hrest.eq_nil
    obtain ⟨c, hsymbols, hcaptured, hfits⟩ := exists_fits hkey (Prod.eta _).symm hne
    refine ⟨c :: clauses, ?_, ?_, ?_, hclauses⟩
    · rw [hsymbols, hbehind, List.flatMap_cons, List.append_assoc]
    · rw [List.filterMap_cons, hcaptured]
    · rwa [← List.head?_append, ← hbehind]

end FieldClause

end Smi
