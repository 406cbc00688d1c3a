import Smi.Proofs.Compiler.Declaration
import Smi.Proofs.Compiler.FieldClause
import Smi.Proofs.Symbol.QuotedString

/-!
# Fields of an invocation

The fields of an invocation are those of its clauses, and of two clauses of one keyword the last one
counts. What stands behind `::=` is not read. Quotes are removed before a symbol is looked at, so a
quoted text that begins with a brace is taken for a list, and a list loses the quotes of its first
symbol. All other quoted texts and lists are captured as they are written.
-/

namespace Smi

namespace Capture

variable {keychain before given other rest : List String} {key body symbol : String}
  {captured : List (String × FieldValue)}

/-! ### Quoted texts -/

/-- Without its double quotes a quoted text is what it quotes. -/
theorem remove_quoted (h : '"' ∉ body.toList) : Text.remove '"' (quoted body) = body := by
  have hbody := Text.remove_of_not_mem h
  rw [Text.remove] at hbody
  rw [Text.remove, toList_quoted, ← List.cons_append, List.filter_append, List.filter_cons]
  simpa using hbody

/-- A symbol that begins with a brace once its quotes are removed is taken for a list. -/
theorem plainValue_of_beginsWith (h : Text.beginsWith '{' (Text.remove '"' symbol) = true)
    (rest : List String) : ∃ items, (plainValue symbol rest).1 = .list items := by
  unfold plainValue
  rw [if_neg (by simp [h])]
  split
  · exact ⟨_, rfl⟩
  · exact ⟨_, rfl⟩

/-- Symbols are reached in the same way whatever stands behind the first one of them. -/
theorem Reaches.exchange (h : Reaches keychain (before ++ given) captured given)
    (hgiven : given ≠ []) (hhead : other.head? = given.head?) :
    Reaches keychain (before ++ other) captured other := by
  obtain ⟨clauses, hbefore, rfl, hfit⟩ := FieldClause.exists_allFit_of_reaches h hgiven
  rw [List.append_cancel_right hbefore]
  exact FieldClause.AllFit.reaches (hhead ▸ hfit)

/-- A quoted text that does not begin with a brace is captured, and nothing behind it. -/
theorem reaches_quoted (hkey : key ∈ keychain) (htype : key ≠ "SYNTAX")
    (hbody : '"' ∉ body.toList) (hplain : Text.beginsWith '{' body = false) (rest : List String) :
    Reaches keychain (key :: quoted body :: rest) [(key, .text body)] rest := by
  refine .of_value rest hkey ?_
  have hbare := remove_quoted hbody
  rw [value_eq_plainValue fun h => absurd h htype,
    plainValue_of_not_beginsWith (by rwa [hbare]), hbare]

/-- Where the capture comes to a quoted text, the text is captured as it is and the next symbol is
reached exactly if the text does not begin with a brace. What follows is then captured like behind
any other such text. -/
theorem fields_quoted_iff (hkey : key ∈ keychain) (htype : key ≠ "SYNTAX")
    (hbody : '"' ∉ body.toList)
    (hreaches : Reaches keychain (before ++ key :: quoted body :: rest) captured
      (key :: quoted body :: rest)) :
    (fields keychain (before ++ key :: quoted body :: rest) =
        captured ++ (key, .text body) :: fields keychain rest ↔
      Text.beginsWith '{' body = false) ∧
    (Reaches keychain (before ++ key :: quoted body :: rest) (captured ++ [(key, .text body)])
        rest ↔ Text.beginsWith '{' body = false) ∧
    ∀ other, '"' ∉ other.toList → Text.beginsWith '{' other = false →
      fields keychain (before ++ key :: quoted other :: rest) =
        captured ++ (key, .text other) :: fields keychain rest := by
  have hfollow (text : String) (h : Reaches keychain (before ++ key :: quoted text :: rest)
      (captured ++ [(key, .text text)]) rest) :
      fields keychain (before ++ key :: quoted text :: rest) =
        captured ++ (key, .text text) :: fields keychain rest := by
    rw [fields_of_reaches h, List.append_assoc, List.singleton_append]
  have hbehind (text : String) (htext : '"' ∉ text.toList)
      (hplain : Text.beginsWith '{' text = false) :
      Reaches keychain (before ++ key :: quoted text :: rest) (captured ++ [(key, .text text)])
        rest := by
    have hcomes : Reaches keychain (before ++ key :: quoted text :: rest) captured
        (key :: quoted text :: rest) := hreaches.exchange (List.cons_ne_nil _ _) rfl
    exact hcomes.trans (reaches_quoted hkey htype htext hplain rest)
  have honly (h : fields keychain (before ++ key :: quoted body :: rest) =
      captured ++ (key, .text body) :: fields keychain rest) :
      Text.beginsWith '{' body = false := by
    rw [fields_of_reaches hreaches, List.append_cancel_left_eq, fields, if_pos hkey,
      value_eq_plainValue fun h => absurd h htype] at h
    have hfirst := (Prod.mk.inj (List.cons.inj h).1).2
    rw [← Bool.not_eq_true]
    intro hbegins
    obtain ⟨items, hlist⟩ := plainValue_of_beginsWith (by rwa [remove_quoted hbody]) rest
    rw [hlist] at hfirst
    cases hfirst
  exact ⟨⟨honly, fun hplain => hfollow body (hbehind body hbody hplain)⟩,
    ⟨fun h => honly (hfollow body h), hbehind body hbody⟩,
    fun other hother hplain => hfollow other (hbehind other hother hplain)⟩

/-- The description between two other fields is captured. -/
theorem fields_quoted_iff_description :
    "DESCRIPTION" ∈ ["DESCRIPTION", "STATUS", "ACCESS"] ∧ "DESCRIPTION" ≠ "SYNTAX" ∧
      '"' ∉ "A \x7bdraft\x7d.".toList ∧
      fields ["DESCRIPTION", "STATUS", "ACCESS"]
        ["STATUS", "current", "DESCRIPTION", quoted "A \x7bdraft\x7d.", "ACCESS", "read-only"] =
          [("STATUS", .text "current"), ("DESCRIPTION", .text "A \x7bdraft\x7d."),
            ("ACCESS", .text "read-only")] := by
  have hreaches : Reaches ["DESCRIPTION", "STATUS", "ACCESS"]
      (["STATUS", "current"] ++
        "DESCRIPTION" :: quoted "A \x7bdraft\x7d." :: ["ACCESS", "read-only"])
      [("STATUS", .text "current")]
      ("DESCRIPTION" :: quoted "A \x7bdraft\x7d." :: ["ACCESS", "read-only"]) :=
    .of_value _ (by decide) rfl
  have hlast : Reaches ["DESCRIPTION", "STATUS", "ACCESS"] ["ACCESS", "read-only"]
      [("ACCESS", .text "read-only")] [] := .of_value [] (by decide) rfl
  have hfields := (fields_quoted_iff (by decide) (by decide) (by decide) hreaches).1.mpr (by decide)
  rw [fields_of_reaches_nil hlast] at hfields
  exact ⟨by decide, by decide, by decide, hfields⟩

/-- A description that begins with a brace becomes a list. -/
theorem fields_quoted_draft :
    fields ["DESCRIPTION", "STATUS"]
        ["DESCRIPTION", quoted "\x7bdraft\x7d text", "STATUS", "current"] =
      [("DESCRIPTION", .list ["draft text"]), ("STATUS", .text "current")] ∧
    '"' ∉ "\x7bdraft\x7d text".toList := by
  have hreaches : Reaches ["DESCRIPTION", "STATUS"]
      ["DESCRIPTION", quoted "\x7bdraft\x7d text", "STATUS", "current"]
      [("DESCRIPTION", .list ["draft text"]), ("STATUS", .text "current")] [] :=
    (Reaches.of_value _ (by decide) rfl).trans (.of_value [] (by decide) rfl)
  exact ⟨fields_of_reaches_nil hreaches, by decide⟩

/-! ### Quotes of a list -/

/-- A list has as many quotes in its items as between its braces. -/
theorem count_listItems (braced : String) :
    ((listItems braced).flatMap String.toList).count '"' = braced.toList.count '"' := by
  rw [listItems, Text.count_trimmed (by decide), Text.count_splitAt (by decide), Text.removeFirst,
    Text.removeFirst, String.toList_ofList, String.toList_ofList,
    List.count_erase_of_ne (by decide), List.count_erase_of_ne (by decide)]

/-- A list is the same without the quotes of its first symbol exactly if there are none. -/
theorem listItems_remove_eq_iff (first more : String) :
    listItems (Text.remove '"' first ++ more) = listItems (first ++ more) ↔
      '"' ∉ first.toList := by
  constructor
  · intro hsame hmem
    have hcount := congrArg (fun items => (items.flatMap String.toList).count '"') hsame
    simp only [count_listItems, String.toList_append, List.count_append, Text.remove,
      String.toList_ofList] at hcount
    have hnone : (first.toList.filter (· != '"')).count '"' = 0 :=
      List.count_eq_zero.mpr fun hmem => absurd (List.of_mem_filter hmem) (by decide)
    have hpos := List.count_pos_iff.mpr hmem
    omega
  · intro hnone
    rw [Text.remove_of_not_mem hnone]

end Capture

namespace FieldClause

open Capture

variable {keychain : List String} {key : String} {clauses : List FieldClause}

/-! ### The fields of clauses -/

/-- The last of some clauses with a keyword. -/
def last? (clauses : List FieldClause) (key : String) : Option FieldClause :=
  clauses.reverse.find? fun c => c.key? = some key

/-- Whether no quote stands in the first symbol of a list. -/
def IsPlain : FieldClause → Prop
  | list _ first _ => '"' ∉ first.toList
  | _ => True

instance (c : FieldClause) : Decidable c.IsPlain :=
  match c with
  | list _ _ _ => inferInstanceAs (Decidable (_ ∉ _))
  | other _ | single _ _ | sequence _ _ | enumeration _ _ _ => inferInstanceAs (Decidable True)

/-- A clause is captured as it is written exactly if its list does not begin with quotes. -/
theorem unquoted_value?_eq_iff (c : FieldClause) : c.unquoted.value? = c.value? ↔ c.IsPlain := by
  cases c with
  | list key first more =>
    rw [unquoted, value?, value?, Option.some_inj, FieldValue.list.injEq]
    exact listItems_remove_eq_iff first _
  | other | single | sequence | enumeration => exact iff_of_true rfl trivial

/-- A clause with a key has a value. -/
theorem exists_value? {c : FieldClause} (h : c.key? = some key) :
    ∃ v, c.unquoted.value? = some v := by
  cases c with
  | other symbol => cases h
  | single | sequence | list | enumeration => exact ⟨_, rfl⟩

/-- The value captured for a key is that of the first clause with the key. -/
theorem lookup_captured (clauses : List FieldClause) (key : String) :
    (clauses.filterMap captured?).lookup key =
      (clauses.find? fun c => c.key? = some key).bind fun c => c.unquoted.value? := by
  induction clauses with
  | nil => rfl
  | cons c rest ih =>
    cases hkey : c.key? with
    | none =>
      have hnone : c.captured? = none := by rw [captured?, hkey, Option.bind_none]
      rw [List.filterMap_cons_none hnone, List.find?_cons_of_neg (by simp [hkey]), ih]
    | some other =>
      obtain ⟨v, hv⟩ := exists_value? hkey
      have hsome : c.captured? = some (other, v) := by
        rw [captured?, hkey, Option.bind_some, hv, Option.map_some]
      rw [List.filterMap_cons_some hsome, List.lookup_cons, List.find?_cons, hkey]
      by_cases hsame : key = other
      · simp [hsame, hv]
      · have hne : other ≠ key := fun h => hsame h.symm
        simp [hne, ih, beq_eq_false_iff_ne.mpr hsame]

/-- The fields of clauses are the values of the last clauses of their keywords. -/
theorem get?_fieldMap (h : AllFit keychain none clauses) (key : String) :
    (fieldMap keychain (clauses.flatMap symbols)).get? key =
      (last? clauses key).bind fun c => c.unquoted.value? := by
  have hreaches : Reaches keychain (clauses.flatMap symbols ++ []) (clauses.filterMap captured?)
      [] := AllFit.reaches h
  rw [List.append_nil] at hreaches
  rw [fieldMap, fields_of_reaches_nil hreaches, OrderedMap.get?_ofList, ← List.filterMap_reverse,
    lookup_captured]
  rfl

end FieldClause

namespace Draft

variable {d : Draft} {macros : OrderedMap String MacroTemplate} {invoked braced : String}
  {keychain symbols passed : List String}

/-! ### Invocations -/

/-- Symbols that are no macros are passed over on the way back to the invoked one. -/
theorem invocation?_append (hpassed : ∀ symbol ∈ passed, macros.contains symbol = false)
    (hinvoked : macros.contains invoked = true) (fields before : List String) :
    invocation? macros fields (passed ++ invoked :: before) =
      some (before, invoked, passed.reverse ++ fields) := by
  induction passed generalizing fields with
  | nil => rw [List.nil_append, invocation?, if_pos hinvoked, List.reverse_nil, List.nil_append]
  | cons symbol rest ih =>
    obtain ⟨hsymbol, hrest⟩ := List.forall_mem_cons.mp hpassed
    rw [List.cons_append, invocation?, if_neg (by simp [hsymbol]), ih hrest, List.reverse_cons,
      List.append_assoc, List.singleton_append]

/-- Whether some symbols are all that stands between a macro and the `::=` of its invocation. -/
structure Invokes (d : Draft) (invoked : String) (keychain symbols : List String) : Prop where
  importing : d.importing = .none
  scope : d.scope = none
  keychain_eq : (d.macros.get? invoked).map MacroTemplate.keychain = some keychain
  nonempty : symbols ≠ []
  symbols_free : ∀ symbol ∈ symbols.dropLast, d.macros.contains symbol = false
  last_free : symbols.getLast? ≠ some "OBJECT IDENTIFIER"

/-- Placing an object leaves its name, its macro and its fields. -/
theorem clauseObject_eq (others : ModuleSet) (d : Draft) (braced : String) (subject : Subject) :
    ∃ clause oid nameSpace, clauseObject others d braced subject =
      { d.unplacedObject subject with clause := clause, oid := oid, nameSpace := nameSpace } := by
  unfold clauseObject
  generalize Text.trim (Text.removeFirst '}' (Text.removeFirst '{' braced)) = clause
  dsimp only
  split
  · exact ⟨_, _, _, rfl⟩
  · obtain ⟨oid, nameSpace, hsettled⟩ :=
      settle_eq (clauses others d.current) clause (d.unplacedObject subject)
    rw [hsettled]
    exact ⟨_, _, _, rfl⟩

/-- An invocation declares its name with the fields of its symbols, whatever stands around it. -/
theorem Invokes.exists_declared? (h : d.Invokes invoked keychain symbols)
    (hbraced : Text.beginsWith '{' braced = true) (others : ModuleSet) (name : String)
    (behind after : List String) : ∃ object,
      d.declared? others (symbols.reverse ++ invoked :: name :: behind) "::=" (braced :: after) =
        some object ∧
      object.name = name ∧ object.macroName = some invoked ∧
        object.fields = Capture.fieldMap keychain symbols := by
  obtain ⟨template, htemplate, hkeychain⟩ := Option.map_eq_some_iff.mp h.keychain_eq
  obtain ⟨first, last, rfl⟩ : ∃ first last, symbols = first ++ [last] :=
    ⟨_, _, (List.dropLast_append_getLast h.nonempty).symm⟩
  have hinvoked : d.macros.contains invoked = true := by rw [OrderedMap.contains, htemplate]; rfl
  have hpassed : ∀ symbol ∈ first.reverse, d.macros.contains symbol = false := fun symbol hmem =>
    h.symbols_free symbol (by simpa using hmem)
  have hlast : last ≠ "OBJECT IDENTIFIER" := by simpa using h.last_free
  have hsubject : d.subject? ((first ++ [last]).reverse ++ invoked :: name :: behind) =
      some ⟨name, some (invoked, first ++ [last])⟩ := by
    rw [List.reverse_concat, List.cons_append, subject?, invocation?_append hpassed hinvoked]
    · simp
    · exact fun h => hlast h
  obtain ⟨clause, oid, nameSpace, hobject⟩ :=
    clauseObject_eq others d braced ⟨name, some (invoked, first ++ [last])⟩
  refine ⟨clauseObject others d braced ⟨name, some (invoked, first ++ [last])⟩, ?_, ?_⟩
  · rw [declared?_assign h.importing h.scope, hsubject]
    simp only [hbraced, if_true, Option.map_some]
  · rw [hobject]
    refine ⟨rfl, rfl, ?_⟩
    rw [← hkeychain]
    simp [unplacedObject, invocationFields, htemplate]

end Draft

namespace FieldClause

open Capture

variable {keychain : List String} {clauses : List FieldClause}

/-- The symbols of clauses are captured clause by clause: each keyword has the value of its last
clause and there are no other fields, whatever stands around the invocation. The value is what is
written exactly if the first symbol of a list holds no quote. -/
theorem get?_fieldMap_eq_written_iff (h : AllFit keychain none clauses) :
    (∀ key, (fieldMap keychain (clauses.flatMap symbols)).get? key =
      (last? clauses key).bind fun c => c.unquoted.value?) ∧
    (∀ key, (fieldMap keychain (clauses.flatMap symbols)).get? key =
      (last? clauses key).bind value? ↔ ∀ c ∈ last? clauses key, c.IsPlain) ∧
    ∀ (others : ModuleSet) (d : Draft) (invoked name braced : String) (behind after : List String),
      d.Invokes invoked keychain (clauses.flatMap symbols) → Text.beginsWith '{' braced = true →
      ∃ object, d.declared? others ((clauses.flatMap symbols).reverse ++ invoked :: name :: behind)
          "::=" (braced :: after) = some object ∧
        object.name = name ∧ object.fields = fieldMap keychain (clauses.flatMap symbols) := by
  refine ⟨get?_fieldMap h, fun key => ?_, fun others d invoked name braced behind after hinvokes
    hbraced => ?_⟩
  · rw [get?_fieldMap h]
    cases last? clauses key with
    | none => simp
    | some c => simpa using c.unquoted_value?_eq_iff
  · obtain ⟨object, hobject, hname, -, hfields⟩ :=
      hinvokes.exists_declared? hbraced others name behind after
    exact ⟨object, hobject, hname, hfields⟩

/-- The clauses of a port whose access is a word that is also a keyword. -/
def portClauses : List FieldClause :=
  [single "SYNTAX" "PortEntry", other "Reserved", single "ACCESS" "STATUS",
    single "STATUS" (quoted "current"), list "INDEX" "\x7b" ["portNumber", ",", "portName", "\x7d"],
    sequence "SEQUENCE OF" "PortEntry"]

/-- A draft in which only the macro of objects is known. -/
def portDraft : Draft where
  current := .named "PORT-MIB"
  macros := OrderedMap.empty.insert "OBJECT-TYPE"
    { MacroTemplate.named "OBJECT-TYPE" with
      typeItems := [⟨"SYNTAX", some "Syntax"⟩, ⟨"ACCESS", some "Access"⟩, ⟨"STATUS", some "Status"⟩,
        ⟨"INDEX", some "Index"⟩] }
  scope := none
  importing := .none

/-- The fields of a port are captured as they are written. -/
theorem get?_fieldMap_eq_written_iff_port :
    let keychain := ["DESCRIPTION", "SYNTAX", "ACCESS", "STATUS", "INDEX"]
    AllFit keychain none portClauses ∧
      portDraft.Invokes "OBJECT-TYPE" keychain (portClauses.flatMap symbols) ∧
      ∃ object, portDraft.declared? .empty
          ((portClauses.flatMap symbols).reverse ++ ["OBJECT-TYPE", "portEntry"]) "::="
            ["\x7b iso 9 \x7d", "STATUS"] = some object ∧
        object.type? = some (.text "SEQUENCE OF PortEntry") ∧
        object.field? "ACCESS" = some (.text "STATUS") ∧ object.status? = some "current" ∧
        object.field? "INDEX" = some (.list ["portNumber", "portName"]) ∧
        object.description? = none := by
  have hfit : AllFit ["DESCRIPTION", "SYNTAX", "ACCESS", "STATUS", "INDEX"] none portClauses := by
    decide
  have hinvokes : portDraft.Invokes "OBJECT-TYPE"
      ["DESCRIPTION", "SYNTAX", "ACCESS", "STATUS", "INDEX"] (portClauses.flatMap symbols) :=
    ⟨rfl, rfl, by decide, by decide, by decide, by decide⟩
  obtain ⟨hcaptured, -, hdeclared⟩ := get?_fieldMap_eq_written_iff hfit
  obtain ⟨object, hobject, -, hfields⟩ := hdeclared .empty portDraft "OBJECT-TYPE" "portEntry"
    "\x7b iso 9 \x7d" [] ["STATUS"] hinvokes (by decide)
  refine ⟨hfit, hinvokes, object, hobject, ?_⟩
  simp only [ObjectDefinition.type?, ObjectDefinition.status?, ObjectDefinition.description?,
    ObjectDefinition.field?, hfields, hcaptured]
  decide

/-- A list keeps no quote in its first symbol, and all of them in the other ones. -/
theorem get?_fieldMap_torn :
    let c := list "DEFVAL" "\x7b \"" ["abc\"", "\x7d"]
    AllFit ["DEFVAL"] none [c] ∧
      (fieldMap ["DEFVAL"] c.symbols).get? "DEFVAL" = some (.list ["abc\""]) ∧
      c.value? = some (.list ["\"abc\""]) := by
  have hfit : AllFit ["DEFVAL"] none [list "DEFVAL" "\x7b \"" ["abc\"", "\x7d"]] := by decide
  exact ⟨hfit, (get?_fieldMap hfit "DEFVAL").trans (by decide), by decide⟩

end FieldClause

end Smi
