import Smi.Compiler.Basic
import Smi.Oid.Basic
import Smi.Proofs.Definition.Store

/-!
# What the symbols of a module declare

While the symbols of a module are read, some of them declare an object. The declarations of a module
are these objects in their order, each with the clauses that were known before it. A draft holds
nothing but its declarations, and each object stands where its clause led when it was declared.
-/

namespace Smi

/-- An object as it is declared, and the clauses that are known before it. -/
structure Declaration where
  known : OidClause.Clauses
  object : ObjectDefinition

namespace Declaration

/-- The last of some declarations of a name. -/
def last? (declarations : List Declaration) (name : String) : Option Declaration :=
  declarations.reverse.find? fun declaration => declaration.object.name = name

/-- The last object of a name is that of the last declaration of the name. -/
theorem lastNamed?_map (declarations : List Declaration) (name : String) :
    ModuleDefinition.lastNamed? (declarations.map object) name =
      (last? declarations name).map object := by
  rw [ModuleDefinition.lastNamed?, ← List.map_reverse, List.find?_map]
  rfl

/-- What is declared last under a name, with the declarations before and behind it. -/
theorem exists_of_last? {declarations : List Declaration} {name : String}
    {declaration : Declaration} (h : last? declarations name = some declaration) :
    declaration.object.name = name ∧ ∃ before after,
      declarations = before ++ declaration :: after ∧
        ∀ later ∈ after, later.object.name ≠ name := by
  obtain ⟨hname, behind, rest, hsplit, hbehind⟩ := List.find?_eq_some_iff_append.mp h
  refine ⟨of_decide_eq_true hname, rest.reverse, behind.reverse, ?_, fun later hlater => ?_⟩
  · rw [← List.reverse_reverse declarations, hsplit]
    simp
  · simpa using hbehind later (List.mem_reverse.mp hlater)

end Declaration

/-- The dotted numbers and the dotted names of the path to which a clause leads. -/
def OidClause.position? (clauses : Clauses) (clause name : String) : Option (String × String) :=
  (path? clauses clause name).map fun path => (dottedNumbers path, dottedNames path)

/-- The numbers of a path are written like those of an identifier. -/
theorem OidClause.dottedNumbers_eq (path : List PathStep) :
    dottedNumbers path = Oid.dottedArcs (path.map PathStep.number) := by
  rw [dottedNumbers, Oid.dottedArcs, List.map_map]
  rfl

namespace ObjectDefinition

/-- Whether an object has the numbers and names of a position, or neither of them without one. -/
def StandsAt (object : ObjectDefinition) (position : Option (String × String)) : Prop :=
  object.oid = position.map Prod.fst ∧ object.nameSpace = position.map Prod.snd

instance (object : ObjectDefinition) (position : Option (String × String)) :
    Decidable (object.StandsAt position) :=
  inferInstanceAs (Decidable (_ ∧ _))

/-- The position to which the clause of an object leads. The null object identifier stands at its
own one, and an object without a clause nowhere. -/
def leadsTo? (clauses : OidClause.Clauses) (object : ObjectDefinition) :
    Option (String × String) :=
  object.clause.bind fun clause =>
    if clause = "0 0" then some ("0.0", "null") else OidClause.position? clauses clause object.name

/-- An object stands at one position. -/
theorem StandsAt.unique {object : ObjectDefinition} {a b : Option (String × String)}
    (ha : object.StandsAt a) (hb : object.StandsAt b) : a = b := by
  obtain ⟨hnumbers, hnames⟩ := ha
  rw [hb.1] at hnumbers
  rw [hb.2] at hnames
  cases a <;> cases b <;> simp_all [Prod.ext_iff]

/-- An object stands where it stood at one position exactly when another position is the same. -/
theorem StandsAt.iff_eq {object : ObjectDefinition}
    {a b : Option (String × String)} (h : object.StandsAt a) : object.StandsAt b ↔ a = b :=
  ⟨h.unique, fun heq => heq ▸ h⟩

end ObjectDefinition

namespace Draft

variable {others : ModuleSet} {d : Draft} {behind rest : List String} {symbol name : String}
  {object : ObjectDefinition} {known : OidClause.Clauses}

/-- Settling gives an object without a position the one to which its clause leads. -/
theorem settle_standsAt {clause : String} (hoid : object.oid = none)
    (hnames : object.nameSpace = none) : (settle known clause object).StandsAt
      (OidClause.position? known clause object.name) := by
  unfold settle OidClause.position?
  cases OidClause.path? known clause object.name with
  | some path => exact ⟨rfl, rfl⟩
  | none => exact ⟨hoid, hnames⟩

/-- Settling an object changes its position alone. -/
theorem settle_eq (known : OidClause.Clauses) (clause : String) (object : ObjectDefinition) :
    ∃ oid nameSpace, settle known clause object =
      { object with oid := oid, nameSpace := nameSpace } := by
  unfold settle
  split
  · exact ⟨_, _, rfl⟩
  · exact ⟨object.oid, object.nameSpace, rfl⟩

/-! ### One declaration -/

/-- The symbols that do not name an object before a plain assignment. -/
def reservedSymbols : List String :=
  ["DEFINITIONS", "OBJECT IDENTIFIER", "MACRO", "TYPE NOTATION", "VALUE NOTATION"]

/-- The object that a plain assignment declares. -/
def plainObject (d : Draft) (value : String) (rest : List String) (name : String) :
    ObjectDefinition :=
  let object := { ObjectDefinition.bare name d.current.name with macroName := some value }
  match if d.macros.contains value then Capture.trailingType? rest else none with
  | some type => object.withField "SYNTAX" type
  | none => object

/-- The object that a braced clause declares, without its position. -/
def unplacedObject (d : Draft) (subject : Subject) : ObjectDefinition :=
  let object := ObjectDefinition.bare subject.name d.current.name
  match subject.invoked with
  | some (invoked, symbols) =>
    { object with
      macroName := some invoked
      fields := d.invocationFields invoked symbols }
  | none => object

/-- The object that a braced clause declares. -/
def clauseObject (others : ModuleSet) (d : Draft) (braced : String) (subject : Subject) :
    ObjectDefinition :=
  let clause := Text.trim (Text.removeFirst '}' (Text.removeFirst '{' braced))
  let object := d.unplacedObject subject
  let object :=
    if clause = "0 0" then object.placed "0.0" "null"
    else settle (clauses others d.current) clause object
  { object with clause := some clause }

/-- The object that is declared by reading a symbol. Nothing is declared in an import clause or a
macro definition. -/
def declared? (others : ModuleSet) (d : Draft) (behind : List String) (symbol : String)
    (rest : List String) : Option ObjectDefinition :=
  if d.importing ≠ .none || d.scope.isSome || symbol ≠ "::=" then none
  else match rest with
    | [] => none
    | value :: _ =>
      if Text.beginsWith '{' value then (d.subject? behind).map (clauseObject others d value)
      else (behind.head?.filter (· ∉ reservedSymbols)).map (d.plainObject value rest)

/-- Outside a macro definition a braced clause declares the object of its subject. -/
theorem assignClause_eq (hscope : d.scope = none) (braced : String) :
    assignClause others d behind braced =
      match (d.subject? behind).map (clauseObject others d braced) with
      | some object => d.declare object
      | none => d := by
  unfold assignClause
  cases d.subject? behind with
  | none => rfl
  | some subject =>
    simp only [hscope, Option.map_some]
    rfl

/-- Outside a macro definition a plain assignment declares its object. -/
theorem declarePlain_eq (hscope : d.scope = none) (name value : String) (rest : List String) :
    d.declarePlain name value rest = d.declare (d.plainObject value rest name) := by
  rw [declarePlain, hscope]
  rfl

/-- Reading a macro clause leaves the module as it is. -/
theorem current_readMacroClause (d : Draft) (isType : Bool) (rest : List String) :
    (d.readMacroClause isType rest).current = d.current := by
  unfold readMacroClause
  split <;> rfl

/-- A plain assignment declares its object, unless a reserved symbol stands before it. -/
theorem assignPlain_eq (hname : name ∉ reservedSymbols) (value : String) (rest : List String) :
    d.assignPlain (name :: behind) value rest = d.declarePlain name value rest := by
  simp only [reservedSymbols, List.mem_cons, List.not_mem_nil, or_false, not_or] at hname
  unfold assignPlain
  split <;> simp_all

/-- A plain assignment to a reserved symbol leaves the module as it is. -/
theorem current_assignPlain_of_reserved (hname : name ∈ reservedSymbols) (value : String)
    (rest : List String) : (d.assignPlain (name :: behind) value rest).current = d.current := by
  simp only [reservedSymbols, List.mem_cons, List.not_mem_nil, or_false] at hname
  rcases hname with rfl | rfl | rfl | rfl | rfl
  · rfl
  · rfl
  · cases behind <;> rfl
  · exact current_readMacroClause d true rest
  · exact current_readMacroClause d false rest

/-- A plain assignment in a macro definition leaves the module as it is. -/
theorem current_assignPlain_of_scope {template : MacroTemplate} (hscope : d.scope = some template)
    (value : String) (rest : List String) :
    (d.assignPlain behind value rest).current = d.current := by
  cases behind with
  | nil => rfl
  | cons name behind =>
    by_cases hname : name ∈ reservedSymbols
    · exact current_assignPlain_of_reserved hname value rest
    · rw [assignPlain_eq hname, declarePlain, hscope]

/-- A braced clause in a macro definition leaves the module as it is. -/
theorem current_assignClause_of_scope {template : MacroTemplate} (hscope : d.scope = some template)
    (braced : String) : (assignClause others d behind braced).current = d.current := by
  unfold assignClause
  cases d.subject? behind with
  | none => rfl
  | some subject => simp only [hscope]

/-- A symbol of an import clause changes the imports of the module alone. -/
theorem current_readImport (d : Draft) (symbol : String) :
    ∃ imports, (d.readImport symbol).current = { d.current with imports := imports } := by
  unfold readImport
  split
  · exact ⟨_, rfl⟩
  · split <;> exact ⟨_, rfl⟩
  · exact ⟨_, rfl⟩

/-- What `::=` declares outside import clauses and macro definitions. -/
theorem declared?_assign (himporting : d.importing = .none) (hscope : d.scope = none) :
    d.declared? others behind "::=" rest = match rest with
      | [] => none
      | value :: _ =>
        if Text.beginsWith '{' value then (d.subject? behind).map (clauseObject others d value)
        else (behind.head?.filter (· ∉ reservedSymbols)).map (d.plainObject value rest) := by
  unfold declared?
  rw [if_neg (by simp [himporting, hscope])]

/-- Outside import clauses `::=` is read as an assignment. -/
theorem read_assign_eq (himporting : d.importing = .none) :
    d.read others behind "::=" rest = assign others d behind rest := by
  rw [read, if_neg (by simp [himporting])]

/-- Reading a symbol declares its object, or changes at most the imports of the module. -/
theorem read_cases (others : ModuleSet) (d : Draft) (behind : List String) (symbol : String)
    (rest : List String) :
    (∃ object, d.declared? others behind symbol rest = some object ∧
      d.read others behind symbol rest = d.declare object) ∨
    d.declared? others behind symbol rest = none ∧ ∃ imports,
      (d.read others behind symbol rest).current = { d.current with imports := imports } := by
  by_cases himporting : d.importing = .none
  swap
  · refine .inr ⟨by simp [declared?, himporting], ?_⟩
    unfold read
    rw [if_pos himporting]
    exact current_readImport d symbol
  -- Only the assignment symbol declares anything.
  by_cases hsymbol : symbol = "::="
  swap
  · refine .inr ⟨by simp [declared?, hsymbol], d.current.imports, ?_⟩
    unfold read
    rw [if_neg (by simp [himporting])]
    split
    · exact absurd rfl hsymbol
    · unfold endScope
      split <;> rfl
    · rfl
    · rfl
  subst hsymbol
  rw [read_assign_eq himporting]
  cases hscope : d.scope with
  | some template =>
    refine .inr ⟨by simp [declared?, hscope], d.current.imports, ?_⟩
    unfold assign
    split
    · rfl
    · split
      · exact current_assignClause_of_scope hscope _
      · exact current_assignPlain_of_scope hscope _ _
  | none =>
    rw [declared?_assign himporting hscope]
    unfold assign
    cases rest with
    | nil => exact .inr ⟨rfl, d.current.imports, rfl⟩
    | cons value rest =>
      dsimp only
      split
      next hbrace =>
        rw [assignClause_eq hscope]
        cases (d.subject? behind).map (clauseObject others d value) with
        | some object => exact .inl ⟨object, rfl, rfl⟩
        | none => exact .inr ⟨rfl, d.current.imports, rfl⟩
      next hbrace =>
        cases behind with
        | nil => exact .inr ⟨rfl, d.current.imports, rfl⟩
        | cons name behind =>
          by_cases hname : name ∈ reservedSymbols
          · exact .inr ⟨by simp [hname], d.current.imports,
              current_assignPlain_of_reserved hname _ _⟩
          · refine .inl ⟨d.plainObject value (value :: rest) name, by simp [hname], ?_⟩
            rw [assignPlain_eq hname, declarePlain_eq hscope]

/-! ### Where a declared object stands -/

/-- The object of a plain assignment has no clause and stands nowhere. -/
theorem plainObject_standsAt (d : Draft) (value : String) (rest : List String) (name : String)
    (known : OidClause.Clauses) : (d.plainObject value rest name).StandsAt
      ((d.plainObject value rest name).leadsTo? known) := by
  unfold plainObject
  dsimp only
  split <;> exact ⟨rfl, rfl⟩

/-- The object of a braced clause stands where its clause leads by the clauses known so far. -/
theorem clauseObject_standsAt (others : ModuleSet) (d : Draft) (braced : String)
    (subject : Subject) : (clauseObject others d braced subject).StandsAt
      ((clauseObject others d braced subject).leadsTo? (clauses others d.current)) := by
  have hbare :
      (d.unplacedObject subject).oid = none ∧ (d.unplacedObject subject).nameSpace = none := by
    unfold unplacedObject
    dsimp only
    split <;> exact ⟨rfl, rfl⟩
  unfold clauseObject
  generalize d.unplacedObject subject = object at hbare
  generalize Text.trim (Text.removeFirst '}' (Text.removeFirst '{' braced)) = clause
  by_cases hnull : clause = "0 0"
  · simp only [hnull, if_true]
    exact ⟨rfl, rfl⟩
  · have hsettled : (settle (clauses others d.current) clause object).StandsAt
        (OidClause.position? (clauses others d.current) clause object.name) :=
      settle_standsAt hbare.1 hbare.2
    obtain ⟨oid, nameSpace, hobject⟩ := settle_eq (clauses others d.current) clause object
    rw [hobject] at hsettled
    simp only [if_neg hnull, hobject, ObjectDefinition.leadsTo?, Option.bind_some]
    exact hsettled

/-- A declared object stands where its clause leads along the clauses that are known before it. -/
theorem standsAt_of_declared? (h : d.declared? others behind symbol rest = some object) :
    object.StandsAt (object.leadsTo? (clauses others d.current)) := by
  unfold declared? at h
  split at h
  · cases h
  · split at h
    · cases h
    · split at h
      · obtain ⟨subject, _, rfl⟩ := Option.map_eq_some_iff.mp h
        exact clauseObject_standsAt others d _ subject
      · obtain ⟨name, _, rfl⟩ := Option.map_eq_some_iff.mp h
        exact plainObject_standsAt d _ _ name _

/-! ### All declarations -/

/-- The declarations of symbols, given those already read from right to left. -/
def declarations (others : ModuleSet) (d : Draft) (behind : List String) :
    List String → List Declaration
  | [] => []
  | symbol :: rest =>
    (d.declared? others behind symbol rest).toList.map (⟨clauses others d.current, ·⟩) ++
      declarations others (d.read others behind symbol rest) (symbol :: behind) rest

/-- Modules with the same objects know the same clauses. -/
theorem clauses_congr {m other : ModuleDefinition} (h : m.objects = other.objects) :
    clauses others m = clauses others other := by
  rw [clauses, clauses, h]

end Draft

namespace ModuleDefinition

/-- An object is inserted in the same way whatever the imports are. -/
theorem insert_withImports (m : ModuleDefinition) (imports : OrderedMap String (List String))
    (object : ObjectDefinition) :
    { m with imports := imports }.insert object = { m.insert object with imports := imports } := by
  unfold insert
  dsimp only
  split <;> rfl

/-- Objects are declared in the same way whatever the imports are. -/
theorem declareAll_withImports (m : ModuleDefinition)
    (imports : OrderedMap String (List String)) (objects : List ObjectDefinition) :
    { m with imports := imports }.declareAll objects =
      { m.declareAll objects with imports := imports } := by
  induction objects generalizing m with
  | nil => rfl
  | cons object rest ih =>
    rw [declareAll, List.foldl_cons, insert_withImports]
    exact ih (m.insert object)

end ModuleDefinition

namespace Draft

variable {others : ModuleSet} {d : Draft} {behind symbols : List String}

/-- A draft holds what is declared in it, and nothing else. -/
theorem current_readAll (others : ModuleSet) (d : Draft) (behind symbols : List String) :
    ∃ imports, (readAll others d behind symbols).current =
      { d.current.declareAll ((declarations others d behind symbols).map Declaration.object) with
        imports := imports } := by
  induction symbols generalizing d behind with
  | nil => exact ⟨_, rfl⟩
  | cons symbol rest ih =>
    obtain ⟨imports, hrest⟩ := ih (d.read others behind symbol rest) (symbol :: behind)
    refine ⟨imports, ?_⟩
    rw [readAll, hrest, declarations, List.map_append]
    rcases read_cases others d behind symbol rest with ⟨object, hobject, hread⟩ | ⟨hnone, _, hread⟩
    · rw [hobject, hread]
      rfl
    · rw [hnone, hread, ModuleDefinition.declareAll_withImports]
      rfl

/-- Each object stands where its clause led when it was declared. -/
theorem standsAt_of_mem_declarations {declaration : Declaration}
    (h : declaration ∈ declarations others d behind symbols) :
    declaration.object.StandsAt (declaration.object.leadsTo? declaration.known) := by
  induction symbols generalizing d behind with
  | nil => cases h
  | cons symbol rest ih =>
    rcases List.mem_append.mp h with h | h
    · obtain ⟨object, hobject, rfl⟩ := List.mem_map.mp h
      exact standsAt_of_declared? (Option.mem_toList.mp hobject)
    · exact ih h

/-- Before a declaration the clauses of the other modules are known and those of the objects that
were declared before it. -/
theorem known_of_declarations {before after : List Declaration} {declaration : Declaration}
    (h : declarations others d behind symbols = before ++ declaration :: after) :
    declaration.known = clauses others (d.current.declareAll (before.map Declaration.object)) := by
  induction symbols generalizing d behind before with
  | nil => exact absurd h.symm (List.append_ne_nil_of_right_ne_nil _ (List.cons_ne_nil _ _))
  | cons symbol rest ih =>
    rw [declarations] at h
    rcases read_cases others d behind symbol rest with ⟨object, hobject, hread⟩ | ⟨hnone, _, hread⟩
    · rw [hobject, Option.toList_some, List.map_singleton, List.singleton_append] at h
      cases before with
      | nil =>
        obtain ⟨rfl, _⟩ := List.cons.inj h
        rfl
      | cons first before =>
        obtain ⟨rfl, hrest⟩ := List.cons.inj h
        rw [ih hrest, hread]
        rfl
    · rw [hnone, Option.toList_none, List.map_nil, List.nil_append] at h
      rw [ih h, hread, ModuleDefinition.declareAll_withImports]
      exact clauses_congr rfl

end Draft

end Smi
