import Smi.Compiler.Capture
import Smi.Compiler.OidClause
import Smi.Compiler.Template
import Smi.Definition.Module

/-!
# Compiling the symbols of a module

The symbols of a module are read from first to last. Three of them act: `::=` declares what the
symbols around it describe, `END` closes an open macro definition, and `IMPORTS` opens a list of
imported symbols. A draft is the module as far as it has been read. Compiling never fails; what
cannot be resolved is left out of an object.
-/

namespace Smi

/-- What an import clause has gathered. -/
inductive Importing where
  /-- Outside an import clause. -/
  | none
  /-- The symbols gathered for the next module name, the newest first. -/
  | symbols (gathered : List String)
  /-- The same after `FROM`: the next symbol is the module name. -/
  | source (gathered : List String)
  deriving DecidableEq, Repr

/-- A module as far as its symbols have been read. -/
structure Draft where
  current : ModuleDefinition
  /-- The macros that are known so far, whatever module defines them. -/
  macros : OrderedMap String MacroTemplate
  /-- The macro definition that has not been closed yet. -/
  scope : Option MacroTemplate
  importing : Importing
  deriving DecidableEq

namespace Draft

/-- The draft of a module of which nothing has been read. -/
def start (name : String) (macros : OrderedMap String MacroTemplate) : Draft :=
  ⟨.named name, macros, none, .none⟩

/-- The draft with one more object. -/
def declare (d : Draft) (object : ObjectDefinition) : Draft :=
  { d with current := d.current.insert object }

/-- The clauses of objects by name, those of other modules first. -/
def clauses (others : ModuleSet) (m : ModuleDefinition) : OidClause.Clauses :=
  (others.objects ++ m.objects).filterMap fun object => object.clause.map (object.name, ·)

/-- The object at the position to which its clause leads, or the object as it is. -/
def settle (clauses : OidClause.Clauses) (clause : String) (object : ObjectDefinition) :
    ObjectDefinition :=
  match OidClause.path? clauses clause object.name with
  | some path => object.placed (OidClause.dottedNumbers path) (OidClause.dottedNames path)
  | none => object

/-- The keywords that the invocations of some modules use although the text of the macros leaves
them out. -/
def impliedItems : String → List (String × String)
  | "SNMPv2-SMI" => [("INDEX", "Index"), ("AUGMENTS", "Augments")]
  | "RFC-1212" => [("INDEX", "Index")]
  | _ => []

/-- Read a clause of the open macro definition from the symbols behind its `::=`. -/
def readMacroClause (d : Draft) (isType : Bool) (rest : List String) : Draft :=
  match d.scope with
  | none => d
  | some template =>
    let items := TemplateItem.ofSymbols rest
    let template :=
      if isType then { template with typeItems := items } else { template with valueItems := items }
    let template := (impliedItems d.current.name).foldl
      (fun template item => template.withTypeItem item.1 item.2) template
    { d with scope := some template }

/-- Declare what a name stands for by the symbols behind `::=`. Inside a macro definition it is a
production. -/
def declarePlain (d : Draft) (name value : String) (rest : List String) : Draft :=
  match d.scope with
  | some template => { d with scope := some (template.withProduction name) }
  | none =>
    let object := { ObjectDefinition.bare name d.current.name with macroName := some value }
    let type := if d.macros.contains value then Capture.trailingType? rest else none
    d.declare (match type with
      | some type => object.withField "SYNTAX" type
      | none => object)

/-- Act on `::=` with a symbol behind it that opens no brace. -/
def assignPlain (d : Draft) (behind : List String) (value : String) (rest : List String) : Draft :=
  match behind with
  | [] => d
  | "DEFINITIONS" :: _ => d
  | "OBJECT IDENTIFIER" :: _ => d
  | "MACRO" :: name :: _ => { d with scope := some (.named name) }
  | ["MACRO"] => d
  | "TYPE NOTATION" :: _ => d.readMacroClause true rest
  | "VALUE NOTATION" :: _ => d.readMacroClause false rest
  | name :: _ => d.declarePlain name value rest

/-- What is declared before the braces of a clause. -/
structure Subject where
  name : String
  /-- The invoked macro and the symbols between it and `::=`. -/
  invoked : Option (String × List String)
  deriving DecidableEq, Repr

/-- The nearest known macro before a clause and the symbols on its two sides: those before it from
right to left, those behind it from left to right. -/
def invocation? (macros : OrderedMap String MacroTemplate) (fields : List String) :
    List String → Option (List String × String × List String)
  | [] => none
  | symbol :: before =>
    if macros.contains symbol then some (before, symbol, fields)
    else invocation? macros (symbol :: fields) before

/-- What the symbols before `::=` declare, read from right to left. It is a bare position, or the
nearest invocation of a known macro that does not end right before `::=`. -/
def subject? (d : Draft) : List String → Option Subject
  | [] => none
  | "OBJECT IDENTIFIER" :: behind => behind.head?.map fun name => ⟨name, none⟩
  | last :: behind =>
    (invocation? d.macros [last] behind).bind fun (before, invoked, fields) =>
      before.head?.map fun name => ⟨name, some (invoked, fields)⟩

/-- The fields of an invocation by the keywords of its macro. -/
def invocationFields (d : Draft) (invoked : String) (symbols : List String) :
    OrderedMap String FieldValue :=
  match d.macros.get? invoked with
  | some template => Capture.fieldMap template.keychain symbols
  | none => .empty

/-- Act on `::=` with a braced clause behind it. Inside a macro definition the declared name is a
production. The clause `0 0` stands for the null object identifier. -/
def assignClause (others : ModuleSet) (d : Draft) (behind : List String) (braced : String) :
    Draft :=
  let clause := Text.trim (Text.removeFirst '}' (Text.removeFirst '{' braced))
  match d.subject? behind with
  | none => d
  | some subject =>
    match d.scope with
    | some template => { d with scope := some (template.withProduction subject.name) }
    | none =>
      let object := ObjectDefinition.bare subject.name d.current.name
      let object := match subject.invoked with
        | some (invoked, symbols) =>
          { object with
            macroName := some invoked
            fields := d.invocationFields invoked symbols }
        | none => object
      let object :=
        if clause = "0 0" then object.placed "0.0" "null"
        else settle (clauses others d.current) clause object
      d.declare { object with clause := some clause }

/-- Act on `::=` between the symbols before it, from right to left, and the symbols behind it. -/
def assign (others : ModuleSet) (d : Draft) (behind rest : List String) : Draft :=
  match rest with
  | [] => d
  | next :: _ =>
    if Text.beginsWith '{' next then assignClause others d behind next
    else d.assignPlain behind next rest

/-- Close the open macro definition and make the macro known. -/
def endScope (d : Draft) : Draft :=
  match d.scope with
  | some template => { d with scope := none, macros := d.macros.insert template.name template }
  | none => d

/-- Read one symbol of an import clause. The symbols gathered before `FROM` are bound to the module
named behind it, and a later group of the same module replaces an earlier one. -/
def readImport (d : Draft) (symbol : String) : Draft :=
  match d.importing with
  | .source gathered =>
    { d with
      current := { d.current with
        imports := d.current.imports.insert symbol gathered.reverse }
      importing := .symbols [] }
  | .symbols gathered =>
    match symbol with
    | ";" => { d with importing := .none }
    | "FROM" => { d with importing := .source gathered }
    | "," => d
    | symbol => { d with importing := .symbols (symbol :: gathered) }
  | .none => d

/-- Read one symbol between the symbols before it, from right to left, and those behind it. -/
def read (others : ModuleSet) (d : Draft) (behind : List String) (symbol : String)
    (rest : List String) : Draft :=
  if d.importing ≠ .none then d.readImport symbol
  else match symbol with
    | "::=" => d.assign others behind rest
    | "END" => d.endScope
    | "IMPORTS" => { d with importing := .symbols [] }
    | _ => d

/-- Read all symbols, given those already read from right to left. -/
def readAll (others : ModuleSet) (d : Draft) (behind : List String) : List String → Draft
  | [] => d
  | symbol :: rest => readAll others (d.read others behind symbol rest) (symbol :: behind) rest

/-- The finished module: objects whose parents are declared after them are given their positions. -/
def finish (others : ModuleSet) (d : Draft) : ModuleDefinition :=
  let known := clauses others d.current
  { d.current with
    objects := d.current.objects.map fun object =>
      match object.oid, object.clause with
      | none, some clause => settle known clause object
      | _, _ => object }

end Draft

end Smi
