import Smi.Text.Blank

/-!
# Macro templates

A macro definition lists the keywords of its two clauses. The keywords of the type clause that come
with a literal introduce the fields of an invocation; a keyword without one stands for a production
that each invocation may supply. Keywords are listed in the order of their first occurrence.
-/

namespace Smi

/-- A keyword of a macro clause and the literal that goes with it. -/
structure TemplateItem where
  keyword : String
  literal : Option String
  deriving DecidableEq, Repr, Inhabited

namespace TemplateItem

/-- Add an item at the end, or give the listed item of that keyword the new literal. -/
def upsert (items : List TemplateItem) (item : TemplateItem) : List TemplateItem :=
  match items with
  | [] => [item]
  | first :: rest =>
    if first.keyword = item.keyword then item :: rest else first :: upsert rest item

/-- Whether a symbol ends a clause. -/
def endsClause (symbol : String) : Bool :=
  symbol = "::=" || symbol = "END"

/-- The items of a clause, repetitions included. A quoted keyword takes the next symbol as its
literal, or the symbol after that one when it is parenthesised. A bare symbol takes a parenthesised
symbol that follows it. The clause ends at `END` or before the name of the next production, which
is the symbol before the next `::=`. -/
def occurrences : List String → List TemplateItem
  | symbol :: next :: rest =>
    if endsClause symbol || endsClause next then []
    else if Text.beginsWith '"' symbol then
      match rest with
      | third :: later =>
        if Text.beginsWith '(' third then
          ⟨Text.remove '"' symbol, some third⟩ :: occurrences later
        else ⟨Text.remove '"' symbol, some next⟩ :: occurrences (third :: later)
      | [] => [⟨Text.remove '"' symbol, some next⟩]
    else if Text.beginsWith '(' next then ⟨symbol, some next⟩ :: occurrences rest
    else ⟨symbol, none⟩ :: occurrences (next :: rest)
  | _ => []

/-- The items of a clause, each keyword once and with its last literal. -/
def ofSymbols (symbols : List String) : List TemplateItem :=
  (occurrences symbols).foldl upsert []

end TemplateItem

/-- A compiled macro definition. -/
structure MacroTemplate where
  name : String
  typeItems : List TemplateItem
  valueItems : List TemplateItem
  /-- The names of the productions assigned in the macro body. -/
  productions : List String
  deriving DecidableEq, Repr, Inhabited

namespace MacroTemplate

/-- The template before its clauses are read. -/
def named (name : String) : MacroTemplate :=
  ⟨name, [], [], []⟩

/-- The keywords that introduce fields in an invocation, each once: `DESCRIPTION` and the type
keywords with a literal. -/
def keychain (template : MacroTemplate) : List String :=
  (template.typeItems.filter fun item => item.literal.isSome).foldl
    (fun keys item => if item.keyword ∈ keys then keys else keys ++ [item.keyword])
    ["DESCRIPTION"]

/-- The template with a keyword of the type clause set. -/
def withTypeItem (template : MacroTemplate) (keyword literal : String) : MacroTemplate :=
  { template with typeItems := TemplateItem.upsert template.typeItems ⟨keyword, some literal⟩ }

/-- The template with one more production. -/
def withProduction (template : MacroTemplate) (name : String) : MacroTemplate :=
  { template with productions := template.productions ++ [name] }

end MacroTemplate

end Smi
