import Smi.Definition.Module

/-!
# Looking up objects

An identifier is the dotted numbers or the dotted names of an object, of something below an object,
or the bare name of an object. The forms are tried in this order, and where several modules have an
answer the one compiled last gives it.
-/

namespace Smi

/-- Whether the text is `whole`, or `whole` begins with it and a point. -/
def isDottedStart (start whole : String) : Bool :=
  start.toList.isPrefixOf whole.toList &&
    ((whole.toList.drop start.length).isEmpty || (whole.toList.drop start.length).head? == some '.')

/-- Whether an identifier consists of numerals between points. -/
def isNumeric (identifier : String) : Bool :=
  (Text.pieces (· == '.') identifier.toList).all Text.isNumeral

namespace ModuleSet

/-- The objects of the newest module in the order of their declaration, then those of the modules
before it. -/
def newestFirst (set : ModuleSet) : List ObjectDefinition :=
  set.modules.reverse.flatMap ModuleDefinition.objects

/-- The candidate with the longest label, of several the first. -/
def longest : List (String × ObjectDefinition) → Option (String × ObjectDefinition)
  | [] => none
  | candidate :: rest =>
    match longest rest with
    | some best =>
      if candidate.1.length < best.1.length then some best else some candidate
    | none => some candidate

/-- The object whose dotted position is the longest start of an identifier. -/
def lookupAbove? (set : ModuleSet) (identifier : String) : Option ObjectDefinition :=
  let position (object : ObjectDefinition) : Option String :=
    if isNumeric identifier then object.oid else object.nameSpace
  let candidates := set.newestFirst.filterMap fun object =>
    ((position object).filter (isDottedStart · identifier)).map (·, object)
  (longest candidates).map Prod.snd

/-- The object that an identifier stands for. -/
def lookup? (set : ModuleSet) (identifier : String) : Option ObjectDefinition :=
  let identifier := Text.trim identifier
  if identifier.isEmpty then none
  else
    set.newestFirst.find? (fun object => object.oid = some identifier)
      <|> set.newestFirst.find? (fun object => object.nameSpace = some identifier)
      <|> set.lookupAbove? identifier
      <|> set.newestFirst.find? (fun object => object.name = identifier)

end ModuleSet

end Smi
