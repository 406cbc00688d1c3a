import Smi.Cache.Codec
import Smi.Definition.Module

/-!
# The written form of modules

Modules are written field by field in a fixed order: a module as its name, its imports, its objects
and the places of the objects; an object as its name, its module, its macro, its clause, its two
positions and its fields; a field value as the number of its form and the content of that form.
-/

namespace Smi.Codec

/-- The content of an enumeration. -/
def enumeration : Codec (String × OrderedMap Int64 String) :=
  pair text (orderedMap int64 text)

/-- Read the content of a field value of the numbered form. -/
def readForm (form : Nat) (bytes : List UInt8) : Reading FieldValue :=
  match form with
  | 0 => Reading.as .text (text.read bytes)
  | 1 => Reading.as .list ((list text).read bytes)
  | 2 => Reading.as (fun (base, labels) => .enumeration base labels) (enumeration.read bytes)
  | _ => .error .invalidVariant

/-- Field values behind the number of their form: a text is 0, a list 1 and an enumeration 2. -/
def fieldValue : Codec FieldValue where
  write
    | .text content => number32.write 0 ++ text.write content
    | .list items => number32.write 1 ++ (list text).write items
    | .enumeration base labels => number32.write 2 ++ enumeration.write (base, labels)
  read bytes :=
    match number32.read bytes with
    | .ok (form, rest) => readForm form rest
    | .error fault => .error fault

/-- Objects. -/
def object : Codec ObjectDefinition :=
  (pair text <| pair text <| pair (optional text) <| pair (optional text) <|
    pair (optional text) <| pair (optional text) <| orderedMap text fieldValue).convert
    (fun (name, moduleName, macroName, clause, oid, nameSpace, fields) =>
      ⟨name, moduleName, macroName, clause, oid, nameSpace, fields⟩)
    (fun o => (o.name, o.moduleName, o.macroName, o.clause, o.oid, o.nameSpace, o.fields))

/-- Modules. -/
def moduleDefinition : Codec ModuleDefinition :=
  (pair text <| pair (orderedMap text (list text)) <| pair (list object) <|
    orderedMap text number64).convert
    (fun (name, imports, objects, places) => ⟨name, imports, objects, places⟩)
    (fun m => (m.name, m.imports, m.objects, m.places))

/-- Collections of modules. -/
def moduleSet : Codec ModuleSet :=
  (list moduleDefinition).convert ModuleSet.mk ModuleSet.modules

end Smi.Codec
