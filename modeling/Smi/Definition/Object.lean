import Smi.Definition.Field
import Smi.Text.Blank
import Smi.Text.Numeral

/-!
# Object definitions

An object definition is one compiled declaration: a registered object with its position in the
object tree and its fields, a textual convention, or a plain type assignment. Positions are kept as
the dotted numbers and the dotted names on the way from the root.
-/

namespace Smi

/-- A reference to an index column. -/
structure IndexItem where
  column : String
  /-- The last component of the index is written without its length. -/
  implied : Bool
  deriving DecidableEq, Repr

/-- Read one item of an index list: the column is its last word, and a leading `IMPLIED` marks
it. -/
def IndexItem.read? (item : String) : Option IndexItem :=
  match Text.words item with
  | [] => none
  | first :: others =>
    let column := others.getLast?.getD first
    some ⟨column, first = "IMPLIED" && column ≠ first⟩

/-- A compiled declaration. -/
structure ObjectDefinition where
  name : String
  moduleName : String
  /-- The invoked macro, or the symbol after `::=` of a plain assignment. -/
  macroName : Option String
  /-- The text between the braces behind `::=`. -/
  clause : Option String
  /-- The dotted numbers from the root to the object. -/
  oid : Option String
  /-- The dotted names from the root to the object. -/
  nameSpace : Option String
  fields : OrderedMap String FieldValue
  deriving DecidableEq

namespace ObjectDefinition

/-- A declaration of which only the name and the module are known. -/
def bare (name moduleName : String) : ObjectDefinition :=
  ⟨name, moduleName, none, none, none, none, .empty⟩

instance : Inhabited ObjectDefinition :=
  ⟨bare "" ""⟩

/-- The value of a field. -/
def field? (object : ObjectDefinition) (key : String) : Option FieldValue :=
  object.fields.get? key

/-- The `SYNTAX` field. -/
def type? (object : ObjectDefinition) : Option FieldValue :=
  object.field? "SYNTAX"

/-- The text of the `STATUS` field. -/
def status? (object : ObjectDefinition) : Option String :=
  (object.field? "STATUS").bind FieldValue.text?

/-- The text of the `DESCRIPTION` field. -/
def description? (object : ObjectDefinition) : Option String :=
  (object.field? "DESCRIPTION").bind FieldValue.text?

/-- The columns of the `INDEX` field. -/
def index (object : ObjectDefinition) : List IndexItem :=
  match object.field? "INDEX" with
  | some (.list items) => items.filterMap IndexItem.read?
  | some (.text item) => (IndexItem.read? item).toList
  | _ => []

/-- The entry named by the `AUGMENTS` field. -/
def augments? (object : ObjectDefinition) : Option String :=
  let base := match object.field? "AUGMENTS" with
    | some (.list items) => items.head?
    | some (.text content) => some content
    | _ => none
  (base.map Text.trim).filter fun name => !name.isEmpty

/-- The first word of the clause, which names the parent. -/
def clauseParent? (object : ObjectDefinition) : Option String :=
  object.clause.bind fun clause => (Text.words clause).head?

/-- The second word of the clause, if it is a number. -/
def clauseArc? (object : ObjectDefinition) : Option Nat :=
  object.clause.bind fun clause => (Text.words clause)[1]?.bind (Text.readBelow? Text.bound32)

/-- The object at a position of the object tree. -/
def placed (object : ObjectDefinition) (oid nameSpace : String) : ObjectDefinition :=
  { object with oid := some oid, nameSpace := some nameSpace }

/-- The object with a field set. -/
def withField (object : ObjectDefinition) (key : String) (value : FieldValue) : ObjectDefinition :=
  { object with fields := object.fields.insert key value }

end ObjectDefinition

end Smi
