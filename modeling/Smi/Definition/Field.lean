import Smi.OrderedMap

/-!
# Field values

A field of a compiled object holds a text, the items of a braced list, or an enumeration of codes
and labels. The type name of a field is what it refers to when it stands behind `SYNTAX`.
-/

namespace Smi

/-- The value of one field of an object. -/
inductive FieldValue where
  | text (content : String)
  | list (items : List String)
  | enumeration (base : String) (labels : OrderedMap Int64 String)
  deriving DecidableEq, Inhabited

namespace FieldValue

/-- The content of a text. -/
def text? : FieldValue → Option String
  | text content => some content
  | _ => none

/-- The name of the type that the value refers to. An enumeration refers to its base type and a list
to none. -/
def typeName? : FieldValue → Option String
  | text content => some content
  | enumeration base _ => some base
  | list _ => none

end FieldValue

end Smi
