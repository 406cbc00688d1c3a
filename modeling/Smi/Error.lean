/-!
# Errors

Reading identifiers, registering providers and reading or writing values can fail. Every error
names its cause with the facts of the case, belongs to one of four kinds, and has a message.
-/

namespace Smi

/-- What a provider offers: one value, or the rows of a table. -/
inductive ProviderKind where
  | scalar
  | table
  deriving DecidableEq, Repr

/-- The name of a kind of provider. -/
def ProviderKind.name : ProviderKind → String
  | scalar => "scalar"
  | table => "table"

/-- Why a value cannot be part of a row key. -/
inductive IndexFault where
  | notAnOid
  | notAString
  | notAnIpAddress
  | notAnInteger
  | integerOutOfRange
  | wrongLength (expected found : Nat)
  | tooLong
  deriving DecidableEq, Repr

/-- The wording of the reason why a value cannot be part of a row key. -/
def IndexFault.message : IndexFault → String
  | notAnOid => "expected an object identifier"
  | notAString => "expected a string"
  | notAnIpAddress => "expected an IPv4 address"
  | notAnInteger => "expected an integer"
  | integerOutOfRange => "integer index must be between 0 and 2147483647"
  | wrongLength expected found =>
    "expected " ++ toString expected ++ " components, found " ++ toString found
  | tooLong => "value is too long"

/-- The causes of a failure. -/
inductive Error where
  /-- Nothing is left of an identifier without its empty components. -/
  | emptyOid
  | malformedComponent (component : String)
  | fractionalComponent (component : String)
  | negativeComponent (component : String)
  | componentTooLarge (component : String)
  | invalidFirstComponent (value : Int)
  | invalidSecondComponent (value : Int)
  /-- An index entry has neither a column name nor a column number. -/
  | incompleteIndexEntry (table : String) (position : Nat)
  | invalidIndexValue (column : String) (fault : IndexFault)
  | rowLengthMismatch (table : String) (expected found : Nat)
  | rowKeyLengthMismatch (table : String) (expected found : Nat)
  /-- The numbers behind a column are no row key. -/
  | malformedSuffix (table suffix : String)
  | unknownProvider (name : String)
  | unknownModule (name : String)
  | unknownBaseTable (table base : String)
  | unresolvedIndexColumn (table column : String)
  | unknownColumn (table : String) (column : Nat)
  | missingRow (table suffix : String)
  | unsetScalar (name : String)
  | wrongProviderKind (name : String) (expected found : ProviderKind)
  | nonLeafNode (oid : String)
  | rootNode
  | selfAugment (table : String)
  | indexColumnMismatch (table : String) (position : Nat) (column : String) (actual stated : Nat)
  | duplicateProvider (name : String)
  | occupiedNode (oid provider : String)
  /-- A value would stand on a node with children or below another value. -/
  | valueNodeConflict (oid : String)
  deriving DecidableEq, Repr

/-- The kinds of errors. -/
inductive ErrorKind where
  /-- The input is malformed. -/
  | validation
  /-- Something that is named does not exist. -/
  | reference
  /-- An operation is applied to the wrong kind of provider. -/
  | type
  /-- The operation would break the shape of the tree or of an index. -/
  | structural
  deriving DecidableEq, Repr

/-- The name of a kind of error. -/
def ErrorKind.name : ErrorKind → String
  | validation => "validation"
  | reference => "reference"
  | type => "type"
  | structural => "structural"

namespace Error

/-- The kind of an error. -/
def kind : Error → ErrorKind
  | emptyOid | malformedComponent _ | fractionalComponent _ | negativeComponent _
  | componentTooLarge _ | invalidFirstComponent _ | invalidSecondComponent _
  | incompleteIndexEntry .. | invalidIndexValue .. | rowLengthMismatch ..
  | rowKeyLengthMismatch .. | malformedSuffix .. => .validation
  | unknownProvider _ | unknownModule _ | unknownBaseTable .. | unresolvedIndexColumn ..
  | unknownColumn .. | missingRow .. | unsetScalar _ => .reference
  | wrongProviderKind .. => .type
  | nonLeafNode _ | rootNode | selfAugment _ | indexColumnMismatch .. | duplicateProvider _
  | occupiedNode .. | valueNodeConflict _ => .structural

/-- A name as it is shown in a message. -/
def shown (name : String) : String :=
  "`" ++ name ++ "`"

/-- The message of an error. -/
def message : Error → String
  | emptyOid => "object identifier is empty"
  | malformedComponent component =>
    "object identifier component " ++ shown component ++ " is malformed"
  | fractionalComponent component =>
    "object identifier component " ++ shown component ++ " is not an integer"
  | negativeComponent component =>
    "object identifier component " ++ shown component ++ " is negative"
  | componentTooLarge component =>
    "object identifier component " ++ shown component ++ " exceeds 2147483647"
  | invalidFirstComponent value =>
    "object identifier must begin with 0, 1 or 2, found " ++ toString value
  | invalidSecondComponent value =>
    "object identifier second component " ++ toString value ++ " exceeds 39"
  | incompleteIndexEntry table position =>
    "index entry " ++ toString position ++ " of table " ++ shown table ++
      " has no column name or number"
  | invalidIndexValue column fault =>
    "value for index column " ++ shown column ++ " cannot be encoded: " ++ fault.message
  | rowLengthMismatch table expected found =>
    "row for table " ++ shown table ++ " has " ++ toString found ++ " values, expected " ++
      toString expected
  | rowKeyLengthMismatch table expected found =>
    "row key for table " ++ shown table ++ " has " ++ toString found ++ " values, expected " ++
      toString expected
  | malformedSuffix table suffix =>
    "instance suffix " ++ shown suffix ++ " does not decode against the index of " ++ shown table
  | unknownProvider name => "provider " ++ shown name ++ " is not registered"
  | unknownModule name => "module " ++ shown name ++ " has not been compiled"
  | unknownBaseTable table base =>
    "table " ++ shown table ++ " augments unregistered table " ++ shown base
  | unresolvedIndexColumn table column =>
    "index column " ++ shown column ++ " of table " ++ shown table ++ " cannot be resolved"
  | unknownColumn table column => "table " ++ shown table ++ " has no column " ++ toString column
  | missingRow table suffix =>
    "table " ++ shown table ++ " has no row at instance " ++ shown suffix
  | unsetScalar name => "scalar " ++ shown name ++ " has no value"
  | wrongProviderKind name expected found =>
    "provider " ++ shown name ++ " is a " ++ found.name ++ ", expected a " ++ expected.name
  | nonLeafNode oid => "node " ++ shown oid ++ " has children and cannot be removed"
  | rootNode => "the root node cannot be removed"
  | selfAugment table => "table " ++ shown table ++ " cannot augment itself"
  | indexColumnMismatch table position column actual stated =>
    "index entry " ++ toString position ++ " of table " ++ shown table ++
      " contradicts column " ++ shown column ++ ": column is number " ++ toString actual ++
      ", entry says " ++ toString stated
  | duplicateProvider name => "provider " ++ shown name ++ " is already registered"
  | occupiedNode oid provider =>
    "node " ++ shown oid ++ " already carries provider " ++ shown provider
  | valueNodeConflict oid =>
    "node " ++ shown oid ++ " cannot hold a value and children at the same time"

end Error

end Smi
