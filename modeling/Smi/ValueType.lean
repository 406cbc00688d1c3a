import Smi.Definition.Module

/-!
# Types of values

Every value on the wire has one of eleven types. A type name stands for one of them either because
it is built in or because a textual convention defines it. Conventions are collected in the order of
compilation: one counts if its own `SYNTAX` is already understood, and the first definition of a
name stays.
-/

namespace Smi

/-- The type of a value on the wire. -/
inductive ValueType where
  | boolean
  | integer
  | octetString
  | null
  | objectIdentifier
  | ipAddress
  | counter
  | gauge
  | timeTicks
  | opaqueOctets
  | counter64
  deriving DecidableEq, Repr, Inhabited

namespace ValueType

/-- The display name of a type. -/
def name : ValueType → String
  | boolean => "Boolean"
  | integer => "Integer"
  | octetString => "OctetString"
  | null => "Null"
  | objectIdentifier => "OID"
  | ipAddress => "IpAddress"
  | counter => "Counter"
  | gauge => "Gauge"
  | timeTicks => "TimeTicks"
  | opaqueOctets => "Opaque"
  | counter64 => "Counter64"

/-- The number of a type in the basic encoding rules. -/
def tag : ValueType → Nat
  | boolean => 1
  | integer => 2
  | octetString => 4
  | null => 5
  | objectIdentifier => 6
  | ipAddress => 64
  | counter => 65
  | gauge => 66
  | timeTicks => 67
  | opaqueOctets => 68
  | counter64 => 70

/-- The type of a built-in name: the base types, the application types and the common textual
conventions. -/
def ofBuiltin? : String → Option ValueType
  | "Boolean" => some boolean
  | "Integer" | "INTEGER" | "Integer32" => some integer
  | "OctetString" | "OCTET STRING" | "BITS" => some octetString
  | "Null" | "NULL" => some null
  | "OID" | "OBJECT IDENTIFIER" => some objectIdentifier
  | "IpAddress" | "NetworkAddress" => some ipAddress
  | "Counter" | "Counter32" => some counter
  | "Gauge" | "Gauge32" | "Unsigned32" => some gauge
  | "TimeTicks" | "TimeStamp" => some timeTicks
  | "Opaque" => some opaqueOctets
  | "Counter64" => some counter64
  | "AutonomousType" | "InstancePointer" | "RowPointer" | "TDomain" | "VariablePointer" =>
    some objectIdentifier
  | "DateAndTime" | "DisplayString" | "MacAddress" | "PhysAddress" | "TAddress" =>
    some octetString
  | "RowStatus" | "StorageType" | "TestAndIncr" | "TruthValue" => some integer
  | _ => none

end ValueType

/-- The types of the textual conventions of a collection of modules. -/
structure Conventions where
  types : OrderedMap String ValueType
  deriving DecidableEq

namespace Conventions

/-- No conventions: built-in names alone are understood. -/
def builtin : Conventions :=
  ⟨.empty⟩

/-- The type of a name; a built-in name cannot be defined again. -/
def get? (conventions : Conventions) (name : String) : Option ValueType :=
  ValueType.ofBuiltin? name <|> conventions.types.get? name

/-- The type of a `SYNTAX` value. Enumerations are integers and lists have no type. -/
def typeOf? (conventions : Conventions) : FieldValue → Option ValueType
  | .enumeration _ _ => some .integer
  | .text name => conventions.get? name
  | .list _ => none

/-- Take in one object. It counts if it is a textual convention whose name has no type yet and whose
`SYNTAX` has one. -/
def add (conventions : Conventions) (object : ObjectDefinition) : Conventions :=
  if object.macroName ≠ some "TEXTUAL-CONVENTION" || (conventions.get? object.name).isSome then
    conventions
  else match object.type?.bind conventions.typeOf? with
    | some type => ⟨conventions.types.insert object.name type⟩
    | none => conventions

/-- The conventions of all modules, in the order of compilation. -/
def ofModules (set : ModuleSet) : Conventions :=
  set.objects.foldl add builtin

end Conventions

end Smi
