import Smi.Definition.Object

/-!
# Compiled modules

A module lists its objects in the order of their declaration and knows the place of each by name; a
second declaration of a name takes the place of the first. A collection of modules is kept in the
order of compilation, and a module compiled again moves to the end.
-/

namespace Smi

/-- The objects and imports of one module. -/
structure ModuleDefinition where
  name : String
  /-- The imported symbols under the name of the module that they come from. -/
  imports : OrderedMap String (List String)
  objects : List ObjectDefinition
  /-- The place of each object in the list. -/
  places : OrderedMap String Nat
  deriving DecidableEq, Inhabited

namespace ModuleDefinition

/-- The module without objects and imports. -/
def named (name : String) : ModuleDefinition :=
  ⟨name, .empty, [], .empty⟩

/-- The object declared under a name. -/
def object? (m : ModuleDefinition) (name : String) : Option ObjectDefinition :=
  (m.places.get? name).bind fun place => m.objects[place]?

/-- The number of objects. -/
def size (m : ModuleDefinition) : Nat :=
  m.objects.length

/-- Whether the module declares no object. -/
def isEmpty (m : ModuleDefinition) : Bool :=
  m.objects.isEmpty

/-- The module with one more object, or with a declared object replaced in its place. -/
def insert (m : ModuleDefinition) (object : ObjectDefinition) : ModuleDefinition :=
  match m.places.get? object.name with
  | some place => { m with objects := m.objects.set place object }
  | none =>
    { m with
      objects := m.objects ++ [object]
      places := m.places.insert object.name m.objects.length }

end ModuleDefinition

/-- Compiled modules, the oldest first. -/
structure ModuleSet where
  modules : List ModuleDefinition
  deriving DecidableEq, Inhabited

namespace ModuleSet

/-- The collection without modules. -/
def empty : ModuleSet :=
  ⟨[]⟩

/-- The module of a name. -/
def module? (set : ModuleSet) (name : String) : Option ModuleDefinition :=
  set.modules.find? fun m => m.name = name

/-- Whether a module of a name is present. -/
def contains (set : ModuleSet) (name : String) : Bool :=
  (set.module? name).isSome

/-- The number of modules. -/
def size (set : ModuleSet) : Nat :=
  set.modules.length

/-- Whether there is no module. -/
def isEmpty (set : ModuleSet) : Bool :=
  set.modules.isEmpty

/-- The collection without the module of a name. -/
def erase (set : ModuleSet) (name : String) : ModuleSet :=
  ⟨set.modules.eraseP fun m => m.name = name⟩

/-- The collection with a module at its end, in place of any other of the same name. -/
def insert (set : ModuleSet) (m : ModuleDefinition) : ModuleSet :=
  ⟨(set.erase m.name).modules ++ [m]⟩

/-- All objects in the order of compilation. -/
def objects (set : ModuleSet) : List ObjectDefinition :=
  set.modules.flatMap ModuleDefinition.objects

end ModuleSet

end Smi
