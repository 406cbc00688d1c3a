import Smi.Compiler.Draft
import Smi.Symbol.Scanner

/-!
# Compilers

A compiler keeps the units that wait for compilation, the modules compiled so far and the macros
they define. A macro is known to every module compiled after it, so base modules come first.
Compiling a module again replaces it and makes it the newest one.
-/

namespace Smi

/-- The state of a compilation. -/
structure Compiler where
  /-- Units that wait for compilation, the oldest first. -/
  pending : List SymbolTable
  modules : ModuleSet
  macros : OrderedMap String MacroTemplate
  deriving DecidableEq

namespace Compiler

/-- The compiler without modules and macros. -/
def empty : Compiler :=
  ⟨[], .empty, .empty⟩

instance : Inhabited Compiler :=
  ⟨empty⟩

/-- Queue a unit. -/
def queue (compiler : Compiler) (table : SymbolTable) : Compiler :=
  { compiler with pending := compiler.pending ++ [table] }

/-- Compile one unit. While a module is compiled, its earlier version does not count. -/
def compileTable (compiler : Compiler) (table : SymbolTable) : Compiler :=
  let others := compiler.modules.erase table.moduleName
  let draft := Draft.readAll others (.start table.moduleName compiler.macros) []
    table.compileSequence
  { compiler with
    modules := others.insert (draft.finish others)
    macros := draft.macros }

/-- Compile all queued units in the order of the queue. -/
def compileAll (compiler : Compiler) : Compiler :=
  compiler.pending.foldl compileTable { compiler with pending := [] }

/-- The compiler with texts queued, each under the name of its unit. -/
def ofSources (sources : List (String × String)) : Compiler :=
  sources.foldl (fun compiler source => compiler.queue (.ofText source.1 source.2)) empty

end Compiler

/-- The modules compiled from texts, each under the name of its unit. -/
def ModuleSet.ofSources (sources : List (String × String)) : ModuleSet :=
  (Compiler.ofSources sources).compileAll.modules

end Smi
