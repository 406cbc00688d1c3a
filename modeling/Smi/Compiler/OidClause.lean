import Smi.Text.Blank
import Smi.Text.Numeral

/-!
# Object identifier clauses

The clause of an object names its parent and the numbers that lead from the parent to the object.
A number may carry a label, as in `dod(6)`. The path of an object is found by climbing from parent
to parent until one of the three root names is reached; a parent that is unknown, that has no
readable clause or that comes back while climbing leaves the object without a path.
-/

namespace Smi

/-- A step of a clause: a number, and the label written before it. -/
structure ClauseArc where
  label : Option String
  number : Nat
  deriving DecidableEq, Repr

/-- A parent and the steps down from it. -/
structure OidClause where
  parent : String
  arcs : List ClauseArc
  deriving DecidableEq, Repr

/-- A step of a path: the number and the name of an object tree node. -/
structure PathStep where
  number : Nat
  name : String
  deriving DecidableEq, Repr

namespace OidClause

/-- Join every word that begins with a round bracket to the word before it. -/
def joinBracketed : List String → List String
  | [] => []
  | first :: rest => extend first rest
where
  /-- Extend a word by the bracketed words behind it. -/
  extend (word : String) : List String → List String
    | [] => [word]
    | next :: rest =>
      if Text.beginsWith '(' next then extend (word ++ next) rest else word :: extend next rest

/-- Read a number, or a label with a number in round brackets. -/
def readArc? (word : String) : Option ClauseArc :=
  match Text.readBelow? Text.bound32 word with
  | some number => some ⟨none, number⟩
  | none =>
    match word.toList.dropWhile (· ≠ '(') with
    | _ :: inside =>
      if inside.getLast? = some ')' then
        let label := String.ofList (word.toList.takeWhile (· ≠ '('))
        let number := Text.trim (String.ofList inside.dropLast)
        (Text.readBelow? Text.bound32 number).map fun number =>
          ⟨if label.isEmpty then none else some label, number⟩
      else none
    | [] => none

/-- Read a clause. A bracketed number behind the parent is no step. -/
def read? (clause : String) : Option OidClause :=
  match joinBracketed (Text.words clause) with
  | [] => none
  | first :: rest =>
    (rest.mapM readArc?).map fun arcs =>
      ⟨String.ofList (first.toList.takeWhile (· ≠ '(')), arcs⟩

/-- The number of a root name. -/
def rootNumber? : String → Option Nat
  | "ccitt" => some 0
  | "iso" => some 1
  | "joint-iso-ccitt" => some 2
  | _ => none

/-- A step of a clause that is not the last one. Without a label it is named by its number. -/
def ClauseArc.step (arc : ClauseArc) : PathStep :=
  ⟨arc.number, arc.label.getD (toString arc.number)⟩

/-- The steps from the parent down to an object of the given name. The last step carries that name
whatever its own label, and a clause without steps leads nowhere. -/
def steps? (clause : OidClause) (name : String) : Option (List PathStep) :=
  clause.arcs.getLast?.map fun last =>
    clause.arcs.dropLast.map ClauseArc.step ++ [⟨last.number, name⟩]

/-- The clauses of the objects known so far, in the order of their declaration. -/
abbrev Clauses := List (String × String)

/-- The path from a root to an object, climbing at most `limit` clauses and no parent twice. -/
def climb? (clauses : Clauses) (limit : Nat) (passed : List String) (clause name : String) :
    Option (List PathStep) :=
  match limit with
  | 0 => none
  | limit + 1 => do
    let clause ← read? clause
    let steps ← clause.steps? name
    match rootNumber? clause.parent with
    | some number => return ⟨number, clause.parent⟩ :: steps
    | none =>
      if clause.parent ∈ passed then none
      else
        let above ← clauses.lookup clause.parent
        let path ← climb? clauses limit (clause.parent :: passed) above clause.parent
        return path ++ steps

/-- The path from a root to the object of a name and a clause. Among objects of one name the clause
of the one declared first leads upwards. A path without repetition passes every known clause at
most once, which bounds the climb. -/
def path? (clauses : Clauses) (clause name : String) : Option (List PathStep) :=
  climb? clauses (clauses.length + 1) [] clause name

/-- The dotted numbers of a path. -/
def dottedNumbers (path : List PathStep) : String :=
  ".".intercalate (path.map fun step => toString step.number)

/-- The dotted names of a path. -/
def dottedNames (path : List PathStep) : String :=
  ".".intercalate (path.map PathStep.name)

end OidClause

end Smi
