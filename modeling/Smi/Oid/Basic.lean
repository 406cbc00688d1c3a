import Smi.Error

/-!
# Object identifiers

An object identifier is a list of arcs, the way from the root of the object tree. The first arc is
at most 2, the second at most 39 and every arc at most 2147483647; the type admits no other lists.
Identifiers are ordered by their first differing arc, and a proper start comes before its
extensions.
-/

namespace Smi

namespace Oid

/-- The largest arc. -/
def maxArc : Nat :=
  2147483647

/-- Whether a number may be the arc at a position. -/
def Admissible (position arc : Nat) : Prop :=
  arc ≤ maxArc ∧ (position = 0 → arc ≤ 2) ∧ (position = 1 → arc ≤ 39)

instance (position arc : Nat) : Decidable (Admissible position arc) :=
  inferInstanceAs (Decidable (_ ∧ _ ∧ _))

/-- Whether numbers may be the arcs from a position on. -/
def AdmissibleFrom (position : Nat) : List Nat → Prop
  | [] => True
  | arc :: rest => Admissible position arc ∧ AdmissibleFrom (position + 1) rest

/-- Admissibility of two runs of arcs, the second behind the first. -/
theorem admissibleFrom_append {position : Nat} {first second : List Nat} :
    AdmissibleFrom position (first ++ second) ↔
      AdmissibleFrom position first ∧ AdmissibleFrom (position + first.length) second := by
  induction first generalizing position with
  | nil => simp [AdmissibleFrom]
  | cons arc rest ih =>
    simp only [List.cons_append, AdmissibleFrom, ih, List.length_cons, and_assoc]
    rw [Nat.add_right_comm position 1, Nat.add_assoc]

end Oid

/-- A list of arcs within the bounds on the first, the second and every arc. -/
structure Oid where
  arcs : List Nat
  admissible : Oid.AdmissibleFrom 0 arcs

namespace Oid

instance : DecidableEq Oid := fun a b =>
  decidable_of_iff (a.arcs = b.arcs) ⟨fun h => by cases a; cases b; cases h; rfl, fun h => h ▸ rfl⟩

/-- Identifiers with the same arcs are equal. -/
@[ext] theorem ext {a b : Oid} (h : a.arcs = b.arcs) : a = b := by
  cases a
  cases b
  cases h
  rfl

/-- The identifier of the root. -/
def root : Oid :=
  ⟨[], trivial⟩

instance : Inhabited Oid :=
  ⟨root⟩

instance : LT Oid :=
  ⟨fun a b => a.arcs < b.arcs⟩

instance : DecidableLT Oid := fun a b =>
  inferInstanceAs (Decidable (a.arcs < b.arcs))

/-- The number of arcs. -/
def length (oid : Oid) : Nat :=
  oid.arcs.length

/-- Whether the identifier is that of the root. -/
def isRoot (oid : Oid) : Bool :=
  oid.arcs.isEmpty

/-- Numbers separated by points. -/
def dottedArcs (arcs : List Nat) : String :=
  ".".intercalate (arcs.map toString)

/-- The arcs separated by points. -/
def dotted (oid : Oid) : String :=
  dottedArcs oid.arcs

/-- The first arcs of an identifier. -/
def take (oid : Oid) (count : Nat) : Oid :=
  ⟨oid.arcs.take count, by
    have h := oid.admissible
    rw [← List.take_append_drop count oid.arcs] at h
    exact (admissibleFrom_append.mp h).1⟩

/-- The identifier without its last arc; the root has no parent. -/
def parent? (oid : Oid) : Option Oid :=
  if oid.isRoot then none else some (oid.take (oid.length - 1))

/-- The last arc. -/
def lastArc? (oid : Oid) : Option Nat :=
  oid.arcs.getLast?

/-- Whether an identifier is the start of another one or equal to it. -/
def isStartOf (a b : Oid) : Bool :=
  a.arcs.isPrefixOf b.arcs

/-- A whole number as the arc at a position. The bounds on the first two arcs are tried first. -/
def checkArc (position : Nat) (value : Int) : Except Error { arc // Admissible position arc } :=
  if h0 : position = 0 ∧ 2 < value then .error (.invalidFirstComponent value)
  else if h1 : position = 1 ∧ 39 < value then .error (.invalidSecondComponent value)
  else if value < 0 then .error (.negativeComponent (toString value))
  else if hmax : value.toNat ≤ maxArc then
    .ok ⟨value.toNat, hmax, fun h => by omega, fun h => by omega⟩
  else .error (.componentTooLarge (toString value))

/-- Whole numbers as the arcs from a position on; the first one that is no arc fails. -/
def checkArcs (position : Nat) : List Int → Except Error { arcs // AdmissibleFrom position arcs }
  | [] => .ok ⟨[], trivial⟩
  | value :: rest => do
    let arc ← checkArc position value
    let arcs ← checkArcs (position + 1) rest
    return ⟨arc.val :: arcs.val, arc.property, arcs.property⟩

/-- The identifier with the given components. -/
def ofComponents (components : List Int) : Except Error Oid := do
  let arcs ← checkArcs 0 components
  return ⟨arcs.val, arcs.property⟩

/-- The identifier with arcs added at its end. -/
def extend (oid : Oid) (arcs : List Nat) : Except Error Oid := do
  let added ← checkArcs (0 + oid.arcs.length) (arcs.map Int.ofNat)
  return ⟨oid.arcs ++ added.val, admissibleFrom_append.mpr ⟨oid.admissible, added.property⟩⟩

/-- The identifier with one arc added at its end. -/
def child (oid : Oid) (arc : Nat) : Except Error Oid :=
  oid.extend [arc]

end Oid

end Smi
