import Mathlib.Data.List.Infix
import Smi.Definition.Lookup
import Smi.Proofs.Compiler.Climb
import Smi.Proofs.Compiler.Unit
import Smi.Proofs.Oid.Dotted

/-!
# What an identifier stands for

An identifier stands for the object nearest above it: the one whose position has the most components
among those whose components all come first in the identifier. Numbers are compared with numbers and
names with names. Texts are as long as they have components when they begin one text, an object at
the very identifier is the nearest one, and no position of numbers is one of names; so the four
searches are one.
-/

namespace Smi

/-! ### Positions of compiled objects -/

/-- A text is one of numbers if each of its parts between dots is a numeral. -/
theorem isNumeric_iff {text : String} :
    isNumeric text = true ↔ ∀ part ∈ Text.splitAt '.' text, Text.isNumeral part.toList = true := by
  simp [isNumeric, Text.splitAt]

namespace OidClause

variable {clauses : Clauses} {clause name : String} {path : List PathStep}

/-- Numbers that are written with dots between them are a text of numbers. -/
theorem isNumeric_dottedNumbers (hne : path ≠ []) : isNumeric (dottedNumbers path) = true := by
  rw [isNumeric_iff, dottedNumbers_eq, Oid.splitAt_dottedArcs (mt List.map_eq_nil_iff.mp hne),
    List.forall_mem_map]
  exact fun number _ => Text.isNumeral_toString number

/-- The names of a path begin with the name of a root, which is no number. -/
theorem isNumeric_dottedNames {number : ℕ} {root : String} {steps : List PathStep}
    (hroot : rootNumber? root = some number) :
    isNumeric (dottedNames (⟨number, root⟩ :: steps)) = false := by
  have hfirst : Text.splitAt '.' root <+:
      Text.splitAt '.' (dottedNames (⟨number, root⟩ :: steps)) := by
    rw [Text.splitAt_prefix_iff, dottedNames, List.map_cons]
    cases steps.map PathStep.name with
    | nil => exact ⟨[], by simp, fun _ h => nomatch h⟩
    | cons first rest => exact ⟨'.' :: (".".intercalate (first :: rest)).toList,
        by simp [String.intercalate_cons_cons], fun c hc => (Option.some.inj hc).symm⟩
  have hname : root ∈ Text.splitAt '.' root ∧ Text.isNumeral root.toList = false := by
    unfold rootNumber? at hroot
    split at hroot
    · decide
    · decide
    · decide
    · cases hroot
  rw [Bool.eq_false_iff, ne_eq, isNumeric_iff]
  exact fun hall => Bool.false_ne_true (hname.2.symm.trans (hall root (hfirst.subset hname.1)))

end OidClause

/-- A position to which a clause leads has numbers and names that are not numbers. -/
theorem ObjectDefinition.isNumeric_of_leadsTo? {object : ObjectDefinition}
    {clauses : OidClause.Clauses} {numbers names : String}
    (h : object.leadsTo? clauses = some (numbers, names)) :
    isNumeric numbers = true ∧ isNumeric names = false := by
  obtain ⟨clause, _, h⟩ := Option.bind_eq_some_iff.mp h
  split at h
  · obtain ⟨rfl, rfl⟩ := Prod.mk.inj (Option.some.inj h)
    decide
  · obtain ⟨path, hpath, hposition⟩ := Option.map_eq_some_iff.mp h
    obtain ⟨rfl, rfl⟩ := Prod.mk.inj hposition
    obtain ⟨number, root, steps, hroot, rfl⟩ :=
      (OidClause.path?_eq_some_iff.mp hpath).exists_root
    exact ⟨OidClause.isNumeric_dottedNumbers (List.cons_ne_nil _ _),
      OidClause.isNumeric_dottedNames hroot⟩

/-- Whether the numbers of an object are numbers by their look and its names are not. -/
structure ObjectDefinition.Legible (object : ObjectDefinition) : Prop where
  numbers : ∀ numbers ∈ object.oid, isNumeric numbers = true
  names : ∀ names ∈ object.nameSpace, isNumeric names = false

/-- An object is legible if its position is one of numbers and one of names. -/
theorem ObjectDefinition.StandsAt.legible {object : ObjectDefinition}
    {position : Option (String × String)} (h : object.StandsAt position)
    (hposition : ∀ p ∈ position, isNumeric p.1 = true ∧ isNumeric p.2 = false) :
    object.Legible where
  numbers numbers hnumbers := by
    rw [h.1] at hnumbers
    obtain ⟨p, hp, rfl⟩ := Option.map_eq_some_iff.mp hnumbers
    exact (hposition p hp).1
  names names hnames := by
    rw [h.2] at hnames
    obtain ⟨p, hp, rfl⟩ := Option.map_eq_some_iff.mp hnames
    exact (hposition p hp).2

namespace Compiler

/-- The objects of a compiled module are legible. -/
theorem legible_of_mem {c : Compiler} {table : SymbolTable} {object : ObjectDefinition}
    (hnodup : (c.modules.modules.map ModuleDefinition.name).Nodup)
    (hobject : object ∈ (c.moduleOf table).objects) : object.Legible := by
  obtain ⟨_, declaration, _, _, _, _, _, hstands⟩ := exists_declaration_standsAt hnodup hobject
  -- Wherever the object stands, some clauses lead there.
  cases hknown : object.leadsTo? declaration.known with
  | some position =>
    rw [hknown] at hstands
    refine hstands.legible fun p hp => ?_
    obtain rfl := Option.some.inj hp
    exact ObjectDefinition.isNumeric_of_leadsTo? hknown
  | none =>
    rw [hknown] at hstands
    exact hstands.legible fun p hp => ObjectDefinition.isNumeric_of_leadsTo? hp

/-- All objects of a run are legible. -/
theorem run_legible (actions : List Action) :
    ∀ object ∈ (run actions).modules.objects, object.Legible := by
  refine (modules_run_induction (motive := fun set =>
      set.Consistent ∧ ∀ object ∈ set.objects, object.Legible)
    ⟨ModuleSet.empty_consistent, fun _ h => nomatch h⟩ (fun c table h => ?_) actions).2
  refine ⟨compileTable_consistent h.1 table, fun object hobject => ?_⟩
  obtain ⟨m, hm, hobject⟩ := List.mem_flatMap.mp hobject
  rw [modules_compileTable_eq h.1.nodup] at hm
  rcases List.mem_append.mp hm with hm | hm
  · exact h.2 object (List.mem_flatMap.mpr ⟨m, (List.mem_filter.mp hm).1, hobject⟩)
  · rw [List.mem_singleton.mp hm] at hobject
    exact legible_of_mem h.1.nodup hobject

end Compiler

/-! ### Objects above an identifier -/

/-- A text is a dotted start of another if its parts are the first ones of the other. -/
theorem isDottedStart_iff {start whole : String} : isDottedStart start whole = true ↔
    Text.splitAt '.' start <+: Text.splitAt '.' whole := by
  rw [Text.splitAt_prefix_iff, isDottedStart, Bool.and_eq_true, List.isPrefixOf_iff_prefix,
    Bool.or_eq_true, beq_iff_eq, List.isEmpty_iff, ← String.length_toList]
  constructor
  · rintro ⟨⟨rest, hrest⟩, hnext⟩
    rw [← hrest, List.drop_left] at hnext
    refine ⟨rest, hrest.symm, fun c hc => ?_⟩
    rcases hnext with rfl | hnext
    · cases hc
    · exact Option.some.inj (hc.symm.trans hnext)
  · rintro ⟨rest, hwhole, hrest⟩
    rw [hwhole, List.drop_left]
    refine ⟨List.prefix_append _ _, ?_⟩
    cases rest with
    | nil => exact .inl rfl
    | cons c rest => exact .inr (congrArg some (hrest c rfl))

/-- Of two texts that begin one text the shorter one has fewer components. -/
theorem length_lt_iff_of_isDottedStart {a b whole : String} (ha : isDottedStart a whole = true)
    (hb : isDottedStart b whole = true) : a.length < b.length ↔
      (Text.splitAt '.' a).length < (Text.splitAt '.' b).length := by
  rw [isDottedStart_iff] at ha hb
  rcases List.prefix_or_prefix_of_prefix ha hb with hab | hba
  · rcases Text.eq_or_length_lt_of_prefix hab with rfl | ⟨hlength, hparts⟩
    · exact iff_of_false (Nat.lt_irrefl _) (Nat.lt_irrefl _)
    · exact iff_of_true hlength hparts
  · rcases Text.eq_or_length_lt_of_prefix hba with rfl | ⟨hlength, hparts⟩
    · exact iff_of_false (Nat.lt_irrefl _) (Nat.lt_irrefl _)
    · exact iff_of_false hlength.asymm hparts.asymm

namespace ObjectDefinition

/-- The position of an object that is compared with an identifier: its numbers if the identifier is
one of numbers, and its names otherwise. -/
def positionFor? (identifier : String) (object : ObjectDefinition) : Option String :=
  if isNumeric identifier then object.oid else object.nameSpace

/-- The number of components of the position of an object, if they are the first components of an
identifier. -/
def depthAbove? (identifier : String) (object : ObjectDefinition) : Option ℕ :=
  ((object.positionFor? identifier).map (Text.splitAt '.')).bind fun components =>
    if components <+: Text.splitAt '.' identifier then some components.length else none

/-- The depth of an object is the number of parts of its position, if an identifier begins with all
of them. -/
theorem depthAbove?_eq_some_iff {identifier : String} {object : ObjectDefinition} {depth : ℕ} :
    object.depthAbove? identifier = some depth ↔ ∃ position,
      object.positionFor? identifier = some position ∧ isDottedStart position identifier = true ∧
        (Text.splitAt '.' position).length = depth := by
  simp only [depthAbove?, isDottedStart_iff]
  cases object.positionFor? identifier with
  | none => simp
  | some position => by_cases h : Text.splitAt '.' position <+: Text.splitAt '.' identifier <;>
      simp [h]

end ObjectDefinition

namespace ModuleSet

variable {set : ModuleSet} {identifier : String} {object : ObjectDefinition}

/-- Whether an object is the first one with a property in the newest module that has one. -/
def IsNewest (set : ModuleSet) (p : ObjectDefinition → Prop) (object : ObjectDefinition) : Prop :=
  ∃ older m newer before behind, set.modules = older ++ m :: newer ∧
    m.objects = before ++ object :: behind ∧ p object ∧ (∀ other ∈ before, ¬p other) ∧
    ∀ later ∈ newer, ∀ other ∈ later.objects, ¬p other

/-- A search from the newest module on finds the first object with a property in the newest module
that has one. -/
theorem find?_newestFirst_eq_some_iff {p : ObjectDefinition → Prop} [DecidablePred p] :
    set.newestFirst.find? (p ·) = some object ↔ set.IsNewest p object := by
  rw [newestFirst, List.find?_flatMap, List.findSome?_eq_some_iff]
  constructor
  · rintro ⟨newer, m, older, hmodules, hfind, hnewer⟩
    obtain ⟨hobject, before, behind, hobjects, hbefore⟩ := List.find?_eq_some_iff_append.mp hfind
    refine ⟨older.reverse, m, newer.reverse, before, behind, ?_, hobjects,
      of_decide_eq_true hobject, fun other hother => by simpa using hbefore other hother,
      fun later hlater other hother => ?_⟩
    · rw [← List.reverse_reverse set.modules, hmodules]
      simp
    · simpa using List.find?_eq_none.mp (hnewer later (List.mem_reverse.mp hlater)) other hother
  · rintro ⟨older, m, newer, before, behind, hmodules, hobjects, hobject, hbefore, hnewer⟩
    refine ⟨newer.reverse, m, older.reverse, by simp [hmodules], ?_, fun later hlater => ?_⟩
    · exact List.find?_eq_some_iff_append.mpr ⟨decide_eq_true hobject, before, behind, hobjects,
        fun other hother => by simpa using hbefore other hother⟩
    · exact List.find?_eq_none.mpr fun other hother =>
        by simpa using hnewer later (List.mem_reverse.mp hlater) other hother

/-- The newest object with a property is one of the objects and has it. -/
theorem IsNewest.mem {p : ObjectDefinition → Prop} (h : set.IsNewest p object) :
    object ∈ set.objects ∧ p object := by
  obtain ⟨older, m, newer, before, behind, hmodules, hobjects, hobject, _⟩ := h
  refine ⟨List.mem_flatMap.mpr ⟨m, ?_, ?_⟩, hobject⟩
  · simp [hmodules]
  · simp [hobjects]

/-- Only one object is the newest with a property. -/
theorem IsNewest.unique {p : ObjectDefinition → Prop} {other : ObjectDefinition}
    (h : set.IsNewest p object) (hother : set.IsNewest p other) : object = other := by
  classical
  rw [← find?_newestFirst_eq_some_iff] at h hother
  exact Option.some.inj (h.symm.trans hother)

/-- A search from the newest module on goes through all objects. -/
theorem mem_newestFirst : object ∈ set.newestFirst ↔ object ∈ set.objects := by
  simp [newestFirst, objects]

/-- There is a longest candidate unless there is none at all. -/
theorem longest_eq_none_iff {candidates : List (String × ObjectDefinition)} :
    longest candidates = none ↔ candidates = [] := by
  cases candidates with
  | nil => simp [longest]
  | cons candidate rest =>
    rw [longest]
    split
    · split <;> simp
    · simp

/-- The longest candidate is longer than those before it and not shorter than those behind it. -/
theorem exists_of_longest {candidates : List (String × ObjectDefinition)}
    {best : String × ObjectDefinition} (h : longest candidates = some best) :
    ∃ before behind, candidates = before ++ best :: behind ∧
      (∀ candidate ∈ before, candidate.1.length < best.1.length) ∧
      ∀ candidate ∈ behind, candidate.1.length ≤ best.1.length := by
  induction candidates generalizing best with
  | nil => cases h
  | cons candidate rest ih =>
    rw [longest] at h
    split at h
    next later hlater =>
      obtain ⟨before, behind, rfl, hbefore, hbehind⟩ := ih hlater
      split at h
      next hlt =>
        obtain rfl := Option.some.inj h
        exact ⟨candidate :: before, behind, rfl, List.forall_mem_cons.mpr ⟨hlt, hbefore⟩, hbehind⟩
      next hle =>
        obtain rfl := Option.some.inj h
        have hlast : later.1.length ≤ candidate.1.length := Nat.le_of_not_lt hle
        refine ⟨[], _, rfl, by simp, fun other hother => ?_⟩
        rcases List.mem_append.mp hother with hother | hother
        · exact (hbefore other hother).le.trans hlast
        · rcases List.mem_cons.mp hother with rfl | hother
          · exact hlast
          · exact (hbehind other hother).trans hlast
    next hnone =>
      obtain rfl := Option.some.inj h
      exact ⟨[], rest, rfl, by simp, by simp [longest_eq_none_iff.mp hnone]⟩

/-- The candidate of an object: its position, if an identifier begins with all components of it. -/
def candidate? (identifier : String) (object : ObjectDefinition) :
    Option (String × ObjectDefinition) :=
  ((object.positionFor? identifier).filter (isDottedStart · identifier)).map (·, object)

/-- The object above an identifier is that of the longest candidate. -/
theorem lookupAbove?_eq (set : ModuleSet) (identifier : String) : set.lookupAbove? identifier =
    (longest (set.newestFirst.filterMap (candidate? identifier))).map Prod.snd :=
  rfl

/-- An object is a candidate if an identifier begins with all components of its position. -/
theorem candidate?_eq_some_iff {position : String} {other : ObjectDefinition} :
    candidate? identifier object = some (position, other) ↔
      (object.positionFor? identifier = some position ∧
        isDottedStart position identifier = true) ∧ object = other := by
  simp [candidate?, Option.filter_eq_some_iff]

/-- An object stands above an identifier as deep as its candidate has components. -/
theorem depthAbove?_eq_map (identifier : String) (object : ObjectDefinition) :
    object.depthAbove? identifier = (candidate? identifier object).map fun candidate =>
      (Text.splitAt '.' candidate.1).length := by
  unfold ObjectDefinition.depthAbove? candidate?
  cases object.positionFor? identifier with
  | none => rfl
  | some position =>
    by_cases h : Text.splitAt '.' position <+: Text.splitAt '.' identifier
    · simp [h, Option.filter, isDottedStart_iff.mpr h]
    · simp [h, Option.filter, mt isDottedStart_iff.mp h]

/-- Candidates compare as the depths at which their objects stand. -/
theorem length_lt_iff_of_candidate? {a b : ObjectDefinition}
    {first second : String × ObjectDefinition} (ha : candidate? identifier a = some first)
    (hb : candidate? identifier b = some second) : first.1.length < second.1.length ↔
      (Text.splitAt '.' first.1).length < (Text.splitAt '.' second.1).length :=
  length_lt_iff_of_isDottedStart (candidate?_eq_some_iff.mp ha).1.2
    (candidate?_eq_some_iff.mp hb).1.2

/-- The object that a search finds stands at the greatest depth, and it is the newest one there. -/
theorem isNewest_of_lookupAbove? (h : set.lookupAbove? identifier = some object) :
    ∃ depth, set.IsNewest (·.depthAbove? identifier = some depth) object ∧
      ∀ other ∈ set.objects, ∀ d ∈ other.depthAbove? identifier, d ≤ depth := by
  rw [lookupAbove?_eq] at h
  obtain ⟨best, hbest, rfl⟩ := Option.map_eq_some_iff.mp h
  obtain ⟨before, behind, hsplit, hbefore, hbehind⟩ := exists_of_longest hbest
  obtain ⟨first, rest, hobjects, hfirst, hrest⟩ := List.filterMap_eq_append_iff.mp hsplit
  obtain ⟨passed, object, last, rfl, hpassed, hobject, hlast⟩ := List.filterMap_eq_cons_iff.mp hrest
  obtain rfl : object = best.2 := (candidate?_eq_some_iff.mp hobject).2
  refine ⟨(Text.splitAt '.' best.1).length, find?_newestFirst_eq_some_iff.mp ?_, ?_⟩
  · refine List.find?_eq_some_iff_append.mpr ⟨?_, first ++ passed, last, ?_, fun other hother => ?_⟩
    · simp [depthAbove?_eq_map, hobject]
    · rw [hobjects, List.append_assoc]
    · rw [Bool.not_eq_true', decide_eq_false_iff_not, depthAbove?_eq_map, Option.map_eq_some_iff]
      rintro ⟨candidate, hcandidate, hdepth⟩
      -- An object before the found one has a shorter candidate or none.
      rcases List.mem_append.mp hother with hother | hother
      · have hmem : candidate ∈ before :=
          hfirst ▸ List.mem_filterMap.mpr ⟨other, hother, hcandidate⟩
        have hlt := (length_lt_iff_of_candidate? hcandidate hobject).mp (hbefore _ hmem)
        exact absurd hdepth hlt.ne
      · cases hcandidate.symm.trans (hpassed other hother)
  · intro other hother d hd
    rw [depthAbove?_eq_map] at hd
    obtain ⟨candidate, hcandidate, rfl⟩ := Option.map_eq_some_iff.mp hd
    have hmem : candidate ∈ set.newestFirst.filterMap (candidate? identifier) :=
      List.mem_filterMap.mpr ⟨other, mem_newestFirst.mpr hother, hcandidate⟩
    rw [← Nat.not_lt, ← length_lt_iff_of_candidate? hobject hcandidate, Nat.not_lt]
    rw [hsplit, List.mem_append, List.mem_cons] at hmem
    rcases hmem with hmem | rfl | hmem
    · exact (hbefore _ hmem).le
    · exact Nat.le_refl _
    · exact hbehind _ hmem

/-- No object is found above an identifier if none of them has a depth above it. -/
theorem lookupAbove?_eq_none_iff : set.lookupAbove? identifier = none ↔
    ∀ other ∈ set.objects, other.depthAbove? identifier = none := by
  simp only [lookupAbove?_eq, Option.map_eq_none_iff, longest_eq_none_iff,
    List.filterMap_eq_nil_iff, mem_newestFirst, depthAbove?_eq_map]

/-- A search finds the newest object at the greatest depth. -/
theorem lookupAbove?_eq_some_iff : set.lookupAbove? identifier = some object ↔
    ∃ depth, set.IsNewest (·.depthAbove? identifier = some depth) object ∧
      ∀ other ∈ set.objects, ∀ d ∈ other.depthAbove? identifier, d ≤ depth := by
  refine ⟨isNewest_of_lookupAbove?, ?_⟩
  rintro ⟨depth, hnewest, hdepth⟩
  cases h : set.lookupAbove? identifier with
  | some found =>
    obtain ⟨other, hfound, hother⟩ := isNewest_of_lookupAbove? h
    have hle := hdepth found hfound.mem.1 other hfound.mem.2
    have hge := hother object hnewest.mem.1 depth hnewest.mem.2
    obtain rfl := Nat.le_antisymm hle hge
    rw [hfound.unique hnewest]
  | none =>
    have hnone := lookupAbove?_eq_none_iff.mp h object hnewest.mem.1
    cases hnone.symm.trans hnewest.mem.2

/-! ### All searches -/

/-- An object at an identifier stands as deep above it as it has components. -/
theorem depthAbove?_eq_length_iff :
    object.depthAbove? identifier = some (Text.splitAt '.' identifier).length ↔
      object.positionFor? identifier = some identifier := by
  rw [ObjectDefinition.depthAbove?_eq_some_iff]
  constructor
  · rintro ⟨position, hposition, hstart, hlength⟩
    rw [hposition, Text.splitAt_injective '.' ((isDottedStart_iff.mp hstart).eq_of_length hlength)]
  · exact fun h => ⟨identifier, h, isDottedStart_iff.mpr List.prefix_rfl, rfl⟩

/-- The depth of an object above an identifier is no greater than that of the identifier. -/
theorem depthAbove?_le {depth : ℕ} (h : object.depthAbove? identifier = some depth) :
    depth ≤ (Text.splitAt '.' identifier).length := by
  obtain ⟨position, _, hstart, rfl⟩ := ObjectDefinition.depthAbove?_eq_some_iff.mp h
  exact (isDottedStart_iff.mp hstart).length_le

/-- An object at an identifier is the nearest one above it. -/
theorem find?_or_lookupAbove? (set : ModuleSet) (identifier : String) :
    (set.newestFirst.find? fun object => object.positionFor? identifier = some identifier).or
      (set.lookupAbove? identifier) = set.lookupAbove? identifier := by
  cases h : set.newestFirst.find? fun object =>
      object.positionFor? identifier = some identifier with
  | none => rfl
  | some object =>
    rw [Option.some_or, eq_comm, lookupAbove?_eq_some_iff]
    refine ⟨(Text.splitAt '.' identifier).length, ?_, fun _ _ _ => depthAbove?_le⟩
    rw [← find?_newestFirst_eq_some_iff]
    simpa only [depthAbove?_eq_length_iff] using h

/-- No object is found by positions that are numbers where names are sought, or names where numbers
are. -/
theorem find?_eq_none_of_isNumeric_ne {position : ObjectDefinition → Option String}
    (h : ∀ object ∈ set.objects, ∀ text ∈ position object,
      isNumeric text ≠ isNumeric identifier) :
    set.newestFirst.find? (fun object => position object = some identifier) = none :=
  List.find?_eq_none.mpr fun object hobject hposition =>
    h object (mem_newestFirst.mp hobject) identifier (of_decide_eq_true hposition) rfl

/-- Where numbers and names look different, an identifier stands for the nearest object above it, or
else for one of its name. -/
theorem lookup?_eq (h : ∀ object ∈ set.objects, object.Legible) (identifier : String) :
    set.lookup? identifier = if Text.trim identifier = "" then none
    else (set.lookupAbove? (Text.trim identifier)).or
      (set.newestFirst.find? fun object => object.name = Text.trim identifier) := by
  unfold lookup?
  generalize Text.trim identifier = sought
  dsimp only
  by_cases hempty : sought = ""
  · rw [if_pos (String.isEmpty_iff.mpr hempty), if_pos hempty]
  rw [if_neg (mt String.isEmpty_iff.mp hempty), if_neg hempty]
  simp only [Option.orElse_eq_orElse, Option.orElse_eq_or]
  have hexact := find?_or_lookupAbove? set sought
  -- Of the two searches for an exact position one never finds anything, and the other one is part
  -- of the search above the identifier.
  cases hnumeric : isNumeric sought with
  | true =>
    have hnames : set.newestFirst.find? (fun object => object.nameSpace = some sought) = none :=
      find?_eq_none_of_isNumeric_ne fun object hobject names hnames => by
        rw [(h object hobject).names names hnames, hnumeric]
        exact Bool.false_ne_true
    simp only [ObjectDefinition.positionFor?, hnumeric, if_true] at hexact
    rw [hnames, Option.none_or, ← Option.or_assoc, hexact]
  | false =>
    have hnumbers : set.newestFirst.find? (fun object => object.oid = some sought) = none :=
      find?_eq_none_of_isNumeric_ne fun object hobject numbers hnumbers => by
        rw [(h object hobject).numbers numbers hnumbers, hnumeric]
        exact Bool.false_ne_true.symm
    simp only [ObjectDefinition.positionFor?, hnumeric, Bool.false_eq_true, if_false] at hexact
    rw [hnumbers, Option.none_or, ← Option.or_assoc, hexact]

end ModuleSet

/-- The object that an identifier stands for in the modules that a compiler has compiled. Where the
identifier without the blanks at its ends is not empty, it is the object with the most components in
its position, numbers for an identifier of numbers and names otherwise, among the objects whose
components all come first in the identifier, or else an object of just that name. Of several such
objects it is the first one in the newest module that has one. -/
theorem compiled_lookup (actions : List Compiler.Action) (identifier : String) :
    let set := (Compiler.run actions).modules
    let sought := Text.trim identifier
    (∀ object, set.lookup? identifier = some object ↔ sought ≠ "" ∧
      ((∃ depth, set.IsNewest (·.depthAbove? sought = some depth) object ∧
          ∀ other ∈ set.objects, ∀ d ∈ other.depthAbove? sought, d ≤ depth) ∨
        (∀ other ∈ set.objects, other.depthAbove? sought = none) ∧
          set.IsNewest (·.name = sought) object)) ∧
      (set.lookup? identifier = none ↔ sought = "" ∨
        ∀ other ∈ set.objects, other.depthAbove? sought = none ∧ other.name ≠ sought) := by
  intro set sought
  rw [ModuleSet.lookup?_eq (Compiler.run_legible actions) identifier]
  by_cases hempty : sought = ""
  · exact ⟨fun object => by simp [sought, hempty], by simp [sought, hempty]⟩
  rw [if_neg hempty]
  constructor
  · intro object
    rw [Option.or_eq_some_iff, ModuleSet.lookupAbove?_eq_some_iff,
      ModuleSet.lookupAbove?_eq_none_iff, ModuleSet.find?_newestFirst_eq_some_iff]
    exact (and_iff_right hempty).symm
  · rw [Option.or_eq_none_iff, ModuleSet.lookupAbove?_eq_none_iff, List.find?_eq_none,
      or_iff_right hempty]
    simp only [ModuleSet.mem_newestFirst, decide_eq_true_eq]
    exact ⟨fun h other hother => ⟨h.1 other hother, h.2 other hother⟩,
      fun h => ⟨fun other hother => (h other hother).1, fun other hother => (h other hother).2⟩⟩

/-- An instance below the rate stands for the rate, which is in the readings. -/
example : ((Compiler.run [.compileTable .readings]).modules.lookup? " 1.1.5.0 ").map
    ObjectDefinition.name = some "rate" := by
  decide +kernel

end Smi
