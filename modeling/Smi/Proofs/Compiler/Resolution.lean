import Smi.Proofs.Compiler.Climb
import Smi.Proofs.Compiler.Unit

/-!
# Positions in a finished collection

An object that finds its position when it is declared keeps it, whatever is declared behind it. So
it stands where its clause leads in the finished collection unless a name above it, known when the
object was declared, is declared again.
-/

namespace Smi

namespace OidClause

variable {clauses other : Clauses} {clause name key : String} {path : List PathStep}

/-- Whether a name is passed while climbing from a clause to a root. -/
inductive Passes (clauses : Clauses) : String → String → Prop where
  | parent {clause : String} {parsed : OidClause} (hread : read? clause = some parsed)
      (hroot : rootNumber? parsed.parent = none) : Passes clauses clause parsed.parent
  | above {clause above key : String} {parsed : OidClause} (hread : read? clause = some parsed)
      (hroot : rootNumber? parsed.parent = none)
      (habove : clauses.lookup parsed.parent = some above) (hkey : Passes clauses above key) :
      Passes clauses clause key

/-- A path is the same where the names that are passed on it have the same clauses. -/
theorem Leads.of_lookup (h : Leads clauses clause name path)
    (hkept : ∀ key above, Passes clauses clause key → clauses.lookup key = some above →
      other.lookup key = some above) : Leads other clause name path := by
  induction h with
  | root hread hsteps hroot => exact .root hread hsteps hroot
  | parent hread hsteps hroot habove _ ih =>
    refine .parent hread hsteps hroot (hkept _ _ (.parent hread hroot) habove) (ih ?_)
    exact fun key _ hkey => hkept key _ (.above hread hroot habove hkey)

/-- A position is the same over other clauses if they keep the clause of every name that is passed.
-/
theorem position?_of_lookup {position : String × String}
    (h : position? clauses clause name = some position)
    (hkept : ∀ key above, Passes clauses clause key → clauses.lookup key = some above →
      other.lookup key = some above) : position? other clause name = some position := by
  obtain ⟨path, hpath, rfl⟩ := Option.map_eq_some_iff.mp h
  have hother := path?_eq_some_iff.mpr ((path?_eq_some_iff.mp hpath).of_lookup hkept)
  rw [position?, hother, Option.map_some]

end OidClause

namespace Draft

variable {others : ModuleSet} {m : ModuleDefinition} {name key : String}
  {before after : List ObjectDefinition}

/-- The clause of a name is that of an object of another module, or else that of the object that a
module has under the name. -/
theorem lookup_clauses (h : m.Indexed) (key : String) : (clauses others m).lookup key =
    (others.clauses.lookup key).or ((m.object? key).bind ObjectDefinition.clause) := by
  have hown : (m.objects.filterMap fun object => object.clause.map (object.name, ·)).lookup key =
      (m.object? key).bind ObjectDefinition.clause := by
    refine Option.ext fun clause => ?_
    rw [ObjectDefinition.lookup_clauses h.nodup, Option.bind_eq_some_iff]
    simp only [h.object?_eq_some_iff, and_assoc]
  rw [clauses, List.filterMap_append, List.lookup_append, hown]
  rfl

/-- A clause that is found stays the same while other names are declared, and also one of another
module. -/
theorem lookup_clauses_declareAll {clause : String}
    (h : (clauses others ((ModuleDefinition.named name).declareAll before)).lookup key =
      some clause)
    (hnew : ∀ earlier ∈ before, earlier.name = key → ∀ later ∈ after, later.name ≠ key) :
    (clauses others ((ModuleDefinition.named name).declareAll (before ++ after))).lookup key =
      some clause := by
  have hindexed := ModuleDefinition.named_indexed name
  rw [lookup_clauses (hindexed.declareAll _), ModuleDefinition.object?_declareAll] at h ⊢
  rcases Option.or_eq_some_iff.mp h with hothers | ⟨hothers, hown⟩
  · rw [hothers, Option.some_or]
  · obtain ⟨object, hobject, _⟩ := Option.bind_eq_some_iff.mp hown
    have hmem := List.mem_reverse.mp (List.mem_of_find?_eq_some hobject)
    have hsame := List.find?_some hobject
    have hname : object.name = key := of_decide_eq_true hsame
    rw [ModuleDefinition.lastNamed?_append_of_ne before (hnew object hmem hname), hothers,
      Option.none_or, hown]

end Draft

namespace Compiler

open OidClause

variable {c : Compiler} {table : SymbolTable} {object : ObjectDefinition} {clause name : String}
  {declaration : Declaration} {before after : List Declaration}

/-- A position that is known at a declaration is the final one unless a name above it was declared
before and is declared again. -/
theorem position?_final (hnodup : (c.modules.modules.map ModuleDefinition.name).Nodup)
    (hsplit : c.declarations table = before ++ declaration :: after)
    {position : String × String} (hknown : position? declaration.known clause name = some position)
    (hagain : ∀ earlier ∈ before, ∀ later ∈ declaration :: after,
      later.object.name = earlier.object.name →
        ¬Passes declaration.known clause earlier.object.name) :
    position? (c.compileTable table).modules.clauses clause name = some position := by
  refine position?_of_lookup hknown fun key above hpasses hlookup => ?_
  rw [clauses_compileTable hnodup, Draft.clauses_congr (c.objects_draft table), hsplit,
    List.map_append]
  rw [Draft.known_of_declarations hsplit] at hlookup
  -- A name that is passed has its clause from another module, which comes first in the end as well,
  -- or from a declaration before this one.
  refine Draft.lookup_clauses_declareAll hlookup ?_
  simp only [List.forall_mem_map]
  rintro earlier hearlier rfl later hlater hname
  exact hagain earlier hearlier later hlater hname hpasses

end Compiler

open OidClause in
/-- The objects of a module that has just been compiled, against the clauses of all modules. An
object with a clause stands where the clause led along the clauses that were known when it was last
declared, or else where it leads in the end. So it stands where its clause leads in the end exactly
when the clause led nowhere then or to the same position. This is so unless a name above the object
was declared before it and is declared again with it or behind it. -/
theorem compiled_standsAt (actions : List Compiler.Action) (table : SymbolTable) :
    let c := Compiler.run actions
    let later := (c.compileTable table).modules
    ∀ m ∈ later.modules, m.name = table.moduleName →
      ∀ object ∈ m.objects, ∀ clause, object.clause = some clause → clause ≠ "0 0" →
        ∃ before declaration after, c.declarations table = before ++ declaration :: after ∧
          declaration.object.name = object.name ∧ declaration.object.clause = some clause ∧
          (∀ other ∈ after, other.object.name ≠ object.name) ∧
          let atFirst := position? declaration.known clause object.name
          let final := position? later.clauses clause object.name
          object.StandsAt (atFirst <|> final) ∧
          (object.StandsAt final ↔ atFirst = none ∨ atFirst = final) ∧
          ((∀ earlier ∈ before, ∀ again ∈ declaration :: after,
            again.object.name = earlier.object.name →
              ¬Passes declaration.known clause earlier.object.name) →
            object.StandsAt final) := by
  intro c later m hm hmoduleName object hobject clause hclause hnull
  have hnodup := (Compiler.run_consistent actions).nodup
  have hlast : m = c.moduleOf table := by
    rw [show later.modules = _ from Compiler.modules_compileTable_eq hnodup table] at hm
    rcases List.mem_append.mp hm with hm | hm
    · exact absurd hmoduleName (by simpa using (List.mem_filter.mp hm).2)
    · exact List.mem_singleton.mp hm
  obtain ⟨before, declaration, after, hsplit, hname, hown, hafter, hstands⟩ :=
    Compiler.exists_declaration_standsAt hnodup (hlast ▸ hobject)
  simp only [ObjectDefinition.leadsTo?, hclause, Option.bind_some, if_neg hnull] at hstands
  refine ⟨before, declaration, after, hsplit, hname, hown.trans hclause, hafter, hstands, ?_,
    fun hagain => ?_⟩
  · rw [hstands.iff_eq]
    cases position? declaration.known clause object.name with
    | none => exact iff_of_true rfl (.inl rfl)
    | some position => simp [later, c]
  · cases hfirst : position? declaration.known clause object.name with
    | none =>
      rw [hfirst] at hstands
      exact hstands
    | some position =>
      rw [hfirst] at hstands
      exact (Compiler.position?_final hnodup hsplit hfirst hagain) ▸ hstands

/-- The size is declared twice, and nothing stands above it but a root. -/
theorem compiled_standsAt_readings :
    let later := ((Compiler.run []).compileTable .readings).modules
    let size : ObjectDefinition :=
      { (ObjectDefinition.bare "size" "READINGS-MIB").placed "1.2" "iso.size" with
        clause := some "iso 2" }
    (∃ m ∈ later.modules, m.name = SymbolTable.readings.moduleName ∧ size ∈ m.objects) ∧
      size.StandsAt (OidClause.position? later.clauses "iso 2" "size") := by
  intro later size
  have hmodule := Compiler.moduleOf_mem (Compiler.run []) .readings
  have hname := Compiler.name_moduleOf (Compiler.run []) .readings
  have hsize : size ∈ ((Compiler.run []).moduleOf .readings).objects := by decide +kernel
  obtain ⟨_, declaration, _, _, _, _, _, _, _, hstands⟩ :=
    compiled_standsAt [] .readings _ hmodule hname size hsize "iso 2" rfl (by decide)
  have hread : OidClause.read? "iso 2" = some ⟨"iso", [⟨none, 2⟩]⟩ := by decide +kernel
  have hroot (key : String) : ¬OidClause.Passes declaration.known "iso 2" key := fun hpasses => by
    cases hpasses with
    | parent hparsed hroot | above hparsed hroot =>
      obtain rfl := Option.some.inj (hread.symm.trans hparsed)
      cases hroot
  exact ⟨⟨_, hmodule, hname, hsize⟩, hstands fun earlier _ _ _ _ => hroot _⟩

/-- The rate stands below the size that was declared before it, and its clause leads below the size
that is declared behind it. -/
theorem compiled_readings_stale :
    let later := ((Compiler.run []).compileTable .readings).modules
    let rate : ObjectDefinition :=
      { (ObjectDefinition.bare "rate" "READINGS-MIB").placed "1.1.5" "iso.size.rate" with
        clause := some "size 5" }
    (∃ m ∈ later.modules, m.name = SymbolTable.readings.moduleName ∧ rate ∈ m.objects) ∧
      OidClause.position? later.clauses "size 5" "rate" = some ("1.2.5", "iso.size.rate") ∧
      ¬rate.StandsAt (OidClause.position? later.clauses "size 5" "rate") := by
  intro later rate
  have hmodule := Compiler.moduleOf_mem (Compiler.run []) .readings
  have hrate : rate ∈ ((Compiler.run []).moduleOf .readings).objects := by decide +kernel
  have hposition : OidClause.position? later.clauses "size 5" "rate" =
      some ("1.2.5", "iso.size.rate") := by decide +kernel
  refine ⟨⟨_, hmodule, Compiler.name_moduleOf _ _, hrate⟩, hposition, fun hstands => ?_⟩
  rw [hposition] at hstands
  exact absurd hstands.1 (by decide)

end Smi
