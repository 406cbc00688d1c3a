import Mathlib.Data.List.Perm.Subperm
import Smi.Compiler.OidClause

/-!
# Climbing to a root

The path of an object is what leads down from a root along the clauses of its ancestors. A climb
finds it whenever there is one: no ancestor comes back on such a path, since what leads to an
ancestor is always shorter, so the climb is never given up too early. And there is at most one path,
because a name stands for one clause.
-/

namespace Smi.OidClause

variable {clauses : Clauses} {clause above name : String} {path steps : List PathStep}
  {parsed : OidClause} {limit : Nat} {passed : List String}

/-- What leads from a root down to an object of a name and a clause: the steps of the clause behind
a root, or behind what leads to the parent. -/
inductive Leads (clauses : Clauses) : String → String → List PathStep → Prop where
  | root {clause name : String} {parsed : OidClause} {steps : List PathStep} {number : Nat}
      (hread : read? clause = some parsed) (hsteps : parsed.steps? name = some steps)
      (hroot : rootNumber? parsed.parent = some number) :
      Leads clauses clause name (⟨number, parsed.parent⟩ :: steps)
  | parent {clause name above : String} {parsed : OidClause} {steps path : List PathStep}
      (hread : read? clause = some parsed) (hsteps : parsed.steps? name = some steps)
      (hroot : rootNumber? parsed.parent = none)
      (habove : clauses.lookup parsed.parent = some above)
      (hpath : Leads clauses above parsed.parent path) :
      Leads clauses clause name (path ++ steps)

/-- A clause that is read has at least one step. -/
theorem steps?_ne_nil (hsteps : parsed.steps? name = some steps) : steps ≠ [] := by
  obtain ⟨_, _, rfl⟩ := Option.map_eq_some_iff.mp hsteps
  exact List.append_ne_nil_of_right_ne_nil _ (List.cons_ne_nil _ _)

/-- The steps of a clause have its numbers. -/
theorem number_of_steps? (h : parsed.steps? name = some steps) :
    parsed.arcs ≠ [] ∧ steps.map PathStep.number = parsed.arcs.map ClauseArc.number := by
  obtain ⟨last, hlast, rfl⟩ := Option.map_eq_some_iff.mp h
  obtain ⟨first, harcs⟩ := List.getLast?_eq_some_iff.mp hlast
  refine ⟨by simp [harcs], ?_⟩
  rw [harcs, List.dropLast_concat, List.map_append, List.map_append, List.map_map]
  rfl

/-- Paths along clauses that agree on every name are the same. -/
theorem Leads.eq_of_agree {others : Clauses} {other : List PathStep}
    (h : Leads clauses clause name path) (hother : Leads others clause name other)
    (hagree : ∀ key a b, clauses.lookup key = some a → others.lookup key = some b → a = b) :
    path = other := by
  induction h generalizing other with
  | root hread hsteps hroot =>
    cases hother with
    | root hread' hsteps' hroot' =>
      obtain rfl := Option.some.inj (hread.symm.trans hread')
      obtain rfl := Option.some.inj (hsteps.symm.trans hsteps')
      obtain rfl := Option.some.inj (hroot.symm.trans hroot')
      rfl
    | parent hread' _ hroot' =>
      obtain rfl := Option.some.inj (hread.symm.trans hread')
      cases hroot.symm.trans hroot'
  | parent hread hsteps hroot habove _ ih =>
    cases hother with
    | root hread' _ hroot' =>
      obtain rfl := Option.some.inj (hread.symm.trans hread')
      cases hroot.symm.trans hroot'
    | parent hread' hsteps' _ habove' hpath' =>
      obtain rfl := Option.some.inj (hread.symm.trans hread')
      obtain rfl := Option.some.inj (hsteps.symm.trans hsteps')
      obtain rfl := hagree _ _ _ habove habove'
      rw [ih hpath']

/-- There is at most one path. -/
theorem Leads.unique {other : List PathStep} (h : Leads clauses clause name path)
    (hother : Leads clauses clause name other) : path = other :=
  h.eq_of_agree hother fun _ _ _ ha hb => Option.some.inj (ha.symm.trans hb)

/-- A path begins with a root. -/
theorem Leads.exists_root (h : Leads clauses clause name path) : ∃ number root steps,
    rootNumber? root = some number ∧ path = ⟨number, root⟩ :: steps := by
  induction h with
  | root _ _ hroot => exact ⟨_, _, _, hroot, rfl⟩
  | parent _ _ _ _ _ ih =>
    obtain ⟨number, root, upper, hroot, rfl⟩ := ih
    exact ⟨number, root, _, hroot, rfl⟩

/-- What a climb finds leads down from a root. -/
theorem leads_of_climb? (h : climb? clauses limit passed clause name = some path) :
    Leads clauses clause name path := by
  induction limit generalizing passed clause name path with
  | zero => cases h
  | succ limit ih =>
    rw [climb?] at h
    obtain ⟨parsed, hread, h⟩ := Option.bind_eq_some_iff.mp h
    obtain ⟨steps, hsteps, h⟩ := Option.bind_eq_some_iff.mp h
    cases hroot : rootNumber? parsed.parent with
    | some number =>
      rw [hroot] at h
      obtain rfl := Option.some.inj h
      exact .root hread hsteps hroot
    | none =>
      rw [hroot] at h
      dsimp only at h
      split at h
      · cases h
      · obtain ⟨above, habove, h⟩ := Option.bind_eq_some_iff.mp h
        obtain ⟨upper, hupper, h⟩ := Option.bind_eq_some_iff.mp h
        obtain rfl := Option.some.inj h
        exact .parent hread hsteps hroot habove (ih hupper)

/-- Different names that have clauses are no more than the clauses. -/
theorem length_le_of_lookup (hnodup : passed.Nodup)
    (hpassed : ∀ key ∈ passed, ∃ above, clauses.lookup key = some above) :
    passed.length ≤ clauses.length := by
  have hkeys : passed ⊆ clauses.map Prod.fst := fun key hkey => by
    obtain ⟨above, habove⟩ := hpassed key hkey
    obtain ⟨_, _, hclauses, _⟩ := List.lookup_eq_some_iff.mp habove
    simp [hclauses]
  have hlength := (hnodup.subperm hkeys).length_le
  rwa [List.length_map] at hlength

/-- A climb finds what leads down from a root. Whatever has been passed leads on to no shorter path
than the one that is still to be found, so it is not met again. -/
theorem climb?_of_leads (h : Leads clauses clause name path) (hnodup : passed.Nodup)
    (hpassed : ∀ key ∈ passed, ∃ above longer, clauses.lookup key = some above ∧
      Leads clauses above key longer ∧ path.length ≤ longer.length)
    (hlimit : limit + passed.length = clauses.length + 1) :
    climb? clauses limit passed clause name = some path := by
  induction h generalizing limit passed with
  | root hread hsteps hroot =>
    have hlength := length_le_of_lookup hnodup fun key hkey =>
      (hpassed key hkey).imp fun _ h => h.choose_spec.1
    obtain ⟨limit, rfl⟩ : ∃ k, limit = k + 1 := ⟨limit - 1, by omega⟩
    simp [climb?, hread, hsteps, hroot]
  | @parent clause name above parsed steps path hread hsteps hroot habove hpath ih =>
    have hlength := length_le_of_lookup hnodup fun key hkey =>
      (hpassed key hkey).imp fun _ h => h.choose_spec.1
    obtain ⟨limit, rfl⟩ : ∃ k, limit = k + 1 := ⟨limit - 1, by omega⟩
    have hshorter : path.length < (path ++ steps).length := by
      have := List.length_pos_iff.mpr (steps?_ne_nil hsteps)
      rw [List.length_append]
      omega
    have hfresh : parsed.parent ∉ passed := fun hmem => by
      obtain ⟨above', longer, habove', hlonger, hle⟩ := hpassed _ hmem
      obtain rfl := Option.some.inj (habove.symm.trans habove')
      rw [← hpath.unique hlonger] at hle
      omega
    have hclimb :
        climb? clauses limit (parsed.parent :: passed) above parsed.parent = some path := by
      refine ih (List.nodup_cons.mpr ⟨hfresh, hnodup⟩) (fun key hkey => ?_)
        (by rw [List.length_cons]; omega)
      rcases List.mem_cons.mp hkey with rfl | hkey
      · exact ⟨above, path, habove, hpath, Nat.le_refl _⟩
      · obtain ⟨above', longer, habove', hlonger, hle⟩ := hpassed key hkey
        exact ⟨above', longer, habove', hlonger, by omega⟩
    simp [climb?, hread, hsteps, hroot, hfresh, habove, hclimb]

/-- The path of an object is what leads to it from a root. -/
theorem path?_eq_some_iff :
    path? clauses clause name = some path ↔ Leads clauses clause name path :=
  ⟨leads_of_climb?, fun h => climb?_of_leads h List.nodup_nil (fun _ hkey => nomatch hkey) rfl⟩

/-- A clause below an object leads behind the path of this object. -/
theorem path?_below (hread : read? clause = some parsed) (hroot : rootNumber? parsed.parent = none)
    (habove : clauses.lookup parsed.parent = some above) : path? clauses clause name =
      (path? clauses above parsed.parent).bind fun path =>
        (parsed.steps? name).map fun steps => path ++ steps := by
  refine Option.ext fun path => ?_
  simp only [Option.bind_eq_some_iff, Option.map_eq_some_iff, path?_eq_some_iff]
  constructor
  · intro h
    cases h with
    | root hread' _ hroot' =>
      obtain rfl := Option.some.inj (hread.symm.trans hread')
      cases hroot.symm.trans hroot'
    | parent hread' hsteps _ habove' hpath =>
      obtain rfl := Option.some.inj (hread.symm.trans hread')
      obtain rfl := Option.some.inj (habove.symm.trans habove')
      exact ⟨_, hpath, _, hsteps, rfl⟩
  · rintro ⟨upper, hupper, steps, hsteps, rfl⟩
    exact .parent hread hsteps hroot habove hupper

end Smi.OidClause
