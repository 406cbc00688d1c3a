import Smi.Proofs.Compiler.Assignment
import Smi.Proofs.Compiler.Declaration
import Smi.Proofs.Compiler.Reading

/-!
# Objects on the way up

From an object, its parent and the parent of its parent, one comes to a root, or to a name that was
met before, or to one without a clause that says anything. In the first case the object stands
behind the steps of all the clauses that were met, and in the other cases it stands nowhere. No
graph of parents keeps a climb from coming to an end.
-/

namespace Smi.OidClause

variable {clauses : Clauses} {clause above name : String} {parsed : OidClause}
  {path steps : List PathStep} {limit : Nat} {passed : List String}
  {result : Option (List PathStep)}

/-! ### Climbing without a limit -/

/-- What a climb comes to that nothing but the clauses brings to an end. -/
inductive Ends (clauses : Clauses) :
    List String → String → String → Option (List PathStep) → Prop where
  | unreadable {passed : List String} {clause name : String} (hread : read? clause = none) :
      Ends clauses passed clause name none
  | stepless {passed : List String} {clause name : String} {parsed : OidClause}
      (hread : read? clause = some parsed) (hsteps : parsed.steps? name = none) :
      Ends clauses passed clause name none
  | root {passed : List String} {clause name : String} {parsed : OidClause}
      {steps : List PathStep} {number : Nat} (hread : read? clause = some parsed)
      (hsteps : parsed.steps? name = some steps)
      (hroot : rootNumber? parsed.parent = some number) :
      Ends clauses passed clause name (some (⟨number, parsed.parent⟩ :: steps))
  | repeated {passed : List String} {clause name : String} {parsed : OidClause}
      {steps : List PathStep} (hread : read? clause = some parsed)
      (hsteps : parsed.steps? name = some steps) (hroot : rootNumber? parsed.parent = none)
      (hpassed : parsed.parent ∈ passed) : Ends clauses passed clause name none
  | unknown {passed : List String} {clause name : String} {parsed : OidClause}
      {steps : List PathStep} (hread : read? clause = some parsed)
      (hsteps : parsed.steps? name = some steps) (hroot : rootNumber? parsed.parent = none)
      (hfresh : parsed.parent ∉ passed) (habove : clauses.lookup parsed.parent = none) :
      Ends clauses passed clause name none
  | parent {passed : List String} {clause name above : String} {parsed : OidClause}
      {steps : List PathStep} {result : Option (List PathStep)}
      (hread : read? clause = some parsed) (hsteps : parsed.steps? name = some steps)
      (hroot : rootNumber? parsed.parent = none) (hfresh : parsed.parent ∉ passed)
      (habove : clauses.lookup parsed.parent = some above)
      (hends : Ends clauses (parsed.parent :: passed) above parsed.parent result) :
      Ends clauses passed clause name (result.map (· ++ steps))

/-- Passing one more name with a clause leaves different names with clauses. -/
theorem forall_lookup_cons (habove : clauses.lookup name = some above)
    (hpassed : ∀ key ∈ passed, ∃ above, clauses.lookup key = some above) :
    ∀ key ∈ name :: passed, ∃ above, clauses.lookup key = some above :=
  List.forall_mem_cons.mpr ⟨⟨above, habove⟩, hpassed⟩

/-- A climb that may pass every clause comes to an end. -/
theorem ends_climb? (hnodup : passed.Nodup)
    (hpassed : ∀ key ∈ passed, ∃ above, clauses.lookup key = some above)
    (hlimit : limit + passed.length = clauses.length + 1) :
    Ends clauses passed clause name (climb? clauses limit passed clause name) := by
  induction limit generalizing passed clause name with
  | zero =>
    have hlength := length_le_of_lookup hnodup hpassed
    omega
  | succ limit ih =>
    rw [climb?]
    cases hread : read? clause with
    | none => exact .unreadable hread
    | some parsed =>
      cases hsteps : parsed.steps? name with
      | none => simpa [hsteps] using Ends.stepless hread hsteps
      | some steps =>
        simp only [Option.bind_eq_bind, Option.bind_some, hsteps]
        cases hroot : rootNumber? parsed.parent with
        | some number => exact .root hread hsteps hroot
        | none =>
          dsimp only
          split
          next hmem => exact .repeated hread hsteps hroot hmem
          next hfresh =>
            cases habove : clauses.lookup parsed.parent with
            | none => exact .unknown hread hsteps hroot hfresh habove
            | some above =>
              have hends : Ends clauses (parsed.parent :: passed) above parsed.parent
                  (climb? clauses limit (parsed.parent :: passed) above parsed.parent) :=
                ih (List.nodup_cons.mpr ⟨hfresh, hnodup⟩) (forall_lookup_cons habove hpassed)
                  (by rw [List.length_cons]; omega)
              have hall := Ends.parent hread hsteps hroot hfresh habove hends
              simpa [Option.map_eq_bind, Function.comp_def] using hall

/-- A limited climb comes to what one without a limit comes to. -/
theorem Ends.climb?_eq (h : Ends clauses passed clause name result) (hnodup : passed.Nodup)
    (hpassed : ∀ key ∈ passed, ∃ above, clauses.lookup key = some above)
    (hlimit : limit + passed.length = clauses.length) :
    climb? clauses (limit + 1) passed clause name = result := by
  induction h generalizing limit with
  | unreadable hread => simp [climb?, hread]
  | stepless hread hsteps => simp [climb?, hread, hsteps]
  | root hread hsteps hroot => simp [climb?, hread, hsteps, hroot]
  | repeated hread hsteps hroot hmem => simp [climb?, hread, hsteps, hroot, hmem]
  | unknown hread hsteps hroot hfresh habove =>
    simp [climb?, hread, hsteps, hroot, hfresh, habove]
  | @parent passed clause name above parsed steps result hread hsteps hroot hfresh habove _ ih =>
    have hnodup := List.nodup_cons.mpr ⟨hfresh, hnodup⟩
    have hpassed := forall_lookup_cons habove hpassed
    have hlength := length_le_of_lookup hnodup hpassed
    rw [List.length_cons] at hlength
    obtain ⟨limit, rfl⟩ : ∃ k, limit = k + 1 := ⟨limit - 1, by omega⟩
    have hclimb :
        climb? clauses (limit + 1) (parsed.parent :: passed) above parsed.parent = result :=
      ih hnodup hpassed (by rw [List.length_cons]; omega)
    rw [climb?]
    simp [hread, hsteps, hroot, hfresh, habove, hclimb, Option.map_eq_bind]

/-- Every climb comes to an end, and what it comes to is the path. -/
theorem ends_iff_path?_eq :
    Ends clauses [] clause name result ↔ path? clauses clause name = result :=
  ⟨fun h => h.climb?_eq List.nodup_nil (List.forall_mem_nil _) rfl,
    fun h => h ▸ ends_climb? List.nodup_nil (List.forall_mem_nil _) rfl⟩

/-! ### The objects that are met -/

/-- An object on the way up: its name, and what its clause says. -/
structure Link where
  name : String
  clause : OidClause

namespace Link

/-- The numbers behind the parent of an object. -/
def numbers (link : Link) : List Nat :=
  link.clause.arcs.map ClauseArc.number

/-- The names behind the parent of an object. Each step has the label of its own, or else its
number, apart from the last one, which has the name of the object. -/
def labels (link : Link) : List String :=
  link.clause.arcs.dropLast.map (fun arc => arc.label.getD (toString arc.number)) ++ [link.name]

/-- A link that has numbers has as many labels. -/
theorem length_labels {link : Link} (h : link.clause.arcs ≠ []) :
    link.labels.length = link.numbers.length := by
  have := List.length_pos_iff.mpr h
  simp only [labels, numbers, List.length_append, List.length_map, List.length_dropLast,
    List.length_singleton]
  omega

end Link

/-- The objects that are met on the way up from an object of a name and a clause, the lowest first.
It goes on from an object whose parent is no root to one that its parent names. -/
inductive Ascent (clauses : Clauses) : String → String → List Link → Prop where
  | single {clause name : String} {parsed : OidClause} (hclause : Says clause parsed) :
      Ascent clauses clause name [⟨name, parsed⟩]
  | cons {clause name above : String} {parsed : OidClause} {chain : List Link}
      (hclause : Says clause parsed) (hroot : parsed.parent ∉ roots.map PathStep.name)
      (habove : clauses.lookup parsed.parent = some above)
      (hchain : Ascent clauses above parsed.parent chain) :
      Ascent clauses clause name (⟨name, parsed⟩ :: chain)

variable {chain : List Link} {link : Link} {root : PathStep}

/-- The steps of a clause have its labels. -/
theorem name_of_steps? (h : parsed.steps? name = some steps) :
    steps.map PathStep.name = (Link.mk name parsed).labels := by
  obtain ⟨last, _, rfl⟩ := Option.map_eq_some_iff.mp h
  simp only [Link.labels, List.map_append, List.map_map, List.map_cons, List.map_nil]
  rfl

/-- A clause with steps leads somewhere. -/
theorem exists_steps? (name : String) (h : parsed.arcs ≠ []) :
    ∃ steps, parsed.steps? name = some steps :=
  ⟨_, Option.map_eq_some_iff.mpr ⟨_, List.getLast?_eq_some_getLast h, rfl⟩⟩

/-- What leads to an object from a root are the steps of the objects that are met on the way up. -/
theorem Leads.exists_ascent (h : Leads clauses clause name path) : ∃ chain, ∃ root ∈ roots,
    Ascent clauses clause name chain ∧ chain.getLast?.map (·.clause.parent) = some root.name ∧
      path.map PathStep.number = root.number :: chain.reverse.flatMap Link.numbers ∧
      path.map PathStep.name = root.name :: chain.reverse.flatMap Link.labels := by
  induction h with
  | @root clause name parsed steps number hread hsteps hroot =>
    refine ⟨[⟨name, parsed⟩], _, OidAssignment.rootNumber?_eq_some_iff.mp hroot,
      .single (read?_eq_some_iff.mp hread), rfl, ?_, ?_⟩
    · simp [(number_of_steps? hsteps).2, Link.numbers]
    · simp [name_of_steps? hsteps]
  | @parent clause name above parsed steps path hread hsteps hroot habove _ ih =>
    obtain ⟨chain, root, hmem, hchain, hlast, hnumbers, hnames⟩ := ih
    refine ⟨⟨name, parsed⟩ :: chain, root, hmem, .cons (read?_eq_some_iff.mp hread)
      (OidAssignment.rootNumber?_eq_none_iff.mp hroot) habove hchain, ?_, ?_, ?_⟩
    · rw [List.getLast?_cons]
      cases hend : chain.getLast? <;> simp_all
    · simp [hnumbers, (number_of_steps? hsteps).2, Link.numbers]
    · simp [hnames, name_of_steps? hsteps]

/-- What is met on the way up leads down again if it ends at a root and each object has steps. -/
theorem Ascent.exists_leads (h : Ascent clauses clause name chain) (hroot : root ∈ roots)
    (hlast : chain.getLast?.map (·.clause.parent) = some root.name)
    (harcs : ∀ link ∈ chain, link.clause.arcs ≠ []) : ∃ path, Leads clauses clause name path ∧
      path.map PathStep.number = root.number :: chain.reverse.flatMap Link.numbers ∧
      path.map PathStep.name = root.name :: chain.reverse.flatMap Link.labels := by
  induction h with
  | @single clause name parsed hclause =>
    obtain ⟨steps, hsteps⟩ := exists_steps? name (harcs _ List.mem_cons_self)
    have hparent : parsed.parent = root.name := Option.some.inj hlast
    have hnumber : rootNumber? parsed.parent = some root.number := by
      rw [hparent]
      exact OidAssignment.rootNumber?_eq_some_iff.mpr hroot
    refine ⟨_, .root (read?_eq_some_iff.mpr hclause) hsteps hnumber, ?_, ?_⟩
    · simp [(number_of_steps? hsteps).2, Link.numbers]
    · simp [name_of_steps? hsteps, hparent]
  | @cons clause name above parsed chain hclause hfree habove hchain ih =>
    obtain ⟨hself, harcs⟩ := List.forall_mem_cons.mp harcs
    obtain ⟨steps, hsteps⟩ := exists_steps? name hself
    have hlast : chain.getLast?.map (·.clause.parent) = some root.name := by
      rw [List.getLast?_cons] at hlast
      cases hend : chain.getLast? with
      | none =>
        cases List.getLast?_eq_none_iff.mp hend
        cases hchain
      | some last => simpa [hend] using hlast
    obtain ⟨path, hpath, hnumbers, hnames⟩ := ih hlast harcs
    refine ⟨_, .parent (read?_eq_some_iff.mpr hclause) hsteps
      (OidAssignment.rootNumber?_eq_none_iff.mpr hfree) habove hpath, ?_, ?_⟩
    · simp [hnumbers, (number_of_steps? hsteps).2, Link.numbers]
    · simp [hnames, name_of_steps? hsteps]

/-! ### Where no way up goes on -/

/-- A clause that leads somewhere says something. -/
theorem Leads.exists_clause (h : Leads clauses clause name path) :
    ∃ parsed, Says clause parsed := by
  cases h with
  | root hread => exact ⟨_, read?_eq_some_iff.mp hread⟩
  | parent hread => exact ⟨_, read?_eq_some_iff.mp hread⟩

/-- An object that has a path has steps, and a shorter path leads to its parent, which may be a
root. -/
theorem Leads.exists_shorter (h : Leads clauses clause name path) (hclause : Says clause parsed) :
    parsed.arcs ≠ [] ∧ (parsed.parent ∉ roots.map PathStep.name → ∃ above shorter,
      clauses.lookup parsed.parent = some above ∧
        Leads clauses above parsed.parent shorter ∧ shorter.length < path.length) := by
  have hread := read?_eq_some_iff.mpr hclause
  cases h with
  | root hread' hsteps hroot =>
    obtain rfl := Option.some.inj (hread.symm.trans hread')
    refine ⟨(number_of_steps? hsteps).1, fun hfree => ?_⟩
    rw [OidAssignment.rootNumber?_eq_none_iff.mpr hfree] at hroot
    cases hroot
  | parent hread' hsteps _ habove hpath =>
    obtain rfl := Option.some.inj (hread.symm.trans hread')
    have := List.length_pos_iff.mpr (steps?_ne_nil hsteps)
    exact ⟨(number_of_steps? hsteps).1, fun _ => ⟨_, _, habove, hpath, by
      rw [List.length_append]; omega⟩⟩

/-- Each object on the way up from one that has a path has steps, and a shorter path leads to the
parent of each of them. -/
theorem Ascent.of_leads (h : Ascent clauses clause name chain)
    (hleads : Leads clauses clause name path) : ∀ link ∈ chain, link.clause.arcs ≠ [] ∧
      (link.clause.parent ∉ roots.map PathStep.name → ∃ above shorter,
        clauses.lookup link.clause.parent = some above ∧
          Leads clauses above link.clause.parent shorter ∧ shorter.length < path.length) := by
  induction h generalizing path with
  | single hclause => exact List.forall_mem_singleton.mpr (hleads.exists_shorter hclause)
  | cons hclause hroot habove _ ih =>
    have hself := hleads.exists_shorter hclause
    obtain ⟨above', shorter, habove', hshorter, hlength⟩ := hself.2 hroot
    obtain rfl := Option.some.inj (habove.symm.trans habove')
    refine List.forall_mem_cons.mpr ⟨hself, fun link hlink => ?_⟩
    refine (ih hshorter link hlink).imp_right fun hupper hfree => ?_
    obtain ⟨text, path, htext, hpath, hless⟩ := hupper hfree
    exact ⟨text, path, htext, hpath, hless.trans hlength⟩

/-- No parent comes back on the way up from an object that has a path. -/
theorem Ascent.nodup_of_leads (h : Ascent clauses clause name chain)
    (hleads : Leads clauses clause name path) : (chain.map (·.clause.parent)).Nodup := by
  induction h generalizing path with
  | single => simp
  | @cons clause name above parsed chain hclause hroot habove hchain ih =>
    obtain ⟨above', shorter, habove', hshorter, -⟩ := (hleads.exists_shorter hclause).2 hroot
    obtain rfl := Option.some.inj (habove.symm.trans habove')
    refine List.nodup_cons.mpr ⟨fun hmem => ?_, ih hshorter⟩
    obtain ⟨link, hlink, hsame⟩ := List.mem_map.mp hmem
    dsimp only at hsame
    obtain ⟨text, path, htext, hpath, hless⟩ :=
      (hchain.of_leads hshorter link hlink).2 (hsame ▸ hroot)
    rw [hsame] at htext hpath
    obtain rfl := Option.some.inj (habove.symm.trans htext)
    rw [hpath.unique hshorter] at hless
    exact Nat.lt_irrefl _ hless

/-- Whether no way leads up from an object: its clause has no steps, or the parent is no root and
was met before, or it is one without a clause that says anything. -/
def Link.IsDeadEnd (clauses : Clauses) (passed : List String) (link : Link) : Prop :=
  link.clause.arcs = [] ∨ link.clause.parent ∉ roots.map PathStep.name ∧
    (link.clause.parent ∈ passed ∨ ∀ above, clauses.lookup link.clause.parent = some above →
      ∀ parsed, ¬Says above parsed)

/-- A link is a dead end also when more names have been passed. -/
theorem Link.IsDeadEnd.of_subset {fewer : List String} (h : link.IsDeadEnd clauses fewer)
    (hsubset : fewer ⊆ passed) : link.IsDeadEnd clauses passed :=
  h.imp_right (And.imp_right (Or.imp_left fun hmem => hsubset hmem))

/-- A text is no clause if it says nothing. -/
theorem read?_eq_none_iff : read? clause = none ↔ ∀ parsed, ¬Says clause parsed := by
  simp only [← read?_eq_some_iff, Option.eq_none_iff_forall_ne_some]

/-- A climb that comes to nothing began at a clause that says nothing or met a dead end. -/
theorem Ends.exists_isDeadEnd (h : Ends clauses passed clause name result)
    (hnone : result = none) : (∀ parsed, ¬Says clause parsed) ∨
      ∃ chain link, Ascent clauses clause name (chain ++ [link]) ∧
        link.IsDeadEnd clauses (chain.map (·.clause.parent) ++ passed) := by
  induction h with
  | unreadable hread => exact .inl (read?_eq_none_iff.mp hread)
  | @stepless _ _ name parsed hread hsteps =>
    refine .inr ⟨[], ⟨name, parsed⟩, .single (read?_eq_some_iff.mp hread), .inl ?_⟩
    by_contra harcs
    obtain ⟨steps, hsome⟩ := exists_steps? name harcs
    cases hsteps.symm.trans hsome
  | root => cases hnone
  | repeated hread _ hroot hmem =>
    exact .inr ⟨[], _, .single (read?_eq_some_iff.mp hread),
      .inr ⟨OidAssignment.rootNumber?_eq_none_iff.mp hroot, .inl hmem⟩⟩
  | unknown hread _ hroot _ hunknown =>
    refine .inr ⟨[], _, .single (read?_eq_some_iff.mp hread),
      .inr ⟨OidAssignment.rootNumber?_eq_none_iff.mp hroot, .inr fun above habove => ?_⟩⟩
    cases hunknown.symm.trans habove
  | parent hread hsteps hroot hfresh habove _ ih =>
    have hfree := OidAssignment.rootNumber?_eq_none_iff.mp hroot
    have hclause := read?_eq_some_iff.mp hread
    rcases ih (Option.map_eq_none_iff.mp hnone) with hnothing | ⟨chain, link, hchain, hend⟩
    · refine .inr ⟨[], _, .single hclause, .inr ⟨hfree, .inr fun other hother => ?_⟩⟩
      obtain rfl := Option.some.inj (habove.symm.trans hother)
      exact hnothing
    · refine .inr ⟨⟨_, _⟩ :: chain, link, .cons hclause hfree habove hchain, hend.of_subset ?_⟩
      exact List.perm_middle.subset

/-- There is no dead end above an object that has a path. -/
theorem Ascent.not_isDeadEnd (h : Ascent clauses clause name (chain ++ [link]))
    (hleads : Leads clauses clause name path) :
    ¬link.IsDeadEnd clauses (chain.map (·.clause.parent)) := by
  obtain ⟨harcs, hparent⟩ := h.of_leads hleads link (by simp)
  have hnodup := h.nodup_of_leads hleads
  rintro (hnil | ⟨hfree, hmem | hnothing⟩)
  · exact harcs hnil
  · rw [List.map_append, List.nodup_append] at hnodup
    exact hnodup.2.2 _ hmem _ (List.mem_singleton_self _) rfl
  · obtain ⟨above, shorter, habove, hshorter, -⟩ := hparent hfree
    obtain ⟨parsed, hclause⟩ := hshorter.exists_clause
    exact hnothing above habove parsed hclause

/-! ### Positions -/

/-- A clause has a position if it leads there along a path, written with its numbers and its names.
-/
theorem position?_eq_some_iff {oid nameSpace : String} :
    position? clauses clause name = some (oid, nameSpace) ↔
      ∃ path, Leads clauses clause name path ∧
        oid = ".".intercalate ((path.map PathStep.number).map toString) ∧
        nameSpace = ".".intercalate (path.map PathStep.name) := by
  simp only [position?, Option.map_eq_some_iff, path?_eq_some_iff, Prod.mk.injEq, dottedNumbers,
    dottedNames, List.map_map, eq_comm (a := oid), eq_comm (a := nameSpace)]
  rfl

/-- An object has no position where its clause says nothing or the way up meets a dead end. -/
theorem position?_eq_none_iff : position? clauses clause name = none ↔
    (∀ parsed, ¬Says clause parsed) ∨ ∃ chain link, Ascent clauses clause name (chain ++ [link]) ∧
      link.IsDeadEnd clauses (chain.map (·.clause.parent)) := by
  rw [position?, Option.map_eq_none_iff]
  constructor
  · intro h
    have hends := (ends_iff_path?_eq.mpr h).exists_isDeadEnd rfl
    simpa only [List.append_nil] using hends
  · intro h
    by_contra hsome
    obtain ⟨path, hpath⟩ := Option.ne_none_iff_exists'.mp hsome
    have hleads := path?_eq_some_iff.mp hpath
    rcases h with hnothing | ⟨chain, link, hchain, hend⟩
    · obtain ⟨parsed, hclause⟩ := hleads.exists_clause
      exact hnothing parsed hclause
    · exact hchain.not_isDeadEnd hleads hend

/-- Climbing from an object comes to an end, and the clauses on the way are read for the parents and
steps that they say. The object stands at a position exactly when the climb meets objects with steps
and different parents up to one below a root. Its numbers are then that of the root and those of the
clauses on the way down, and its names the root and a label for each of these numbers. It has no
position exactly when its clause says nothing or when the climb meets a dead end: a clause without
steps, a parent that comes back, or one that is unknown or has a clause that says nothing. -/
theorem position?_iff_ascent (clauses : Clauses) (clause name : String) :
    (∀ result, Ends clauses [] clause name result ↔ path? clauses clause name = result) ∧
    (∀ text parsed, read? text = some parsed ↔ Says text parsed) ∧
    (∀ oid nameSpace, position? clauses clause name = some (oid, nameSpace) ↔
      ∃ chain, ∃ root ∈ roots, Ascent clauses clause name chain ∧
        chain.getLast?.map (·.clause.parent) = some root.name ∧
        (∀ link ∈ chain, link.clause.arcs ≠ []) ∧ (chain.map (·.clause.parent)).Nodup ∧
        oid = ".".intercalate
          ((root.number :: chain.reverse.flatMap Link.numbers).map toString) ∧
        nameSpace = ".".intercalate (root.name :: chain.reverse.flatMap Link.labels) ∧
        ∀ link ∈ chain, link.labels.length = link.numbers.length) ∧
    (position? clauses clause name = none ↔ (∀ parsed, ¬Says clause parsed) ∨
      ∃ chain link, Ascent clauses clause name (chain ++ [link]) ∧
        link.IsDeadEnd clauses (chain.map (·.clause.parent))) := by
  refine ⟨fun _ => ends_iff_path?_eq, fun _ _ => read?_eq_some_iff, fun oid nameSpace => ?_,
    position?_eq_none_iff⟩
  rw [position?_eq_some_iff]
  constructor
  · rintro ⟨path, hleads, rfl, rfl⟩
    obtain ⟨chain, root, hroot, hchain, hlast, hnumbers, hnames⟩ := hleads.exists_ascent
    have harcs (link : Link) (hlink : link ∈ chain) : link.clause.arcs ≠ [] :=
      (hchain.of_leads hleads link hlink).1
    exact ⟨chain, root, hroot, hchain, hlast, harcs, hchain.nodup_of_leads hleads,
      by rw [hnumbers], by rw [hnames], fun link hlink => Link.length_labels (harcs link hlink)⟩
  · rintro ⟨chain, root, hroot, hchain, hlast, harcs, -, rfl, rfl, -⟩
    obtain ⟨path, hleads, hnumbers, hnames⟩ := hchain.exists_leads hroot hlast harcs
    exact ⟨path, hleads, by rw [hnumbers], by rw [hnames]⟩

end Smi.OidClause
