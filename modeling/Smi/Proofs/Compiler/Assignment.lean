import Mathlib.Data.Finite.Defs
import Mathlib.Data.List.TakeWhile
import Mathlib.Data.Set.Finite.List
import Mathlib.Logic.Relation
import Mathlib.Order.WellFounded
import Smi.Proofs.Compiler.Climb
import Smi.Proofs.Text.Blank
import Smi.Proofs.Text.Identifier

/-!
# Assignments of object identifiers

An assignment puts a name under a parent, behind a number. Following the parents from an assignment
to a root gives its path. There is one unless the chain of parents comes back to where it has been
or leaves the given assignments.
-/

namespace Smi

open Relation

/-- The roots of the object tree. -/
def roots : List PathStep :=
  [⟨0, "ccitt"⟩, ⟨1, "iso"⟩, ⟨2, "joint-iso-ccitt"⟩]

/-- An assignment of an object identifier: a name that is no root, its parent, and the number behind
the parent. -/
structure OidAssignment where
  name : String
  parent : String
  number : UInt32
  name_identifier : IsIdentifier Char.isLower name
  parent_identifier : IsIdentifier Char.isLower parent
  name_not_root : name ∉ roots.map PathStep.name

namespace OidAssignment

variable {all : List OidAssignment} {a b above : OidAssignment} {path other : List PathStep}
  {clauses : OidClause.Clauses}

/-- The clause between the braces of an assignment. -/
def clause (a : OidAssignment) : String :=
  a.parent ++ " " ++ toString a.number.toNat

/-- The last step of the path of an assignment. -/
def step (a : OidAssignment) : PathStep :=
  ⟨a.number.toNat, a.name⟩

/-- Whether an assignment of some is that of the parent of another one. -/
def IsParent (all : List OidAssignment) (a above : OidAssignment) : Prop :=
  above ∈ all ∧ above.name = a.parent

/-- The path from a root to an assignment along the parents. -/
inductive Path (all : List OidAssignment) : OidAssignment → List PathStep → Prop where
  | root {a : OidAssignment} {root : PathStep} (hroot : root ∈ roots)
      (hname : root.name = a.parent) : Path all a [root, a.step]
  | child {a above : OidAssignment} {path : List PathStep} (hparent : IsParent all a above)
      (hpath : Path all above path) : Path all a (path ++ [a.step])

/-- Whether following the parents comes back to an assignment. -/
def IsCyclic (all : List OidAssignment) (a : OidAssignment) : Prop :=
  ∃ b, ReflTransGen (IsParent all) a b ∧ TransGen (IsParent all) b b

/-- Whether following the parents leads to a name that is neither assigned nor a root. -/
def IsDangling (all : List OidAssignment) (a : OidAssignment) : Prop :=
  ∃ b, ReflTransGen (IsParent all) a b ∧ b.parent ∉ roots.map PathStep.name ∧
    ∀ above ∈ all, above.name ≠ b.parent

/-! ### Paths -/

/-- The parent of an assignment right below a root is the name of a root. -/
theorem parent_mem_roots {root : PathStep} (hroot : root ∈ roots) (hname : root.name = a.parent) :
    a.parent ∈ roots.map PathStep.name :=
  List.mem_map.mpr ⟨root, hroot, hname⟩

/-- The parent of an assignment that is assigned itself is no root. -/
theorem IsParent.not_root (h : IsParent all a above) : a.parent ∉ roots.map PathStep.name :=
  h.2 ▸ above.name_not_root

/-- Where names are different, an assignment has one parent. -/
theorem IsParent.unique (hdistinct : (all.map name).Nodup) (ha : IsParent all a above)
    (hb : IsParent all a b) : above = b :=
  List.inj_on_of_nodup_map hdistinct ha.1 hb.1 (ha.2.trans hb.2.symm)

/-- Where the names are different there is only one path to an assignment. -/
theorem Path.unique (hdistinct : (all.map name).Nodup) (h : Path all a path)
    (hother : Path all a other) : path = other := by
  induction h generalizing other with
  | root hroot hname =>
    cases hother with
    | root hroot' hname' =>
      have hroots : (roots.map PathStep.name).Nodup := by decide
      rw [List.inj_on_of_nodup_map hroots hroot hroot' (hname.trans hname'.symm)]
    | child hparent _ => exact absurd (parent_mem_roots hroot hname) hparent.not_root
  | child hparent _ ih =>
    cases hother with
    | root hroot hname => exact absurd (parent_mem_roots hroot hname) hparent.not_root
    | child hparent' hpath' =>
      obtain rfl := hparent.unique hdistinct hparent'
      rw [ih hpath']

/-- The path of an assignment is longer than those of its ancestors. -/
theorem Path.of_transGen (hdistinct : (all.map name).Nodup) (h : Path all a path)
    (hancestor : TransGen (IsParent all) a b) :
    ∃ other, Path all b other ∧ other.length < path.length := by
  have hstep {a b : OidAssignment} {path : List PathStep} (h : Path all a path)
      (hparent : IsParent all a b) : ∃ other, Path all b other ∧ other.length < path.length := by
    cases h with
    | root hroot hname => exact absurd (parent_mem_roots hroot hname) hparent.not_root
    | @child _ _ upper hparent' hpath =>
      obtain rfl := hparent'.unique hdistinct hparent
      exact ⟨upper, hpath, by simp⟩
  induction hancestor with
  | single hparent => exact hstep h hparent
  | tail _ hparent ih =>
    obtain ⟨middle, hmiddle, hlonger⟩ := ih
    obtain ⟨other, hother, hshorter⟩ := hstep hmiddle hparent
    exact ⟨other, hother, by omega⟩

/-- Only finitely many assignments are met on the way up, so it ends unless it comes back. -/
theorem wellFounded_ancestors (hcyclic : ¬a.IsCyclic all) :
    WellFounded fun above b : {b // ReflTransGen (IsParent all) a b} =>
      TransGen (IsParent all) b.1 above.1 := by
  have hfinite : {b | ReflTransGen (IsParent all) a b}.Finite := by
    refine (List.finite_toSet (a :: all)).subset fun b hb => ?_
    rcases ReflTransGen.cases_tail hb with rfl | ⟨_, _, hparent⟩
    · exact List.mem_cons_self
    · exact List.mem_cons_of_mem _ hparent.1
  have : Finite {b // ReflTransGen (IsParent all) a b} := hfinite.to_subtype
  have : IsTrans {b // ReflTransGen (IsParent all) a b} fun above b =>
      TransGen (IsParent all) b.1 above.1 := ⟨fun _ _ _ hfirst hsecond => hsecond.trans hfirst⟩
  have : Std.Irrefl fun above b : {b // ReflTransGen (IsParent all) a b} =>
      TransGen (IsParent all) b.1 above.1 := ⟨fun b hb => hcyclic ⟨b.1, b.2, hb⟩⟩
  exact Finite.wellFounded_of_trans_of_irrefl _

/-- An assignment has a path unless its ancestors come back or leave the assignments. -/
theorem exists_path_iff (hdistinct : (all.map name).Nodup) :
    (∃ path, Path all a path) ↔ ¬(a.IsCyclic all ∨ a.IsDangling all) := by
  constructor
  · rintro ⟨path, hpath⟩ hnot
    have hancestor {b : OidAssignment} (hb : ReflTransGen (IsParent all) a b) :
        ∃ other, Path all b other := by
      rcases reflTransGen_iff_eq_or_transGen.mp hb with rfl | hb
      · exact ⟨path, hpath⟩
      · obtain ⟨other, hother, _⟩ := hpath.of_transGen hdistinct hb
        exact ⟨other, hother⟩
    rcases hnot with ⟨b, hb, hcycle⟩ | ⟨b, hb, hroot, hnone⟩
    · obtain ⟨other, hother⟩ := hancestor hb
      obtain ⟨again, hagain, hshorter⟩ := hother.of_transGen hdistinct hcycle
      rw [hagain.unique hdistinct hother] at hshorter
      exact Nat.lt_irrefl _ hshorter
    · obtain ⟨_, hother⟩ := hancestor hb
      cases hother with
      | root hmem hname => exact hroot (parent_mem_roots hmem hname)
      | child hparent _ => exact hnone _ hparent.1 hparent.2
  · rintro hnot
    obtain ⟨hcyclic, hdangling⟩ := not_or.mp hnot
    have hpaths : ∀ b : {b // ReflTransGen (IsParent all) a b}, ∃ path, Path all b.1 path := by
      intro b
      induction b using (wellFounded_ancestors hcyclic).induction with
      | _ b ih =>
        by_cases hroot : b.1.parent ∈ roots.map PathStep.name
        · obtain ⟨root, hroot, hname⟩ := List.mem_map.mp hroot
          exact ⟨_, .root hroot hname⟩
        · have hparent : ∃ above, IsParent all b.1 above := by
            by_contra hnone
            exact hdangling ⟨b.1, b.2, hroot, fun above hmem hname => hnone ⟨above, hmem, hname⟩⟩
          obtain ⟨above, hparent⟩ := hparent
          obtain ⟨path, hpath⟩ := ih ⟨above, b.2.tail hparent⟩ (.single hparent)
          exact ⟨_, .child hparent hpath⟩
    exact hpaths ⟨a, .refl⟩

/-! ### Climbing the clauses -/

/-- A text has the number of a root exactly if it is its name. -/
theorem rootNumber?_eq_some_iff {text : String} {number : Nat} :
    OidClause.rootNumber? text = some number ↔ ⟨number, text⟩ ∈ roots := by
  unfold OidClause.rootNumber?
  split <;> simp_all [roots, eq_comm]

/-- A text has no number of a root exactly if it names none. -/
theorem rootNumber?_eq_none_iff {text : String} :
    OidClause.rootNumber? text = none ↔ text ∉ roots.map PathStep.name := by
  unfold OidClause.rootNumber?
  split <;> simp_all [roots]

/-- The clause of an assignment is read as its parent and number. -/
theorem read?_clause (a : OidAssignment) :
    OidClause.read? a.clause = some ⟨a.parent, [⟨none, a.number.toNat⟩]⟩ := by
  have hnumeral {c : Char} (hc : c ∈ (toString a.number.toNat).toList) : c.isAlphanum = true :=
    Text.isAlphanum_of_mem_toString hc
  have hwords : Text.words a.clause = [a.parent, toString a.number.toNat] :=
    Text.words_pair (fun _ => a.parent_identifier.isBlank_eq_false)
      (fun _ hc => Text.isBlank_of_isAlphanum (hnumeral hc))
      a.parent_identifier.nonempty (Text.toString_ne_nil _)
  have hbracket : Text.beginsWith '(' (toString a.number.toNat) = false := by
    rw [Text.beginsWith, beq_eq_false_iff_ne]
    exact fun hhead => absurd (hnumeral (List.mem_of_mem_head? hhead)) (by decide)
  have harc : OidClause.readArc? (toString a.number.toNat) = some ⟨none, a.number.toNat⟩ := by
    have hbound : a.number.toNat < Text.bound32 := a.number.toNat_lt
    rw [OidClause.readArc?, Text.readBelow?_toString hbound]
  have hparent : (a.parent.toList.takeWhile fun c => !decide (c = '(')) = a.parent.toList := by
    refine List.takeWhile_eq_self_iff.mpr fun c hc => ?_
    have hbracket := a.parent_identifier.not_mem (c := '(') (by decide) (by decide)
    simpa using fun hsame : c = '(' => hbracket (hsame ▸ hc)
  rw [OidClause.read?, hwords]
  generalize toString a.number.toNat = numeral at hbracket harc
  simp [OidClause.joinBracketed, OidClause.joinBracketed.extend, hbracket, harc, hparent]

/-- The clause of an assignment has one step, the last one of its path. -/
theorem steps?_clause (a : OidAssignment) :
    (⟨a.parent, [⟨none, a.number.toNat⟩]⟩ : OidClause).steps? a.name = some [a.step] :=
  rfl

/-- What leads to an assignment from a root along clauses of the assignments is its path. -/
theorem path_of_leads (hclauses : ∀ key clause, clauses.lookup key = some clause →
      ∃ b ∈ all, b.name = key ∧ b.clause = clause)
    (h : OidClause.Leads clauses a.clause a.name path) : Path all a path := by
  generalize hclause : a.clause = clause, hname : a.name = name at h
  induction h generalizing a with
  | root hread hsteps hroot =>
    subst hclause hname
    obtain rfl := Option.some.inj (hread.symm.trans a.read?_clause)
    obtain rfl := Option.some.inj (hsteps.symm.trans a.steps?_clause)
    exact .root (rootNumber?_eq_some_iff.mp hroot) rfl
  | parent hread hsteps _ habove _ ih =>
    subst hclause hname
    obtain rfl := Option.some.inj (hread.symm.trans a.read?_clause)
    obtain rfl := Option.some.inj (hsteps.symm.trans a.steps?_clause)
    obtain ⟨b, hb, hname, hclause⟩ := hclauses _ _ habove
    exact .child ⟨hb, hname⟩ (ih hclause hname)

/-- The path of an assignment leads to it along the clauses of the assignments. -/
theorem Path.leads (hclauses : ∀ b ∈ all, clauses.lookup b.name = some b.clause)
    (h : Path all a path) : OidClause.Leads clauses a.clause a.name path := by
  induction h with
  | @root a root hroot hname =>
    have hnumber : OidClause.rootNumber? a.parent = some root.number := by
      rw [rootNumber?_eq_some_iff, ← hname]
      exact hroot
    have hleads : OidClause.Leads clauses a.clause a.name [⟨root.number, a.parent⟩, a.step] :=
      .root a.read?_clause a.steps?_clause hnumber
    rw [← hname] at hleads
    exact hleads
  | @child a above path hparent hpath ih =>
    have habove : clauses.lookup a.parent = some above.clause := by
      rw [← hparent.2]
      exact hclauses above hparent.1
    rw [hparent.2] at ih
    exact .parent a.read?_clause a.steps?_clause (rootNumber?_eq_none_iff.mpr hparent.not_root)
      habove ih

end OidAssignment

end Smi
