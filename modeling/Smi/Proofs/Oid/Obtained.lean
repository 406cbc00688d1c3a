import Smi.Proofs.Oid.Dotted

/-!
# Identifiers and their texts

The identifiers that calls lead to are the lists of arcs within the bounds, all of them and no
others. Adding arcs to one of them is the same as building it anew from all the arcs, with the same
failure if there is one. An identifier other than the root is read back from its dotted text, and
no text is read as the root.
-/

namespace Smi.Oid

variable {oid : Oid} {position offset : ℕ} {first arcs : List ℕ}

/-! ### Bounds -/

/-- Behind the second position only the largest arc bounds the others. -/
theorem admissibleFrom_iff_of_two_le (hposition : 2 ≤ position) :
    AdmissibleFrom position arcs ↔ ∀ arc ∈ arcs, arc ≤ maxArc := by
  induction arcs generalizing position with
  | nil => exact iff_of_true trivial fun _ hmem => absurd hmem List.not_mem_nil
  | cons arc rest ih =>
    have harc : Admissible position arc ↔ arc ≤ maxArc :=
      ⟨And.left, fun h => ⟨h, fun _ => by omega, fun _ => by omega⟩⟩
    rw [AdmissibleFrom, ih (Nat.le_succ_of_le hposition), List.forall_mem_cons, harc]

/-- Numbers are the arcs of an identifier if the first is at most 2, the second at most 39 and none
is too large. -/
theorem admissibleFrom_zero_iff : AdmissibleFrom 0 arcs ↔
    (∀ arc ∈ arcs[0]?, arc ≤ 2) ∧ (∀ arc ∈ arcs[1]?, arc ≤ 39) ∧ ∀ arc ∈ arcs, arc ≤ maxArc := by
  match arcs with
  | [] => simp [AdmissibleFrom]
  | [first] => simp [AdmissibleFrom, Admissible, and_comm]
  | first :: second :: rest =>
    simp only [AdmissibleFrom, Admissible, admissibleFrom_iff_of_two_le (Nat.le_refl 2)]
    simp
    tauto

/-! ### Building from components -/

/-- Admissible numbers in front are accepted, and what follows them decides. -/
theorem checkArcs_append (h : AdmissibleFrom position first)
    (hoffset : position + first.length = offset) (values : List ℤ) :
    checkArcs position (first.map Int.ofNat ++ values) =
      (checkArcs offset values).map fun added =>
        ⟨first ++ added.val, admissibleFrom_append.mpr ⟨h, hoffset ▸ added.property⟩⟩ := by
  induction first generalizing position with
  | nil =>
    obtain rfl : position = offset := hoffset
    cases hvalues : checkArcs position values with
    | error e => simp [hvalues, Except.map]
    | ok added => simp [hvalues, Except.map]
  | cons arc rest ih =>
    have hrest : position + 1 + rest.length = offset := by
      rw [← hoffset, List.length_cons]
      omega
    rw [List.map_cons, List.cons_append, checkArcs, checkArc_eq_ok h.1, ih h.2 hrest]
    cases checkArcs offset values with
    | error e => rfl
    | ok added => rfl

/-- Adding arcs is building the identifier anew from all arcs. -/
theorem extend_eq_ofComponents (oid : Oid) (arcs : List ℕ) :
    oid.extend arcs = ofComponents ((oid.arcs ++ arcs).map Int.ofNat) := by
  rw [extend, ofComponents, List.map_append, checkArcs_append oid.admissible rfl]
  cases checkArcs (0 + oid.arcs.length) (arcs.map Int.ofNat) with
  | error e => rfl
  | ok added => rfl

/-! ### Reading dotted texts -/

/-- An identifier is built from the numbers that a dotted text shows. -/
theorem read_dottedArcs (hne : arcs ≠ []) (hbound : ∀ arc ∈ arcs, arc < Text.signedBound64) :
    read (dottedArcs arcs) = ofComponents (arcs.map Int.ofNat) := by
  have hvalues : (arcs.map toString).mapM readComponent = .ok (arcs.map Int.ofNat) := by
    rw [List.mapM_map]
    refine mapM_eq_ok_map fun arc harc => ?_
    rw [Function.comp_apply, readComponent_toString, if_pos (hbound arc harc)]
    rfl
  rw [read, components_dottedArcs hne, hvalues]
  cases arcs with
  | nil => exact absurd rfl hne
  | cons arc rest => rfl

/-- A written identifier is read as itself, except for the root. -/
theorem read_dotted (hroot : oid ≠ root) : read oid.dotted = .ok oid := by
  have hne : oid.arcs ≠ [] := fun h => hroot (ext h)
  rw [dotted, read_dottedArcs hne fun arc harc => ?_, ofComponents_arcs]
  exact Nat.lt_of_le_of_lt (le_maxArc_of_admissibleFrom oid.admissible arc harc) (by decide)

/-- The root has no text. -/
theorem ne_root_of_read {text : String} (h : read text = .ok oid) : oid ≠ root := by
  obtain ⟨values, _, h⟩ := bind_eq_ok_iff.mp h
  rintro rfl
  cases values with
  | nil => cases h
  | cons value rest => cases ofComponents_eq_ok_iff.mp h

/-! ### Calls -/

/-- The identifiers to which calls lead. -/
inductive Obtained : Oid → Prop where
  | root : Obtained root
  | read {text : String} {oid : Oid} (h : read text = .ok oid) : Obtained oid
  | ofComponents {components : List ℤ} {oid : Oid} (h : ofComponents components = .ok oid) :
      Obtained oid
  | child {oid result : Oid} {arc : ℕ} (hoid : Obtained oid) (h : oid.child arc = .ok result) :
      Obtained result
  | extend {oid result : Oid} {arcs : List ℕ} (hoid : Obtained oid)
      (h : oid.extend arcs = .ok result) : Obtained result
  | parent {oid result : Oid} (hoid : Obtained oid) (h : oid.parent? = some result) :
      Obtained result

/-- Calls lead to the identifiers with at most 2 as the first arc, at most 39 as the second one and
at most 2147483647 as any arc, and to no others. From each of them, adding arcs is building the
identifier anew from all arcs, in success and in failure. Each one but the root is read back from
its dotted text, and the root is read from no text. -/
theorem obtained_bounds_and_texts :
    (∀ arcs : List ℕ, (∃ oid, Obtained oid ∧ oid.arcs = arcs) ↔
      (∀ arc ∈ arcs[0]?, arc ≤ 2) ∧ (∀ arc ∈ arcs[1]?, arc ≤ 39) ∧
        ∀ arc ∈ arcs, arc ≤ 2147483647) ∧
    ∀ oid, Obtained oid →
      (∀ arcs : List ℕ, oid.extend arcs = ofComponents ((oid.arcs ++ arcs).map Int.ofNat)) ∧
      (oid ≠ root → Oid.read oid.dotted = .ok oid) ∧
      ∀ text, Oid.read text = .ok oid → oid ≠ root := by
  refine ⟨fun arcs => ?_, fun oid _ =>
    ⟨oid.extend_eq_ofComponents, read_dotted, fun _ => ne_root_of_read⟩⟩
  refine Iff.trans ?_ admissibleFrom_zero_iff
  constructor
  · rintro ⟨oid, _, rfl⟩
    exact oid.admissible
  · exact fun h => ⟨⟨arcs, h⟩, .ofComponents (ofComponents_arcs ⟨arcs, h⟩), rfl⟩

/-- Blanks and empty components are dropped, and a component may have an exponent. -/
example : (read " 1.3. .6e0").map dotted = .ok "1.3.6" := by
  decide +kernel

end Smi.Oid
