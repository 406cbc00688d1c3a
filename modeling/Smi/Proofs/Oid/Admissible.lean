import Smi.Oid.Basic
import Smi.Proofs.Outcome

/-!
# Admissible arcs

Numbers are accepted as arcs exactly when they are admissible at their positions. So the arcs of an
identifier give back the identifier, and adding arcs to it succeeds exactly when the longer list of
arcs is an identifier again.
-/

namespace Smi.Oid

variable {oid result : Oid} {position : Nat} {arcs : List Nat}

instance decidableAdmissibleFrom (position : Nat) :
    (arcs : List Nat) → Decidable (AdmissibleFrom position arcs)
  | [] => isTrue trivial
  | arc :: rest =>
    have := decidableAdmissibleFrom (position + 1) rest
    inferInstanceAs (Decidable (Admissible position arc ∧ AdmissibleFrom (position + 1) rest))

/-- No admissible arc is greater than the greatest one. -/
theorem le_maxArc_of_admissibleFrom (h : AdmissibleFrom position arcs) :
    ∀ arc ∈ arcs, arc ≤ maxArc := by
  induction arcs generalizing position with
  | nil => exact fun _ hmem => absurd hmem List.not_mem_nil
  | cons arc rest ih => exact List.forall_mem_cons.mpr ⟨h.1.1, ih h.2⟩

/-- Arcs are the same if they are the same whole numbers. -/
theorem eq_of_map_ofNat_eq {others : List Nat} (h : arcs.map Int.ofNat = others.map Int.ofNat) :
    arcs = others :=
  (List.map_inj_right fun _ _ => Int.ofNat.inj).mp h

/-- An admissible number is accepted as an arc. -/
theorem checkArc_eq_ok {arc : Nat} (h : Admissible position arc) :
    checkArc position (Int.ofNat arc) = .ok ⟨arc, h⟩ := by
  obtain ⟨hmax, hfirst, hsecond⟩ := h
  have h0 : ¬(position = 0 ∧ (2 : Int) < Int.ofNat arc) := fun ⟨hposition, hlt⟩ => by
    have := hfirst hposition
    simp only [Int.ofNat_eq_natCast] at hlt
    omega
  have h1 : ¬(position = 1 ∧ (39 : Int) < Int.ofNat arc) := fun ⟨hposition, hlt⟩ => by
    have := hsecond hposition
    simp only [Int.ofNat_eq_natCast] at hlt
    omega
  have hneg : ¬Int.ofNat arc < 0 := by simp
  have hto : (Int.ofNat arc).toNat ≤ maxArc := by simpa using hmax
  rw [checkArc, dif_neg h0, dif_neg h1, if_neg hneg, dif_pos hto]
  rfl

/-- Only the number itself is accepted as an arc. -/
theorem val_of_checkArc {value : Int} {checked : { arc // Admissible position arc }}
    (h : checkArc position value = .ok checked) : Int.ofNat checked.val = value := by
  unfold checkArc at h
  split at h
  · cases h
  · split at h
    · cases h
    · split at h
      · cases h
      · split at h
        next hneg _ =>
          obtain rfl := Except.ok.inj h
          exact Int.toNat_of_nonneg (Int.not_lt.mp hneg)
        · cases h

/-- Admissible numbers are accepted as arcs. -/
theorem checkArcs_eq_ok (h : AdmissibleFrom position arcs) :
    checkArcs position (arcs.map Int.ofNat) = .ok ⟨arcs, h⟩ := by
  induction arcs generalizing position with
  | nil => rfl
  | cons arc rest ih =>
    rw [List.map_cons, checkArcs, checkArc_eq_ok h.1, ih h.2]
    rfl

/-- Only the numbers themselves are accepted as arcs. -/
theorem val_of_checkArcs {components : List Int}
    {checked : { arcs // AdmissibleFrom position arcs }}
    (h : checkArcs position components = .ok checked) :
    checked.val.map Int.ofNat = components := by
  induction components generalizing position with
  | nil =>
    obtain rfl := Except.ok.inj h
    rfl
  | cons value rest ih =>
    rw [checkArcs] at h
    obtain ⟨first, hfirst, h⟩ := bind_eq_ok_iff.mp h
    obtain ⟨others, hothers, h⟩ := bind_eq_ok_iff.mp h
    obtain rfl := pure_eq_ok_iff.mp h
    exact List.cons_eq_cons.mpr ⟨val_of_checkArc hfirst, ih hothers⟩

/-- Numbers are the components of an identifier exactly when they are its arcs. -/
theorem ofComponents_eq_ok_iff {components : List Int} :
    ofComponents components = .ok oid ↔ components = oid.arcs.map Int.ofNat := by
  rw [ofComponents, bind_eq_ok_iff]
  constructor
  · rintro ⟨checked, hchecked, h⟩
    rw [← pure_eq_ok_iff.mp h]
    exact (val_of_checkArcs hchecked).symm
  · rintro rfl
    exact ⟨_, checkArcs_eq_ok oid.admissible, rfl⟩

/-- The arcs of an identifier are the components of this identifier. -/
theorem ofComponents_arcs (oid : Oid) : ofComponents (oid.arcs.map Int.ofNat) = .ok oid :=
  ofComponents_eq_ok_iff.mpr rfl

/-- The numbers of an identifier are its arcs. -/
theorem arcs_of_ofComponents (h : ofComponents (arcs.map Int.ofNat) = .ok oid) : oid.arcs = arcs :=
  (eq_of_map_ofNat_eq (ofComponents_eq_ok_iff.mp h)).symm

/-- Adding arcs succeeds exactly when all arcs together are those of an identifier. -/
theorem extend_eq_ok_iff : oid.extend arcs = .ok result ↔ result.arcs = oid.arcs ++ arcs := by
  rw [extend, bind_eq_ok_iff]
  constructor
  · rintro ⟨added, hadded, h⟩
    obtain rfl := pure_eq_ok_iff.mp h
    exact congrArg (oid.arcs ++ ·) (eq_of_map_ofNat_eq (val_of_checkArcs hadded))
  · intro harcs
    have hadmissible := result.admissible
    rw [harcs] at hadmissible
    refine ⟨_, checkArcs_eq_ok (admissibleFrom_append.mp hadmissible).2, ?_⟩
    exact pure_eq_ok_iff.mpr (ext harcs.symm)

/-- Adding one arc succeeds exactly when the arcs with it are those of an identifier. -/
theorem child_eq_ok_iff {arc : Nat} :
    oid.child arc = .ok result ↔ result.arcs = oid.arcs ++ [arc] :=
  extend_eq_ok_iff

/-- Numbers that are refused as arcs are malformed input. -/
theorem kind_of_checkArcs_eq_error {components : List Int} {e : Error}
    (h : checkArcs position components = .error e) : e.kind = .validation := by
  induction components generalizing position with
  | nil => cases h
  | cons first rest ih =>
    rw [checkArcs, bind_eq_error_iff] at h
    rcases h with harc | ⟨arc, _, h⟩
    · unfold checkArc at harc
      repeat' split at harc
      all_goals cases harc <;> rfl
    · rcases bind_eq_error_iff.mp h with hrest | ⟨_, _, h⟩
      · exact ih hrest
      · cases h

/-- An identifier that cannot be extended is an error of validation. -/
theorem kind_of_extend_eq_error {e : Error} (h : oid.extend arcs = .error e) :
    e.kind = .validation := by
  rcases bind_eq_error_iff.mp h with harcs | ⟨_, _, h⟩
  · exact kind_of_checkArcs_eq_error harcs
  · cases h

end Smi.Oid
