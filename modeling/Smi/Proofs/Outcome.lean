import Mathlib.Data.List.Forall2
import Smi.Error

/-!
# Computations that may fail

A computation succeeds exactly when all its steps do, and it fails where one of them fails.
-/

namespace Smi

variable {ε α β : Type} {x : Except ε α} {f : α → Except ε β} {a : α} {b : β} {e : ε}

/-- Two steps in a row succeed when the first does and the second does on its result. -/
@[simp] theorem bind_eq_ok_iff : x >>= f = .ok b ↔ ∃ a, x = .ok a ∧ f a = .ok b := by
  cases x <;> simp [Bind.bind, Except.bind]

/-- Two steps in a row fail when the first does or the second does on its result. -/
theorem bind_eq_error_iff :
    x >>= f = .error e ↔ x = .error e ∨ ∃ a, x = .ok a ∧ f a = .error e := by
  cases x <;> simp [Bind.bind, Except.bind]

/-- A result that is simply returned is the result. -/
@[simp] theorem pure_eq_ok_iff {a b : α} : (pure a : Except ε α) = .ok b ↔ a = b := by
  simp [pure, Except.pure]

/-- What fails has no result. -/
@[simp] theorem throw_ne_ok : (throw e : Except ε α) ≠ .ok a := by
  simp [throw, throwThe, MonadExceptOf.throw]

/-- Another error does not change when a computation succeeds. -/
@[simp] theorem mapError_eq_ok_iff {ε' : Type} {f : ε → ε'} :
    x.mapError f = .ok a ↔ x = .ok a := by
  cases x with
  | error e =>
    have hfail : (Except.error e : Except ε α).mapError f = .error (f e) := rfl
    simp [hfail]
  | ok b =>
    have hok : (Except.ok b : Except ε α).mapError f = .ok b := rfl
    simp [hok]

/-- A step for each item of a list succeeds when every one of them does. -/
theorem mapM_eq_ok_iff {xs : List α} {ys : List β} :
    xs.mapM f = .ok ys ↔ xs.length = ys.length ∧ ∀ p ∈ xs.zip ys, f p.1 = .ok p.2 := by
  induction xs generalizing ys with
  | nil => cases ys <;> simp
  | cons x rest ih =>
    rw [List.mapM_cons]
    simp only [bind_eq_ok_iff, pure_eq_ok_iff]
    cases ys with
    | nil => simp
    | cons y others => simp [ih, and_left_comm]

/-- A step for each item of a list succeeds when every item has its result. -/
theorem mapM_eq_ok_iff_forall₂ {xs : List α} {ys : List β} :
    xs.mapM f = .ok ys ↔ List.Forall₂ (fun x y => f x = .ok y) xs ys := by
  rw [mapM_eq_ok_iff, List.forall₂_iff_zip]
  exact and_congr_right fun _ => ⟨fun h a b hmem => h (a, b) hmem, fun h p hmem => h hmem⟩

/-- A step for each item of a list has results when each of them has one. -/
theorem exists_mapM_iff {xs : List α} :
    (∃ ys, xs.mapM f = .ok ys) ↔ ∀ x ∈ xs, ∃ y, f x = .ok y := by
  induction xs with
  | nil => simp
  | cons x rest ih =>
    rw [List.forall_mem_cons, ← ih, List.mapM_cons]
    simp only [bind_eq_ok_iff, pure_eq_ok_iff]
    constructor
    · rintro ⟨_, y, hy, others, hothers, _⟩
      exact ⟨⟨y, hy⟩, others, hothers⟩
    · rintro ⟨⟨y, hy⟩, others, hothers⟩
      exact ⟨y :: others, y, hy, others, hothers, rfl⟩

/-- If each step has a known result, the results of all steps are known. -/
theorem mapM_eq_ok_map {xs : List α} {g : α → β} (h : ∀ x ∈ xs, f x = .ok (g x)) :
    xs.mapM f = .ok (xs.map g) := by
  induction xs with
  | nil => rfl
  | cons x rest ih =>
    rw [List.mapM_cons, h x List.mem_cons_self, ih fun y hy => h y (List.mem_cons_of_mem _ hy)]
    rfl

/-- What is seen of each result from its item is seen of all results. -/
theorem map_eq_of_mapM_eq_ok {γ : Type} {xs : List α} {ys : List β} {g : β → γ} {h : α → γ}
    (hmap : xs.mapM f = .ok ys) (hseen : ∀ x ∈ xs, ∀ y, f x = .ok y → g y = h x) :
    ys.map g = xs.map h := by
  induction xs generalizing ys with
  | nil =>
    obtain rfl := pure_eq_ok_iff.mp hmap
    rfl
  | cons x rest ih =>
    rw [List.mapM_cons] at hmap
    obtain ⟨y, hy, hmap⟩ := bind_eq_ok_iff.mp hmap
    obtain ⟨others, hothers, hmap⟩ := bind_eq_ok_iff.mp hmap
    obtain rfl := pure_eq_ok_iff.mp hmap
    rw [List.map_cons, List.map_cons, hseen x List.mem_cons_self y hy,
      ih hothers fun item hitem => hseen item (List.mem_cons_of_mem x hitem)]

/-- Calls that agree on every item of a list agree on the list. -/
theorem mapM_congr {xs : List α} {g : α → Except ε β} (h : ∀ x ∈ xs, f x = g x) :
    xs.mapM f = xs.mapM g := by
  induction xs with
  | nil => rfl
  | cons x rest ih =>
    rw [List.mapM_cons, List.mapM_cons, h x List.mem_cons_self,
      ih fun y hy => h y (List.mem_cons_of_mem _ hy)]

end Smi
