import Mathlib.Data.Int.Log
import Mathlib.Data.Rat.Floor
import Mathlib.Tactic.Linarith
import Mathlib.Tactic.Positivity

/-!
# Numbers of double precision

The numbers of double precision around a rational number are the multiples of its quantum, a power
of two that leaves 53 significant bits, or fewer below `2 ^ -1022`. The number nearest to the
rational one is its only rounding: no number of double precision is closer. Whole numbers below
`2 ^ 53` are their own rounding, and no other whole number is rounded to one of them.
-/

namespace Smi.Text

variable {q v w : ℚ} {m n : ℤ}

/-! ### Rounding to whole numbers -/

/-- The whole number is the nearest one, and the even one of two that are equally near. -/
structure RoundsTo (q : ℚ) (n : ℤ) : Prop where
  close : |q - n| ≤ 1 / 2
  even : |q - n| = 1 / 2 → Even n

/-- A whole number less than half above or below is the one rounded to. -/
theorem RoundsTo.of_lt (h : |q - n| < 1 / 2) : RoundsTo q n :=
  ⟨h.le, fun htie => absurd htie h.ne⟩

/-- A whole number is rounded to itself. -/
theorem roundsTo_intCast (n : ℤ) : RoundsTo n n := by
  constructor <;> simp

/-- The opposite number is rounded to the opposite one. -/
theorem RoundsTo.neg (h : RoundsTo q n) : RoundsTo (-q) (-n) := by
  have hdist : |-q - (-n : ℤ)| = |q - n| := by
    rw [Int.cast_neg, neg_sub_neg, abs_sub_comm]
  exact ⟨hdist ▸ h.close, fun htie => (h.even (hdist ▸ htie)).neg⟩

/-- Of two roundings of a number neither is greater. -/
theorem RoundsTo.le (hm : RoundsTo q m) (hn : RoundsTo q n) : n ≤ m := by
  by_contra hlt
  have hstep : (m : ℚ) + 1 ≤ n := by exact_mod_cast not_le.mp hlt
  have habove := (abs_le.mp hm.close).2
  have hbelow := (abs_le.mp hn.close).1
  -- Then `q` is halfway between the two, and both are even.
  have hq : q = m + 1 / 2 := by linarith
  have hnext : (n : ℚ) = m + 1 := by linarith
  have hm_even := hm.even (by rw [hq, add_sub_cancel_left, abs_of_pos one_half_pos])
  have hn_even := hn.even (by rw [hq, hnext]; norm_num)
  have hsucc : n = m + 1 := by exact_mod_cast hnext
  rw [hsucc, Int.even_add_one] at hn_even
  exact hn_even hm_even

/-- A number is rounded to one whole number only. -/
theorem RoundsTo.unique (hm : RoundsTo q m) (hn : RoundsTo q n) : m = n :=
  le_antisymm (hn.le hm) (hm.le hn)

/-- No whole number is closer than the one rounded to. -/
theorem RoundsTo.nearest (h : RoundsTo q n) (k : ℤ) : |q - n| ≤ |q - k| := by
  rcases eq_or_ne n k with rfl | hne
  · exact le_rfl
  · have hint : (1 : ℤ) ≤ |n - k| := Int.one_le_abs (sub_ne_zero.mpr hne)
    have happart : (1 : ℚ) ≤ |(n : ℚ) - k| := by exact_mod_cast hint
    have htriangle := abs_sub_le (n : ℚ) q k
    have hclose := h.close
    rw [abs_sub_comm] at hclose
    rw [abs_sub_comm q n]
    linarith

/-- A whole number that is not above the rounded number is not above what it is rounded to. -/
theorem RoundsTo.le_of_le (h : RoundsTo q n) (hle : (m : ℚ) ≤ q) : m ≤ n := by
  have habove := (abs_le.mp h.close).2
  have hlt : (m : ℚ) < n + 1 := by linarith
  exact Int.lt_add_one_iff.mp (by exact_mod_cast hlt)

namespace Double

/-! ### The numbers of double precision -/

/-- The exponent of the quantum of a number. -/
def quantumExponent (q : ℚ) : ℤ :=
  max (Int.log 2 |q|) (-1022) - 52

/-- The distance between neighbouring numbers of double precision around a number. -/
def quantum (q : ℚ) : ℚ :=
  2 ^ quantumExponent q

/-- The number rounded to double precision, without a bound on its size. -/
def Nearest (q v : ℚ) : Prop :=
  ∃ n : ℤ, RoundsTo (q / quantum q) n ∧ v = n * quantum q

/-- Neighbours of double precision are apart. -/
theorem quantum_pos (q : ℚ) : 0 < quantum q :=
  zpow_pos two_pos _

/-- Around the opposite number the neighbours are equally far apart. -/
theorem quantum_neg (q : ℚ) : quantum (-q) = quantum q := by
  rw [quantum, quantumExponent, abs_neg, ← quantumExponent, ← quantum]

/-- A number has one nearest number only. -/
theorem Nearest.unique (hv : Nearest q v) (hw : Nearest q w) : v = w := by
  obtain ⟨m, hm, rfl⟩ := hv
  obtain ⟨n, hn, rfl⟩ := hw
  rw [hm.unique hn]

/-- The opposite number has the opposite nearest one. -/
theorem Nearest.neg (h : Nearest q v) : Nearest (-q) (-v) := by
  obtain ⟨n, hn, rfl⟩ := h
  refine ⟨-n, ?_, ?_⟩
  · rw [quantum_neg, neg_div]
    exact hn.neg
  · rw [quantum_neg, Int.cast_neg, neg_mul]

/-- A number is below a power of two if its logarithm is below the exponent. -/
theorem log_lt_iff {k : ℤ} (hq : 0 < q) : Int.log 2 q < k ↔ q < 2 ^ k := by
  exact_mod_cast (Int.lt_zpow_iff_log_lt (b := 2) one_lt_two hq).symm

/-- A number is at least a power of two if its logarithm is at least the exponent. -/
theorem le_log_iff {k : ℤ} (hq : 0 < q) : k ≤ Int.log 2 q ↔ 2 ^ k ≤ q := by
  exact_mod_cast (Int.zpow_le_iff_le_log (b := 2) one_lt_two hq).symm

/-- A number is at least the power of two of its logarithm. -/
theorem zpow_log_le (hq : q ≠ 0) : 2 ^ Int.log 2 |q| ≤ |q| :=
  (le_log_iff (abs_pos.mpr hq)).mp le_rfl

/-- Above `2 ^ -1022` the quantum leaves 53 significant bits. -/
theorem quantum_scaled (h : -1022 ≤ Int.log 2 |q|) : 2 ^ 52 * quantum q = 2 ^ Int.log 2 |q| := by
  rw [quantum, quantumExponent, max_eq_left h, zpow_sub₀ two_ne_zero, zpow_ofNat]
  exact mul_div_cancel₀ _ (by positivity)

/-- The quantum leaves at least 53 significant bits, except close to zero. -/
theorem quantum_le (hq : q ≠ 0) : quantum q ≤ max (|q| / 2 ^ 52) (2 ^ (-1074 : ℤ)) := by
  rcases le_total (Int.log 2 |q|) (-1022) with hsmall | hlarge
  · rw [quantum, quantumExponent, max_eq_right hsmall]
    exact le_max_right _ _
  · refine le_max_of_le_left ?_
    rw [le_div_iff₀' (by positivity), quantum_scaled hlarge]
    exact zpow_log_le hq

/-- The distance from a multiple of the quantum, counted in quanta. -/
theorem abs_sub_mul_quantum (q : ℚ) (k : ℤ) :
    |q - k * quantum q| = |q / quantum q - k| * quantum q := by
  have hpos := quantum_pos q
  rw [← abs_of_pos hpos, ← abs_mul, abs_of_pos hpos, sub_mul, div_mul_cancel₀ _ hpos.ne']

/-- What a number is rounded to differs from it by at most half a quantum. -/
theorem Nearest.close (h : Nearest q v) : |q - v| ≤ quantum q / 2 := by
  obtain ⟨n, hn, rfl⟩ := h
  rw [abs_sub_mul_quantum]
  calc |q / quantum q - n| * quantum q ≤ 1 / 2 * quantum q :=
        mul_le_mul_of_nonneg_right hn.close (quantum_pos q).le
    _ = quantum q / 2 := by rw [one_div_mul_eq_div]

/-- A multiple of the quantum is its own rounding. -/
theorem nearest_self (n : ℤ) (h : q = n * quantum q) : Nearest q q := by
  refine ⟨n, ?_, h⟩
  have hdiv : q / quantum q = n := (div_eq_iff (quantum_pos q).ne').mpr h
  rw [hdiv]
  exact roundsTo_intCast n

/-- Zero is nearest to itself. -/
theorem nearest_zero : Nearest 0 0 :=
  nearest_self 0 (by rw [Int.cast_zero, zero_mul])

/-- A whole number of at most 53 bits is its own rounding. -/
theorem nearest_intCast (h : |n| < 2 ^ 53) : Nearest n n := by
  rcases eq_or_ne n 0 with rfl | hne
  · simpa using nearest_zero
  · have hbound : |(n : ℚ)| < 2 ^ (53 : ℤ) := by exact_mod_cast h
    have hlog := (log_lt_iff (abs_pos.mpr (Int.cast_ne_zero.mpr hne))).mpr hbound
    have hexponent : quantumExponent n ≤ 0 := by
      unfold quantumExponent
      omega
    obtain ⟨k, hk⟩ := Int.exists_eq_neg_ofNat hexponent
    refine nearest_self (n * 2 ^ k) ?_
    rw [quantum, hk]
    simp

/-- Rounding moves a number by a small part of its size, and by no more than half the least
positive number of double precision close to zero. -/
theorem Nearest.abs_sub_le_max (h : Nearest q v) :
    |q - v| ≤ max (|q| / 2 ^ 53) (2 ^ (-1075 : ℤ)) := by
  rcases eq_or_ne q 0 with rfl | hne
  · rw [h.unique nearest_zero, sub_self, abs_zero]
    exact le_max_of_le_right (zpow_nonneg zero_le_two _)
  · have hleast : (2 : ℚ) ^ (-1075 : ℤ) = 2 ^ (-1074 : ℤ) / 2 :=
      (zpow_sub_one₀ two_ne_zero (-1074)).trans (div_eq_mul_inv _ _).symm
    calc |q - v| ≤ quantum q / 2 := h.close
      _ ≤ max (|q| / 2 ^ 52) (2 ^ (-1074 : ℤ)) / 2 :=
        div_le_div_of_nonneg_right (quantum_le hne) zero_le_two
      _ = max (|q| / 2 ^ 53) (2 ^ (-1075 : ℤ)) := by
        rw [← max_div_div_right zero_le_two, hleast, div_div, ← pow_succ]

/-- A whole number that is rounded to a whole number of at most 52 bits is this number. -/
theorem Nearest.eq_intCast (h : Nearest m n) (hn : |n| < 2 ^ 52) : m = n := by
  have hbound : |(n : ℚ)| < 2 ^ 52 := by exact_mod_cast hn
  have hleast : (2 : ℚ) ^ (-1075 : ℤ) ≤ 1 := zpow_le_one_of_nonpos₀ one_le_two (by decide)
  have herror : |(m : ℚ) - n| ≤ |(m : ℚ)| / 2 ^ 53 + 1 := by
    refine h.abs_sub_le_max.trans (max_le ?_ ?_)
    · linarith
    · have := abs_nonneg (m : ℚ)
      linarith
  have htriangle := abs_sub_abs_le_abs_sub (m : ℚ) n
  have hm : |(m : ℚ)| < 2 ^ 53 := by linarith
  exact_mod_cast (nearest_intCast (by exact_mod_cast hm)).unique h

/-- A number that is no larger than half the least positive number of double precision is rounded
to zero. -/
theorem nearest_zero_of_le (h : |q| ≤ 2 ^ (-1075 : ℤ)) : Nearest q 0 := by
  rcases eq_or_ne q 0 with rfl | hne
  · exact nearest_zero
  · have hlog : Int.log 2 |q| < -1022 := (log_lt_iff (abs_pos.mpr hne)).mpr
      (h.trans_lt (zpow_lt_zpow_right₀ one_lt_two (by decide)))
    have hquantum : quantum q = 2 ^ (-1075 : ℤ) * 2 := by
      rw [quantum, quantumExponent, max_eq_right hlog.le]
      exact zpow_add_one₀ (two_ne_zero' ℚ) (-1075)
    refine ⟨0, ⟨?_, fun _ => Even.zero⟩, by rw [Int.cast_zero, zero_mul]⟩
    rw [Int.cast_zero, sub_zero, abs_div, abs_of_pos (quantum_pos q), div_le_iff₀ (quantum_pos q),
      hquantum]
    linarith

/-- The number nearest to one that is not negative is not negative either. -/
theorem Nearest.nonneg (h : Nearest q v) (hq : 0 ≤ q) : 0 ≤ v := by
  obtain ⟨n, hn, rfl⟩ := h
  have hn_nonneg : 0 ≤ n := hn.le_of_le (by
    rw [Int.cast_zero]
    exact div_nonneg hq (quantum_pos q).le)
  exact mul_nonneg (by exact_mod_cast hn_nonneg) (quantum_pos q).le

/-- Rounding does not lead below a power of two. -/
theorem Nearest.zpow_le {k : ℤ} (h : Nearest q v) (hk : -1022 ≤ k) (hq : 2 ^ k ≤ q) :
    2 ^ k ≤ v := by
  obtain ⟨n, hn, rfl⟩ := h
  have hpos : 0 < q := (zpow_pos two_pos k).trans_le hq
  have hlog : k ≤ Int.log 2 |q| := by
    rwa [abs_of_pos hpos, le_log_iff hpos]
  have hscale := quantum_scaled (hk.trans hlog)
  have hn_le : 2 ^ 52 ≤ n := hn.le_of_le (by
    rw [le_div_iff₀ (quantum_pos q), Int.cast_pow, Int.cast_ofNat, hscale]
    exact (zpow_log_le hpos.ne').trans_eq (abs_of_pos hpos))
  calc (2 : ℚ) ^ k ≤ 2 ^ Int.log 2 |q| := zpow_le_zpow_right₀ one_le_two hlog
    _ = 2 ^ 52 * quantum q := hscale.symm
    _ ≤ n * quantum q :=
      mul_le_mul_of_nonneg_right (by exact_mod_cast hn_le) (quantum_pos q).le

/-! ### No number is closer -/

/-- A number of double precision, without a bound on its size. -/
def Representable (v : ℚ) : Prop :=
  ∃ n k : ℤ, |n| < 2 ^ 53 ∧ -1074 ≤ k ∧ v = n * 2 ^ k

/-- A number is less than `2 ^ 53` quanta away from zero. -/
theorem abs_lt_quantum (q : ℚ) : |q| < 2 ^ 53 * quantum q := by
  have hlog : |q| < 2 ^ (Int.log 2 |q| + 1) := by
    exact_mod_cast Int.lt_zpow_succ_log_self one_lt_two |q|
  refine hlog.trans_le ?_
  rw [quantum, ← zpow_ofNat, ← zpow_add₀ two_ne_zero]
  refine zpow_le_zpow_right₀ one_le_two ?_
  unfold quantumExponent
  omega

/-- No number is rounded to more quanta than 53 bits count, save for their power of two. -/
theorem abs_le_of_roundsTo (h : RoundsTo (q / quantum q) n) : |n| ≤ 2 ^ 53 := by
  have hsize : |q / quantum q| < 2 ^ 53 := by
    rw [abs_div, abs_of_pos (quantum_pos q), div_lt_iff₀ (quantum_pos q)]
    exact abs_lt_quantum q
  have htriangle := abs_sub_abs_le_abs_sub (n : ℚ) (q / quantum q)
  rw [abs_sub_comm (n : ℚ)] at htriangle
  have hclose := h.close
  have hbound : |(n : ℚ)| < 2 ^ 53 + 1 := by linarith
  exact Int.lt_add_one_iff.mp (by exact_mod_cast hbound)

/-- A number is rounded to one of double precision. -/
theorem Nearest.representable (h : Nearest q v) : Representable v := by
  obtain ⟨n, hn, rfl⟩ := h
  have hle : -1074 ≤ quantumExponent q := by
    unfold quantumExponent
    omega
  rcases (abs_le_of_roundsTo hn).lt_or_eq with hlt | heq
  · exact ⟨n, quantumExponent q, hlt, hle, rfl⟩
  · -- The significand has grown by a bit.
    obtain ⟨s, rfl⟩ : ∃ s : ℤ, n = s * 2 ^ 53 := by
      rcases (abs_eq (by positivity)).mp heq with rfl | rfl
      · exact ⟨1, by norm_num⟩
      · exact ⟨-1, by norm_num⟩
    refine ⟨s, quantumExponent q + 53, ?_, by omega, ?_⟩
    · rw [abs_mul, abs_of_pos (by positivity : (0 : ℤ) < 2 ^ 53)] at heq
      omega
    · rw [quantum, zpow_add₀ two_ne_zero, Int.cast_mul, mul_assoc, mul_comm (2 ^ _)]
      norm_cast

/-- No multiple of the quantum is closer than the one rounded to. -/
theorem Nearest.le_multiple (h : Nearest q v) (k : ℤ) : |q - v| ≤ |q - k * quantum q| := by
  obtain ⟨n, hn, rfl⟩ := h
  rw [abs_sub_mul_quantum, abs_sub_mul_quantum]
  exact mul_le_mul_of_nonneg_right (hn.nearest k) (quantum_pos q).le

/-- A number of double precision is a multiple of the quantum of another number, or it is no larger
than a multiple of it that is no larger than the other number. -/
theorem Representable.multiple_or_le (hw : Representable w) (hq : q ≠ 0) :
    (∃ k : ℤ, w = k * quantum q) ∨ |w| ≤ 2 ^ 52 * quantum q ∧ 2 ^ 52 * quantum q ≤ |q| := by
  obtain ⟨m, k, hm, hk, rfl⟩ := hw
  rcases le_or_gt (quantumExponent q) k with hcoarse | hfine
  · obtain ⟨d, rfl⟩ := Int.le.dest hcoarse
    refine .inl ⟨m * 2 ^ d, ?_⟩
    rw [quantum, zpow_add₀ two_ne_zero, zpow_natCast]
    push_cast
    ring
  · have hlog : -1022 ≤ Int.log 2 |q| := by
      unfold quantumExponent at hfine
      omega
    have hm' : |(m : ℚ)| ≤ 2 ^ (53 : ℤ) := by exact_mod_cast hm.le
    have hk_pos : (0 : ℚ) < 2 ^ k := zpow_pos two_pos k
    refine .inr ⟨?_, quantum_scaled hlog ▸ zpow_log_le hq⟩
    calc |(m : ℚ) * 2 ^ k| = |(m : ℚ)| * 2 ^ k := by rw [abs_mul, abs_of_pos hk_pos]
      _ ≤ 2 ^ (53 : ℤ) * 2 ^ k := mul_le_mul_of_nonneg_right hm' hk_pos.le
      _ = 2 ^ (53 + k) := (zpow_add₀ two_ne_zero _ _).symm
      _ ≤ 2 ^ (52 + quantumExponent q) := zpow_le_zpow_right₀ one_le_two (by omega)
      _ = 2 ^ 52 * quantum q := by rw [zpow_add₀ two_ne_zero, zpow_ofNat, quantum]

/-- No number of double precision is closer than the one rounded to. -/
theorem Nearest.optimal (h : Nearest q v) (hw : Representable w) : |q - v| ≤ |q - w| := by
  rcases eq_or_ne q 0 with rfl | hne
  · rw [h.unique nearest_zero, sub_self, abs_zero]
    exact abs_nonneg _
  rcases hw.multiple_or_le hne with ⟨k, rfl⟩ | ⟨hw_le, hle⟩
  · exact h.le_multiple k
  have hrange := abs_le.mp hw_le
  rcases le_total 0 q with hq | hq
  · rw [abs_of_nonneg hq] at hle
    refine (h.le_multiple (2 ^ 52)).trans ?_
    push_cast
    rw [abs_of_nonneg (by linarith)]
    exact le_abs.mpr (.inl (by linarith))
  · rw [abs_of_nonpos hq] at hle
    refine (h.le_multiple (-2 ^ 52)).trans ?_
    push_cast
    rw [abs_of_nonpos (by linarith)]
    exact le_abs.mpr (.inr (by linarith))

end Double

end Smi.Text
