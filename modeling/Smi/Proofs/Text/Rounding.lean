import Mathlib.Algebra.Order.Field.Power
import Smi.Proofs.Text.Decimal
import Smi.Proofs.Text.Nearest

/-!
# Rounding a decimal number

A quotient and a scaled number are taken to the number of double precision nearest to them, so the
magnitude computed for a decimal number is its rounding, unless the rounding exceeds all magnitudes
of double precision.
-/

namespace Smi.Text

variable {a b n significand digits : ℕ} {scale exponent : ℤ} {q v : ℚ}

namespace Double

/-! ### Division -/

/-- Division to the even neighbour rounds the quotient. -/
theorem roundsTo_divideToEven (hb : 0 < b) : RoundsTo ((a : ℚ) / b) (divideToEven a b) := by
  have hb' : (0 : ℚ) < b := by exact_mod_cast hb
  have hsplit : (a : ℚ) / b = (a / b : ℕ) + (a % b : ℕ) / (b : ℚ) := by
    rw [eq_comm, ← mul_div_cancel_right₀ ((a / b : ℕ) : ℚ) hb'.ne', ← add_div]
    exact_mod_cast congrArg (fun n : ℕ => (n : ℚ) / b) (Nat.div_add_mod' a b)
  have hremainder : (a % b : ℕ) < (b : ℚ) := by exact_mod_cast Nat.mod_lt a hb
  rw [divideToEven, hsplit]
  generalize a / b = quotient at *
  generalize a % b = remainder at *
  rcases lt_trichotomy (2 * remainder) b with hlow | htie | hhigh
  · have hpart : (remainder : ℚ) / b < 1 / 2 := by
      rw [div_lt_div_iff₀ hb' two_pos]
      exact_mod_cast (by omega : remainder * 2 < 1 * b)
    rw [if_neg (by simp; omega)]
    refine .of_lt ?_
    rw [Int.cast_natCast, add_sub_cancel_left, abs_of_nonneg (by positivity)]
    exact hpart
  · have hpart : (remainder : ℚ) / b = 1 / 2 := by
      rw [div_eq_div_iff hb'.ne' two_ne_zero]
      exact_mod_cast (by omega : remainder * 2 = 1 * b)
    have hcondition : (decide (b < 2 * remainder) ||
        2 * remainder == b && quotient % 2 == 1) = (quotient % 2 == 1) := by
      simp [htie]
    rw [hpart, hcondition]
    rcases Nat.even_or_odd quotient with heven | hodd
    · rw [if_neg (by simp [Nat.even_iff.mp heven])]
      refine ⟨?_, fun _ => by exact_mod_cast heven⟩
      rw [Int.cast_natCast, add_sub_cancel_left, abs_of_pos one_half_pos]
    · rw [if_pos (by simp [Nat.odd_iff.mp hodd])]
      refine ⟨?_, fun _ => by exact_mod_cast hodd.add_one⟩
      push_cast
      rw [add_sub_add_left_eq_sub]
      norm_num
  · have hpart : 1 / 2 < (remainder : ℚ) / b := by
      rw [div_lt_div_iff₀ two_pos hb']
      exact_mod_cast (by omega : 1 * b < remainder * 2)
    have hbelow : (remainder : ℚ) / b < 1 := (div_lt_one hb').mpr hremainder
    rw [if_pos (by simp; omega)]
    refine .of_lt (abs_lt.mpr ?_)
    push_cast
    constructor <;> linarith

/-- A shift compares a quotient with a power of two. -/
theorem shifted_le_iff (hb : 0 < b) (k : ℤ) :
    (if 0 ≤ k then b <<< k.toNat ≤ a else b ≤ a <<< (-k).toNat) ↔ (2 : ℚ) ^ k ≤ a / b := by
  have hb' : (0 : ℚ) < b := by exact_mod_cast hb
  rw [le_div_iff₀ hb']
  split
  next hk =>
    obtain ⟨k, rfl⟩ := Int.eq_ofNat_of_zero_le hk
    rw [Int.toNat_natCast, Nat.shiftLeft_eq, zpow_natCast, mul_comm]
    norm_cast
  next hk =>
    obtain ⟨k, rfl⟩ := Int.exists_eq_neg_ofNat (not_le.mp hk).le
    rw [neg_neg, Int.toNat_natCast, Nat.shiftLeft_eq, zpow_neg, zpow_natCast,
      inv_mul_le_iff₀ (by positivity), mul_comm]
    norm_cast

/-- The exponent of a quotient is the difference of the exponents or one less. -/
theorem log_div_bounds (ha : 0 < a) (hb : 0 < b) :
    (Nat.log2 a : ℤ) - Nat.log2 b - 1 ≤ Int.log 2 ((a : ℚ) / b) ∧
      Int.log 2 ((a : ℚ) / b) ≤ (Nat.log2 a : ℤ) - Nat.log2 b := by
  have ha' : (0 : ℚ) < a := by exact_mod_cast ha
  have hb' : (0 : ℚ) < b := by exact_mod_cast hb
  have hpos : (0 : ℚ) < a / b := div_pos ha' hb'
  have ha_low : (2 : ℚ) ^ (Nat.log2 a : ℤ) ≤ a := by
    rw [zpow_natCast]
    exact_mod_cast Nat.log2_self_le ha.ne'
  have hb_low : (2 : ℚ) ^ (Nat.log2 b : ℤ) ≤ b := by
    rw [zpow_natCast]
    exact_mod_cast Nat.log2_self_le hb.ne'
  have ha_high : (a : ℚ) < 2 ^ (Nat.log2 a + 1 : ℤ) := by
    exact_mod_cast Nat.lt_log2_self (n := a)
  have hb_high : (b : ℚ) < 2 ^ (Nat.log2 b + 1 : ℤ) := by
    exact_mod_cast Nat.lt_log2_self (n := b)
  rw [le_log_iff hpos, ← Int.lt_add_one_iff, log_lt_iff hpos, le_div_iff₀ hb', div_lt_iff₀ hb']
  constructor
  · calc (2 : ℚ) ^ ((Nat.log2 a : ℤ) - Nat.log2 b - 1) * b
        ≤ 2 ^ ((Nat.log2 a : ℤ) - Nat.log2 b - 1) * 2 ^ (Nat.log2 b + 1 : ℤ) :=
          mul_le_mul_of_nonneg_left hb_high.le (zpow_nonneg zero_le_two _)
      _ = 2 ^ (Nat.log2 a : ℤ) := by rw [← zpow_add₀ two_ne_zero]; congr 1; omega
      _ ≤ a := ha_low
  · calc (a : ℚ) < 2 ^ (Nat.log2 a + 1 : ℤ) := ha_high
      _ = 2 ^ ((Nat.log2 a : ℤ) - Nat.log2 b + 1) * 2 ^ (Nat.log2 b : ℤ) := by
        rw [← zpow_add₀ two_ne_zero]; congr 1; omega
      _ ≤ 2 ^ ((Nat.log2 a : ℤ) - Nat.log2 b + 1) * b :=
          mul_le_mul_of_nonneg_left hb_low (zpow_nonneg zero_le_two _)

/-- The exponent found for a quotient is that of the power of two below it. -/
theorem floorLog_eq (ha : 0 < a) (hb : 0 < b) : floorLog a b = Int.log 2 ((a : ℚ) / b) := by
  have hpos : (0 : ℚ) < a / b := by positivity
  obtain ⟨hlow, hhigh⟩ := log_div_bounds ha hb
  have hreaches := (shifted_le_iff (a := a) hb (Nat.log2 a - Nat.log2 b)).trans
    (le_log_iff hpos).symm
  dsimp only [floorLog]
  simp only [hreaches]
  split
  next hle => exact le_antisymm hle hhigh
  next hlt => omega

/-- Division after a shift rounds the quotient scaled by a power of two. -/
theorem roundsTo_shifted (hb : 0 < b) (k : ℤ) :
    RoundsTo ((a : ℚ) / b / 2 ^ k) ((if 0 ≤ k then divideToEven a (b <<< k.toNat)
      else divideToEven (a <<< (-k).toNat) b : ℕ) : ℤ) := by
  split
  next hk =>
    obtain ⟨k, rfl⟩ := Int.eq_ofNat_of_zero_le hk
    have hround := roundsTo_divideToEven (a := a) (b := b <<< k) (by
      rw [Nat.shiftLeft_eq]
      positivity)
    have hquotient : (a : ℚ) / (b <<< k : ℕ) = a / b / 2 ^ (k : ℤ) := by
      rw [Nat.shiftLeft_eq, zpow_natCast, div_div]
      push_cast
      rfl
    rwa [Int.toNat_natCast, ← hquotient]
  next hk =>
    obtain ⟨k, rfl⟩ := Int.exists_eq_neg_ofNat (not_le.mp hk).le
    have hround := roundsTo_divideToEven (a := a <<< k) hb
    have hquotient : ((a <<< k : ℕ) : ℚ) / b = a / b / 2 ^ (-(k : ℤ)) := by
      rw [Nat.shiftLeft_eq, zpow_neg, zpow_natCast, div_inv_eq_mul, div_mul_eq_mul_div]
      push_cast
      rfl
    rwa [neg_neg, Int.toNat_natCast, ← hquotient]

/-! ### Rounding -/

/-- What a computed magnitude says of a number: it is rounded to the magnitude, or to a number above
all magnitudes of double precision. -/
def Approximates : Double → ℚ → Prop
  | finite significand scale, q =>
    Nearest q (significand * 2 ^ scale) ∧ (significand : ℚ) * 2 ^ scale < 2 ^ 1024
  | infinite, q => ∀ v, Nearest q v → 2 ^ 1024 ≤ v

/-- Numbers above all magnitudes are rounded to such numbers. -/
theorem approximates_infinite (h : 2 ^ 1024 ≤ q) : infinite.Approximates q := fun v hv => by
  exact_mod_cast hv.zpow_le (k := 1024) (by decide) (by exact_mod_cast h)

/-- Numbers next to zero are rounded to it. -/
theorem approximates_zero (h : |q| ≤ 2 ^ (-1075 : ℤ)) : (ofQuotient 0 1).Approximates q := by
  have hzero : ofQuotient 0 1 = finite 0 (-1074) := rfl
  rw [hzero, Approximates, Nat.cast_zero, zero_mul]
  exact ⟨nearest_zero_of_le h, by positivity⟩

/-- The scale of the magnitude computed for a quotient is that of its quantum. -/
theorem quantumExponent_div (ha : 0 < a) (hb : 0 < b) :
    (if floorLog a b - 52 < -1074 then -1074 else floorLog a b - 52) =
      quantumExponent ((a : ℚ) / b) := by
  rw [quantumExponent, abs_of_nonneg (by positivity), floorLog_eq ha hb]
  split <;> omega

/-- A scale that is too large, or a significand too large for the last scale, stands for a number
above all magnitudes. -/
theorem approximates_overflow (hround : RoundsTo (q / quantum q) significand) (hq : 0 ≤ q)
    (hover : 971 < quantumExponent q ∨ quantumExponent q = 971 ∧ significand = 2 ^ 53) :
    infinite.Approximates q := by
  rcases hover with hscale | ⟨hscale, rfl⟩
  · have hlog : 1024 ≤ Int.log 2 |q| := by
      unfold quantumExponent at hscale
      omega
    have hne : q ≠ 0 := by
      rintro rfl
      rw [abs_zero, Int.log_zero_right] at hlog
      omega
    refine approximates_infinite ?_
    calc (2 : ℚ) ^ 1024 = 2 ^ (1024 : ℤ) := (zpow_ofNat 2 1024).symm
      _ ≤ 2 ^ Int.log 2 |q| := zpow_le_zpow_right₀ one_le_two hlog
      _ ≤ |q| := zpow_log_le hne
      _ = q := abs_of_nonneg hq
  · rintro v ⟨n, hn, rfl⟩
    rw [hn.unique hround, quantum, hscale, zpow_ofNat, Int.cast_natCast, Nat.cast_pow,
      Nat.cast_ofNat, ← pow_add]

/-- Any other scale and significand stand for a magnitude. -/
theorem lt_of_not_overflow (hround : RoundsTo (q / quantum q) significand)
    (hfits : ¬(971 < quantumExponent q ∨ quantumExponent q = 971 ∧ significand = 2 ^ 53)) :
    significand * quantum q < 2 ^ 1024 := by
  have hle : significand ≤ 2 ^ 53 := by exact_mod_cast abs_le_of_roundsTo hround
  have hle' : (significand : ℚ) ≤ 2 ^ 53 := by exact_mod_cast hle
  rcases lt_trichotomy (quantumExponent q) 971 with hlow | hlast | hhigh
  · calc (significand : ℚ) * quantum q ≤ 2 ^ 53 * 2 ^ (970 : ℤ) :=
          mul_le_mul hle' (zpow_le_zpow_right₀ one_le_two (by omega)) (quantum_pos q).le
            (by positivity)
      _ = 2 ^ (53 + 970) := by rw [zpow_ofNat, ← pow_add]
      _ < 2 ^ 1024 := pow_lt_pow_right₀ one_lt_two (by decide)
  · have hlt : (significand : ℚ) < 2 ^ 53 := by
      exact_mod_cast hle.lt_of_ne fun h => hfits (.inr ⟨hlast, h⟩)
    calc (significand : ℚ) * quantum q < 2 ^ 53 * quantum q :=
          mul_lt_mul_of_pos_right hlt (quantum_pos q)
      _ = 2 ^ (53 + 971) := by rw [quantum, hlast, zpow_ofNat, ← pow_add]
  · exact absurd (.inl hhigh) hfits

/-- The magnitude computed for a quotient approximates it. -/
theorem approximates_ofQuotient (hb : 0 < b) : (ofQuotient a b).Approximates ((a : ℚ) / b) := by
  rcases Nat.eq_zero_or_pos a with rfl | ha
  · rw [Nat.cast_zero, zero_div]
    exact approximates_zero (abs_zero.trans_le (zpow_nonneg zero_le_two _))
  · have hround := roundsTo_shifted (a := a) hb (quantumExponent ((a : ℚ) / b))
    dsimp only [ofQuotient]
    rw [if_neg (by simpa using ha.ne'), quantumExponent_div ha hb]
    rw [← quantum] at hround
    generalize (if 0 ≤ quantumExponent ((a : ℚ) / b) then _ else _ : ℕ) = significand at *
    have hoverflow : ((decide (971 < quantumExponent ((a : ℚ) / b)) ||
        quantumExponent ((a : ℚ) / b) == 971 && significand == 1 <<< 53) = true) ↔
          971 < quantumExponent ((a : ℚ) / b) ∨
            quantumExponent ((a : ℚ) / b) = 971 ∧ significand = 2 ^ 53 := by
      simp [Nat.shiftLeft_eq]
    simp only [hoverflow]
    split
    next hover => exact approximates_overflow hround (by positivity) hover
    next hfits =>
      exact ⟨⟨significand, hround, by rw [Int.cast_natCast, quantum]⟩,
        lt_of_not_overflow hround hfits⟩

/-! ### Scaling by a power of ten -/

/-- Three binary places fit into a decimal one. -/
theorem two_pow_le_ten_pow (k : ℕ) : (2 : ℚ) ^ (3 * k) ≤ 10 ^ k := by
  rw [pow_mul]
  exact pow_le_pow_left₀ (by norm_num) (by norm_num) k

/-- A number with an exponent above 400 exceeds all magnitudes. -/
theorem le_scaled (hdigits : 0 < digits) (hexponent : 400 < exponent) :
    (2 : ℚ) ^ 1024 ≤ digits * 10 ^ exponent := by
  obtain ⟨k, rfl⟩ := Int.eq_ofNat_of_zero_le (by omega : 0 ≤ exponent)
  have hdigits' : (1 : ℚ) ≤ digits := by exact_mod_cast hdigits
  calc (2 : ℚ) ^ 1024 ≤ 2 ^ (3 * k) := pow_le_pow_right₀ one_le_two (by omega)
    _ ≤ 10 ^ k := two_pow_le_ten_pow k
    _ = 10 ^ (k : ℤ) := (zpow_natCast 10 k).symm
    _ ≤ digits * 10 ^ (k : ℤ) := le_mul_of_one_le_left (by positivity) hdigits'

/-- A number with an exponent far below zero is closer to zero than to any other magnitude. -/
theorem scaled_le (hexponent : exponent + Nat.log2 digits < -400) :
    |(digits : ℚ) * 10 ^ exponent| ≤ 2 ^ (-1075 : ℤ) := by
  obtain ⟨k, rfl⟩ := Int.exists_eq_neg_ofNat (by omega : exponent ≤ 0)
  have hdigits : (digits : ℚ) ≤ 2 ^ (Nat.log2 digits + 1) := by
    exact_mod_cast (Nat.lt_log2_self (n := digits)).le
  rw [abs_of_nonneg (by positivity)]
  calc (digits : ℚ) * 10 ^ (-(k : ℤ)) = digits / 10 ^ k := by
        rw [zpow_neg, zpow_natCast, div_eq_mul_inv]
    _ ≤ 2 ^ (Nat.log2 digits + 1) / 2 ^ (3 * k) :=
      div_le_div₀ (by positivity) hdigits (by positivity) (two_pow_le_ten_pow k)
    _ = 2 ^ ((Nat.log2 digits + 1 : ℕ) - (3 * k : ℕ) : ℤ) := by
      rw [zpow_sub₀ two_ne_zero, zpow_natCast, zpow_natCast]
    _ ≤ 2 ^ (-1075 : ℤ) := zpow_le_zpow_right₀ one_le_two (by omega)

/-- The magnitude computed for a decimal number approximates it. -/
theorem approximates_ofDecimal (digits : ℕ) (exponent : ℤ) :
    (ofDecimal digits exponent).Approximates (digits * 10 ^ exponent) := by
  unfold ofDecimal
  split
  next hzero =>
    rw [beq_iff_eq.mp hzero, Nat.cast_zero, zero_mul]
    exact approximates_zero (abs_zero.trans_le (zpow_nonneg zero_le_two _))
  next hne =>
  have hpos : 1 ≤ digits := Nat.pos_of_ne_zero (by simpa using hne)
  split
  next hlarge => exact approximates_infinite (le_scaled hpos hlarge)
  next =>
  split
  next hsmall => exact approximates_zero (scaled_le hsmall)
  next =>
  split
  next hexponent =>
    obtain ⟨k, rfl⟩ := Int.eq_ofNat_of_zero_le hexponent
    have happrox := approximates_ofQuotient (a := digits * Nat.pow 10 k) one_pos
    simpa using happrox
  next hexponent =>
    obtain ⟨k, rfl⟩ := Int.exists_eq_neg_ofNat (not_le.mp hexponent).le
    have happrox := approximates_ofQuotient (a := digits) (b := Nat.pow 10 k)
      (Nat.pow_pos (by decide))
    simpa [div_eq_mul_inv] using happrox

/-- The magnitude computed for a decimal number is one of double precision, and none is closer. -/
theorem ofDecimal_optimal (h : ofDecimal digits exponent = finite significand scale) :
    Representable (significand * 2 ^ scale) ∧ ∀ w, Representable w →
      |(digits * 10 ^ exponent : ℚ) - significand * 2 ^ scale| ≤ |digits * 10 ^ exponent - w| := by
  have happrox := approximates_ofDecimal digits exponent
  rw [h] at happrox
  exact ⟨happrox.1.representable, fun _ => happrox.1.optimal⟩

/-! ### Whole numbers -/

/-- A finite number is whole if it equals a natural number. -/
theorem whole?_finite_eq_some_iff :
    (finite significand scale).whole? = some n ↔ (significand : ℚ) * 2 ^ scale = n := by
  dsimp only [whole?]
  split
  next hscale =>
    obtain ⟨k, rfl⟩ := Int.eq_ofNat_of_zero_le hscale
    rw [Int.toNat_natCast, Option.some_inj, Nat.shiftLeft_eq, zpow_natCast]
    norm_cast
  next hscale =>
    obtain ⟨k, rfl⟩ := Int.exists_eq_neg_ofNat (not_le.mp hscale).le
    have hpos : 0 < 2 ^ k := by positivity
    rw [neg_neg, Int.toNat_natCast, Nat.shiftRight_eq_div_pow, Option.ite_none_right_eq_some,
      Option.some_inj, Nat.shiftLeft_eq, beq_iff_eq, zpow_neg, zpow_natCast,
      mul_inv_eq_iff_eq_mul₀ (by positivity)]
    constructor
    · rintro ⟨hwhole, rfl⟩
      exact_mod_cast hwhole.symm
    · intro hwhole
      have hproduct : significand = n * 2 ^ k := by exact_mod_cast hwhole
      rw [hproduct, Nat.mul_div_cancel _ hpos]
      exact ⟨rfl, rfl⟩

/-- The whole number of the magnitude computed for a decimal number is its rounding. -/
theorem whole?_ofDecimal_eq_some_iff : (ofDecimal digits exponent).whole? = some n ↔
    n < 2 ^ 1024 ∧ Nearest (digits * 10 ^ exponent) n := by
  have happrox := approximates_ofDecimal digits exponent
  cases hdouble : ofDecimal digits exponent with
  | finite significand scale =>
    rw [hdouble] at happrox
    rw [whole?_finite_eq_some_iff]
    refine ⟨fun h => ?_, fun h => happrox.1.unique h.2⟩
    rw [Approximates, h] at happrox
    exact ⟨by exact_mod_cast happrox.2, happrox.1⟩
  | infinite =>
    rw [hdouble] at happrox
    refine ⟨nofun, fun h => ?_⟩
    exact absurd h.1 (not_lt.mpr (by exact_mod_cast happrox _ h.2))

/-- The sign of a number is the sign of its rounding. -/
theorem nearest_value_iff {number : Scientific} :
    Nearest number.value v ↔ Nearest number.magnitude (withSign number.negative v) := by
  unfold Scientific.value withSign
  split
  next => exact ⟨fun h => neg_neg number.magnitude ▸ h.neg, fun h => neg_neg v ▸ h.neg⟩
  next => exact Iff.rfl

end Double

end Smi.Text
