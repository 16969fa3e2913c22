import Garuda.Memory.Expert
import Garuda.Quant.Dequant
import Garuda.Tokenizer.SpmEncode

/-!
# The order of the scores

`f32::total_cmp` against the order of numbers.

* `F32.value` is the number a finite pattern stands for.
* `F32.numberKey` is that number, and then the sign: `-0.0` comes before `0.0`.

`F32.totalKey_lt_iff` says that on finite patterns the two orders are one.
-/

namespace Garuda

namespace F32

/-- The number, in exact arithmetic. -/
def value (x : F32) : ℚ := Floats.ofBits x.bits

/-- Less than `2^31`: the sign bit is not set. -/
def positive (x : F32) : Bool := x.bits.toNat < 2 ^ 31

/-- The number first, and of two zeros the positive one above. -/
def numberKey (x : F32) : ℚ ×ₗ Bool := toLex (x.value, x.positive)

/-! ## The magnitude -/

/-- The magnitude of the pattern `n`, less its sign, in units of the smallest number. -/
def units (n : Nat) : Nat :=
  if n / 2 ^ 23 = 0 then n else (2 ^ 23 + n % 2 ^ 23) * 2 ^ (n / 2 ^ 23 - 1)

theorem units_lt_pow (n : Nat) : units n < 2 ^ 23 * 2 ^ (n / 2 ^ 23) := by
  have hmod : n % 2 ^ 23 < 2 ^ 23 := Nat.mod_lt _ (by decide)
  unfold units
  split
  next h =>
    rw [h]
    omega
  next h =>
    obtain ⟨e, he⟩ := Nat.exists_eq_succ_of_ne_zero h
    rw [he, Nat.succ_sub_one]
    calc (2 ^ 23 + n % 2 ^ 23) * 2 ^ e
        < 2 ^ 23 * 2 * 2 ^ e := Nat.mul_lt_mul_of_pos_right (by omega) (Nat.two_pow_pos e)
      _ = 2 ^ 23 * 2 ^ e.succ := by rw [Nat.mul_assoc, ← Nat.pow_succ']

theorem pow_le_units {n e : Nat} (h : e < n / 2 ^ 23) : 2 ^ 23 * 2 ^ e ≤ units n := by
  rw [units, if_neg (by omega)]
  exact Nat.mul_le_mul (Nat.le_add_right _ _) (Nat.pow_le_pow_right (by decide) (by omega))

/-- A pattern above another is a larger number. -/
theorem units_lt {n m : Nat} (h : n < m) : units n < units m := by
  have hle : n / 2 ^ 23 ≤ m / 2 ^ 23 := Nat.div_le_div_right h.le
  rcases hle.lt_or_eq with hlt | heq
  · exact (units_lt_pow n).trans_le (pow_le_units hlt)
  · rw [units, units, ← heq]
    split
    · exact h
    · exact Nat.mul_lt_mul_of_pos_right (by omega) (Nat.two_pow_pos _)

theorem value_eq {x : F32} (h : x.isFinite = true) :
    x.value = (if x.positive then 1 else -1) * (units (x.bits.toNat % 2 ^ 31) : ℚ)
      * 2 ^ (-149 : Int) := by
  have hlt := x.bits.toNat_lt
  have hexp : x.bits.toNat / 2 ^ 23 % 2 ^ 8 = x.bits.toNat % 2 ^ 31 / 2 ^ 23 := by omega
  have hfrac : x.bits.toNat % 2 ^ 23 = x.bits.toNat % 2 ^ 31 % 2 ^ 23 := by omega
  have hfinite : x.bits.toNat % 2 ^ 31 / 2 ^ 23 ≠ 255 := by
    rw [isFinite, hexp] at h
    simpa using h
  have hsign : x.bits.toNat / 2 ^ 31 = 1 ↔ ¬ x.positive = true := by
    simp only [positive, decide_eq_true_eq]
    omega
  simp only [value, Floats.ofBits]
  rw [hexp, hfrac]
  generalize x.bits.toNat % 2 ^ 31 = n at hfinite
  have hmagnitude : (if n / 2 ^ 23 = 0 then ((n % 2 ^ 23 : Nat) : ℚ) * 2 ^ (-149 : Int)
      else ((2 ^ 23 + n % 2 ^ 23 : Nat) : ℚ) * 2 ^ (((n / 2 ^ 23 : Nat) : Int) - 150))
      = (units n : ℚ) * 2 ^ (-149 : Int) := by
    unfold units
    split
    next h0 =>
      rw [Nat.mod_eq_of_lt (by omega)]
    next h0 =>
      obtain ⟨e, he⟩ := Nat.exists_eq_succ_of_ne_zero h0
      have hpow : (2 : ℚ) ^ (((e.succ : Nat) : Int) - 150) = 2 ^ e * 2 ^ (-149 : Int) := by
        rw [← zpow_natCast, ← zpow_add₀ (by norm_num)]
        congr 1
        push_cast
        omega
      rw [he, Nat.succ_sub_one, hpow, Nat.cast_mul, Nat.cast_pow, mul_assoc]
      rfl
  rw [if_neg hfinite, hmagnitude]
  by_cases hpos : x.positive = true
  · rw [if_neg (fun h1 => hsign.mp h1 hpos), if_pos hpos, one_mul]
  · rw [if_pos (hsign.mpr hpos), if_neg hpos, neg_mul, one_mul, neg_mul]

/-! ## The two orders -/

theorem totalKey_inj {x y : F32} (h : x.totalKey = y.totalKey) : x = y := by
  have hx := x.bits.toNat_lt
  have hy := y.bits.toNat_lt
  have hbits : x.bits.toNat = y.bits.toNat := by
    unfold totalKey at h
    split at h <;> split at h <;> omega
  cases x
  cases y
  exact congrArg _ (UInt32.toNat_inj.mp hbits)

theorem numberKey_lt_of_value {x y : F32} (h : x.value < y.value) : x.numberKey < y.numberKey :=
  Prod.Lex.toLex_lt_toLex.mpr (.inl h)

theorem numberKey_lt {x y : F32} (hx : x.isFinite = true) (hy : y.isFinite = true)
    (h : x.totalKey < y.totalKey) : x.numberKey < y.numberKey := by
  have hxlt := x.bits.toNat_lt
  have hylt := y.bits.toNat_lt
  have hunit : (0 : ℚ) < 2 ^ (-149 : Int) := by positivity
  have hvx := value_eq hx
  have hvy := value_eq hy
  unfold totalKey at h
  by_cases hpx : x.bits.toNat < 2 ^ 31
  · have hpx' : x.positive = true := decide_eq_true hpx
    have hpy : y.bits.toNat < 2 ^ 31 := by
      rw [if_pos hpx] at h
      split at h <;> omega
    have hpy' : y.positive = true := decide_eq_true hpy
    rw [if_pos hpx, if_pos hpy] at h
    have hunits : units (x.bits.toNat % 2 ^ 31) < units (y.bits.toNat % 2 ^ 31) :=
      units_lt (by omega)
    refine numberKey_lt_of_value ?_
    rw [hvx, hvy, if_pos hpx', if_pos hpy', one_mul, one_mul]
    exact mul_lt_mul_of_pos_right (by exact_mod_cast hunits) hunit
  · have hnx : ¬ x.positive = true := by simpa [positive] using hpx
    rw [if_neg hnx, neg_one_mul] at hvx
    by_cases hpy : y.bits.toNat < 2 ^ 31
    · -- a negative and a positive pattern, which may both be zeros
      have hpy' : y.positive = true := decide_eq_true hpy
      rw [if_pos hpy', one_mul] at hvy
      have hle : x.value ≤ y.value := by
        rw [hvx, hvy]
        refine mul_le_mul_of_nonneg_right ?_ hunit.le
        exact (neg_nonpos.mpr (Nat.cast_nonneg _)).trans (Nat.cast_nonneg _)
      rcases hle.lt_or_eq with hlt | heq
      · exact numberKey_lt_of_value hlt
      · refine Prod.Lex.toLex_lt_toLex.mpr (.inr ⟨heq, ?_⟩)
        rw [Bool.lt_iff]
        exact ⟨by simpa using hnx, hpy'⟩
    · have hny : ¬ y.positive = true := by simpa [positive] using hpy
      rw [if_neg hpx, if_neg hpy] at h
      have hunits : units (y.bits.toNat % 2 ^ 31) < units (x.bits.toNat % 2 ^ 31) :=
        units_lt (by omega)
      refine numberKey_lt_of_value ?_
      rw [hvx, hvy, if_neg hny, neg_one_mul]
      exact mul_lt_mul_of_pos_right (neg_lt_neg (by exact_mod_cast hunits)) hunit

/-- **On finite patterns `total_cmp` is the order of the numbers**, and of the signs of zero. -/
theorem totalKey_lt_iff {x y : F32} (hx : x.isFinite = true) (hy : y.isFinite = true) :
    x.totalKey < y.totalKey ↔ x.numberKey < y.numberKey := by
  refine ⟨numberKey_lt hx hy, fun h => ?_⟩
  rcases lt_trichotomy x.totalKey y.totalKey with hlt | heq | hgt
  · exact hlt
  · rw [totalKey_inj heq] at h
    exact absurd h (lt_irrefl _)
  · exact absurd h (lt_asymm (numberKey_lt hy hx hgt))

end F32

end Garuda
