import Mathlib

/-!
# Rejection sampling with a residual

A guess `g` comes from a distribution `q` and is kept with probability `min (p g / q g) 1`; a
rejected guess is replaced by a draw from the normalised positive part of `p - q`. What comes
out is distributed as `p`.

* `sum_accept` — how much is kept: the overlap of `p` and `q`
* `sum_reject` — how much is rejected: what the residual holds
* `rejection_law` — the law of what comes out
-/

namespace Infra

open Finset

variable {T : Type} {p q : T → ℝ} {S : Finset T}

/-- The probability of keeping a guess. -/
noncomputable def accept (p q : T → ℝ) (g : T) : ℝ := min (p g / q g) 1

/-- The positive part of `p - q`. -/
noncomputable def excess (p q : T → ℝ) (t : T) : ℝ := max (p t - q t) 0

theorem excess_nonneg (p q : T → ℝ) (t : T) : 0 ≤ excess p q t := le_max_right _ _

theorem accept_nonneg (hp : ∀ t, 0 ≤ p t) (hq : ∀ t, 0 ≤ q t) (g : T) : 0 ≤ accept p q g :=
  le_min (div_nonneg (hp g) (hq g)) zero_le_one

theorem accept_le_one (p q : T → ℝ) (g : T) : accept p q g ≤ 1 := min_le_right _ _

/-- A guess is made and kept with the smaller of the two probabilities. -/
theorem mul_accept (hp : ∀ t, 0 ≤ p t) (hq : ∀ t, 0 ≤ q t) (g : T) :
    q g * accept p q g = min (p g) (q g) := by
  rcases (hq g).eq_or_lt with h | h
  · rw [← h, zero_mul, min_eq_right (hp g)]
  · rw [accept, mul_min_of_nonneg _ _ h.le, mul_div_cancel₀ _ h.ne', mul_one]

theorem min_add_excess (p q : T → ℝ) (t : T) : min (p t) (q t) + excess p q t = p t := by
  unfold excess
  rcases le_total (p t) (q t) with h | h
  · rw [min_eq_left h, max_eq_right (by linarith), add_zero]
  · rw [min_eq_right h, max_eq_left (by linarith)]
    ring

/-- How much is kept. -/
theorem sum_accept (hp : ∀ t, 0 ≤ p t) (hq : ∀ t, 0 ≤ q t) (hps : ∑ t ∈ S, p t = 1) :
    ∑ g ∈ S, q g * accept p q g = 1 - ∑ t ∈ S, excess p q t := by
  rw [← hps, ← sum_sub_distrib]
  refine sum_congr rfl fun t _ => ?_
  rw [mul_accept hp hq, eq_sub_iff_add_eq, min_add_excess]

/-- **How much is rejected** is what the residual holds. -/
theorem sum_reject (hp : ∀ t, 0 ≤ p t) (hq : ∀ t, 0 ≤ q t) (hps : ∑ t ∈ S, p t = 1)
    (hqs : ∑ t ∈ S, q t = 1) :
    ∑ g ∈ S, q g * (1 - accept p q g) = ∑ t ∈ S, excess p q t := by
  have h := sum_accept hp hq hps
  simp only [mul_sub, mul_one, sum_sub_distrib, hqs, h]
  ring

/-- **What comes out is distributed as `p`.** `draw g` is the probability that the replacement
of a rejected `g` is `t`; it only matters while there is anything to draw from. -/
theorem rejection_law [DecidableEq T] (hp : ∀ t, 0 ≤ p t) (hq : ∀ t, 0 ≤ q t)
    (hps : ∑ t ∈ S, p t = 1) (hqs : ∑ t ∈ S, q t = 1) {t : T} (ht : t ∈ S) {draw : T → ℝ}
    (hdraw : 0 < ∑ s ∈ S, excess p q s →
      ∀ g, draw g = excess p q t / ∑ s ∈ S, excess p q s) :
    ∑ g ∈ S, q g * ((if g = t then accept p q g else 0) + (1 - accept p q g) * draw g) = p t := by
  have hkept : ∑ g ∈ S, q g * (if g = t then accept p q g else 0) = min (p t) (q t) := by
    simp only [mul_ite, mul_zero]
    rw [sum_ite_eq_of_mem' S t _ ht, mul_accept hp hq]
  have hreplaced : ∑ g ∈ S, q g * ((1 - accept p q g) * draw g) = excess p q t := by
    have hreject := sum_reject hp hq hps hqs
    rcases (sum_nonneg fun s (_ : s ∈ S) => excess_nonneg p q s).eq_or_lt with hzero | hpos
    · -- nothing is ever rejected
      rw [← hzero] at hreject
      have hterm : ∀ g ∈ S, q g * (1 - accept p q g) = 0 :=
        (sum_eq_zero_iff_of_nonneg fun g _ =>
          mul_nonneg (hq g) (sub_nonneg.mpr (accept_le_one p q g))).mp hreject
      have hres : excess p q t = 0 :=
        (sum_eq_zero_iff_of_nonneg fun s _ => excess_nonneg p q s).mp hzero.symm t ht
      rw [hres]
      refine sum_eq_zero fun g hg => ?_
      rw [← mul_assoc, hterm g hg, zero_mul]
    · simp only [hdraw hpos, ← mul_assoc, ← sum_mul, hreject]
      rw [mul_div_cancel₀ _ hpos.ne']
  simp only [mul_add, sum_add_distrib, hkept, hreplaced]
  exact min_add_excess p q t

end Infra
