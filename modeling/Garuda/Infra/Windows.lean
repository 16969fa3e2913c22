import Garuda.Infra.Parser
import Mathlib.Algebra.BigOperators.Intervals
import Mathlib.Tactic.Ring

/-!
# Weighted sums by windows

A sum of weights times values, gone through window by window.

* `weighted g start ws` is the sum of `ws[j] * g (start + j)`.
* `foldlM_windows` is the rule for a loop that adds what one window weighs at each turn.
* `weighted_affine` is the sum of one window whose weights are affine in integer codes: the scale
  times the codes' inner product, less the minimum times a sum that no code is in.
-/

namespace Infra

section Weighted

variable {R : Type} [NonUnitalNonAssocSemiring R]

/-- The values from `start` on, weighted. -/
def weighted (g : Nat → R) : Nat → List R → R
  | _, [] => 0
  | start, w :: ws => w * g start + weighted g (start + 1) ws

theorem weighted_append (g : Nat → R) (start : Nat) (ws ws' : List R) :
    weighted g start (ws ++ ws') = weighted g start ws + weighted g (start + ws.length) ws' := by
  induction ws generalizing start with
  | nil => rw [List.nil_append, List.length_nil, Nat.add_zero, weighted, zero_add]
  | cons w ws ih =>
    rw [List.cons_append, weighted, weighted, ih, List.length_cons, add_assoc, add_assoc,
      Nat.add_comm 1]

theorem weighted_eq_sum (g : Nat → R) (start : Nat) (ws : List R) :
    weighted g start ws = ∑ j ∈ Finset.range ws.length, ws.getD j 0 * g (start + j) := by
  induction ws generalizing start with
  | nil => rfl
  | cons w ws ih =>
    rw [weighted, ih, List.length_cons, Finset.sum_range_succ', add_comm, List.getD_cons_zero,
      Nat.add_zero]
    congr 1
    refine Finset.sum_congr rfl fun j _ => ?_
    rw [List.getD_cons_succ, Nat.add_right_comm, ← Nat.add_assoc]

/--
**A loop that adds what each window weighs adds what all of them weigh.**

The window's number is counted on from one turn to the next, and says where its values are.
-/
theorem foldlM_windows {ε σ : Type} {step : R → σ × Nat → Checked ε R} {values : σ → List R}
    {g : Nat → R} {w : Nat} {l : List σ} (start : Nat) (hlen : ∀ s ∈ l, (values s).length = w)
    (hstep : ∀ acc s i, s ∈ l → i < start + l.length →
      step acc (s, i) = .ok (acc + weighted g (i * w) (values s))) (acc : R) :
    (l.zipIdx start).foldlM step acc
      = .ok (acc + weighted g (start * w) (l.flatMap values)) := by
  induction l generalizing start acc with
  | nil =>
    rw [List.flatMap_nil, weighted, add_zero]
    rfl
  | cons s l ih =>
    have hfirst := hstep acc s start List.mem_cons_self (by rw [List.length_cons]; omega)
    have hrest := ih (start + 1) (fun s' hs' => hlen s' (List.mem_cons_of_mem s hs'))
      (fun acc s' i hs' hi => hstep acc s' i (List.mem_cons_of_mem s hs')
        (by rw [List.length_cons]; omega))
    rw [List.zipIdx_cons, List.foldlM_cons, hfirst, Checked.ok_bind, hrest, List.flatMap_cons,
      weighted_append, hlen s List.mem_cons_self, add_assoc, Nat.add_one_mul]

end Weighted

/-- The inner product of codes, an integer. -/
def innerInt (a b : List Int) : Int := (List.zipWith (· * ·) a b).sum

theorem innerInt_cons (x y : Int) (a b : List Int) :
    innerInt (x :: a) (y :: b) = x * y + innerInt a b := by
  rw [innerInt, List.zipWith_cons_cons, List.sum_cons, innerInt]

/-- **A window of weights that are affine in their codes.** The values of the window are integers
times one scale. The induction is on the codes. -/
theorem weighted_affine {R : Type} [CommRing R] {g : Nat → R} {x : R} (a m : R)
    {codes ys : List Int} (start : Nat) (hlen : codes.length = ys.length)
    (hg : ∀ j < ys.length, g (start + j) = (ys.getD j 0 : R) * x) :
    weighted g start (codes.map fun q : Int => a * (q : R) - m)
      = x * (a * (innerInt codes ys : R) - m * (ys.sum : R)) := by
  induction codes generalizing ys start with
  | nil =>
    obtain rfl : ys = [] := List.eq_nil_of_length_eq_zero hlen.symm
    rw [List.map_nil, weighted, List.sum_nil, innerInt, List.zipWith_nil_left, List.sum_nil]
    push_cast
    ring
  | cons q codes ih =>
    obtain ⟨y, ys, rfl⟩ : ∃ (y : Int) (ys' : List Int), ys = y :: ys' := by
      cases ys with
      | nil => cases hlen
      | cons y ys => exact ⟨y, ys, rfl⟩
    have hfirst : g start = (y : R) * x := hg 0 (Nat.zero_lt_succ _)
    have hrest := ih (start + 1) (Nat.succ.inj hlen) fun j hj => by
      rw [Nat.add_right_comm, Nat.add_assoc]
      exact hg (j + 1) (Nat.succ_lt_succ hj)
    rw [List.map_cons, weighted, hfirst, hrest, innerInt_cons, List.sum_cons]
    push_cast
    ring

end Infra
