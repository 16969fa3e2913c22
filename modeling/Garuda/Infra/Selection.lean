import Mathlib

/-!
# Selecting before sorting

`SelectsNth cmp select` says what an unstable selection promises: a permutation in which nothing
before place `i` comes after what stands there, and nothing behind it comes before. Keeping the
first places of that and sorting them is the same as sorting everything and keeping the first
places.

* `mergeSort_append_of_le` — what comes first in the order is sorted on its own
* `mergeSort_take_select` — selecting and sorting meet
-/

namespace Infra

variable {α : Type} {cmp : α → α → Ordering}

/-- `select i l` is a permutation of `l` whose place `i` is where a sort would put it. -/
structure SelectsNth (cmp : α → α → Ordering) (select : Nat → List α → List α) : Prop where
  perm : ∀ {i : Nat} {l : List α}, i < l.length → (select i l).Perm l
  before : ∀ {i : Nat} {l : List α}, i < l.length → ∀ p, (select i l)[i]? = some p →
    ∀ a ∈ (select i l).take i, (cmp a p).isLE
  behind : ∀ {i : Nat} {l : List α}, i < l.length → ∀ p, (select i l)[i]? = some p →
    ∀ b ∈ (select i l).drop (i + 1), (cmp p b).isLE

section

variable [Std.TransCmp cmp]

theorem isLE_trans (a b c : α) (hab : (cmp a b).isLE = true) (hbc : (cmp b c).isLE = true) :
    (cmp a c).isLE = true := Std.TransCmp.isLE_trans hab hbc

theorem isLE_total (a b : α) : ((cmp a b).isLE || (cmp b a).isLE) = true := by
  have hswap : cmp a b = (cmp b a).swap := Std.OrientedCmp.eq_swap
  rw [hswap]
  cases cmp b a <;> rfl

theorem pairwise_sorted (cmp : α → α → Ordering) [Std.TransCmp cmp] (l : List α) :
    (l.mergeSort fun a b => (cmp a b).isLE).Pairwise fun a b => (cmp a b).isLE = true :=
  List.pairwise_mergeSort isLE_trans isLE_total l

theorem SelectsNth.le_of_take {select : Nat → List α → List α} (h : SelectsNth cmp select)
    {i : Nat} {l : List α} (hi : i < l.length) :
    ∀ a ∈ (select i l).take (i + 1), ∀ b ∈ (select i l).drop (i + 1), (cmp a b).isLE = true := by
  intro a ha b hb
  have hlt : i < (select i l).length := by rw [(h.perm hi).length_eq]; exact hi
  have hp : (select i l)[i]? = some (select i l)[i] := List.getElem?_eq_getElem hlt
  have hb := h.behind hi _ hp b hb
  rw [List.take_succ_eq_append_getElem hlt, List.mem_append, List.mem_singleton] at ha
  rcases ha with ha | rfl
  · exact isLE_trans _ _ _ (h.before hi _ hp a ha) hb
  · exact hb

/-! ## One sorted order -/

variable [Std.LawfulEqCmp cmp]

/-- A sorted permutation is the sort. -/
theorem eq_mergeSort {l sorted : List α} (hperm : sorted.Perm l)
    (hsorted : sorted.Pairwise fun a b => (cmp a b).isLE = true) :
    sorted = l.mergeSort fun a b => (cmp a b).isLE := by
  refine List.Perm.eq_of_pairwise ?_ hsorted (pairwise_sorted cmp l)
    (hperm.trans (List.mergeSort_perm l _).symm)
  intro a b _ _ hab hba
  exact Std.LawfulEqCmp.eq_of_compare (Std.OrientedCmp.isLE_antisymm hab hba)

/-- What comes first in the order is sorted on its own. -/
theorem mergeSort_append_of_le {first rest : List α}
    (h : ∀ a ∈ first, ∀ b ∈ rest, (cmp a b).isLE = true) :
    ((first ++ rest).mergeSort fun a b => (cmp a b).isLE)
      = (first.mergeSort fun a b => (cmp a b).isLE)
        ++ rest.mergeSort fun a b => (cmp a b).isLE := by
  refine (eq_mergeSort ?_ ?_).symm
  · exact (List.mergeSort_perm first _).append (List.mergeSort_perm rest _)
  · rw [List.pairwise_append]
    refine ⟨pairwise_sorted cmp first, pairwise_sorted cmp rest, fun a ha b hb => ?_⟩
    exact h a (List.mem_mergeSort.mp ha) b (List.mem_mergeSort.mp hb)

/-! ## Selecting -/

/-- **Selecting and sorting meet**: the first places of a selection, sorted, are the first places
of the sort. -/
theorem mergeSort_take_select {select : Nat → List α → List α} (h : SelectsNth cmp select)
    {i : Nat} {l : List α} (hi : i < l.length) :
    (((select i l).take (i + 1)).mergeSort fun a b => (cmp a b).isLE)
      = (l.mergeSort fun a b => (cmp a b).isLE).take (i + 1) := by
  have hsame : (l.mergeSort fun a b => (cmp a b).isLE)
      = (select i l).mergeSort fun a b => (cmp a b).isLE :=
    eq_mergeSort ((List.mergeSort_perm l _).trans (h.perm hi).symm) (pairwise_sorted cmp l)
  have hlength : ((select i l).take (i + 1)).length = i + 1 := by
    rw [List.length_take, (h.perm hi).length_eq, Nat.min_eq_left hi]
  have hsplit := mergeSort_append_of_le (h.le_of_take hi)
  rw [List.take_append_drop] at hsplit
  rw [hsame, hsplit, List.take_left']
  rw [List.length_mergeSort, hlength]

end

/-- A full sort is a selection. -/
theorem selectsNth_mergeSort [Std.TransCmp cmp] :
    SelectsNth cmp fun _ l => l.mergeSort fun a b => (cmp a b).isLE where
  perm _ := List.mergeSort_perm _ _
  before := by
    intro i l hi p hp a ha
    have hsorted := pairwise_sorted cmp l
    rw [← List.take_append_drop i (l.mergeSort _), List.pairwise_append] at hsorted
    refine hsorted.2.2 a ha p ?_
    exact List.mem_of_getElem? (i := 0) (by rw [List.getElem?_drop, Nat.add_zero]; exact hp)
  behind := by
    intro i l hi p hp b hb
    have hsorted := pairwise_sorted cmp l
    rw [← List.take_append_drop (i + 1) (l.mergeSort _), List.pairwise_append] at hsorted
    refine hsorted.2.2 p ?_ b hb
    exact List.mem_of_getElem? (i := i)
      (by rw [List.getElem?_take_of_lt (Nat.lt_succ_self i)]; exact hp)

end Infra
