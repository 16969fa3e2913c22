import Garuda.Infra.RowMajor

/-!
# Regrouping by key

Values that are pushed to the group of their key, worked off group by group.

* `pushAll` pushes them, and `group k ps` is what comes to be in group `k`.
* `not_sublist_both` says that two elements stand in one order only.

`sum_group` says that a sum over all groups is the sum over all values: each has one group.
-/

namespace Infra

variable {α ε : Type}

/-! ## Groups -/

/-- `groups[k].push(x)`, for each pair in turn. -/
def pushAll : List (Nat × α) → List (List α) → Checked ε (List (List α))
  | [], groups => .ok groups
  | (k, x) :: rest, groups =>
    if k < groups.length then pushAll rest (groups.modify k (· ++ [x])) else .panic

def group (k : Nat) (ps : List (Nat × α)) : List α := (ps.filter (·.1 = k)).map (·.2)

theorem group_cons (k : Nat) (p : Nat × α) (ps : List (Nat × α)) :
    group k (p :: ps) = if p.1 = k then p.2 :: group k ps else group k ps := by
  unfold group
  split
  · next h => rw [List.filter_cons_of_pos (by simpa using h), List.map_cons]
  · next h => rw [List.filter_cons_of_neg (by simpa using h)]

theorem mem_group {k : Nat} {x : α} {ps : List (Nat × α)} : x ∈ group k ps ↔ (k, x) ∈ ps := by
  simp [group]

theorem modify_map_range (n k : Nat) (F : Nat → List α) (x : α) :
    ((List.range n).map F).modify k (· ++ [x])
      = (List.range n).map fun i => if k = i then F i ++ [x] else F i := by
  refine List.ext_getElem? fun i => ?_
  rw [List.getElem?_modify, List.getElem?_map, List.getElem?_map]
  rcases Nat.lt_or_ge i n with hi | hi
  · rw [List.getElem?_range hi]
    split <;> simp_all
  · rw [List.getElem?_eq_none (by simpa using hi)]
    simp

/-- **Every value comes to be in the group of its key, in the order of the pushes.** -/
theorem pushAll_eq {n : Nat} {F : Nat → List α} {ps : List (Nat × α)} (h : ∀ p ∈ ps, p.1 < n) :
    (pushAll ps ((List.range n).map F) : Checked ε (List (List α)))
      = .ok ((List.range n).map fun k => F k ++ group k ps) := by
  induction ps generalizing F with
  | nil => simp [pushAll, group]
  | cons p ps ih =>
    obtain ⟨k, x⟩ := p
    have hk : k < n := h _ List.mem_cons_self
    rw [pushAll, if_pos (by simpa using hk), modify_map_range,
      ih fun p hp => h p (List.mem_cons_of_mem _ hp)]
    congr 1
    refine List.map_congr_left fun i _ => ?_
    rw [group_cons]
    by_cases hi : k = i
    · simp [hi]
    · simp [hi]

/-- **A sum over the groups is a sum over the values.** -/
theorem sum_group {M : Type} [AddCommMonoid M] {n : Nat} (G : Nat → α → M) {ps : List (Nat × α)}
    (h : ∀ p ∈ ps, p.1 < n) :
    ∑ k ∈ Finset.range n, ((group k ps).map (G k)).sum = (ps.map fun p => G p.1 p.2).sum := by
  induction ps with
  | nil => simp [group]
  | cons p ps ih =>
    obtain ⟨k, x⟩ := p
    have hk : k ∈ Finset.range n := Finset.mem_range.mpr (h _ List.mem_cons_self)
    have hone : ∀ i ∈ Finset.range n, ((group i ((k, x) :: ps)).map (G i)).sum
        = (if k = i then G i x else 0) + ((group i ps).map (G i)).sum := fun i _ => by
      rw [group_cons]
      by_cases hi : k = i
      · simp [hi]
      · simp [hi]
    rw [Finset.sum_congr rfl hone, Finset.sum_add_distrib, Finset.sum_ite_eq, if_pos hk,
      ih fun p hp => h p (List.mem_cons_of_mem _ hp), List.map_cons, List.sum_cons]

/-! ## Pairs in a list -/

theorem not_sublist_both {β : Type} [BEq β] [LawfulBEq β] {l : List β} {x y : β} (hl : l.Nodup)
    (h : [x, y].Sublist l) (h' : [y, x].Sublist l) : False := by
  have hidx : l.Pairwise fun x y => l.idxOf x < l.idxOf y :=
    List.pairwise_iff_getElem.mpr fun i j hi hj hij => by
      rwa [hl.idxOf_getElem, hl.idxOf_getElem]
  exact Nat.lt_asymm (List.pairwise_iff_forall_sublist.mp hidx h)
    (List.pairwise_iff_forall_sublist.mp hidx h')

theorem pair_sublist_range {n i j : Nat} (hij : i < j) (hj : j < n) :
    [i, j].Sublist (List.range n) := by
  have hfront : [i].Sublist (List.range j) := List.singleton_sublist.mpr (List.mem_range.mpr hij)
  have hpair : [i, j].Sublist (List.range (j + 1)) := by
    rw [List.range_succ]
    exact hfront.append (List.Sublist.refl [j])
  exact hpair.trans (List.range_sublist.mpr hj)

end Infra
