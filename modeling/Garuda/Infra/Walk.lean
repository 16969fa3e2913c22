import Mathlib

/-!
# Drawing from a list of weights

`walk point cands` goes along a list of weighted items and stops where `point` is used up. With
`point` uniform between zero and the sum of the weights, every item is picked with a probability
proportional to its weight.

* `walk_eq_some_iff` — the points at which an item is picked are an interval of its weight
* `volume_walk` — the law of the pick
-/

namespace Infra

open MeasureTheory Set

variable {T K : Type}

/-- Walk the items until `point` is used up. -/
def walk [Zero K] [Sub K] [LE K] [DecidableLE K] : K → List (T × K) → Option T
  | _, [] => none
  | point, (t, w) :: rest => if point - w ≤ 0 then some t else walk (point - w) rest

/-! ## Where an item is picked -/

section

variable [Zero K] [Sub K] [LE K] [DecidableLE K]

/-- What is picked is one of the items. -/
theorem mem_of_walk : ∀ {cands : List (T × K)} {point : K} {t : T},
    walk point cands = some t → t ∈ cands.map Prod.fst
  | [], _, _, h => by simp [walk] at h
  | (s, w) :: rest, point, t, h => by
    rw [walk] at h
    split at h
    · rw [← Option.some.inj h]
      simp
    · exact List.mem_cons_of_mem _ (mem_of_walk h)

end

/-- The sum of the weights. -/
def massSum (cands : List (T × ℝ)) : ℝ := (cands.map Prod.snd).sum

theorem massSum_nonneg {cands : List (T × ℝ)} (h : ∀ c ∈ cands, 0 ≤ c.2) : 0 ≤ massSum cands :=
  List.sum_nonneg (by simpa using fun a t ht => h (t, a) ht)

theorem walk_past : ∀ {front : List (T × ℝ)} (_ : ∀ c ∈ front, 0 ≤ c.2) {point : ℝ}
    (_ : massSum front < point) (rest : List (T × ℝ)),
    walk point (front ++ rest) = walk (point - massSum front) rest
  | [], _, point, _, rest => by simp [massSum]
  | (s, w) :: front, hnonneg, point, hlt, rest => by
    obtain ⟨_, hfront⟩ := List.forall_mem_cons.mp hnonneg
    have hsum : massSum ((s, w) :: front) = w + massSum front := by simp [massSum]
    have hrest := massSum_nonneg hfront
    rw [hsum] at hlt ⊢
    rw [List.cons_append, walk, if_neg (by linarith), walk_past hfront (by linarith)]
    congr 1
    ring

theorem walk_within : ∀ {front : List (T × ℝ)} {point : ℝ} (_ : 0 < point)
    (_ : point ≤ massSum front) (rest : List (T × ℝ)),
    ∃ t ∈ front.map Prod.fst, walk point (front ++ rest) = some t
  | [], point, hpos, hle, _ => by
    simp only [massSum, List.map_nil, List.sum_nil] at hle
    exact absurd hle (not_le.mpr hpos)
  | (s, w) :: front, point, hpos, hle, rest => by
    have hsum : massSum ((s, w) :: front) = w + massSum front := by simp [massSum]
    rw [hsum] at hle
    rw [List.cons_append, walk]
    by_cases hw : point - w ≤ 0
    · rw [if_pos hw]
      exact ⟨s, by simp, rfl⟩
    · rw [if_neg hw]
      have hle' : point - w ≤ massSum front := by linarith
      obtain ⟨t, ht, hwalk⟩ := walk_within (not_le.mp hw) hle' rest
      exact ⟨t, List.mem_cons_of_mem _ ht, hwalk⟩

/-- **The points at which an item is picked** are an interval as long as its weight. -/
theorem walk_eq_some_iff {front back : List (T × ℝ)} {t : T} {w point : ℝ}
    (hnodup : (front ++ (t, w) :: back).map Prod.fst |>.Nodup)
    (hnonneg : ∀ c ∈ front ++ (t, w) :: back, 0 ≤ c.2) (hpos : 0 < point) :
    walk point (front ++ (t, w) :: back) = some t ↔
      massSum front < point ∧ point ≤ massSum front + w := by
  rw [List.map_append, List.map_cons, List.nodup_append, List.nodup_cons] at hnodup
  obtain ⟨_, ⟨hback, _⟩, hfront⟩ := hnodup
  have hfrontNonneg : ∀ c ∈ front, 0 ≤ c.2 := fun c hc => hnonneg c (by simp [hc])
  by_cases hlt : massSum front < point
  · rw [walk_past hfrontNonneg hlt, walk]
    constructor
    · intro h
      refine ⟨hlt, ?_⟩
      by_contra hgt
      rw [if_neg (by linarith)] at h
      exact hback (mem_of_walk h)
    · rintro ⟨_, hle⟩
      rw [if_pos (by linarith)]
  · obtain ⟨s, hs, hwalk⟩ := walk_within hpos (not_lt.mp hlt) ((t, w) :: back)
    rw [hwalk]
    constructor
    · intro h
      exact absurd (Option.some.inj h) (hfront s hs t (by simp))
    · rintro ⟨h, _⟩
      exact absurd h hlt

/-- What a positive point picks has weight. -/
theorem walk_support : ∀ {cands : List (T × ℝ)} {point : ℝ} {t : T}, 0 < point →
    walk point cands = some t → ∃ w, (t, w) ∈ cands ∧ 0 < w
  | [], _, _, _, h => by simp [walk] at h
  | (s, w) :: rest, point, t, hpos, h => by
    rw [walk] at h
    split at h
    · next hle =>
      rw [← Option.some.inj h]
      exact ⟨w, List.mem_cons_self, by linarith⟩
    · next hgt =>
      obtain ⟨w', hmem, hw'⟩ := walk_support (not_le.mp hgt) h
      exact ⟨w', List.mem_cons_of_mem _ hmem, hw'⟩

/-- The point zero picks the first item, whether it has weight or not. -/
theorem walk_zero {c : T × ℝ} (h : 0 ≤ c.2) (rest : List (T × ℝ)) :
    walk 0 (c :: rest) = some c.1 := by
  rw [walk, if_pos (by linarith)]

/-! ## The law of the pick -/

/-- The end points of the unit interval do not count. -/
theorem volume_congr_inside {S S' : Set ℝ} (h : ∀ u, u ≠ 0 → u ≠ 1 → (u ∈ S ↔ u ∈ S')) :
    volume S = volume S' := by
  have hnull : volume ({0, 1} : Set ℝ) = 0 := (Set.toFinite _).measure_zero _
  refine measure_congr (Filter.eventuallyEq_set.mpr ?_)
  filter_upwards [measure_eq_zero_iff_ae_notMem.mp hnull] with u hu
  rw [mem_insert_iff, mem_singleton_iff, not_or] at hu
  exact h u hu.1 hu.2

theorem massSum_append (front back : List (T × ℝ)) :
    massSum (front ++ back) = massSum front + massSum back := by simp [massSum]

/-- **The law of the pick**: an item is picked with probability its share of the weight. -/
theorem volume_walk {cands : List (T × ℝ)} (hnodup : (cands.map Prod.fst).Nodup)
    (hnonneg : ∀ c ∈ cands, 0 ≤ c.2) (hpos : 0 < massSum cands) {t : T} {w : ℝ}
    (hmem : (t, w) ∈ cands) :
    volume {u : ℝ | u ∈ Ico (0 : ℝ) 1 ∧ walk (u * massSum cands) cands = some t}
      = ENNReal.ofReal (w / massSum cands) := by
  obtain ⟨front, back, rfl⟩ := List.append_of_mem hmem
  generalize hM : massSum (front ++ (t, w) :: back) = M at hpos
  have hw : 0 ≤ w := hnonneg _ hmem
  have hfront : 0 ≤ massSum front := massSum_nonneg fun c hc => hnonneg c (by simp [hc])
  have hback : 0 ≤ massSum back := massSum_nonneg fun c hc => hnonneg c (by simp [hc])
  have hsum : M = massSum front + (w + massSum back) := by
    rw [← hM, massSum_append]
    simp [massSum]
  have hdiff : w / M = (massSum front + w) / M - massSum front / M := by ring
  rw [hdiff, ← Real.volume_Ioc]
  refine volume_congr_inside fun u hu0 hu1 => ?_
  rw [mem_ofPred_eq, mem_Ioc, div_lt_iff₀ hpos, le_div_iff₀ hpos]
  constructor
  · rintro ⟨⟨hlo, _⟩, h⟩
    have hu : 0 < u := lt_of_le_of_ne hlo (Ne.symm hu0)
    exact (walk_eq_some_iff hnodup hnonneg (mul_pos hu hpos)).mp h
  · intro h
    have hu : 0 < u := by
      by_contra hle
      have := mul_nonpos_of_nonpos_of_nonneg (not_lt.mp hle) hpos.le
      linarith [h.1]
    have hlt : u < 1 := by
      refine lt_of_le_of_ne ?_ hu1
      by_contra hgt
      have := (lt_mul_iff_one_lt_left hpos).mpr (not_le.mp hgt)
      linarith [h.2]
    exact ⟨⟨hu.le, hlt⟩, (walk_eq_some_iff hnodup hnonneg (mul_pos hu hpos)).mpr h⟩

/-- Below the sum of the weights something is picked. -/
theorem walk_isSome {cands : List (T × ℝ)} (hpos : 0 < massSum cands) {u : ℝ} (hu : 0 < u)
    (hu1 : u ≤ 1) : ∃ t, walk (u * massSum cands) cands = some t := by
  obtain ⟨t, _, h⟩ := walk_within (mul_pos hu hpos)
    (mul_le_of_le_one_left hpos.le hu1) ([] : List (T × ℝ))
  rw [List.append_nil] at h
  exact ⟨t, h⟩

end Infra
