import Garuda.Infra.Rejection
import Garuda.Runtime.Sampling

/-!
# What a sampled request is served

`verifyAgainst` with exact weights and ideal draws: the generator hands out independent uniform
numbers, so a probability is an area of the unit square.

* `verifyAgainst_lookup` — a looked-up guess is a guess from a point mass
* `volume_drawn` — what a draft model proposes
* `volume_emitted` — what one guess leads to
* `speculative_sampling_law` — the token emitted is distributed as the target asks
-/

namespace Garuda

open Infra MeasureTheory Set

/-! ## Exact weights, ideal draws -/

noncomputable instance : Weight ℝ where
  decidableLT := inferInstance
  decidableLE := inferInstance

/-- The next of a list of draws. -/
def drawNext : List ℝ → ℝ × List ℝ
  | [] => (0, [])
  | u :: rest => (u, rest)

/-- The token that comes out of a step that may take two draws. -/
noncomputable def emitted (cands : List (Token × ℝ)) (guess : Token)
    (dist : Option (List (Token × ℝ))) (x : ℝ × ℝ) : Token :=
  (verifyAgainst drawNext cands guess dist [x.1, x.2]).1.2

/-- Distinct tokens with weights, not all zero. -/
structure IsDistribution (l : List (Token × ℝ)) : Prop where
  nodup : (l.map Prod.fst).Nodup
  nonneg : ∀ c ∈ l, 0 ≤ c.2
  pos : 0 < totalMass l

/-! ## Masses -/

theorem totalMass_eq (l : List (Token × ℝ)) : totalMass l = massSum l := by
  have h : ∀ (l : List (Token × ℝ)) (acc : ℝ),
      l.foldl (fun acc c => acc + c.2) acc = acc + massSum l := by
    intro l
    induction l with
    | nil => intro acc; simp [massSum]
    | cons c l ih =>
      intro acc
      rw [List.foldl_cons, ih]
      simp [massSum, add_assoc]
  rw [show totalMass l = l.foldl (fun acc c => acc + c.2) 0 from rfl, h, zero_add]

theorem massOf_cons (c : Token × ℝ) (l : List (Token × ℝ)) (t : Token) :
    massOf (c :: l) t = if c.1 = t then c.2 else massOf l t := by
  unfold massOf
  rw [List.find?_cons]
  by_cases h : c.1 = t
  · simp [h]
  · have hne : (c.1 == t) = false := by simpa using h
    simp [h, hne]

theorem massOf_of_not_mem {l : List (Token × ℝ)} {t : Token} (h : t ∉ l.map Prod.fst) :
    massOf l t = 0 := by
  induction l with
  | nil => rfl
  | cons c l ih =>
    rw [List.map_cons, List.mem_cons, not_or] at h
    rw [massOf_cons, if_neg (Ne.symm h.1), ih h.2]

theorem massOf_of_mem {l : List (Token × ℝ)} (hnodup : (l.map Prod.fst).Nodup) {t : Token} {w : ℝ}
    (h : (t, w) ∈ l) : massOf l t = w := by
  induction l with
  | nil => simp at h
  | cons c l ih =>
    rw [List.map_cons, List.nodup_cons] at hnodup
    rw [massOf_cons]
    rcases List.mem_cons.mp h with rfl | hmem
    · rw [if_pos rfl]
    · rw [if_neg, ih hnodup.2 hmem]
      rintro rfl
      exact hnodup.1 (List.mem_map.mpr ⟨_, hmem, rfl⟩)

theorem massOf_nonneg {l : List (Token × ℝ)} (h : ∀ c ∈ l, 0 ≤ c.2) (t : Token) :
    0 ≤ massOf l t := by
  induction l with
  | nil => exact le_refl _
  | cons c l ih =>
    obtain ⟨hc, hl⟩ := List.forall_mem_cons.mp h
    rw [massOf_cons]
    split
    · exact hc
    · exact ih hl

/-- A sum along a list of distinct tokens is a sum over any set that holds them. -/
theorem sum_mul_eq {l : List (Token × ℝ)} (hnodup : (l.map Prod.fst).Nodup) {S : Finset Token}
    (hS : ∀ c ∈ l, c.1 ∈ S) (F : Token → ℝ) :
    (l.map fun c => c.2 * F c.1).sum = ∑ t ∈ S, massOf l t * F t := by
  induction l with
  | nil => simp [massOf]
  | cons c l ih =>
    obtain ⟨hc, hl⟩ := List.forall_mem_cons.mp hS
    rw [List.map_cons, List.nodup_cons] at hnodup
    have hsplit : ∀ t ∈ S, massOf (c :: l) t * F t
        = (if c.1 = t then c.2 * F t else 0) + massOf l t * F t := by
      intro t _
      rw [massOf_cons]
      by_cases h : c.1 = t
      · rw [if_pos h, if_pos h, massOf_of_not_mem (by rw [← h]; exact hnodup.1)]
        ring
      · rw [if_neg h, if_neg h, zero_add]
    rw [List.map_cons, List.sum_cons, ih hnodup.2 hl, Finset.sum_congr rfl hsplit,
      Finset.sum_add_distrib, Finset.sum_ite_eq_of_mem S c.1 _ hc]

theorem totalMass_eq_sum {l : List (Token × ℝ)} (hnodup : (l.map Prod.fst).Nodup)
    {S : Finset Token} (hS : ∀ c ∈ l, c.1 ∈ S) : totalMass l = ∑ t ∈ S, massOf l t := by
  have h := sum_mul_eq hnodup hS fun _ => 1
  simp only [mul_one] at h
  rw [totalMass_eq, massSum, ← h]

/-! ## Draws -/

/-- **The law of a draw**, whatever is taken when the walk falls off the end. -/
theorem volume_draw {l : List (Token × ℝ)} (h : IsDistribution l) (fallback t : Token) :
    volume {u : ℝ | u ∈ Ico (0 : ℝ) 1 ∧ (walk (u * totalMass l) l).getD fallback = t}
      = ENNReal.ofReal (massOf l t / totalMass l) := by
  have hpos : 0 < massSum l := by rw [← totalMass_eq]; exact h.pos
  rw [totalMass_eq]
  have hsome : ∀ u : ℝ, u ≠ 0 → u ∈ Ico (0 : ℝ) 1 → ∃ s, walk (u * massSum l) l = some s :=
    fun u hu0 hu => walk_isSome hpos (lt_of_le_of_ne hu.1 (Ne.symm hu0)) hu.2.le
  by_cases hmem : t ∈ l.map Prod.fst
  · obtain ⟨⟨_, w⟩, hw, rfl⟩ := List.mem_map.mp hmem
    rw [massOf_of_mem h.nodup hw, ← volume_walk h.nodup h.nonneg hpos hw]
    refine volume_congr_inside fun u hu0 _ => ?_
    rw [mem_ofPred_eq, mem_ofPred_eq, and_congr_right_iff]
    intro hu
    obtain ⟨s, hs⟩ := hsome u hu0 hu
    rw [hs, Option.getD_some, Option.some_inj]
  · have hempty : volume (∅ : Set ℝ) = 0 := measure_empty
    rw [massOf_of_not_mem hmem, zero_div, ENNReal.ofReal_zero, ← hempty]
    refine volume_congr_inside fun u hu0 _ => ?_
    rw [mem_ofPred_eq, mem_empty_iff_false, iff_false, not_and]
    intro hu ht
    obtain ⟨s, hs⟩ := hsome u hu0 hu
    rw [hs, Option.getD_some] at ht
    exact hmem (ht ▸ mem_of_walk hs)

/-- What a draft model proposes is drawn from its distribution. -/
theorem volume_drawn {q : List (Token × ℝ)} (h : IsDistribution q) (t : Token) :
    volume {u : ℝ | u ∈ Ico (0 : ℝ) 1 ∧ drawn u q = t}
      = ENNReal.ofReal (massOf q t / totalMass q) := volume_draw h (lastToken q) t

/-! ## One guess -/

/-- The weights a rejected guess is redrawn from. -/
noncomputable def residualWeights (cands q : List (Token × ℝ)) : List (Token × ℝ) :=
  cands.map fun c => (c.1, max (c.2 - massOf q c.1 / totalMass q * totalMass cands) 0)

section

variable {cands q : List (Token × ℝ)}

theorem residualWeights_tokens (cands q : List (Token × ℝ)) :
    (residualWeights cands q).map Prod.fst = cands.map Prod.fst := by
  rw [residualWeights, List.map_map]
  rfl

theorem residualWeights_nonneg (cands q : List (Token × ℝ)) :
    ∀ c ∈ residualWeights cands q, 0 ≤ c.2 := by
  intro c hc
  obtain ⟨d, _, rfl⟩ := List.mem_map.mp hc
  exact le_max_right _ _

theorem massOf_residualWeights (hp : IsDistribution cands) (hq : IsDistribution q) (t : Token) :
    massOf (residualWeights cands q) t
      = totalMass cands * excess (fun t => massOf cands t / totalMass cands)
          (fun t => massOf q t / totalMass q) t := by
  have hP := hp.pos
  by_cases hmem : t ∈ cands.map Prod.fst
  · obtain ⟨⟨_, w⟩, hw, rfl⟩ := List.mem_map.mp hmem
    have hin := massOf_of_mem (l := residualWeights cands q)
      (by rw [residualWeights_tokens]; exact hp.nodup) (List.mem_map.mpr ⟨_, hw, rfl⟩)
    rw [hin, excess, mul_max_of_nonneg _ _ hP.le, mul_zero, mul_sub,
      mul_div_cancel₀ _ hP.ne', massOf_of_mem hp.nodup hw, mul_comm (totalMass cands)]
  · rw [massOf_of_not_mem (by rw [residualWeights_tokens]; exact hmem), excess,
      massOf_of_not_mem hmem, zero_div, zero_sub, max_eq_right, mul_zero]
    exact neg_nonpos.mpr (div_nonneg (massOf_nonneg hq.nonneg t) hq.pos.le)

/-- What replaces a rejected guess, for the point `v`. -/
noncomputable def redrawn (cands q : List (Token × ℝ)) (guess : Token) (v : ℝ) : Token :=
  if totalMass (residualWeights cands q) ≤ 0 then guess
  else (walk (v * totalMass (residualWeights cands q)) (residualWeights cands q)).getD
    (((cands.reverse.find? (fun c => c.1 != guess)).map Prod.fst).getD guess)

theorem resample_eq (cands q : List (Token × ℝ)) (guess : Token) (v : ℝ) :
    (resample drawNext cands guess (some q) [v]).1.2 = redrawn cands q guess v := by
  have hweights : cands.map (fun c => (c.1, residualOf (totalMass cands) guess (some q) c.1 c.2))
      = residualWeights cands q := rfl
  unfold resample redrawn
  simp only [hweights]
  by_cases h : totalMass (residualWeights cands q) ≤ 0
  · rw [if_pos h, if_pos h]
  · rw [if_neg h, if_neg h]
    simp only [drawNext]
    cases walk (v * totalMass (residualWeights cands q)) (residualWeights cands q) with
    | none => rfl
    | some t => rfl

theorem emitted_eq (hp : IsDistribution cands) (hq : IsDistribution q) {guess : Token}
    (hg : 0 < massOf q guess) (x : ℝ × ℝ) :
    emitted cands guess (some q) x
      = if x.1 < accept (fun t => massOf cands t / totalMass cands)
          (fun t => massOf q t / totalMass q) guess then guess
        else redrawn cands q guess x.2 := by
  rw [← resample_eq]
  unfold emitted verifyAgainst accept
  simp only [if_neg (not_le.mpr hp.pos), if_neg (not_le.mpr hq.pos), drawNext,
    if_pos (div_pos hg hq.pos)]
  by_cases h : x.1 < min (massOf cands guess / totalMass cands / (massOf q guess / totalMass q)) 1
  · rw [if_pos h]
    exact congrArg (fun r : (Bool × Token) × List ℝ => r.1.2) (if_pos h)
  · rw [if_neg h]
    exact congrArg (fun r : (Bool × Token) × List ℝ => r.1.2) (if_neg h)

/-- A looked-up guess is a guess from a point mass. -/
theorem verifyAgainst_lookup (hp : IsDistribution cands) (guess : Token) (us : List ℝ) :
    verifyAgainst drawNext cands guess none us
      = verifyAgainst drawNext cands guess (some [(guess, 1)]) us := by
  have hmass : totalMass [(guess, (1 : ℝ))] = 1 := by simp [totalMass]
  have hone : massOf [(guess, (1 : ℝ))] guess = 1 := by rw [massOf_cons, if_pos rfl]
  have hweights : cands.map (fun c => (c.1, residualOf (totalMass cands) guess none c.1 c.2))
      = cands.map fun c =>
        (c.1, residualOf (totalMass cands) guess (some [(guess, 1)]) c.1 c.2) := by
    refine List.map_congr_left fun c hc => ?_
    congr 1
    simp only [residualOf, hmass, div_one]
    have hnonneg := hp.nonneg c hc
    by_cases h : c.1 = guess
    · have hle : c.2 ≤ totalMass cands := by
        rw [totalMass_eq]
        exact List.single_le_sum (by simpa using fun a t ht => hp.nonneg (t, a) ht) _
          (List.mem_map_of_mem hc)
      rw [h, hone, one_mul, max_eq_right (by linarith)]
      simp
    · have hother : massOf [(guess, (1 : ℝ))] c.1 = 0 := by
        rw [massOf_cons, if_neg (Ne.symm h)]
        rfl
      have hne : (c.1 == guess) = false := by simpa using h
      rw [hother, zero_mul, sub_zero, max_eq_left hnonneg, hne]
      simp
  have hresample : ∀ us, resample drawNext cands guess none us
      = resample drawNext cands guess (some [(guess, 1)]) us := by
    intro us
    unfold resample
    simp only [hweights]
  unfold verifyAgainst
  simp only [hmass, hone, div_one, hresample]
  rw [if_neg (show ¬ (1 : ℝ) ≤ 0 by norm_num)]

theorem volume_redrawn (hp : IsDistribution cands)
    (hres : 0 < totalMass (residualWeights cands q)) (guess t : Token) :
    volume {v : ℝ | v ∈ Ico (0 : ℝ) 1 ∧ redrawn cands q guess v = t}
      = ENNReal.ofReal
          (massOf (residualWeights cands q) t / totalMass (residualWeights cands q)) := by
  have h : IsDistribution (residualWeights cands q) :=
    ⟨by rw [residualWeights_tokens]; exact hp.nodup, residualWeights_nonneg cands q, hres⟩
  rw [← volume_draw h (((cands.reverse.find? (fun c => c.1 != guess)).map Prod.fst).getD guess)]
  simp only [redrawn, if_neg (not_le.mpr hres)]

/-- **What one guess leads to**: it is kept, or something else is drawn. -/
theorem volume_emitted (hp : IsDistribution cands) (hq : IsDistribution q) {guess : Token}
    (hg : 0 < massOf q guess) (t : Token) :
    let a := accept (fun t => massOf cands t / totalMass cands)
      (fun t => massOf q t / totalMass q) guess
    volume {x : ℝ × ℝ | x ∈ Ico (0 : ℝ) 1 ×ˢ Ico (0 : ℝ) 1 ∧ emitted cands guess (some q) x = t}
      = ENNReal.ofReal ((if guess = t then a else 0) + (1 - a)
          * (volume {v : ℝ | v ∈ Ico (0 : ℝ) 1 ∧ redrawn cands q guess v = t}).toReal) := by
  intro a
  have ha0 : 0 ≤ a := accept_nonneg (fun t => div_nonneg (massOf_nonneg hp.nonneg t) hp.pos.le)
    (fun t => div_nonneg (massOf_nonneg hq.nonneg t) hq.pos.le) guess
  have ha1 : a ≤ 1 := accept_le_one _ _ _
  generalize hV : {v : ℝ | v ∈ Ico (0 : ℝ) 1 ∧ redrawn cands q guess v = t} = V
  have hVtop : volume V ≠ ⊤ := by
    refine ne_top_of_le_ne_top ?_ (measure_mono (show V ⊆ Ico (0 : ℝ) 1 from ?_))
    · simp
    · rw [← hV]
      exact fun v hv => hv.1
  have hset : {x : ℝ × ℝ | x ∈ Ico (0 : ℝ) 1 ×ˢ Ico (0 : ℝ) 1 ∧ emitted cands guess (some q) x = t}
      = Ico 0 a ×ˢ (if guess = t then Ico (0 : ℝ) 1 else ∅) ∪ Ico a 1 ×ˢ V := by
    ext x
    rw [mem_ofPred_eq, emitted_eq hp hq hg, ← hV]
    simp only [mem_union, mem_prod, mem_Ico, mem_ofPred_eq]
    by_cases hx : x.1 < a
    · rw [if_pos hx]
      by_cases ht : guess = t
      · simp only [ht, if_true, mem_Ico]
        constructor
        · rintro ⟨⟨hu, hv⟩, _⟩
          exact Or.inl ⟨⟨hu.1, hx⟩, hv⟩
        · rintro (⟨⟨hu, _⟩, hv⟩ | ⟨⟨hge, _⟩, _⟩)
          · exact ⟨⟨⟨hu, by linarith⟩, hv⟩, trivial⟩
          · exact absurd hx (not_lt.mpr hge)
      · simp only [ht, if_false, mem_empty_iff_false, and_false, false_or, false_iff]
        rintro ⟨⟨hge, _⟩, _⟩
        exact absurd hx (not_lt.mpr hge)
    · rw [if_neg hx]
      constructor
      · rintro ⟨⟨hu, hv⟩, hr⟩
        exact Or.inr ⟨⟨not_lt.mp hx, hu.2⟩, hv, hr⟩
      · rintro (⟨⟨_, hlt⟩, _⟩ | ⟨⟨_, hu⟩, hv, hr⟩)
        · exact absurd hlt hx
        · exact ⟨⟨⟨by linarith [not_lt.mp hx], hu⟩, hv⟩, hr⟩
  have hdisjoint :
      Disjoint (Ico 0 a ×ˢ (if guess = t then Ico (0 : ℝ) 1 else ∅)) (Ico a 1 ×ˢ V) := by
    refine Set.disjoint_left.mpr fun x hx hx' => ?_
    exact absurd hx.1.2 (not_lt.mpr hx'.1.1)
  have hmeas : MeasurableSet (Ico 0 a ×ˢ (if guess = t then Ico (0 : ℝ) 1 else ∅)) := by
    refine measurableSet_Ico.prod ?_
    split
    · exact measurableSet_Ico
    · exact MeasurableSet.empty
  have hkept : volume (Ico 0 a ×ˢ (if guess = t then Ico (0 : ℝ) 1 else ∅))
      = ENNReal.ofReal (if guess = t then a else 0) := by
    rw [Measure.volume_eq_prod, Measure.prod_prod]
    by_cases ht : guess = t
    · simp [ht]
    · simp [ht]
  rw [hset, measure_union' hdisjoint hmeas, hkept, Measure.volume_eq_prod, Measure.prod_prod,
    Real.volume_Ico, ENNReal.ofReal_add (by split <;> simp [ha0])
      (mul_nonneg (by linarith) ENNReal.toReal_nonneg),
    ENNReal.ofReal_mul (by linarith), ENNReal.ofReal_toReal hVtop]

/-! ## All guesses -/

theorem ofReal_sum {l : List (Token × ℝ)} {f : Token × ℝ → ℝ} (h : ∀ c ∈ l, 0 ≤ f c) :
    (l.map fun c => ENNReal.ofReal (f c)).sum = ENNReal.ofReal (l.map f).sum := by
  induction l with
  | nil => simp
  | cons c l ih =>
    obtain ⟨hc, hl⟩ := List.forall_mem_cons.mp h
    have hsum : 0 ≤ (l.map f).sum := by
      refine List.sum_nonneg fun x hx => ?_
      obtain ⟨d, hd, rfl⟩ := List.mem_map.mp hx
      exact hl d hd
    rw [List.map_cons, List.map_cons, List.sum_cons, List.sum_cons, ih hl,
      ENNReal.ofReal_add hc hsum]

/-- The probabilities of a distribution sum to one over any set that holds its tokens. -/
theorem IsDistribution.sum_eq_one {l : List (Token × ℝ)} (h : IsDistribution l)
    {S : Finset Token} (hS : ∀ c ∈ l, c.1 ∈ S) : ∑ t ∈ S, massOf l t / totalMass l = 1 := by
  rw [← Finset.sum_div, ← totalMass_eq_sum h.nodup hS, div_self h.pos.ne']

theorem IsDistribution.share_nonneg {l : List (Token × ℝ)} (h : IsDistribution l) (t : Token) :
    0 ≤ massOf l t / totalMass l := div_nonneg (massOf_nonneg h.nonneg t) h.pos.le

/-- The chance that the replacement of a rejected guess is `t`, where anything is ever rejected. -/
theorem redrawn_chance (hp : IsDistribution cands) (hq : IsDistribution q) {S : Finset Token}
    (hS : ∀ c ∈ cands, c.1 ∈ S) (guess t : Token)
    (hpos : 0 < ∑ s ∈ S, excess (fun t => massOf cands t / totalMass cands)
      (fun t => massOf q t / totalMass q) s) :
    (volume {v : ℝ | v ∈ Ico (0 : ℝ) 1 ∧ redrawn cands q guess v = t}).toReal
      = excess (fun t => massOf cands t / totalMass cands) (fun t => massOf q t / totalMass q) t
        / ∑ s ∈ S, excess (fun t => massOf cands t / totalMass cands)
            (fun t => massOf q t / totalMass q) s := by
  have hP := hp.pos
  have htokens := residualWeights_tokens cands q
  have hmem : ∀ c ∈ residualWeights cands q, c.1 ∈ S := by
    intro c hc
    have hfst : c.1 ∈ (residualWeights cands q).map Prod.fst := List.mem_map_of_mem hc
    rw [htokens] at hfst
    obtain ⟨d, hd, hdc⟩ := List.mem_map.mp hfst
    exact hdc ▸ hS d hd
  have htotal : totalMass (residualWeights cands q)
      = totalMass cands * ∑ s ∈ S, excess (fun t => massOf cands t / totalMass cands)
          (fun t => massOf q t / totalMass q) s := by
    rw [totalMass_eq_sum (htokens ▸ hp.nodup) hmem, Finset.mul_sum]
    exact Finset.sum_congr rfl fun s _ => massOf_residualWeights hp hq s
  have hres : 0 < totalMass (residualWeights cands q) := by
    rw [htotal]
    exact mul_pos hP hpos
  rw [volume_redrawn hp hres, htotal, massOf_residualWeights hp hq,
    mul_div_mul_left _ _ hP.ne', ENNReal.toReal_ofReal (div_nonneg (excess_nonneg _ _ t) hpos.le)]

/-- **A drafted guess**: over all the guesses the draft model makes, what comes out is
distributed as the target asks. -/
theorem drafted_law (hp : IsDistribution cands) (hq : IsDistribution q) (t : Token) :
    (q.map fun c => ENNReal.ofReal (c.2 / totalMass q) * volume {x : ℝ × ℝ |
        x ∈ Ico (0 : ℝ) 1 ×ˢ Ico (0 : ℝ) 1 ∧ emitted cands c.1 (some q) x = t}).sum
      = ENNReal.ofReal (massOf cands t / totalMass cands) := by
  have hQ := hq.pos
  let S : Finset Token := insert t ((cands ++ q).map Prod.fst).toFinset
  have hS : ∀ c ∈ cands ++ q, c.1 ∈ S := fun c hc =>
    Finset.mem_insert_of_mem (List.mem_toFinset.mpr (List.mem_map_of_mem hc))
  have hcands : ∀ c ∈ cands, c.1 ∈ S := fun c hc => hS c (List.mem_append_left _ hc)
  have hdraft : ∀ c ∈ q, c.1 ∈ S := fun c hc => hS c (List.mem_append_right _ hc)
  let keep := accept (fun t => massOf cands t / totalMass cands) fun t => massOf q t / totalMass q
  let draw : Token → ℝ := fun g =>
    (volume {v : ℝ | v ∈ Ico (0 : ℝ) 1 ∧ redrawn cands q g v = t}).toReal
  let chance : Token → ℝ := fun g => (if g = t then keep g else 0) + (1 - keep g) * draw g
  have hkeep : ∀ g, 0 ≤ keep g := accept_nonneg hp.share_nonneg hq.share_nonneg
  have hchance : ∀ g, 0 ≤ chance g := by
    intro g
    refine add_nonneg ?_ (mul_nonneg (sub_nonneg.mpr (accept_le_one _ _ g)) ENNReal.toReal_nonneg)
    split
    · exact hkeep g
    · exact le_refl 0
  have hterm : ∀ c ∈ q, ENNReal.ofReal (c.2 / totalMass q) * volume {x : ℝ × ℝ |
        x ∈ Ico (0 : ℝ) 1 ×ˢ Ico (0 : ℝ) 1 ∧ emitted cands c.1 (some q) x = t}
      = ENNReal.ofReal (c.2 * (chance c.1 / totalMass q)) := by
    intro c hc
    rcases (hq.nonneg c hc).eq_or_lt with hzero | hpos
    · -- a guess of no weight is never made
      rw [← hzero, zero_div, zero_mul, ENNReal.ofReal_zero, zero_mul]
    · have hmass : massOf q c.1 = c.2 := massOf_of_mem hq.nodup hc
      rw [volume_emitted hp hq (by rw [hmass]; exact hpos) t,
        ← ENNReal.ofReal_mul (div_nonneg hpos.le hQ.le)]
      congr 1
      exact div_mul_comm _ _ _ |>.trans (mul_comm _ _)
  rw [List.map_congr_left hterm, ofReal_sum fun c hc =>
      mul_nonneg (hq.nonneg c hc) (div_nonneg (hchance c.1) hQ.le),
    sum_mul_eq hq.nodup hdraft fun g => chance g / totalMass q]
  congr 1
  calc ∑ g ∈ S, massOf q g * (chance g / totalMass q)
      = ∑ g ∈ S, massOf q g / totalMass q * chance g :=
        Finset.sum_congr rfl fun g _ => by ring
    _ = massOf cands t / totalMass cands :=
        rejection_law hp.share_nonneg hq.share_nonneg (hp.sum_eq_one hcands)
          (hq.sum_eq_one hdraft) (Finset.mem_insert_self t _)
          fun hpos g => redrawn_chance hp hq hcands g t hpos

/-- **A looked-up guess**: whatever is proposed, what comes out is distributed as the target
asks. -/
theorem lookup_law (hp : IsDistribution cands) (guess t : Token) :
    volume {x : ℝ × ℝ | x ∈ Ico (0 : ℝ) 1 ×ˢ Ico (0 : ℝ) 1 ∧ emitted cands guess none x = t}
      = ENNReal.ofReal (massOf cands t / totalMass cands) := by
  have hmass : totalMass [(guess, (1 : ℝ))] = 1 := by simp [totalMass]
  have hpoint : IsDistribution [(guess, (1 : ℝ))] :=
    ⟨by simp, by simp, by rw [hmass]; exact one_pos⟩
  have h := drafted_law hp hpoint t
  rw [List.map_singleton, List.sum_singleton, hmass, div_one, ENNReal.ofReal_one, one_mul] at h
  rw [← h]
  unfold emitted
  simp only [verifyAgainst_lookup hp]

end

/-- **Speculative sampling keeps the target's distribution.** What a draft model proposes is
drawn from its distribution; with a guess so drawn, and with any looked-up guess, the token
emitted has the probability the target gives it. -/
theorem speculative_sampling_law {cands : List (Token × ℝ)} (hp : IsDistribution cands)
    (t : Token) :
    (∀ q : List (Token × ℝ), IsDistribution q →
      (∀ g, volume {u : ℝ | u ∈ Ico (0 : ℝ) 1 ∧ drawn u q = g}
        = ENNReal.ofReal (massOf q g / totalMass q)) ∧
      (q.map fun c => ENNReal.ofReal (c.2 / totalMass q) * volume {x : ℝ × ℝ |
          x ∈ Ico (0 : ℝ) 1 ×ˢ Ico (0 : ℝ) 1 ∧ emitted cands c.1 (some q) x = t}).sum
        = ENNReal.ofReal (massOf cands t / totalMass cands)) ∧
    ∀ guess, volume {x : ℝ × ℝ |
        x ∈ Ico (0 : ℝ) 1 ×ˢ Ico (0 : ℝ) 1 ∧ emitted cands guess none x = t}
      = ENNReal.ofReal (massOf cands t / totalMass cands) :=
  ⟨fun _ hq => ⟨volume_drawn hq, drafted_law hp hq t⟩, fun guess => lookup_law hp guess t⟩

/-- Three tokens; the guess looked up is not among them. -/
theorem speculative_sampling_law_three :
    volume {x : ℝ × ℝ | x ∈ Ico (0 : ℝ) 1 ×ˢ Ico (0 : ℝ) 1 ∧
      emitted [(10, 1 / 2), (11, 3 / 10), (12, 1 / 5)] 7 none x = 11}
        = ENNReal.ofReal (3 / 10) := by
  have hmass : totalMass [((10 : Token), (1 / 2 : ℝ)), (11, 3 / 10), (12, 1 / 5)] = 1 := by
    norm_num [totalMass]
  have hp : IsDistribution [((10 : Token), (1 / 2 : ℝ)), (11, 3 / 10), (12, 1 / 5)] :=
    ⟨by decide, by norm_num, by rw [hmass]; exact one_pos⟩
  have h := (speculative_sampling_law hp 11).2 7
  rw [h, hmass, div_one, massOf_cons, if_neg (by decide), massOf_cons, if_pos rfl]

end Garuda
