import Garuda.Infra.Selection
import Garuda.Runtime.Distribution

/-!
# Selecting the candidates

The sampler keeps the `top_k` most likely tokens by a partial selection, sorts what it kept and
cuts it at `top_p`. Here the selection is any function that does what is documented of
`select_nth_unstable_by`, and weights are exact.

* `candidatesBySelection_eq` — the selection does what a full sort does, ties included
* `keepTopP_nucleus` — the cut is the shortest prefix of enough weight
* `candidates_selected` — what the sampler chooses between
-/

namespace Garuda

open Infra

/-! ## The selection of the source -/

section

variable {K : Type} [Weight K]

/-- Every token with its weight. -/
def tokenWeights (num : Numerics K) (data : List K) (params : SamplingParams K) :
    List (Token × K) :=
  (softmax num (data.map (· / params.temperature))).zipIdx.map fun c => (UInt32.ofNat c.2, c.1)

/-- `candidates`, step by step: `selectNth` is `select_nth_unstable_by` with `by_likelihood`. -/
def candidatesBySelection (selectNth : Nat → List (Token × K) → List (Token × K))
    (num : Numerics K) (data : List K) (params : SamplingParams K) : List (Token × K) :=
  let candidates := tokenWeights num data params
  let candidates :=
    if 0 < params.topK ∧ params.topK < candidates.length then
      (selectNth (params.topK - 1) candidates).take params.topK
    else candidates
  let candidates := candidates.mergeSort fun a b => (byLikelihood a b).isLE
  if params.topP < 1 then keepTopP params.topP 0 candidates else candidates

end

/-! ## The order -/

theorem partialCmp_eq (a b : ℝ) : partialCmp a b = compare a b := by
  unfold partialCmp
  rcases lt_trichotomy a b with h | h | h
  · rw [if_pos h, compare_lt_iff_lt.mpr h]
  · rw [if_neg h.not_lt, if_neg h.not_gt, compare_eq_iff_eq.mpr h]
  · rw [if_neg h.le.not_gt, if_pos h, compare_gt_iff_gt.mpr h]

theorem byLikelihood_eq : byLikelihood (K := ℝ)
    = compareLex (fun a b => compareOn Prod.snd b a) (compareOn Prod.fst) := by
  funext a b
  rw [byLikelihood, partialCmp_eq]
  rfl

/-- The more likely token comes first, and the lower id among equals. -/
def Precedes (a b : Token × ℝ) : Prop := b.2 < a.2 ∨ a.2 = b.2 ∧ a.1 ≤ b.1

theorem byLikelihood_isLE (a b : Token × ℝ) : (byLikelihood a b).isLE = true ↔ Precedes a b := by
  rw [byLikelihood, partialCmp_eq, Ordering.isLE_then_iff_and, Precedes]
  rcases lt_trichotomy b.2 a.2 with h | h | h
  · simp [compare_lt_iff_lt.mpr h, h]
  · simp [h, Std.isLE_compare]
  · simp [compare_gt_iff_gt.mpr h, h.not_gt, h.ne]

instance transCmp_byLikelihood : Std.TransCmp (byLikelihood (K := ℝ)) := by
  rw [byLikelihood_eq]
  infer_instance

instance lawfulEqCmp_byLikelihood : Std.LawfulEqCmp (byLikelihood (K := ℝ)) where
  eq_of_compare := by
    intro a b h
    rw [byLikelihood, partialCmp_eq, Ordering.then_eq_eq] at h
    exact Prod.ext (Std.LawfulEqCmp.eq_of_compare h.2) (compare_eq_iff_eq.mp h.1).symm

/-- **The selection does what a full sort does**, for every `top_k` and every pattern of ties. -/
theorem candidatesBySelection_eq {selectNth : Nat → List (Token × ℝ) → List (Token × ℝ)}
    (h : SelectsNth byLikelihood selectNth) (num : Numerics ℝ) (data : List ℝ)
    (params : SamplingParams ℝ) :
    candidatesBySelection selectNth num data params = candidates num data params := by
  have htop : ∀ all : List (Token × ℝ),
      ((if 0 < params.topK ∧ params.topK < all.length then
          (selectNth (params.topK - 1) all).take params.topK
        else all).mergeSort fun a b => (byLikelihood a b).isLE)
      = if 0 < params.topK ∧ params.topK < all.length then
          (all.mergeSort fun a b => (byLikelihood a b).isLE).take params.topK
        else all.mergeSort fun a b => (byLikelihood a b).isLE := by
    intro all
    split
    · next hk =>
      obtain ⟨k, hk'⟩ : ∃ k, params.topK = k + 1 := ⟨params.topK - 1, by omega⟩
      rw [hk'] at hk ⊢
      exact mergeSort_take_select h (by omega)
    · rfl
  simp only [candidatesBySelection, candidates, htop]
  rfl

/-! ## The cut -/

/-- A prefix that holds enough weight. -/
def Reaches (topP : ℝ) (front : List (Token × ℝ)) : Prop := front ≠ [] ∧ topP ≤ totalMass front

/-- `kept` is the shortest prefix of `l` that reaches `topP`, or all of `l` where none does. -/
def IsNucleus (topP : ℝ) (l kept : List (Token × ℝ)) : Prop :=
  (kept <+: l ∧ Reaches topP kept ∧ ∀ front, front <+: l → Reaches topP front → kept <+: front) ∨
    (kept = l ∧ ∀ front, front <+: l → ¬ Reaches topP front)

theorem totalMass_cons (c : Token × ℝ) (l : List (Token × ℝ)) :
    totalMass (c :: l) = c.2 + totalMass l := by
  rw [totalMass_eq, totalMass_eq]
  simp [massSum]

/-- What is still to be reached is what counts, not where the sum stands. -/
theorem keepTopP_shift (topP d : ℝ) : ∀ (l : List (Token × ℝ)) (cumulative : ℝ),
    keepTopP topP (cumulative + d) l = keepTopP (topP - d) cumulative l
  | [], _ => rfl
  | c :: rest, cumulative => by
    have hassoc : cumulative + d + c.2 = cumulative + c.2 + d := by ring
    simp only [keepTopP, hassoc, keepTopP_shift topP d rest, sub_le_iff_le_add]

theorem keepTopP_cons (topP : ℝ) (c : Token × ℝ) (rest : List (Token × ℝ)) :
    keepTopP topP 0 (c :: rest)
      = if topP ≤ c.2 then [c] else c :: keepTopP (topP - c.2) 0 rest := by
  rw [keepTopP, keepTopP_shift, zero_add]

/-- **The cut is the shortest prefix of enough weight.** -/
theorem keepTopP_nucleus : ∀ (l : List (Token × ℝ)) (topP : ℝ),
    IsNucleus topP l (keepTopP topP 0 l)
  | [], topP => .inr ⟨rfl, fun front hfront hreach => hreach.1 (List.prefix_nil.mp hfront)⟩
  | c :: rest, topP => by
    rw [keepTopP_cons]
    split
    · next hle =>
      refine .inl ⟨⟨rest, rfl⟩, ⟨by simp, ?_⟩, ?_⟩
      · rw [totalMass_eq]
        simpa [massSum] using hle
      · intro front hfront hreach
        obtain ⟨d, front, rfl⟩ := List.exists_cons_of_ne_nil hreach.1
        obtain ⟨rfl, _⟩ := List.cons_prefix_cons.mp hfront
        exact ⟨front, rfl⟩
    · next hlt =>
      -- a longer prefix reaches what is left of `topP` without the first candidate
      have hrest : ∀ front, c :: front <+: c :: rest → Reaches topP (c :: front) →
          front <+: rest ∧ Reaches (topP - c.2) front := by
        intro front hfront hreach
        have hle := hreach.2
        rw [totalMass_cons] at hle
        refine ⟨(List.cons_prefix_cons.mp hfront).2, ?_, by linarith⟩
        rintro rfl
        rw [totalMass_eq] at hle
        simp only [massSum, List.map_nil, List.sum_nil] at hle
        exact hlt (by linarith)
      rcases keepTopP_nucleus rest (topP - c.2) with ⟨hpre, hreach, hleast⟩ | ⟨heq, hnone⟩
      · refine .inl ⟨List.cons_prefix_cons.mpr ⟨rfl, hpre⟩, ⟨by simp, ?_⟩, ?_⟩
        · rw [totalMass_cons]
          linarith [hreach.2]
        · intro front hfront hfrontReach
          obtain ⟨d, front, rfl⟩ := List.exists_cons_of_ne_nil hfrontReach.1
          obtain ⟨rfl, _⟩ := List.cons_prefix_cons.mp hfront
          obtain ⟨hfront, hfrontReach⟩ := hrest front hfront hfrontReach
          exact List.cons_prefix_cons.mpr ⟨rfl, hleast front hfront hfrontReach⟩
      · refine .inr ⟨by rw [heq], ?_⟩
        intro front hfront hfrontReach
        obtain ⟨d, front, rfl⟩ := List.exists_cons_of_ne_nil hfrontReach.1
        obtain ⟨rfl, _⟩ := List.cons_prefix_cons.mp hfront
        obtain ⟨hfront, hfrontReach⟩ := hrest front hfront hfrontReach
        exact hnone front hfront hfrontReach

/-! ## What is chosen between -/

/-- The first `topK` of a ranking, all of it where `topK` is off. -/
def keepTopK (topK : Nat) (ranked : List (Token × ℝ)) : List (Token × ℝ) :=
  if topK = 0 then ranked else ranked.take topK

theorem keepTopK_eq (topK : Nat) (ranked : List (Token × ℝ)) :
    (if 0 < topK ∧ topK < ranked.length then ranked.take topK else ranked)
      = keepTopK topK ranked := by
  rw [keepTopK]
  by_cases hk : topK = 0
  · rw [if_pos hk, if_neg (by omega)]
  · rw [if_neg hk]
    split
    · rfl
    · rw [List.take_of_length_le (by omega)]

/-- The tokens from the most likely on. -/
noncomputable def rankedTokens (num : Numerics ℝ) (data : List ℝ) (params : SamplingParams ℝ) :
    List (Token × ℝ) :=
  (tokenWeights num data params).mergeSort fun a b => (byLikelihood a b).isLE

theorem rankedTokens_perm (num : Numerics ℝ) (data : List ℝ) (params : SamplingParams ℝ) :
    (rankedTokens num data params).Perm (tokenWeights num data params) := List.mergeSort_perm _ _

theorem rankedTokens_sorted (num : Numerics ℝ) (data : List ℝ) (params : SamplingParams ℝ) :
    (rankedTokens num data params).Pairwise Precedes :=
  (pairwise_sorted byLikelihood (tokenWeights num data params)).imp fun hab =>
    (byLikelihood_isLE _ _).mp hab

theorem candidates_eq (num : Numerics ℝ) (data : List ℝ) (params : SamplingParams ℝ) :
    candidates num data params
      = if params.topP < 1 then
          keepTopP params.topP 0 (keepTopK params.topK (rankedTokens num data params))
        else keepTopK params.topK (rankedTokens num data params) := by
  rw [← keepTopK_eq, rankedTokens, List.length_mergeSort]
  rfl

/-- **What the sampler chooses between**: the tokens ranked by weight and then by id, the first
`top_k` of them, and of these the shortest prefix that reaches `top_p`. -/
theorem candidates_selected {selectNth : Nat → List (Token × ℝ) → List (Token × ℝ)}
    (h : SelectsNth byLikelihood selectNth) (num : Numerics ℝ) (data : List ℝ)
    (params : SamplingParams ℝ) :
    candidatesBySelection selectNth num data params = candidates num data params ∧
      ∃ ranked, ranked.Perm (tokenWeights num data params) ∧ ranked.Pairwise Precedes ∧
        (params.topP < 1 → IsNucleus params.topP (keepTopK params.topK ranked)
          (candidatesBySelection selectNth num data params)) ∧
        (¬ params.topP < 1 → candidatesBySelection selectNth num data params
          = keepTopK params.topK ranked) := by
  rw [candidatesBySelection_eq h, candidates_eq]
  refine ⟨rfl, rankedTokens num data params, rankedTokens_perm num data params,
    rankedTokens_sorted num data params, ?_, ?_⟩
  · intro hp
    rw [if_pos hp]
    exact keepTopP_nucleus _ _
  · intro hp
    rw [if_neg hp]

/-- Exact arithmetic, with every number finite. -/
noncomputable def exactNumerics : Numerics ℝ where
  negInfinity := -1
  isFinite _ := true
  render _ := "a number"
  exp := Real.exp
  ofNat n := n

/-- Two of three equally likely tokens, cut at one half. -/
theorem candidates_selected_ties :
    candidatesBySelection (fun _ l => l.mergeSort fun a b => (byLikelihood a b).isLE)
        exactNumerics [0, 0, 0] ⟨1, 1 / 2, 2, 1, none⟩
      = candidates exactNumerics [0, 0, 0] ⟨1, 1 / 2, 2, 1, none⟩ ∧
    ∃ (ranked : List (Token × ℝ)),
      ranked.Perm (tokenWeights exactNumerics [0, 0, 0] ⟨1, 1 / 2, 2, 1, none⟩) ∧
      ranked.Pairwise Precedes ∧ IsNucleus (1 / 2) (ranked.take 2)
        (candidates exactNumerics [0, 0, 0] ⟨1, 1 / 2, 2, 1, none⟩) := by
  obtain ⟨heq, ranked, hperm, hsorted, hcut, _⟩ :=
    candidates_selected selectsNth_mergeSort exactNumerics [0, 0, 0] ⟨1, 1 / 2, 2, 1, none⟩
  refine ⟨heq, ranked, hperm, hsorted, ?_⟩
  rw [← heq]
  exact hcut (by norm_num)

/-! ## Ranked -/

theorem IsNucleus.isPrefix {topP : ℝ} {l kept : List (Token × ℝ)} (h : IsNucleus topP l kept) :
    kept <+: l := by
  rcases h with ⟨hpre, _⟩ | ⟨rfl, _⟩
  · exact hpre
  · exact List.prefix_rfl

/-- The candidates are the first of the ranking. -/
theorem candidates_isPrefix (num : Numerics ℝ) (data : List ℝ) (params : SamplingParams ℝ) :
    candidates num data params <+: rankedTokens num data params := by
  have htop : keepTopK params.topK (rankedTokens num data params)
      <+: rankedTokens num data params := by
    rw [keepTopK]
    split
    · exact List.prefix_rfl
    · exact List.take_prefix _ _
  rw [candidates_eq]
  split
  · exact (keepTopP_nucleus _ _).isPrefix.trans htop
  · exact htop

theorem softmax_nonneg {num : Numerics ℝ} (hexp : ∀ x, 0 ≤ num.exp x)
    (hofNat : ∀ n, 0 ≤ num.ofNat n) (x : List ℝ) : ∀ p ∈ softmax num x, 0 ≤ p := by
  have huniform : ∀ p ∈ x.map fun _ => 1 / num.ofNat x.length, 0 ≤ p := by
    intro p hp
    obtain ⟨_, _, rfl⟩ := List.mem_map.mp hp
    exact div_nonneg zero_le_one (hofNat _)
  simp only [softmax]
  split
  · exact huniform
  · split
    · next hsum =>
      simp only [List.map_map, List.mem_map, forall_exists_index, and_imp,
        forall_apply_eq_imp_iff₂]
      intro v _
      exact mul_nonneg (hexp _) (div_nonneg zero_le_one hsum.2.le)
    · exact huniform

theorem tokenWeights_nonneg {num : Numerics ℝ} (hexp : ∀ x, 0 ≤ num.exp x)
    (hofNat : ∀ n, 0 ≤ num.ofNat n) (data : List ℝ) (params : SamplingParams ℝ) :
    ∀ c ∈ tokenWeights num data params, 0 ≤ c.2 := by
  intro c hc
  obtain ⟨d, hd, rfl⟩ := List.mem_map.mp hc
  exact softmax_nonneg hexp hofNat _ d.1 (List.fst_mem_of_mem_zipIdx hd)

/-- Below `2^32` logits, every token is a candidate once. -/
theorem tokenWeights_nodup (num : Numerics ℝ) {data : List ℝ} (hlen : data.length ≤ 2 ^ 32)
    (params : SamplingParams ℝ) : ((tokenWeights num data params).map Prod.fst).Nodup := by
  have htokens : (tokenWeights num data params).map Prod.fst
      = (List.range' 0 data.length).map UInt32.ofNat := by
    have hlength : (softmax num (data.map (· / params.temperature))).length = data.length := by
      rw [length_softmax, List.length_map]
    rw [tokenWeights, List.map_map, ← hlength, ← List.zipIdx_map_snd, List.map_map]
    rfl
  rw [htokens]
  refine List.Nodup.map_on ?_ List.nodup_range'
  intro i hi j hj hij
  rw [List.mem_range'_1] at hi hj
  have htoNat := congrArg UInt32.toNat hij
  rw [UInt32.toNat_ofNat', UInt32.toNat_ofNat', Nat.mod_eq_of_lt (by omega),
    Nat.mod_eq_of_lt (by omega)] at htoNat
  exact htoNat

end Garuda
