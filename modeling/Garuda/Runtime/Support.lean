import Garuda.Runtime.Candidates

/-!
# What a draw can pick

Every draw counts here, zero included. A draw of zero picks the first of a list, so what decides
is whether the first has any mass: the first of the candidates has, the first of a residual need
not.

* `candidates_ranked` — the sampler's candidates are ranked
* `drawn_positive` — the sampler picks a candidate with mass
* `resample_positive_iff` — when a redraw picks something with residual mass
* `draws_supported_iff` — both, for the sampler and for a rejected guess
* `verifyAgainst_returns_rejected` — a guess that is rejected and returned
-/

namespace Garuda

open Infra

/-! ## One draw -/

/-- The mass of the first of a list. -/
noncomputable def firstMass (l : List (Token × ℝ)) : ℝ := (l.head?.map Prod.snd).getD 0

/-- **What one draw picks has mass**, unless it is zero and the first has none. -/
theorem walk_positive_iff {l : List (Token × ℝ)} (h : IsDistribution l) {u : ℝ} (hu : 0 ≤ u)
    (hu1 : u < 1) :
    ∃ t, walk (u * totalMass l) l = some t ∧ (0 < massOf l t ↔ 0 < u ∨ 0 < firstMass l) := by
  have hpos := h.pos
  rcases hu.eq_or_lt with rfl | hlt
  · cases l with
    | nil => simp [totalMass] at hpos
    | cons c rest =>
      refine ⟨c.1, ?_, ?_⟩
      · rw [zero_mul]
        exact walk_zero (h.nonneg c List.mem_cons_self) rest
      · rw [massOf_cons, if_pos rfl]
        simp [firstMass]
  · rw [totalMass_eq] at hpos ⊢
    obtain ⟨t, ht⟩ := walk_isSome hpos hlt hu1.le
    obtain ⟨w, hmem, hw⟩ := walk_support (mul_pos hlt hpos) ht
    refine ⟨t, ht, ?_⟩
    rw [massOf_of_mem h.nodup hmem]
    exact ⟨fun _ => .inl hlt, fun _ => hw⟩

/-! ## The sampler -/

/-- Candidates in the order the sampler ranks them. -/
structure IsRanked (cands : List (Token × ℝ)) : Prop extends IsDistribution cands where
  descending : cands.Pairwise fun a b => b.2 ≤ a.2

/-- What the sampler chooses between is ranked. -/
theorem candidates_ranked {num : Numerics ℝ} (hexp : ∀ x, 0 ≤ num.exp x)
    (hofNat : ∀ n, 0 ≤ num.ofNat n) {data : List ℝ} (hlen : data.length ≤ 2 ^ 32)
    {params : SamplingParams ℝ} (hpos : 0 < totalMass (candidates num data params)) :
    IsRanked (candidates num data params) := by
  have hsub := (candidates_isPrefix num data params).sublist
  have hperm := rankedTokens_perm num data params
  refine ⟨⟨?_, ?_, hpos⟩, ?_⟩
  · refine List.Nodup.sublist (hsub.map _) ?_
    exact (hperm.map Prod.fst).nodup_iff.mpr (tokenWeights_nodup num hlen params)
  · intro c hc
    exact tokenWeights_nonneg hexp hofNat data params c (hperm.subset (hsub.subset hc))
  · refine ((rankedTokens_sorted num data params).sublist hsub).imp ?_
    rintro a b (hlt | ⟨heq, _⟩)
    · exact hlt.le
    · exact heq.ge

/-- The first candidate has mass. -/
theorem IsRanked.firstMass_pos {cands : List (Token × ℝ)} (h : IsRanked cands) :
    0 < firstMass cands := by
  have hpos := h.pos
  cases cands with
  | nil => simp [totalMass] at hpos
  | cons c rest =>
    show 0 < c.2
    by_contra hle
    have hrest : ∀ d ∈ rest, d.2 ≤ 0 := by
      intro d hd
      exact ((List.pairwise_cons.mp h.descending).1 d hd).trans (not_lt.mp hle)
    have hsum : massSum rest ≤ 0 := by
      have hle := List.sum_le_card_nsmul (rest.map Prod.snd) 0
        (by simpa using fun a t ht => hrest (t, a) ht)
      rwa [smul_zero] at hle
    rw [totalMass_cons, totalMass_eq] at hpos
    linarith [not_lt.mp hle]

/-- **The sampler picks a candidate with mass**, whatever it draws. -/
theorem drawn_positive {cands : List (Token × ℝ)} (h : IsRanked cands) {u : ℝ} (hu : 0 ≤ u)
    (hu1 : u < 1) : 0 < massOf cands (drawn u cands) := by
  obtain ⟨t, ht, hiff⟩ := walk_positive_iff h.toIsDistribution hu hu1
  rw [drawn, ht, Option.getD_some]
  exact hiff.mpr (.inr h.firstMass_pos)

theorem candidates_nil (num : Numerics ℝ) (params : SamplingParams ℝ) :
    candidates num [] params = [] := by
  have hsoftmax : softmax num ([] : List ℝ) = [] :=
    List.eq_nil_of_length_eq_zero (length_softmax num [])
  simp [candidates, hsoftmax, keepTopP]

/-- What the sampler returns is drawn from its candidates. -/
theorem sample_eq_drawn {num : Numerics ℝ} {data : List ℝ} {params : SamplingParams ℝ}
    (ht : (params.temperature == 0) = false) (hpos : 0 < totalMass (candidates num data params))
    (rng : Rng) : (sample num data params rng).1
      = .ok (drawn (rng.nextF32 num).1 (candidates num data params)) := by
  have hne : data ≠ [] := by
    rintro rfl
    rw [candidates_nil] at hpos
    exact absurd hpos (lt_irrefl _)
  unfold sample
  rw [if_neg (by simpa using hne), if_neg (by rw [ht]; exact Bool.false_ne_true)]
  simp only [if_neg (not_le.mpr hpos)]
  rfl

/-! ## A rejected guess -/

/-- What is left of the candidates once the guess is rejected. -/
noncomputable def residuals (cands : List (Token × ℝ)) (guess : Token)
    (dist : Option (List (Token × ℝ))) : List (Token × ℝ) :=
  cands.map fun c => (c.1, residualOf (totalMass cands) guess dist c.1 c.2)

section

variable {cands : List (Token × ℝ)} {guess : Token} {dist : Option (List (Token × ℝ))}

theorem residuals_isDistribution (h : IsRanked cands)
    (hres : 0 < totalMass (residuals cands guess dist)) :
    IsDistribution (residuals cands guess dist) where
  nodup := by
    rw [residuals, List.map_map]
    exact h.nodup
  nonneg := by
    intro c hc
    obtain ⟨d, hd, rfl⟩ := List.mem_map.mp hc
    cases dist with
    | some q => exact le_max_right _ _
    | none =>
      simp only [residualOf]
      split
      · exact le_refl _
      · exact h.nonneg d hd
  pos := hres

variable {G : Type} {draw : G → ℝ × G} {g : G}

/-- **When a redraw picks something with residual mass.** -/
theorem resample_positive_iff (h : IsRanked cands)
    (hres : 0 < totalMass (residuals cands guess dist)) (hu : 0 ≤ (draw g).1)
    (hu1 : (draw g).1 < 1) :
    0 < massOf (residuals cands guess dist) (resample draw cands guess dist g).1.2 ↔
      0 < (draw g).1 ∨ 0 < firstMass (residuals cands guess dist) := by
  obtain ⟨t, ht, hiff⟩ := walk_positive_iff (residuals_isDistribution h hres) hu hu1
  have hresample : (resample draw cands guess dist g).1.2 = t := by
    unfold resample
    simp only [residuals] at hres ht
    simp only [if_neg (not_le.mpr hres), ht]
  rw [hresample, hiff]

/-- A draw of zero picks the first candidate, struck out or not. -/
theorem resample_zero (h : IsRanked cands) (hres : 0 < totalMass (residuals cands guess dist))
    (h0 : (draw g).1 = 0) : (resample draw cands guess dist g).1.2 = firstToken cands := by
  have hnonneg := (residuals_isDistribution h hres).nonneg
  cases cands with
  | nil => exact absurd h.pos (lt_irrefl _)
  | cons c rest =>
    simp only [residuals, List.map_cons] at hres hnonneg
    unfold resample
    simp only [List.map_cons, if_neg (not_le.mpr hres), h0, zero_mul,
      walk_zero (hnonneg _ List.mem_cons_self)]
    rfl

/-- A redraw that finds something left rejects the guess. -/
theorem resample_rejects (hres : 0 < totalMass (residuals cands guess dist)) :
    (resample draw cands guess dist g).1.1 = false := by
  unfold resample
  simp only [residuals] at hres
  simp only [if_neg (not_le.mpr hres)]
  split <;> rfl

/-- Where the generator stands when a rejected guess is redrawn. -/
noncomputable def redrawAt (draw : G → ℝ × G) (guess : Token)
    (dist : Option (List (Token × ℝ))) (g : G) : G :=
  match dist with
  | none => (draw g).2
  | some q => if 0 < massOf q guess / totalMass q then (draw g).2 else g

/-- A guess is rejected for a redraw, or because a draft of no mass proposed it. -/
theorem verifyAgainst_rejected (h : IsRanked cands)
    (hrej : (verifyAgainst draw cands guess dist g).1.1 = false) :
    verifyAgainst draw cands guess dist g
        = resample draw cands guess dist (redrawAt draw guess dist g) ∨
      ((verifyAgainst draw cands guess dist g).1.2 = firstToken cands ∧
        ∃ q, dist = some q ∧ totalMass q ≤ 0) := by
  unfold verifyAgainst at hrej ⊢
  rw [if_neg (not_le.mpr h.pos)] at hrej ⊢
  cases dist with
  | none =>
    left
    simp only [if_pos one_pos] at hrej ⊢
    split at hrej
    · exact absurd hrej (by simp)
    · next hu => rw [if_neg hu, redrawAt]
  | some q =>
    simp only at hrej ⊢
    by_cases hq : totalMass q ≤ 0
    · right
      rw [if_pos hq]
      exact ⟨rfl, q, rfl, hq⟩
    · left
      rw [if_neg hq] at hrej ⊢
      simp only [redrawAt]
      by_cases hg : 0 < massOf q guess / totalMass q
      · rw [if_pos hg] at hrej ⊢
        rw [if_pos hg]
        split at hrej
        · exact absurd hrej (by simp)
        · next hu => rw [if_neg hu]
      · rw [if_neg hg, if_neg hg]

theorem massOf_of_all_zero {l : List (Token × ℝ)} (h : ∀ c ∈ l, c.2 = 0) (t : Token) :
    massOf l t = 0 := by
  induction l with
  | nil => rfl
  | cons c l ih =>
    obtain ⟨hc, hl⟩ := List.forall_mem_cons.mp h
    rw [massOf_cons, hc, ih hl, ite_self]

/-- A draft of no mass takes nothing away. -/
theorem residuals_of_empty_draft (h : IsRanked cands) {q : List (Token × ℝ)}
    (hnonneg : ∀ c ∈ q, 0 ≤ c.2) (hq : totalMass q ≤ 0) :
    residuals cands guess (some q) = cands := by
  have hall : ∀ c ∈ q, c.2 = 0 := by
    intro c hc
    have hle : c.2 ≤ massSum q := List.single_le_sum
      (by simpa using fun a t ht => hnonneg (t, a) ht) _ (List.mem_map_of_mem hc)
    rw [totalMass_eq] at hq
    linarith [hnonneg c hc]
  have hsame : ∀ c ∈ cands,
      (c.1, residualOf (totalMass cands) guess (some q) c.1 c.2) = id c := by
    intro c hc
    simp only [residualOf, massOf_of_all_zero hall, zero_div, zero_mul, sub_zero]
    rw [max_eq_left (h.nonneg c hc)]
    rfl
  rw [residuals, List.map_congr_left hsame, List.map_id]

/-- **What replaces a rejected guess has residual mass** unless the redraw is zero and the first
candidate has none left. -/
theorem rejected_positive_iff (h : IsRanked cands)
    (hdist : ∀ q, dist = some q → ∀ c ∈ q, 0 ≤ c.2)
    (hdraw : ∀ g, 0 ≤ (draw g).1 ∧ (draw g).1 < 1)
    (hrej : (verifyAgainst draw cands guess dist g).1.1 = false)
    (hres : 0 < totalMass (residuals cands guess dist)) :
    0 < massOf (residuals cands guess dist) (verifyAgainst draw cands guess dist g).1.2 ↔
      0 < (draw (redrawAt draw guess dist g)).1 ∨ 0 < firstMass (residuals cands guess dist) := by
  rcases verifyAgainst_rejected h hrej with hredraw | ⟨hfirst, q, rfl, hq⟩
  · rw [hredraw]
    exact resample_positive_iff h hres (hdraw _).1 (hdraw _).2
  · rw [hfirst, residuals_of_empty_draft h (hdist q rfl) hq]
    refine iff_of_true ?_ (.inr h.firstMass_pos)
    have hpos := h.firstMass_pos
    cases cands with
    | nil => simp [firstMass] at hpos
    | cons c rest =>
      rw [show firstToken (c :: rest) = c.1 from rfl, massOf_cons, if_pos rfl]
      exact hpos

/-- The guess has no residual mass of its own lookup. -/
theorem massOf_residuals_guess (cands : List (Token × ℝ)) (guess : Token) :
    massOf (residuals cands guess none) guess = 0 := by
  induction cands with
  | nil => rfl
  | cons c rest ih =>
    simp only [residuals, residualOf] at ih ⊢
    rw [List.map_cons, massOf_cons, ih]
    by_cases hc : c.1 = guess
    · simp [hc]
    · rw [if_neg hc]

/-- A first candidate of no residual mass is the guess itself. -/
theorem firstToken_of_firstMass (h : IsRanked cands)
    (hfirst : ¬ 0 < firstMass (residuals cands guess none)) : firstToken cands = guess := by
  have hpos := h.firstMass_pos
  cases cands with
  | nil => simp [firstMass] at hpos
  | cons c rest =>
    by_contra hne
    have hne : (c.1 == guess) = false := by simpa [firstToken] using hne
    simp only [residuals, residualOf, List.map_cons, hne, firstMass, List.head?_cons,
      Option.map_some, Option.getD_some] at hfirst hpos
    exact hfirst (by simpa using hpos)

/-- **A looked-up guess is not returned once rejected** unless the redraw is zero and the guess is
the first candidate. -/
theorem lookup_ne_iff (h : IsRanked cands) (hdraw : ∀ g, 0 ≤ (draw g).1 ∧ (draw g).1 < 1)
    (hrej : (verifyAgainst draw cands guess none g).1.1 = false)
    (hres : 0 < totalMass (residuals cands guess none)) :
    (verifyAgainst draw cands guess none g).1.2 ≠ guess ↔
      0 < (draw (redrawAt draw guess none g)).1 ∨ 0 < firstMass (residuals cands guess none) := by
  have hiff := rejected_positive_iff h (fun q hq => absurd hq (by simp)) hdraw hrej hres
  constructor
  · intro hne
    by_contra hnot
    obtain ⟨hzero, hfirst⟩ := not_or.mp hnot
    rcases verifyAgainst_rejected h hrej with hredraw | ⟨_, q, hq, _⟩
    · rw [hredraw, resample_zero h hres (le_antisymm (not_lt.mp hzero) (hdraw _).1)] at hne
      exact hne (firstToken_of_firstMass h hfirst)
    · exact absurd hq (by simp)
  · intro hcond heq
    have hpos := hiff.mpr hcond
    rw [heq, massOf_residuals_guess] at hpos
    exact lt_irrefl _ hpos

end

/-! ## Every draw -/

/-- **Sampling stays in the support**: for every draw the sampler's token has mass, and what
replaces a rejected guess has residual mass exactly where the redraw is positive or the first
candidate has some left. -/
theorem draws_supported_iff {cands : List (Token × ℝ)} (h : IsRanked cands) :
    (∀ u : ℝ, 0 ≤ u → u < 1 → 0 < massOf cands (drawn u cands)) ∧
    (∀ (num : Numerics ℝ) (data : List ℝ) (params : SamplingParams ℝ) (rng : Rng),
      candidates num data params = cands → (params.temperature == 0) = false →
      (sample num data params rng).1 = .ok (drawn (rng.nextF32 num).1 cands)) ∧
    ∀ (G : Type) (draw : G → ℝ × G) (g : G) (guess : Token) (dist : Option (List (Token × ℝ))),
      (∀ g, 0 ≤ (draw g).1 ∧ (draw g).1 < 1) → (∀ q, dist = some q → ∀ c ∈ q, 0 ≤ c.2) →
      (verifyAgainst draw cands guess dist g).1.1 = false →
      0 < totalMass (residuals cands guess dist) →
      (0 < massOf (residuals cands guess dist) (verifyAgainst draw cands guess dist g).1.2 ↔
        0 < (draw (redrawAt draw guess dist g)).1 ∨ 0 < firstMass (residuals cands guess dist)) ∧
      (dist = none → ((verifyAgainst draw cands guess dist g).1.2 ≠ guess ↔
        0 < (draw (redrawAt draw guess dist g)).1 ∨
          0 < firstMass (residuals cands guess dist))) := by
  refine ⟨fun u hu hu1 => drawn_positive h hu hu1, ?_, ?_⟩
  · rintro num data params rng rfl ht
    exact sample_eq_drawn ht h.pos rng
  · intro G draw g guess dist hdraw hdist hrej hres
    refine ⟨rejected_positive_iff h hdist hdraw hrej hres, ?_⟩
    rintro rfl
    exact lookup_ne_iff h hdraw hrej hres

/-- Five candidates of the same weight. -/
noncomputable def fiveAlike : List (Token × ℝ) :=
  [(0, 1 / 5), (1, 1 / 5), (2, 1 / 5), (3, 1 / 5), (4, 1 / 5)]

theorem fiveAlike_ranked : IsRanked fiveAlike where
  nodup := by simp [fiveAlike]
  nonneg := by simp [fiveAlike]
  pos := by
    rw [totalMass_eq]
    norm_num [fiveAlike, massSum]
  descending := by simp [fiveAlike]

theorem totalMass_fiveAlike : totalMass fiveAlike = 1 := by
  rw [totalMass_eq]
  norm_num [fiveAlike, massSum]

theorem residuals_fiveAlike : totalMass (residuals fiveAlike 0 none) = 4 / 5 := by
  have h1 : (1 : Token) ≠ 0 := by decide
  have h2 : (2 : Token) ≠ 0 := by decide
  have h3 : (3 : Token) ≠ 0 := by decide
  have h4 : (4 : Token) ≠ 0 := by decide
  rw [totalMass_eq]
  norm_num [fiveAlike, residuals, residualOf, massSum, h1, h2, h3, h4]

/-- One guess in five is kept. -/
theorem verifyAgainst_fiveAlike {G : Type} (draw : G → ℝ × G) (g : G)
    (h : ¬ (draw g).1 < 1 / 5) : verifyAgainst draw fiveAlike 0 none g
      = resample draw fiveAlike 0 none (draw g).2 := by
  have hmass : massOf fiveAlike 0 = 1 / 5 := by simp [fiveAlike, massOf]
  have hmin : min (1 / 5 : ℝ) 1 = 1 / 5 := min_eq_left (by norm_num)
  unfold verifyAgainst
  simp only [totalMass_fiveAlike, hmass, div_one, hmin, if_neg h, if_pos (one_pos : (0 : ℝ) < 1),
    if_neg (not_le.mpr (one_pos : (0 : ℝ) < 1))]

/-- With a redraw of one half the rejected guess is not returned. -/
theorem draws_supported_half :
    (verifyAgainst (fun n : Nat => ((1 / 2 : ℝ), n + 1)) fiveAlike 0 none 0).1.2 ≠ 0 := by
  have hrej := verifyAgainst_fiveAlike (fun n : Nat => ((1 / 2 : ℝ), n + 1)) 0 (by norm_num)
  have hres : 0 < totalMass (residuals fiveAlike 0 none) := by
    rw [residuals_fiveAlike]
    norm_num
  refine (((draws_supported_iff fiveAlike_ranked).2.2 Nat
    (fun n : Nat => ((1 / 2 : ℝ), n + 1)) 0 0 none ?_ ?_ ?_ hres).2 rfl).mpr (.inl ?_)
  · intro _
    norm_num
  · simp
  · rw [hrej]
    exact resample_rejects hres
  · norm_num [redrawAt]

/-- A seed whose second number is zero. -/
def zeroSeed : UInt64 := 6748209959976139715

/-- **A guess is rejected and returned**: the first draw rejects it, the second is zero. -/
theorem verifyAgainst_returns_rejected :
    IsRanked fiveAlike ∧ 0 < totalMass (residuals fiveAlike 0 none) ∧
      (verifyAgainst (Rng.nextF32 exactNumerics) fiveAlike 0 none (Rng.new zeroSeed)).1
        = (false, 0) := by
  have hres : 0 < totalMass (residuals fiveAlike 0 none) := by
    rw [residuals_fiveAlike]
    norm_num
  refine ⟨fiveAlike_ranked, hres, ?_⟩
  have hfirst : ((Rng.new zeroSeed).nextU64.1 >>> 40).toNat = 3368195 := by decide
  have hsecond : ((Rng.new zeroSeed).nextU64.2.nextU64.1 >>> 40).toNat = 0 := by decide
  have hreject : ¬ (Rng.nextF32 exactNumerics (Rng.new zeroSeed)).1 < 1 / 5 := by
    simp only [Rng.nextF32, exactNumerics, hfirst]
    norm_num
  have hzero :
      (Rng.nextF32 exactNumerics (Rng.nextF32 exactNumerics (Rng.new zeroSeed)).2).1 = 0 := by
    simp only [Rng.nextF32, exactNumerics, hsecond]
    norm_num
  rw [verifyAgainst_fiveAlike _ _ hreject]
  exact Prod.ext (resample_rejects hres) (resample_zero fiveAlike_ranked hres hzero)

end Garuda
