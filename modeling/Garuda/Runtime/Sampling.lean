import Garuda.Core.Types
import Garuda.Infra.Walk

/-!
# Sampling

The sampler of `runtime/mod.rs`: picking a token from logits, and deciding a speculated token
against the distribution the caller asked for.

Weights are of any type `K` with the operations the code uses (`Weight`, `Numerics`); nothing is
assumed of them here. Random draws come from any generator, as `draw : G → K × G`, and are turned
into a candidate by `Infra.walk`.

* `sample_greedy` — at temperature zero the sampler is the argmax and draws nothing
* `argmax_lt` — the argmax is an index of the logits
* `candidates_ne_nil`, `sample_ok` — there is always a candidate, and so a token
-/

namespace Garuda

open Infra

/-! ## Weights -/

/-- The operators of `f32`, on whatever stands for it. -/
class Weight (K : Type) extends Zero K, One K, Add K, Sub K, Mul K, Div K, Min K, Max K, BEq K,
    LT K, LE K where
  decidableLT : DecidableLT K
  decidableLE : DecidableLE K

instance instDecidableLTOfWeight {K : Type} [Weight K] : DecidableLT K := Weight.decidableLT

instance instDecidableLEOfWeight {K : Type} [Weight K] : DecidableLE K := Weight.decidableLE

/-- The parts of `f32` arithmetic that are not an operator. -/
structure Numerics (K : Type) where
  negInfinity : K
  isFinite : K → Bool
  /-- How a message shows a number. -/
  render : K → String
  exp : K → K
  /-- `as f32` of an integer. -/
  ofNat : Nat → K

variable {K : Type} [Weight K]

/-! ## The generator -/

/-- Small deterministic PRNG: the state of splitmix64. -/
structure Rng where
  state : UInt64
  deriving DecidableEq, Repr

namespace Rng

def new (seed : UInt64) : Rng := ⟨seed ^^^ 0x9E3779B97F4A7C15⟩

def nextU64 (rng : Rng) : UInt64 × Rng :=
  let state := rng.state + 0x9E3779B97F4A7C15
  let z := (state ^^^ (state >>> 30)) * 0xBF58476D1CE4E5B9
  let z := (z ^^^ (z >>> 27)) * 0x94D049BB133111EB
  (z ^^^ (z >>> 31), ⟨state⟩)

end Rng

/-! ## Parameters -/

/-- How to turn logits into a token. -/
structure SamplingParams (K : Type) where
  /-- Zero means greedy; the other knobs are then ignored. -/
  temperature : K
  topP : K
  topK : Nat
  maxTokens : Nat
  seed : Option UInt64

/-- Uniform in `[0, 1)`. -/
def Rng.nextF32 (num : Numerics K) (rng : Rng) : K × Rng :=
  (num.ofNat (rng.nextU64.1 >>> 40).toNat / num.ofNat (2 ^ 24), rng.nextU64.2)

/-! ## Greedy -/

/-- The fold of `sample`: the best index and value so far, over the values from index `i` on. -/
def argmaxFrom : Nat → Nat × K → List K → Nat
  | _, best, [] => best.1
  | i, best, v :: rest => argmaxFrom (i + 1) (if best.2 < v then (i, v) else best) rest

def argmax (num : Numerics K) (data : List K) : Nat := argmaxFrom 0 (0, num.negInfinity) data

theorem argmaxFrom_lt : ∀ (data : List K) (i n : Nat) (best : Nat × K), best.1 < n →
    i + data.length ≤ n → argmaxFrom i best data < n
  | [], _, _, _, hbest, _ => hbest
  | v :: rest, i, n, best, hbest, hn => by
    rw [List.length_cons] at hn
    rw [argmaxFrom]
    refine argmaxFrom_lt rest (i + 1) n _ ?_ (by omega)
    split
    · show i < n; omega
    · exact hbest

/-- The argmax is an index of the logits. -/
theorem argmax_lt (num : Numerics K) {data : List K} (h : data ≠ []) :
    argmax num data < data.length := by
  have hpos : 0 < data.length := List.length_pos_iff.mpr h
  exact argmaxFrom_lt data 0 data.length _ hpos (by omega)

/-! ## Candidates -/

def SamplingParams.validate (num : Numerics K) (params : SamplingParams K) :
    Except GarudaError Unit :=
  if num.isFinite params.temperature = false ∨ params.temperature < 0 then
    .error (.config s!"temperature must be a non-negative number, got {num.render params.temperature}")
  else if num.isFinite params.topP = false ∨ params.topP ≤ 0 ∨ 1 < params.topP then
    .error (.config s!"top_p must be in (0, 1], got {num.render params.topP}")
  else if params.maxTokens = 0 then .error (.config "max_tokens must be at least 1")
  else .ok ()

/-- Numerically stable softmax; uniform where the maximum or the sum is not finite. -/
def softmax (num : Numerics K) (x : List K) : List K :=
  let uniform := x.map fun _ => 1 / num.ofNat x.length
  let top := x.foldl max num.negInfinity
  if num.isFinite top = false then uniform
  else
    let exps := x.map fun v => num.exp (v - top)
    let sum := exps.foldl (· + ·) 0
    if num.isFinite sum = true ∧ 0 < sum then exps.map (· * (1 / sum)) else uniform

/-- `partial_cmp`, with incomparable values taken as equal. -/
def partialCmp (a b : K) : Ordering :=
  if a < b then .lt else if b < a then .gt else .eq

/-- Most likely first; ties break on token id. -/
def byLikelihood (a b : Token × K) : Ordering :=
  (partialCmp b.2 a.2).then (compare a.1 b.1)

/-- The shortest prefix whose weights reach `topP`, or all of them. -/
def keepTopP (topP : K) : K → List (Token × K) → List (Token × K)
  | _, [] => []
  | cumulative, c :: rest =>
    if topP ≤ cumulative + c.2 then [c] else c :: keepTopP topP (cumulative + c.2) rest

/--
The candidates `sample` chooses between: temperature, then top-k, then top-p.

The source partitions at `topK` before it sorts; sorting first and then keeping `topK` selects
the same candidates in the same order.
-/
def candidates (num : Numerics K) (data : List K) (params : SamplingParams K) :
    List (Token × K) :=
  let scaled := softmax num (data.map (· / params.temperature))
  let all := scaled.zipIdx.map (fun c => (UInt32.ofNat c.2, c.1))
  let sorted := all.mergeSort (fun a b => (byLikelihood a b).isLE)
  let top := if 0 < params.topK ∧ params.topK < all.length then sorted.take params.topK else sorted
  if params.topP < 1 then keepTopP params.topP 0 top else top

theorem length_softmax (num : Numerics K) (x : List K) : (softmax num x).length = x.length := by
  simp only [softmax]
  split
  · exact List.length_map _
  · split
    · rw [List.length_map, List.length_map]
    · exact List.length_map _

theorem keepTopP_ne_nil (topP : K) : ∀ (cumulative : K) {cands : List (Token × K)},
    cands ≠ [] → keepTopP topP cumulative cands ≠ []
  | _, [], h => absurd rfl h
  | cumulative, c :: rest, _ => by
    rw [keepTopP]
    split
    · simp
    · simp

/-- There is always a candidate. -/
theorem candidates_ne_nil (num : Numerics K) {data : List K} (h : data ≠ [])
    (params : SamplingParams K) : candidates num data params ≠ [] := by
  have hsorted : ((softmax num (data.map (· / params.temperature))).zipIdx.map
      (fun c => (UInt32.ofNat c.2, c.1))).mergeSort (fun a b => (byLikelihood a b).isLE) ≠ [] := by
    rw [← List.length_pos_iff, List.length_mergeSort, List.length_map, List.length_zipIdx,
      length_softmax, List.length_map]
    exact List.length_pos_iff.mpr h
  have htop : ∀ sorted : List (Token × K), sorted ≠ [] → ∀ n : Nat,
      (if 0 < params.topK ∧ params.topK < n then sorted.take params.topK else sorted) ≠ [] := by
    intro sorted hs n
    split
    · next hk =>
      rw [ne_eq, List.take_eq_nil_iff, not_or]
      exact ⟨by omega, hs⟩
    · exact hs
  simp only [candidates]
  split
  · exact keepTopP_ne_nil _ _ (htop _ hsorted _)
  · exact htop _ hsorted _

/-! ## Drawing -/

/-- The sum of the weights, in list order. -/
def totalMass (cands : List (Token × K)) : K := cands.foldl (fun acc c => acc + c.2) 0

/-- `cands[0].0`; the source panics on an empty list, which no caller passes. -/
def firstToken (cands : List (Token × K)) : Token := (cands.head?.map Prod.fst).getD 0

/-- `cands.last().0`, likewise. -/
def lastToken (cands : List (Token × K)) : Token := (cands.getLast?.map Prod.fst).getD 0

/-- Pick a token from `logits` under `params`. -/
def sample (num : Numerics K) (data : List K) (params : SamplingParams K) (rng : Rng) :
    Except GarudaError Token × Rng :=
  if data.isEmpty then (.error (.inference "cannot sample from empty logits"), rng)
  else if params.temperature == 0 then (.ok (UInt32.ofNat (argmax num data)), rng)
  else
    let cands := candidates num data params
    let total := totalMass cands
    if total ≤ 0 then (.ok (firstToken cands), rng)
    else
      let (u, rng) := rng.nextF32 num
      (.ok ((walk (u * total) cands).getD (lastToken cands)), rng)

/-- At temperature zero the sampler is the argmax and draws nothing. -/
theorem sample_greedy (num : Numerics K) {data : List K} (hne : data ≠ [])
    {params : SamplingParams K} (ht : (params.temperature == 0) = true) (rng : Rng) :
    sample num data params rng = (.ok (UInt32.ofNat (argmax num data)), rng) := by
  unfold sample
  rw [if_neg (by simpa using hne), if_pos ht]

/-- At temperature zero a sampled token is an index of the logits. -/
theorem sample_greedy_lt {num : Numerics K} {data : List K} {params : SamplingParams K}
    (ht : (params.temperature == 0) = true) {rng : Rng} {t : Token}
    (h : (sample num data params rng).1 = .ok t) : t.toNat < data.length := by
  by_cases hne : data = []
  · simp [sample, hne] at h
  · rw [sample_greedy num hne ht] at h
    rw [← Except.ok.inj h, UInt32.toNat_ofNat']
    exact Nat.lt_of_le_of_lt (Nat.mod_le _ _) (argmax_lt num hne)

/-- Sampling fails on empty logits only. -/
theorem sample_ok (num : Numerics K) {data : List K} (hne : data ≠ []) (params : SamplingParams K)
    (rng : Rng) : ∃ t, (sample num data params rng).1 = .ok t := by
  simp only [sample, if_neg (show ¬ data.isEmpty = true by simpa using hne)]
  split
  · exact ⟨_, rfl⟩
  · split
    · exact ⟨_, rfl⟩
    · exact ⟨_, rfl⟩

/-! ## Verifying a guess -/

def massOf (d : List (Token × K)) (t : Token) : K :=
  ((d.find? (fun c => c.1 == t)).map Prod.snd).getD 0

/-- The positive part of `p - q`, which for a lookup is `p` with the guess struck out. -/
def residualOf (total : K) (drafted : Token) (draftDist : Option (List (Token × K)))
    (tok : Token) (p : K) : K :=
  match draftDist with
  | none => if tok == drafted then 0 else p
  | some q => max (p - massOf q tok / totalMass q * total) 0

variable {G : Type}

/-- A rejected guess: draw from the residual. -/
def resample (draw : G → K × G) (cands : List (Token × K)) (drafted : Token)
    (draftDist : Option (List (Token × K))) (g : G) : (Bool × Token) × G :=
  let weights := cands.map (fun c => (c.1, residualOf (totalMass cands) drafted draftDist c.1 c.2))
  let residual := totalMass weights
  if residual ≤ 0 then ((true, drafted), g)
  else
    let (u, g) := draw g
    match walk (u * residual) weights with
    | some tok => ((false, tok), g)
    | none =>
      ((false, ((cands.reverse.find? (fun c => c.1 != drafted)).map Prod.fst).getD drafted), g)

/-- Decide a speculated token against the distribution the caller actually asked for: whether
the guess survived, and the token to emit either way. -/
def verifyAgainst (draw : G → K × G) (cands : List (Token × K)) (drafted : Token)
    (draftDist : Option (List (Token × K))) (g : G) : (Bool × Token) × G :=
  let total := totalMass cands
  if total ≤ 0 then ((false, firstToken cands), g)
  else
    let draftedMass := massOf cands drafted
    let decide (qDrafted : K) : (Bool × Token) × G :=
      let pDrafted := draftedMass / total
      if 0 < qDrafted then
        let (u, g) := draw g
        if u < min (pDrafted / qDrafted) 1 then ((true, drafted), g)
        else resample draw cands drafted draftDist g
      else resample draw cands drafted draftDist g
    match draftDist with
    | none => decide 1
    | some q =>
      if totalMass q ≤ 0 then ((false, firstToken cands), g)
      else decide (massOf q drafted / totalMass q)

/-- The token a draft model's distribution proposes for the point `u`. -/
def drawn (u : K) (cands : List (Token × K)) : Token :=
  (walk (u * totalMass cands) cands).getD (lastToken cands)

end Garuda
