import Garuda.Infra.Merging

/-!
# The naive merge

Greedy merging as a program: look through all neighbours, join the best pair, and start over.

* `bestPair` finds the neighbours of the highest rank, the leftmost among equals.
* `naive` joins them until no neighbours have a rank.
* `naive_merges` — these are the merges of `Infra.Merging`, and none is left
* `merges_of_order` — which merges are made depends on nothing but the order of the ranks
-/

namespace Infra.Merging

variable {α κ : Type}

/-! ## Pairs that may be joined -/

theorem mergeable_cons {rank : List α → Option κ} {p q : List α} {ps pre : List (List α)} {k : κ} :
    Mergeable rank (p :: q :: ps) pre k ↔
      pre = [] ∧ rank (p ++ q) = some k ∨
        ∃ pre', pre = p :: pre' ∧ Mergeable rank (q :: ps) pre' k := by
  constructor
  · rintro ⟨p', q', post, heq, hk⟩
    cases pre with
    | nil =>
      simp only [List.nil_append, List.cons.injEq] at heq
      obtain ⟨rfl, rfl, -⟩ := heq
      exact .inl ⟨rfl, hk⟩
    | cons u pre =>
      rw [List.cons_append, List.cons.injEq] at heq
      obtain ⟨rfl, heq⟩ := heq
      exact .inr ⟨pre, rfl, p', q', post, heq, hk⟩
  · rintro (⟨rfl, hk⟩ | ⟨pre', rfl, p', q', post, heq, hk⟩)
    · exact ⟨p, q, ps, rfl, hk⟩
    · exact ⟨p', q', post, by rw [heq]; rfl, hk⟩

theorem not_mergeable_short {rank : List α → Option κ} {ps pre : List (List α)} {k : κ} (h : ps.length ≤ 1) :
    ¬ Mergeable rank ps pre k := by
  rintro ⟨p, q, post, rfl, -⟩
  simp only [List.length_append, List.length_cons] at h
  omega

theorem mergeable_map {σ : Type} {score : List α → Option σ} {f : σ → κ} {ps pre : List (List α)} {k : κ} :
    Mergeable (fun w => (score w).map f) ps pre k ↔
      ∃ x, f x = k ∧ Mergeable score ps pre x := by
  constructor
  · rintro ⟨p, q, post, rfl, hk⟩
    obtain ⟨x, hx, rfl⟩ := Option.map_eq_some_iff.mp hk
    exact ⟨x, rfl, p, q, post, rfl, hx⟩
  · rintro ⟨x, rfl, p, q, post, rfl, hx⟩
    exact ⟨p, q, post, rfl, Option.map_eq_some_iff.mpr ⟨x, hx, rfl⟩⟩

/-! ## The program -/

variable [LinearOrder κ]

section

variable (rank : List α → Option κ)

/-- The neighbours in front, or the best of those behind them, which must be better. -/
def better : Option κ → Option (Nat × κ) → Option (Nat × κ)
  | none, none => none
  | none, some (i, k) => some (i + 1, k)
  | some k, none => some (0, k)
  | some k, some (i, k') => if k < k' then some (i + 1, k') else some (0, k)

/-- How many pieces stand before the best pair of neighbours, and its rank. -/
def bestPair : List (List α) → Option (Nat × κ)
  | p :: q :: ps => better (rank (p ++ q)) (bestPair (q :: ps))
  | _ => none

/-- Join the two pieces after the first `i`. -/
def joinAt : Nat → List (List α) → List (List α)
  | 0, p :: q :: ps => (p ++ q) :: ps
  | i + 1, p :: ps => p :: joinAt i ps
  | _, ps => ps

def naiveFor : Nat → List (List α) → List (List α)
  | 0, ps => ps
  | fuel + 1, ps =>
    match bestPair rank ps with
    | none => ps
    | some (i, _) => naiveFor fuel (joinAt i ps)

/-- Every join takes one piece away. -/
def naive (ps : List (List α)) : List (List α) := naiveFor rank ps.length ps

end

variable {rank : List α → Option κ}

/-! ## The best pair -/

theorem bestPair_none : ∀ {ps : List (List α)}, bestPair rank ps = none →
    ∀ pre k, ¬ Mergeable rank ps pre k
  | [], _ => fun _ _ => not_mergeable_short (Nat.zero_le 1)
  | [p], _ => fun _ _ => not_mergeable_short (Nat.le_refl 1)
  | p :: q :: ps, h => by
    rw [bestPair] at h
    intro pre k hm
    cases hk : rank (p ++ q) with
    | some k' =>
      rw [hk] at h
      cases hb : bestPair rank (q :: ps) with
      | none => rw [hb] at h; cases h
      | some b =>
        rw [hb] at h
        simp only [better] at h
        split at h <;> cases h
    | none =>
      rw [hk] at h
      cases hb : bestPair rank (q :: ps) with
      | some b => rw [hb] at h; cases h
      | none =>
        rcases mergeable_cons.mp hm with ⟨-, hk'⟩ | ⟨pre', -, hm'⟩
        · rw [hk] at hk'
          cases hk'
        · exact bestPair_none hb pre' k hm'

/-- The pair found is where it is said to be, and no pair comes before it. -/
structure Best (rank : List α → Option κ) (ps : List (List α)) (i : Nat) (k : κ) : Prop where
  pair : ∃ pre, pre.length = i ∧ Mergeable rank ps pre k
  best : ∀ pre k', Mergeable rank ps pre k' → k' < k ∨ k' = k ∧ i ≤ pre.length

theorem bestPair_some : ∀ {ps : List (List α)} {i : Nat} {k : κ},
    bestPair rank ps = some (i, k) → Best rank ps i k
  | [], _, _, h => by cases h
  | [p], _, _, h => by cases h
  | p :: q :: ps, i, k, h => by
    rw [bestPair] at h
    have hbehind : ∀ {j : Nat} {l : κ}, Best rank (q :: ps) j l →
        (∀ k', rank (p ++ q) = some k' → k' < l) → Best rank (p :: q :: ps) (j + 1) l := by
      rintro j l ⟨⟨pre, rfl, hpre⟩, hbest⟩ hlt
      refine ⟨⟨p :: pre, rfl, mergeable_cons.mpr (.inr ⟨pre, rfl, hpre⟩)⟩, ?_⟩
      intro pre' k' hm
      rcases mergeable_cons.mp hm with ⟨-, hk'⟩ | ⟨pre', rfl, hm'⟩
      · exact .inl (hlt k' hk')
      · exact (hbest pre' k' hm').imp_right fun ⟨heq, hle⟩ => ⟨heq, Nat.succ_le_succ hle⟩
    have hfront : ∀ {l : κ}, rank (p ++ q) = some l →
        (∀ pre k', Mergeable rank (q :: ps) pre k' → k' ≤ l) →
        Best rank (p :: q :: ps) 0 l := by
      intro l hl hle
      refine ⟨⟨[], rfl, mergeable_cons.mpr (.inl ⟨rfl, hl⟩)⟩, ?_⟩
      intro pre' k' hm
      rcases mergeable_cons.mp hm with ⟨-, hk'⟩ | ⟨pre', rfl, hm'⟩
      · rw [hl, Option.some.injEq] at hk'
        exact .inr ⟨hk'.symm, Nat.zero_le _⟩
      · exact (lt_or_eq_of_le (hle pre' k' hm')).imp_right fun heq => ⟨heq, Nat.zero_le _⟩
    cases hk : rank (p ++ q) with
    | none =>
      rw [hk] at h hbehind
      cases hb : bestPair rank (q :: ps) with
      | none => rw [hb] at h; cases h
      | some b =>
        rw [hb] at h
        cases h
        exact hbehind (bestPair_some hb) fun k' hk' => by cases hk'
    | some l =>
      rw [hk] at h hbehind
      cases hb : bestPair rank (q :: ps) with
      | none =>
        rw [hb] at h
        cases h
        exact hfront hk fun pre k' hm => absurd hm (bestPair_none hb pre k')
      | some b =>
        obtain ⟨j, m⟩ := b
        have hbest := bestPair_some hb
        rw [hb] at h
        simp only [better] at h
        split at h
        next hlt =>
          cases h
          refine hbehind hbest fun k' hk' => ?_
          obtain rfl := Option.some.inj hk'
          exact hlt
        next hnot =>
          cases h
          refine hfront hk fun pre k' hm => ?_
          rcases hbest.best pre k' hm with hlt | ⟨rfl, -⟩
          · exact hlt.le.trans (not_lt.mp hnot)
          · exact not_lt.mp hnot

/-! ## The whole merge -/

theorem joinAt_append (pre post : List (List α)) (p q : List α) :
    joinAt pre.length (pre ++ p :: q :: post) = pre ++ (p ++ q) :: post := by
  induction pre with
  | nil => rfl
  | cons u pre ih => exact congrArg (u :: ·) ih

/-- One round joins the best pair. -/
theorem step_joinAt {ps : List (List α)} {i : Nat} {k : κ} (h : bestPair rank ps = some (i, k)) :
    Step rank ps (joinAt i ps) ∧ (joinAt i ps).length + 1 = ps.length := by
  obtain ⟨⟨pre, rfl, p, q, post, rfl, hk⟩, hbest⟩ := bestPair_some h
  rw [joinAt_append]
  refine ⟨.merge hk hbest, ?_⟩
  simp only [List.length_append, List.length_cons]
  omega

theorem naiveFor_run (rank : List α → Option κ) (fuel : Nat) : ∀ ps : List (List α), ps.length ≤ fuel →
    Run rank ps (naiveFor rank fuel ps) ∧
      ∀ pre k, ¬ Mergeable rank (naiveFor rank fuel ps) pre k := by
  induction fuel with
  | zero => exact fun ps hle => ⟨.refl, fun _ _ => not_mergeable_short (Nat.le_succ_of_le hle)⟩
  | succ fuel ih =>
    intro ps hle
    rw [naiveFor]
    cases hb : bestPair rank ps with
    | none => exact ⟨.refl, bestPair_none hb⟩
    | some b =>
      obtain ⟨hstep, hlen⟩ := step_joinAt hb
      obtain ⟨hrun, hfinal⟩ := ih (joinAt b.1 ps) (by omega)
      exact ⟨.head hstep hrun, hfinal⟩

/-- **The naive merge makes the merges there are to make.** -/
theorem naive_merges (w : List α) : Merges rank w (naive rank (letters w)) := by
  have h := naiveFor_run rank (letters w).length (letters w) (Nat.le_refl _)
  exact ⟨h.1, h.2⟩

/-! ## Ranks of one order -/

section Order

variable {κ' σ : Type} [LinearOrder κ'] {score : List α → Option σ} {f : σ → κ} {g : σ → κ'}

/-- The scores come in one order under both. -/
def SameOrder (score : List α → Option σ) (f : σ → κ) (g : σ → κ') : Prop :=
  ∀ w w' x y, score w = some x → score w' = some y → (f x < f y ↔ g x < g y)

theorem step_of_order (h : SameOrder score f g) {ps qs : List (List α)}
    (hs : Step (fun w => (score w).map f) ps qs) : Step (fun w => (score w).map g) ps qs := by
  cases hs with
  | @merge pre post p q k hk best =>
    obtain ⟨x, hx, rfl⟩ := Option.map_eq_some_iff.mp hk
    refine .merge (k := g x) (by rw [hx]; rfl) fun pre' k' hm => ?_
    obtain ⟨y, rfl, hy⟩ := mergeable_map.mp hm
    obtain ⟨p', q', post', -, hscore⟩ := id hy
    have hxy := h _ _ x y hx hscore
    have hyx := h _ _ y x hscore hx
    rcases best pre' (f y) (mergeable_map.mpr ⟨y, rfl, hy⟩) with hlt | ⟨heq, hle⟩
    · exact .inl (hyx.mp hlt)
    · refine .inr ⟨le_antisymm (not_lt.mp ?_) (not_lt.mp ?_), hle⟩
      · rw [← hxy, heq]
        exact lt_irrefl _
      · rw [← hyx, heq]
        exact lt_irrefl _

/-- **Only the order of the ranks decides which merges are made.** -/
theorem merges_of_order (h : SameOrder score f g) {w : List α} {qs : List (List α)}
    (hm : Merges (fun w => (score w).map f) w qs) : Merges (fun w => (score w).map g) w qs := by
  refine ⟨Relation.ReflTransGen.mono (fun _ _ => step_of_order h) _ _ hm.run, fun pre k hk => ?_⟩
  obtain ⟨x, -, hx⟩ := mergeable_map.mp hk
  exact hm.final pre (f x) (mergeable_map.mpr ⟨x, rfl, hx⟩)

end Order

end Infra.Merging
