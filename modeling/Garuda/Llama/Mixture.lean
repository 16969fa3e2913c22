import Garuda.Infra.Grouping
import Garuda.Llama.Experts

/-!
# Mixtures of experts

The feed-forward of a whole batch of tokens: every token is routed, the tokens of an expert are
gathered and worked off together, and the answers are added where their tokens stand.

* `route` ranks a token's experts and shares out their weights.
* `feedForwardBatch` is the code; the products and the softmax are parameters.
* `mixture` is what a token is to get: the weighted sum over its own experts.

`feedForwardBatch_eq` says that it gets just that, whatever else is in the batch.
-/

namespace Garuda

open Infra Quant Simd

namespace Llama

variable {K : Type}

/-! ## The code -/

section Code

variable [Field K] [LinearOrder K]

/-- The experts with their scores, best first; the sort is stable. -/
def ranked (scores : List K) : List (Nat × K) :=
  (scores.zipIdx.map fun (s, e) => (e, s)).mergeSort fun a b => decide (b.2 ≤ a.2)

/-- The `k` best experts with their shares. -/
def route (k : Nat) (scores : List K) : List (Nat × K) :=
  let best := (ranked scores).take k
  let sum := (best.map fun (_, w) => w).sum
  let norm : K := if 0 < sum then 1 / sum else 1 / k
  best.map fun (e, w) => (e, w * norm)

/-- Which tokens each expert owes an answer to, one push after the other. -/
def pushes (picks : List (List (Nat × K))) : List (Nat × (Nat × K)) :=
  picks.zipIdx.flatMap fun (ranked, t) => ranked.map fun (e, w) => (e, (t, w))

/-- Adds an expert's answers, with their weights, to the rows of the tokens they are for. -/
def scatter (d : Nat) (expertOut : List K) (tokens : List (Nat × K)) (out : List K) :
    Checked GarudaError (List K) :=
  tokens.zipIdx.foldlM (fun out ((t, w), i) => do
    let row ← rowAt d t out
    let x ← rowAt d i expertOut
    writeRow d t (addScaled row x w) out) out

variable (matvec : Weight K → List K → List K → Checked GarudaError (List K))
  (softmax : List K → List K)
  (expertBatch : Swiglu K → Nat → List K → Nat → List K → Checked GarudaError (List K))

/-- One expert over the tokens that chose it. -/
def runExpert (w : Swiglu K) (d : Nat) (hs out : List K) (tokens : List (Nat × K)) (e : Nat) :
    Checked GarudaError (List K) :=
  if tokens.isEmpty then .ok out
  else do
    let rows ← tokens.mapM fun (t, _) => rowAt d t hs
    let gathered := rows.flatten
    let expertOut ← expertBatch w e gathered tokens.length (List.replicate (tokens.length * d) 0)
    scatter d expertOut tokens out

/-- The feed-forward over `n` tokens, `hs` being their hidden states. -/
def feedForwardBatch (d ne used : Nat) (ffn : Ffn K) (hs : List K) (n : Nat) :
    Checked GarudaError (List K) :=
  match ffn with
  -- one expert, which every token goes through
  | .dense w => expertBatch w 0 hs n (List.replicate (n * d) 0)
  | .moe router w => do
    let k := max used 1
    let picks ← (List.range n).mapM fun t => do
      let h ← rowAt d t hs
      let scores ← matvec router h (List.replicate ne 0)
      .ok (route k (softmax scores))
    -- invert the routing
    let members ← pushAll (pushes picks) (List.replicate ne [])
    members.zipIdx.foldlM (fun out (tokens, e) => runExpert expertBatch w d hs out tokens e)
      (List.replicate (n * d) 0)

end Code

/-! ## What a token is to get -/

/-- The weighted sum over the token's experts. -/
def mixture [Field K] (d : Nat) (routed : List (Nat × K)) (expert : Nat → List K → List K) (h : List K) :
    List K :=
  (List.range d).map fun j => (routed.map fun (e, w) => (expert e h).getD j 0 * w).sum

/-- A table, row after row. -/
def flat (n d : Nat) (F : Nat → Nat → K) : List K :=
  (List.range n).flatMap fun t => (List.range d).map (F t)

/-! ## Routing -/

section Route

variable [Field K]

/-- The experts with their scores, in their own order. -/
theorem zipIdx_swap (scores : List K) : scores.zipIdx.map (fun (s, e) => (e, s))
    = (List.range scores.length).map fun e => (e, scores.getD e 0) := by
  refine List.ext_getElem? fun i => ?_
  rw [List.getElem?_map, List.getElem?_map, List.getElem?_zipIdx]
  rcases Nat.lt_or_ge i scores.length with hi | hi
  · rw [List.getElem?_range hi]
    simp [hi]
  · rw [List.getElem?_eq_none hi, List.getElem?_eq_none (by simpa using hi)]
    rfl

variable [LinearOrder K] (scores : List K)

theorem ranked_perm :
    (ranked scores).Perm ((List.range scores.length).map fun e => (e, scores.getD e 0)) := by
  rw [← zipIdx_swap]
  exact List.mergeSort_perm _ _

theorem ranked_nodup : ((ranked scores).map Prod.fst).Nodup := by
  refine ((ranked_perm scores).map Prod.fst).nodup_iff.mpr ?_
  rw [List.map_map]
  exact (List.map_id _).symm ▸ List.nodup_range

theorem mem_ranked {p : Nat × K} :
    p ∈ ranked scores ↔ p.1 < scores.length ∧ p.2 = scores.getD p.1 0 := by
  rw [(ranked_perm scores).mem_iff, List.mem_map]
  constructor
  · rintro ⟨e, he, rfl⟩
    exact ⟨List.mem_range.mp he, rfl⟩
  · rintro ⟨he, hs⟩
    exact ⟨p.1, List.mem_range.mpr he, by rw [← hs]⟩

/-- A higher score comes first, and of equal scores the lower expert. -/
theorem ranked_pairwise :
    (ranked scores).Pairwise fun a b => b.2 < a.2 ∨ (a.2 = b.2 ∧ a.1 < b.1) := by
  have htrans : ∀ a b c : Nat × K, decide (b.2 ≤ a.2) = true → decide (c.2 ≤ b.2) = true →
      decide (c.2 ≤ a.2) = true := fun a b c hab hbc => by
    rw [decide_eq_true_eq] at hab hbc ⊢
    exact hbc.trans hab
  have htotal : ∀ a b : Nat × K, (decide (b.2 ≤ a.2) || decide (a.2 ≤ b.2)) = true := fun a b => by
    rw [Bool.or_eq_true, decide_eq_true_eq, decide_eq_true_eq]
    exact le_total _ _
  have hnodup : (ranked scores).Nodup := List.Nodup.of_map _ (ranked_nodup scores)
  refine List.pairwise_iff_forall_sublist.mpr fun {a b} hab => ?_
  have hle : b.2 ≤ a.2 := of_decide_eq_true
    (List.pairwise_iff_forall_sublist.mp (List.pairwise_mergeSort htrans htotal _) hab)
  rcases hle.lt_or_eq with hlt | heq
  · exact .inl hlt
  · refine .inr ⟨heq.symm, ?_⟩
    by_contra hge
    have ha := (mem_ranked scores).mp (hab.subset (show a ∈ [a, b] by simp))
    have hb := (mem_ranked scores).mp (hab.subset (show b ∈ [a, b] by simp))
    have hne : b.1 ≠ a.1 := fun h => by
      have : a = b := Prod.ext h.symm heq.symm
      subst this
      exact absurd (hab.nodup hnodup) (by simp)
    -- the sort keeps the order of equal scores
    have hpair : [b, a].Sublist (scores.zipIdx.map fun (s, e) => (e, s)) := by
      have hab' : [b, a] = [b.1, a.1].map fun e => (e, scores.getD e 0) := by
        rw [List.map_cons, List.map_singleton, ← ha.2, ← hb.2]
      rw [zipIdx_swap, hab']
      exact (pair_sublist_range (show b.1 < a.1 by omega) ha.1).map _
    exact not_sublist_both hnodup hab
      (List.pair_sublist_mergeSort htrans htotal (by simp [heq]) hpair)

theorem route_experts (k : Nat) :
    (route k scores).map Prod.fst = ((ranked scores).take k).map Prod.fst := by
  rw [route, List.map_map]
  rfl

/-- What is routed to are the `k` best, each once; of equal scores the lower expert is better. -/
theorem route_best (k : Nat) :
    ((route k scores).map Prod.fst).Nodup ∧ (route k scores).length = min k scores.length ∧
    ∀ e ∈ (route k scores).map Prod.fst, e < scores.length ∧
      ∀ e', e' < scores.length → e' ∉ (route k scores).map Prod.fst →
        scores.getD e' 0 < scores.getD e 0 ∨ (scores.getD e' 0 = scores.getD e 0 ∧ e < e') := by
  have hlen : (ranked scores).length = scores.length := by
    rw [(ranked_perm scores).length_eq, List.length_map, List.length_range]
  rw [route_experts]
  refine ⟨(ranked_nodup scores).sublist ((List.take_sublist k _).map _), ?_, fun e he => ?_⟩
  · rw [route, List.length_map, List.length_take, hlen]
  obtain ⟨p, hp, rfl⟩ := List.mem_map.mp he
  obtain ⟨hlt, hscore⟩ := (mem_ranked scores).mp (List.mem_of_mem_take hp)
  refine ⟨hlt, fun e' he' hout => ?_⟩
  have hmem : (e', scores.getD e' 0) ∈ ranked scores := (mem_ranked scores).mpr ⟨he', rfl⟩
  have hback : (e', scores.getD e' 0) ∈ (ranked scores).drop k := by
    rw [← List.take_append_drop k (ranked scores)] at hmem
    exact (List.mem_append.mp hmem).resolve_left fun h => hout (List.mem_map.mpr ⟨_, h, rfl⟩)
  have hpairs := ranked_pairwise scores
  rw [← List.take_append_drop k (ranked scores)] at hpairs
  have := (List.pairwise_append.mp hpairs).2.2 p hp _ hback
  rw [hscore] at this
  exact this.imp_right fun h => ⟨h.1.symm, h.2⟩

/-- Their shares: the score of each over the sum of the scores, or over `k` if that is not
positive. -/
theorem route_weights (k : Nat) :
    let sum := ((route k scores).map fun p => scores.getD p.1 0).sum
    ∀ p ∈ route k scores, p.2 = scores.getD p.1 0 * if 0 < sum then 1 / sum else 1 / k := by
  intro sum p hp
  have hscore : ∀ q ∈ (ranked scores).take k, scores.getD q.1 0 = q.2 := fun q hq =>
    ((mem_ranked scores).mp (List.mem_of_mem_take hq)).2.symm
  have hsum : sum = (((ranked scores).take k).map fun q => q.2).sum := by
    show ((route k scores).map _).sum = _
    rw [route, List.map_map]
    exact congrArg List.sum (List.map_congr_left hscore)
  obtain ⟨q, hq, rfl⟩ := List.mem_map.mp hp
  rw [hsum, hscore q hq]

end Route

/-! ## Scattering -/

section Scatter

variable {n d : Nat}

theorem length_flat (F : Nat → Nat → K) : (flat n d F).length = n * d :=
  length_flatMap_range (by simp)

theorem rowOf_flat (F : Nat → Nat → K) {t : Nat} (ht : t < n) :
    rowOf d t (flat n d F) = (List.range d).map (F t) :=
  rowOf_flatMap (by simp) ht

theorem eq_flat_iff {F : Nat → Nat → K} {s : List K} :
    s = flat n d F ↔
      s.length = n * d ∧ ∀ t, t < n → rowOf d t s = (List.range d).map (F t) :=
  eq_flatMap_iff (by simp)

variable [Field K]

theorem addScaled_map {x : List K} (hx : x.length = d) (f : Nat → K) (w : K) :
    addScaled ((List.range d).map f) x w = (List.range d).map fun j => f j + x.getD j 0 * w := by
  refine List.ext_getElem (by simp [length_addScaled]) fun j hj _ => ?_
  have hjd : j < d := by simpa [length_addScaled] using hj
  have hentry := getD_addScaled w (a := (List.range d).map f) (b := x) (by simpa using hjd)
    (hx ▸ hjd)
  rw [List.getD_eq_getElem _ _ hj] at hentry
  rw [hentry]
  simp [hjd]

/-- What is added to the row of one token is added there, and nowhere else. -/
theorem write_flat (F : Nat → Nat → K) {t : Nat} (ht : t < n) {x : List K} (hx : x.length = d)
    (w : K) :
    (writeRow d t (addScaled (rowOf d t (flat n d F)) x w) (flat n d F) :
      Checked GarudaError (List K))
      = .ok (flat n d fun t' j => F t' j + if t' = t then x.getD j 0 * w else 0) := by
  have hrow : (addScaled (rowOf d t (flat n d F)) x w).length = d := by
    rw [length_addScaled, rowOf_flat F ht, List.length_map, List.length_range]
  have hin : (t + 1) * d ≤ (flat n d F).length := by
    rw [length_flat]
    exact row_le ht
  rw [writeRow, if_pos ⟨hin, hrow⟩]
  congr 1
  refine eq_flat_iff.mpr ⟨?_, fun t' ht' => ?_⟩
  · rw [length_setRow hrow hin, length_flat]
  · rcases eq_or_ne t' t with rfl | hne
    · rw [rowOf_setRow_self hrow hin, rowOf_flat F ht, addScaled_map hx]
      simp
    · rw [rowOf_setRow_ne hrow hin hne, rowOf_flat F ht']
      simp [hne]

/-- **An expert's answers reach the tokens they are for.** The induction is on the answers. -/
theorem scatter_eq {tokens : List (Nat × K)} {expertOut : List K} (answer : Nat → List K)
    (F : Nat → Nat → K) (htokens : ∀ p ∈ tokens, p.1 < n)
    (hlen : expertOut.length = tokens.length * d)
    (hanswer : ∀ i p, tokens[i]? = some p → rowOf d i expertOut = answer p.1 ∧
      (answer p.1).length = d) :
    scatter d expertOut tokens (flat n d F)
      = .ok (flat n d fun t j => F t j +
          (tokens.map fun p => if t = p.1 then (answer p.1).getD j 0 * p.2 else 0).sum) := by
  have hrun : ∀ (ws : List ((Nat × K) × Nat)) (F : Nat → Nat → K),
      (∀ q ∈ ws, tokens[q.2]? = some q.1) →
      ws.foldlM (fun out ((t, w), i) => do
        let row ← rowAt d t out
        let x ← rowAt d i expertOut
        writeRow d t (addScaled row x w) out) (flat n d F)
      = (.ok (flat n d fun t j => F t j + ((ws.map Prod.fst).map fun p =>
          if t = p.1 then (answer p.1).getD j 0 * p.2 else 0).sum) : Checked GarudaError _) := by
    intro ws
    induction ws with
    | nil =>
      intro F _
      simp
      rfl
    | cons q ws ih =>
      obtain ⟨⟨t, w⟩, i⟩ := q
      intro F hws
      have hget : tokens[i]? = some (t, w) := hws _ List.mem_cons_self
      obtain ⟨hrow, hwidth⟩ := hanswer i _ hget
      obtain ⟨hi, -⟩ := List.getElem?_eq_some_iff.mp hget
      have ht : t < n := htokens _ (List.mem_of_getElem? hget)
      rw [List.foldlM_cons]
      dsimp only
      rw [rowAt_eq (length_flat F) ht, Checked.ok_bind, rowAt_eq hlen hi, Checked.ok_bind, hrow,
        write_flat F ht hwidth, Checked.ok_bind, ih _ fun q hq => hws q (List.mem_cons_of_mem _ hq)]
      congr 2
      funext t' j
      rw [List.map_cons, List.map_cons, List.sum_cons, add_assoc]
  have hall := hrun tokens.zipIdx F fun q hq => List.mem_zipIdx_iff_getElem?.mp hq
  rwa [List.zipIdx_map_fst] at hall

end Scatter

/-! ## The batch -/

/-- An expert answers each of the vectors that it is given, `n` of them or fewer. -/
structure Answers [Zero K]
    (expertBatch : Swiglu K → Nat → List K → Nat → List K → Checked GarudaError (List K))
    (w : Swiglu K) (d ne n : Nat) (expert : Nat → List K → List K) : Prop where
  width : ∀ e h, e < ne → h.length = d → (expert e h).length = d
  batch : ∀ e xs m, e < ne → 0 < m → m ≤ n → xs.length = m * d →
    expertBatch w e xs m (List.replicate (m * d) 0)
      = .ok ((List.range m).flatMap fun i => expert e (rowOf d i xs))

section Batch

variable [Field K] {d ne n : Nat} {hs : List K} {w : Swiglu K}
  {expertBatch : Swiglu K → Nat → List K → Nat → List K → Checked GarudaError (List K)}
  {expert : Nat → List K → List K}

/-- One expert adds its weighted answers to the rows of its tokens. -/
theorem runExpert_eq (hans : Answers expertBatch w d ne n expert) (hlen : hs.length = n * d)
    {e : Nat} (he : e < ne) {tokens : List (Nat × K)} (htokens : ∀ p ∈ tokens, p.1 < n)
    (hmany : tokens.length ≤ n) (F : Nat → Nat → K) :
    runExpert expertBatch w d hs (flat n d F) tokens e
      = .ok (flat n d fun t j => F t j + (tokens.map fun p =>
          if t = p.1 then (expert e (rowOf d p.1 hs)).getD j 0 * p.2 else 0).sum) := by
  rw [runExpert]
  cases htok : tokens with
  | nil => simp
  | cons p rest =>
    rw [← htok]
    have hpos : 0 < tokens.length := by simp [htok]
    have hrowLen : ∀ p ∈ tokens, (rowOf d p.1 hs).length = d := fun p hp =>
      length_rowOf (hlen ▸ row_le (htokens p hp))
    have hwidths : ∀ row ∈ tokens.map fun p => rowOf d p.1 hs, row.length = d := fun row hrow => by
      obtain ⟨p, hp, rfl⟩ := List.mem_map.mp hrow
      exact hrowLen p hp
    have hgathered : (tokens.map fun p => rowOf d p.1 hs).flatten.length = tokens.length * d := by
      rw [List.length_flatten, List.map_congr_left hwidths, List.map_const', List.sum_replicate_nat,
        List.length_map]
    have hrow : ∀ i p, tokens[i]? = some p →
        rowOf d i (tokens.map fun p => rowOf d p.1 hs).flatten = rowOf d p.1 hs := fun i p hp =>
      rowOf_flatten hwidths (by rw [List.getElem?_map, hp]; rfl)
    have hanswers : ∀ i, i < tokens.length →
        (expert e (rowOf d i (tokens.map fun p => rowOf d p.1 hs).flatten)).length = d :=
      fun i hi => hans.width e _ he (length_rowOf (hgathered ▸ row_le hi))
    rw [if_neg (by simp [htok]), Checked.mapM_eq_ok fun p hp => rowAt_eq hlen (htokens p hp),
      Checked.ok_bind]
    dsimp only
    rw [hans.batch e _ _ he hpos hmany hgathered, Checked.ok_bind]
    refine scatter_eq (fun t => expert e (rowOf d t hs)) F htokens (length_flatMap_range hanswers) fun i p hp => ?_
    obtain ⟨hi, -⟩ := List.getElem?_eq_some_iff.mp hp
    rw [rowOf_flatMap hanswers hi, hrow i p hp]
    exact ⟨rfl, hans.width e _ he (hrowLen p (List.mem_of_getElem? hp))⟩

theorem replicate_flat : List.replicate (n * d) (0 : K) = flat n d fun _ _ => 0 := by
  refine eq_flat_iff.mpr ⟨List.length_replicate, fun t ht => ?_⟩
  have hrow := row_le (w := d) ht
  rw [Nat.add_one_mul] at hrow
  rw [rowOf, List.drop_replicate, List.take_replicate, Nat.min_eq_left (by omega), List.map_const',
    List.length_range]

/-- All experts, one after the other. The induction is on the experts that have answered. -/
theorem runExperts_eq (hans : Answers expertBatch w d ne n expert) (hlen : hs.length = n * d)
    {ps : List (Nat × (Nat × K))} (hps : ∀ p ∈ ps, p.2.1 < n)
    (hmany : ∀ e, (group e ps).length ≤ n) :
    ((List.range ne).map fun e => group e ps).zipIdx.foldlM
      (fun out (tokens, e) => runExpert expertBatch w d hs out tokens e) (List.replicate (n * d) 0)
      = .ok (flat n d fun t j => ∑ e ∈ Finset.range ne, ((group e ps).map fun p =>
          if t = p.1 then (expert e (rowOf d p.1 hs)).getD j 0 * p.2 else 0).sum) := by
  have hrun : ∀ k, k ≤ ne → (List.range k).foldlM
      (fun out e => runExpert expertBatch w d hs out (group e ps) e) (List.replicate (n * d) 0)
      = .ok (flat n d fun t j => ∑ e ∈ Finset.range k, ((group e ps).map fun p =>
          if t = p.1 then (expert e (rowOf d p.1 hs)).getD j 0 * p.2 else 0).sum) := by
    intro k hk
    induction k with
    | zero =>
      rw [replicate_flat]
      rfl
    | succ k ih =>
      have htokens : ∀ p ∈ group k ps, p.1 < n := fun p hp => hps _ (mem_group.mp hp)
      rw [List.range_succ, List.foldlM_append, ih (by omega), Checked.ok_bind, List.foldlM_cons,
        runExpert_eq hans hlen hk htokens (hmany k)]
      simp only [Finset.sum_range_succ]
      rfl
  rw [zipIdx_map_range, List.foldlM_map]
  exact hrun ne le_rfl

/-- The sum of what all tokens' routings say about token `t` is what its own says. -/
theorem sum_own {t : Nat} (ht : t < n) (R : Nat → List (Nat × K)) (a : Nat → Nat → K) :
    (((List.range n).flatMap fun t' => (R t').map fun (e, w) => (e, (t', w))).map fun p =>
      if t = p.2.1 then a p.1 p.2.1 * p.2.2 else 0).sum
      = ((R t).map fun (e, w) => a e t * w).sum := by
  have hone : ∀ t', (((R t').map fun (e, w) => (e, (t', w))).map fun p =>
      if t = p.2.1 then a p.1 p.2.1 * p.2.2 else 0).sum
      = if t = t' then ((R t).map fun (e, w) => a e t * w).sum else 0 := fun t' => by
    rw [List.map_map]
    split
    · next h =>
      subst h
      simp [Function.comp_def]
    · next h => simp [Function.comp_def, h]
  rw [List.map_flatMap, List.flatMap_def, List.sum_flatten, List.map_map]
  simp only [Function.comp_def, hone]
  have hsum : ((List.range n).map fun t' =>
      if t = t' then ((R t).map fun (e, w) => a e t * w).sum else 0).sum
      = ∑ t' ∈ Finset.range n, if t = t' then ((R t).map fun (e, w) => a e t * w).sum else 0 := rfl
  rw [hsum, Finset.sum_ite_eq, if_pos (Finset.mem_range.mpr ht)]

omit [Field K] in
/-- A token that lists an expert once is given to it once. -/
theorem length_group_le {R : Nat → List (Nat × K)} (hR : ∀ t, ((R t).map Prod.fst).Nodup)
    (e : Nat) : (group e ((List.range n).flatMap fun t =>
      (R t).map fun (e, w) => (e, (t, w)))).length ≤ n := by
  have hone : ∀ t, (((R t).map fun (e, w) => (e, (t, w))).filter (·.1 = e)).length ≤ 1 := fun t => by
    rw [← List.countP_eq_length_filter, List.countP_map]
    have hcount := List.nodup_iff_count_le_one.mp (hR t) e
    rw [List.count, List.countP_map] at hcount
    refine le_of_eq_of_le (List.countP_congr fun p _ => ?_) hcount
    simp
  rw [group, List.length_map, List.filter_flatMap, List.length_flatMap]
  refine (List.sum_le_card_nsmul _ 1 fun k hk => ?_).trans (by simp)
  obtain ⟨t, -, rfl⟩ := List.mem_map.mp hk
  exact hone t

variable [LinearOrder K] {used : Nat} {router : Weight K}
  {matvec : Weight K → List K → List K → Checked GarudaError (List K)}
  {softmax score : List K → List K}

/-- A router has a score for each expert. -/
structure Scores (matvec : Weight K → List K → List K → Checked GarudaError (List K))
    (softmax : List K → List K) (router : Weight K) (d ne : Nat) (score : List K → List K) :
    Prop where
  matvec : ∀ h, h.length = d → matvec router h (List.replicate ne 0) = .ok (score h)
  length : ∀ h, h.length = d → (softmax (score h)).length = ne

/-- **Every token gets the mixture of its own experts.** -/
theorem moe_eq (hscores : Scores matvec softmax router d ne score)
    (hans : Answers expertBatch w d ne n expert) (hlen : hs.length = n * d) :
    feedForwardBatch matvec softmax expertBatch d ne used (.moe router w) hs n
      = .ok ((List.range n).flatMap fun t =>
          mixture d (route (max used 1) (softmax (score (rowOf d t hs)))) expert (rowOf d t hs)) := by
  have hrow : ∀ t, t < n → (rowOf d t hs).length = d := fun t ht => length_rowOf (hlen ▸ row_le ht)
  let R : Nat → List (Nat × K) := fun t => route (max used 1) (softmax (score (rowOf d t hs)))
  let ps : List (Nat × (Nat × K)) :=
    (List.range n).flatMap fun t => (R t).map fun (e, w) => (e, (t, w))
  have hpicks : (List.range n).mapM (fun t => do
      let h ← rowAt d t hs
      let scores ← matvec router h (List.replicate ne 0)
      .ok (route (max used 1) (softmax scores))) = (.ok ((List.range n).map R) :
        Checked GarudaError _) := Checked.mapM_eq_ok fun t ht => by
    have ht := List.mem_range.mp ht
    rw [rowAt_eq hlen ht, Checked.ok_bind, hscores.matvec _ (hrow t ht), Checked.ok_bind]
  have hpushes : pushes ((List.range n).map R) = ps := by
    rw [pushes, zipIdx_map_range, List.flatMap_map]
  have hkeys : ∀ p ∈ ps, p.1 < ne ∧ p.2.1 < n := by
    rintro ⟨e, t, w⟩ hp
    obtain ⟨t', ht', hp⟩ := List.mem_flatMap.mp hp
    obtain ⟨⟨e', w'⟩, hmem, heq⟩ := List.mem_map.mp hp
    cases heq
    have ht := List.mem_range.mp ht'
    have hbest := (route_best (softmax (score (rowOf d t hs))) (max used 1)).2.2 e
      (List.mem_map.mpr ⟨_, hmem, rfl⟩)
    exact ⟨hscores.length _ (hrow t ht) ▸ hbest.1, ht⟩
  have hempty : List.replicate ne ([] : List (Nat × K)) = (List.range ne).map fun _ => [] := by
    rw [List.map_const', List.length_range]
  rw [feedForwardBatch]
  dsimp only
  rw [hpicks, Checked.ok_bind, hpushes, hempty, pushAll_eq fun p hp => (hkeys p hp).1,
    Checked.ok_bind]
  simp only [List.nil_append]
  have hmany : ∀ e, (group e ps).length ≤ n := length_group_le fun t => (route_best _ _).1
  rw [runExperts_eq hans hlen (fun p hp => (hkeys p hp).2) hmany]
  congr 1
  refine (eq_flatMap_iff fun t _ => by rw [mixture, List.length_map, List.length_range]).mpr
    ⟨length_flat _, fun t ht => ?_⟩
  rw [rowOf_flat _ ht, mixture]
  refine List.map_congr_left fun j _ => ?_
  rw [sum_group (fun e p => if t = p.1 then (expert e (rowOf d p.1 hs)).getD j 0 * p.2 else 0)
    fun p hp => (hkeys p hp).1]
  exact sum_own ht R fun e t => (expert e (rowOf d t hs)).getD j 0

/--
**Grouping tokens by expert changes nothing.**

Every token's row is the weighted sum over its own best experts, each once and weighted with its
share of their scores, and is the same in any other batch that holds the same hidden state.
-/
theorem feedForwardBatch_eq (used : Nat) (hscores : Scores matvec softmax router d ne score)
    (hans : Answers expertBatch w d ne n expert) (hlen : hs.length = n * d) :
    ∃ out, feedForwardBatch matvec softmax expertBatch d ne used (.moe router w) hs n = .ok out ∧
      out.length = n * d ∧ ∀ t, t < n →
        let scores := softmax (score (rowOf d t hs))
        let routed := route (max used 1) scores
        (routed.map Prod.fst).Nodup ∧ routed.length = min (max used 1) ne ∧
        (∀ e ∈ routed.map Prod.fst, e < ne ∧ ∀ e', e' < ne → e' ∉ routed.map Prod.fst →
          scores.getD e' 0 < scores.getD e 0 ∨ (scores.getD e' 0 = scores.getD e 0 ∧ e < e')) ∧
        (let sum := (routed.map fun p => scores.getD p.1 0).sum
         ∀ p ∈ routed, p.2
          = scores.getD p.1 0 * if 0 < sum then 1 / sum else 1 / ((max used 1 : Nat) : K)) ∧
        rowOf d t out
          = (List.range d).map (fun j =>
              (routed.map fun (e, weight) =>
                (expert e (rowOf d t hs)).getD j 0 * weight).sum) ∧
        ∀ n' hs' t' out', Answers expertBatch w d ne n' expert → hs'.length = n' * d → t' < n' →
          rowOf d t' hs' = rowOf d t hs →
          feedForwardBatch matvec softmax expertBatch d ne used (.moe router w) hs' n' = .ok out' →
          rowOf d t' out' = rowOf d t out := by
  have hwidth : ∀ {n : Nat} (hs : List K) (t : Nat), t < n → (mixture d
      (route (max used 1) (softmax (score (rowOf d t hs)))) expert (rowOf d t hs)).length = d :=
    fun hs t _ => by rw [mixture, List.length_map, List.length_range]
  refine ⟨_, moe_eq hscores hans hlen, length_flatMap_range (hwidth hs), fun t ht => ?_⟩
  have hrow : (rowOf d t hs).length = d := length_rowOf (hlen ▸ row_le ht)
  have hne := hscores.length _ hrow
  obtain ⟨hnodup, hcount, hbest⟩ := route_best (softmax (score (rowOf d t hs))) (max used 1)
  rw [hne] at hcount hbest
  refine ⟨hnodup, hcount, hbest, route_weights _ _, rowOf_flatMap (hwidth hs) ht,
    fun n' hs' t' out' hans' hlen' ht' hsame hout' => ?_⟩
  rw [moe_eq hscores hans' hlen'] at hout'
  cases hout'
  rw [rowOf_flatMap (hwidth hs') ht', rowOf_flatMap (hwidth hs) ht, hsame]

end Batch

/-- A router with the same score for either of two experts. -/
def sameScores (_ : Weight ℚ) (h _ : List ℚ) : Checked GarudaError (List ℚ) := .ok (h ++ h)

/-- Experts that multiply by their number. -/
def multiples (_ : Swiglu ℚ) (e : Nat) (xs : List ℚ) (_ : Nat) (_ : List ℚ) :
    Checked GarudaError (List ℚ) := .ok (xs.map (· * (e + 1)))

/-- A tie is left as it stands, and the weight is shared. -/
theorem route_tie {a : ℚ} (ha : 0 < a) : route 2 [a, a] = [(0, 1 / 2), (1, 1 / 2)] := by
  have hranked : ranked [a, a] = [(0, a), (1, a)] := List.mergeSort_of_pairwise (by simp)
  have hsum : 0 < a + a := add_pos ha ha
  have hhalf : a * (a + a)⁻¹ = 2⁻¹ := by
    field_simp
    ring
  rw [route, hranked]
  simp [hsum, hhalf]

/-- Two tokens and two experts, both of which each token goes through with the same weight. -/
theorem feedForwardBatch_eq_two :
    feedForwardBatch sameScores id multiples 1 2 2
        (.moe (.full [] 0) ⟨.split [], .split [], .split []⟩) [1, 2] 2 = .ok [3 / 2, 3] := by
  have hscores : Scores sameScores id (.full [] 0) 1 2 fun h => h ++ h :=
    ⟨fun _ _ => rfl, fun h hh => by simp [hh]⟩
  have hans : Answers multiples ⟨.split [], .split [], .split []⟩ 1 2 2
      fun e h => h.map (· * ((e : ℚ) + 1)) := by
    refine ⟨fun e h _ hh => by simpa using hh, fun e xs m _ _ _ hxs => ?_⟩
    rw [multiples]
    congr 1
    have hrow : ∀ i, i < m → ((rowOf 1 i xs).map (· * ((e : ℚ) + 1))).length = 1 := fun i hi => by
      rw [List.length_map, length_rowOf (hxs ▸ row_le hi)]
    refine (eq_flatMap_iff hrow).mpr ⟨by rw [List.length_map, hxs], fun i _ => ?_⟩
    rw [rowOf, rowOf, List.map_take, List.map_drop]
  obtain ⟨out, hout, hlen, hrows⟩ := feedForwardBatch_eq (n := 2) 2 hscores hans
    (show ([1, 2] : List ℚ).length = 2 * 1 from rfl)
  have hfirst := (hrows 0 (by decide)).2.2.2.2.1
  have hsecond := (hrows 1 (by decide)).2.2.2.2.1
  have hrow : ∀ {h row : List ℚ} {a : ℚ}, h = [a] → 0 < a →
      row = (List.range 1).map (fun j => ((route (max 2 1) (id (h ++ h))).map fun p =>
        (h.map (· * ((p.1 : ℚ) + 1))).getD j 0 * p.2).sum) → row = [3 / 2 * a] := by
    rintro h row a rfl ha rfl
    rw [show route (max 2 1) (id ([a] ++ [a])) = [(0, 1 / 2), (1, 1 / 2)] from route_tie ha]
    simp
    ring
  have hone := hrow rfl one_pos hfirst
  have htwo := hrow rfl two_pos hsecond
  obtain ⟨x, y, rfl⟩ := List.length_eq_two.mp hlen
  obtain rfl : x = 3 / 2 * 1 := (List.cons.inj hone).1
  obtain rfl : y = 3 / 2 * 2 := (List.cons.inj htwo).1
  rw [hout]
  norm_num

/-- The code's own expert answers so, if its matrices are those of as many experts. -/
theorem expertBatch_answers [Rounds K] [Zero K] {dots : RowDots K} {b : Build} {plan : Split}
    {silu : K → K} {d dFf ne n : Nat} {w : Swiglu K} {gate up down : Nat → List K → List K}
    (hgate : Multiplies dots b plan w.gate ne dFf d n gate)
    (hup : Multiplies dots b plan w.up ne dFf d n up)
    (hdown : Multiplies dots b plan w.down ne d dFf n down) :
    Answers (expertBatch dots b plan silu d dFf) w d ne n fun e h =>
      down e (List.zipWith (· * ·) ((gate e h).map silu) (up e h)) where
  width e _ he _ := hdown.width e _ he
  batch _ _ _ he hm hmn hxs := expertBatch_eq hgate hup hdown he hm hmn hxs List.length_replicate

end Llama

end Garuda
