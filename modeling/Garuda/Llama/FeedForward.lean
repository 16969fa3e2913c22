import Garuda.Dense.Layers
import Garuda.Llama.Mixture

/-!
# Feed-forward, bit for bit

The feed-forward of a batch over rounded numbers, of which nothing is known: not even that sums may
be reordered.

* `Rounded.feedForwardBatch` is the code, with the products as parameters.
* `mixtureOf` is one token's answer: its experts' answers, added up in the order of the experts.

`Rounded.feedForwardBatch_rows` says that a batch is its tokens' answers, and so that no token can
tell what else is in the batch.
-/

namespace Garuda

open Infra Quant Simd

namespace Llama

variable {K : Type}

/-! ## The code -/

namespace Rounded

section Code

variable [Analytic K]

/-- The experts with their scores, best first; the sort is stable. -/
def ranked (scores : List K) : List (Nat × K) :=
  (scores.zipIdx.map fun (s, e) => (e, s)).mergeSort fun a b => (Analytic.totalCmp b.2 a.2).isLE

/-- The `k` best experts with their shares. -/
def route (k : Nat) (scores : List K) : List (Nat × K) :=
  let best := (ranked scores).take k
  let sum : K := Analytic.sum (best.map fun (_, w) => w)
  let norm : K := if 0 < sum then Floats.ofInt 1 / sum else Floats.ofInt 1 / Floats.ofInt k
  best.map fun (e, w) => (e, w * norm)

/-- Which tokens each expert owes an answer to, one push after the other. -/
def pushes (picks : List (List (Nat × K))) : List (Nat × (Nat × K)) :=
  picks.zipIdx.flatMap fun (ranked, t) => ranked.map fun (e, w) => (e, (t, w))

/-- Adds an expert's answers, with their weights, to the rows of the tokens they are for. -/
def scatter (d : Nat) (expertOut : List K) (tokens : List (Nat × K)) (out : List K) :
    Checked GarudaError (List K) :=
  tokens.zipIdx.foldlM (fun out ((t, w), i) => do
    let row ← rowAt d t out
    let x ← rowAt d i expertOut
    writeRow d t (addScaled row x w) out) out

variable (matvec : Weight K → List K → List K → Checked GarudaError (List K))
  (expertBatch : Swiglu K → Nat → List K → Nat → List K → Checked GarudaError (List K))

/-- One expert over the tokens that chose it. -/
def runExpert (w : Swiglu K) (d : Nat) (hs out : List K) (tokens : List (Nat × K)) (e : Nat) :
    Checked GarudaError (List K) :=
  if tokens.isEmpty then .ok out
  else do
    let rows ← tokens.mapM fun (t, _) => rowAt d t hs
    let gathered := rows.flatten
    let expertOut ← expertBatch w e gathered tokens.length (List.replicate (tokens.length * d) 0)
    scatter d expertOut tokens out

/-- The feed-forward over `n` tokens, `hs` being their hidden states. -/
def feedForwardBatch (d ne used : Nat) (ffn : Ffn K) (hs : List K) (n : Nat) :
    Checked GarudaError (List K) :=
  match ffn with
  -- one expert, which every token goes through
  | .dense w => expertBatch w 0 hs n (List.replicate (n * d) 0)
  | .moe router w => do
    let k := max used 1
    let picks ← (List.range n).mapM fun t => do
      let h ← rowAt d t hs
      let scores ← matvec router h (List.replicate ne 0)
      .ok (route k (Simd.softmax scores))
    -- invert the routing
    let members ← pushAll (pushes picks) (List.replicate ne [])
    members.zipIdx.foldlM (fun out (tokens, e) => runExpert expertBatch w d hs out tokens e)
      (List.replicate (n * d) 0)

end Code

end Rounded

/-! ## Tables -/

section Rows

variable {d n : Nat}

/-- A table, row after row. -/
def rows (n : Nat) (row : Nat → List K) : List K := (List.range n).flatMap row

theorem length_rows {row : Nat → List K} (hrow : ∀ t, t < n → (row t).length = d) :
    (rows n row).length = n * d := length_flatMap_range hrow

theorem rowAt_rows {row : Nat → List K} (hrow : ∀ t, t < n → (row t).length = d) {t : Nat}
    (ht : t < n) : (rowAt d t (rows n row) : Checked GarudaError (List K)) = .ok (row t) := by
  rw [rowAt_eq (length_rows hrow) ht, rows, rowOf_flatMap hrow ht]

theorem write_rows {row : Nat → List K} (hrow : ∀ t, t < n → (row t).length = d) {t : Nat}
    (ht : t < n) {new : List K} (hnew : new.length = d) :
    (writeRow d t new (rows n row) : Checked GarudaError (List K))
      = .ok (rows n (Function.update row t new)) := by
  have hlen := length_rows hrow
  have hin : (t + 1) * d ≤ (rows n row).length := hlen ▸ row_le ht
  rw [writeRow, if_pos ⟨hin, hnew⟩]
  congr 1
  refine (eq_flatMap_iff fun t' ht' => ?_).mpr ⟨by rw [length_setRow hnew hin, hlen],
    fun t' ht' => ?_⟩
  · rcases eq_or_ne t' t with rfl | hne
    · rw [Function.update_self, hnew]
    · rw [Function.update_of_ne hne, hrow t' ht']
  · rcases eq_or_ne t' t with rfl | hne
    · rw [rowOf_setRow_self hnew hin, Function.update_self]
    · rw [rowOf_setRow_ne hnew hin hne, Function.update_of_ne hne, rows, rowOf_flatMap hrow ht']

end Rows

/-! ## One token -/

/-- The routed experts in the order of their numbers. -/
def byExpert (ne : Nat) (routed : List (Nat × K)) : List (Nat × K) :=
  (List.range ne).flatMap fun e => routed.filter (·.1 = e)

/-- The experts' answers, weighted and added up one after the other. -/
def mixtureOf [Analytic K] (d ne : Nat) (routed : List (Nat × K)) (expert : Nat → List K → List K)
    (h : List K) : List K :=
  (byExpert ne routed).foldl (fun out (e, w) => addScaled out (expert e h) w) (List.replicate d 0)

/-- A token's feed-forward, as a function of its hidden state. -/
def ffnOf [Analytic K] (d ne used : Nat) (ffn : Ffn K) (score : List K → List K)
    (expert : Nat → List K → List K) (h : List K) : List K :=
  match ffn with
  | .dense _ => expert 0 h
  | .moe _ _ =>
    mixtureOf d ne (Rounded.route (max used 1) (Simd.softmax (score h))) expert h

section

variable [Analytic K] {d ne n : Nat}

theorem length_foldl_addScaled {α : Type} (f : α → List K) (g : α → K) :
    ∀ (ps : List α) (out : List K),
      (ps.foldl (fun out p => addScaled out (f p) (g p)) out).length = out.length
  | [], _ => rfl
  | p :: ps, out => by
    rw [List.foldl_cons, length_foldl_addScaled f g ps, length_addScaled]

@[simp] theorem length_mixtureOf (routed : List (Nat × K)) (expert : Nat → List K → List K)
    (h : List K) : (mixtureOf d ne routed expert h).length = d := by
  rw [mixtureOf]
  exact (length_foldl_addScaled (fun p : Nat × K => expert p.1 h) Prod.snd _ _).trans
    List.length_replicate

/-! ## Routing -/

namespace Rounded

theorem ranked_perm (scores : List K) :
    (ranked scores).Perm (scores.zipIdx.map fun (s, e) => (e, s)) := List.mergeSort_perm _ _

/-- Every expert that is routed to is one of those scored, and is routed to once. -/
theorem route_sound (k : Nat) (scores : List K) :
    ((route k scores).map Prod.fst).Nodup ∧ ∀ p ∈ route k scores, p.1 < scores.length := by
  have hperm := (ranked_perm scores).map Prod.fst
  have hkeys : (scores.zipIdx.map fun (s, e) => (e, s)).map Prod.fst = List.range scores.length := by
    rw [List.map_map]
    exact List.zipIdx_map_snd 0 scores |>.trans List.range_eq_range'.symm
  rw [hkeys] at hperm
  have hfst : (route k scores).map Prod.fst = ((ranked scores).map Prod.fst).take k := by
    rw [route, List.map_map, List.map_take]
    rfl
  constructor
  · rw [hfst]
    exact (hperm.nodup_iff.mpr List.nodup_range).sublist (List.take_sublist _ _)
  · intro p hp
    have hmem : p.1 ∈ ((ranked scores).map Prod.fst).take k := hfst ▸ List.mem_map_of_mem hp
    exact List.mem_range.mp (hperm.mem_iff.mp (List.mem_of_mem_take hmem))

end Rounded

/-! ## Scattering -/

/-- What is given to token `t`, among the answers to all of them. -/
def given (tokens : List (Nat × K)) (t : Nat) : List (Nat × K) := tokens.filter (·.1 = t)

/-- **An expert's answers reach the tokens they are for**, in order. The induction is on the
answers. -/
theorem Rounded.scatter_rows {tokens : List (Nat × K)} {expertOut : List K}
    (answer : Nat → List K) {row : Nat → List K} (hrow : ∀ t, t < n → (row t).length = d)
    (htokens : ∀ p ∈ tokens, p.1 < n) (hlen : expertOut.length = tokens.length * d)
    (hanswer : ∀ i p, tokens[i]? = some p → rowOf d i expertOut = answer p.1) :
    Rounded.scatter d expertOut tokens (rows n row)
      = .ok (rows n fun t => (given tokens t).foldl (fun out p => addScaled out (answer t) p.2)
          (row t)) := by
  have hrun : ∀ (ws : List ((Nat × K) × Nat)) (row : Nat → List K),
      (∀ t, t < n → (row t).length = d) → (∀ q ∈ ws, tokens[q.2]? = some q.1) →
      ws.foldlM (fun out ((t, w), i) => do
        let r ← rowAt d t out
        let x ← rowAt d i expertOut
        writeRow d t (addScaled r x w) out) (rows n row)
      = (.ok (rows n fun t => (given (ws.map Prod.fst) t).foldl
          (fun out p => addScaled out (answer t) p.2) (row t)) : Checked GarudaError _) := by
    intro ws
    induction ws with
    | nil => exact fun _ _ _ => rfl
    | cons q ws ih =>
      obtain ⟨⟨t, w⟩, i⟩ := q
      intro row hrow hws
      have hget : tokens[i]? = some (t, w) := hws _ List.mem_cons_self
      obtain ⟨hi, -⟩ := List.getElem?_eq_some_iff.mp hget
      have ht : t < n := htokens _ (List.mem_of_getElem? hget)
      have hnew : (addScaled (row t) (answer t) w).length = d := by
        rw [length_addScaled, hrow t ht]
      have hrow' : ∀ t', t' < n →
          (Function.update row t (addScaled (row t) (answer t) w) t').length = d := by
        intro t' ht'
        rcases eq_or_ne t' t with rfl | hne
        · rw [Function.update_self, hnew]
        · rw [Function.update_of_ne hne, hrow t' ht']
      rw [List.foldlM_cons]
      dsimp only
      rw [rowAt_rows hrow ht, Checked.ok_bind, rowAt_eq hlen hi, Checked.ok_bind,
        hanswer i _ hget, write_rows hrow ht hnew, Checked.ok_bind,
        ih _ hrow' fun q hq => hws q (List.mem_cons_of_mem _ hq)]
      congr 2
      funext t'
      rw [given, given, List.map_cons, List.filter_cons]
      rcases eq_or_ne t' t with rfl | hne
      · rw [if_pos (by simp), Function.update_self, List.foldl_cons]
      · rw [if_neg (by simpa using hne.symm), Function.update_of_ne hne]
  have hall := hrun tokens.zipIdx row hrow fun q hq => List.mem_zipIdx_iff_getElem?.mp hq
  rwa [List.zipIdx_map_fst] at hall

/-! ## The batch -/

omit [Analytic K] in
/-- Of what the tokens push to an expert, token `t` is given its own. -/
theorem given_group {R : Nat → List (Nat × K)} {t : Nat} (ht : t < n) (e : Nat) :
    given (group e ((List.range n).flatMap fun t => (R t).map fun (e, w) => (e, (t, w)))) t
      = ((R t).filter (·.1 = e)).map fun p => (t, p.2) := by
  have hone : ∀ t', given (group e ((R t').map fun (e, w) => (e, (t', w)))) t
      = if t' = t then ((R t).filter (·.1 = e)).map fun p => (t, p.2) else [] := by
    intro t'
    simp only [given, group, List.filter_map, List.map_map, List.filter_filter]
    split
    · next h =>
      subst h
      simp [Function.comp_def]
    · next h => simp [Function.comp_def, h]
  have hall : ∀ m, (List.range m).flatMap (fun t' =>
      if t' = t then ((R t).filter (·.1 = e)).map fun p => (t, p.2) else [])
      = if t < m then ((R t).filter (·.1 = e)).map fun p => (t, p.2) else [] := by
    intro m
    induction m with
    | zero => rfl
    | succ m ih =>
      rw [List.range_succ, List.flatMap_append, ih, List.flatMap_singleton]
      rcases Nat.lt_trichotomy t m with hlt | rfl | hgt
      · rw [if_pos hlt, if_neg (by omega), if_pos (by omega), List.append_nil]
      · rw [if_neg (by omega), if_pos rfl, if_pos (by omega), List.nil_append]
      · rw [if_neg (by omega), if_neg (by omega), if_neg (by omega), List.append_nil]
  have hn := hall n
  rw [if_pos ht] at hn
  rw [← hn, given, group, List.filter_flatMap, List.map_flatMap, List.filter_flatMap]
  exact List.flatMap_congr fun t' _ => hone t'

namespace Rounded

section Batch

variable {hs : List K} {w : Swiglu K}
  {expertBatch : Swiglu K → Nat → List K → Nat → List K → Checked GarudaError (List K)}
  {expert : Nat → List K → List K}

/-- One expert adds its weighted answers to the rows of its tokens. -/
theorem runExpert_rows (hans : Answers expertBatch w d ne n expert) (hlen : hs.length = n * d)
    {e : Nat} (he : e < ne) {tokens : List (Nat × K)} (htokens : ∀ p ∈ tokens, p.1 < n)
    (hmany : tokens.length ≤ n) {row : Nat → List K} (hrow : ∀ t, t < n → (row t).length = d) :
    runExpert expertBatch w d hs (rows n row) tokens e
      = .ok (rows n fun t => (given tokens t).foldl
          (fun out p => addScaled out (expert e (rowOf d t hs)) p.2) (row t)) := by
  rw [runExpert]
  cases htok : tokens with
  | nil => rfl
  | cons p rest =>
    rw [← htok]
    have hpos : 0 < tokens.length := by simp [htok]
    have hrowLen : ∀ p ∈ tokens, (rowOf d p.1 hs).length = d := fun p hp =>
      length_rowOf (hlen ▸ row_le (htokens p hp))
    have hwidths : ∀ row ∈ tokens.map fun p => rowOf d p.1 hs, row.length = d := fun row hrow => by
      obtain ⟨p, hp, rfl⟩ := List.mem_map.mp hrow
      exact hrowLen p hp
    have hgathered : (tokens.map fun p => rowOf d p.1 hs).flatten.length = tokens.length * d := by
      rw [List.length_flatten, List.map_congr_left hwidths, List.map_const', List.sum_replicate_nat,
        List.length_map]
    have hanswers : ∀ i, i < tokens.length →
        (expert e (rowOf d i (tokens.map fun p => rowOf d p.1 hs).flatten)).length = d :=
      fun i hi => hans.width e _ he (length_rowOf (hgathered ▸ row_le hi))
    rw [if_neg (by simp [htok]), Checked.mapM_eq_ok fun p hp => rowAt_eq hlen (htokens p hp),
      Checked.ok_bind]
    dsimp only
    rw [hans.batch e _ _ he hpos hmany hgathered, Checked.ok_bind]
    refine scatter_rows (fun t => expert e (rowOf d t hs)) hrow htokens
      (length_flatMap_range hanswers) fun i p hp => ?_
    obtain ⟨hi, -⟩ := List.getElem?_eq_some_iff.mp hp
    rw [rowOf_flatMap hanswers hi,
      rowOf_flatten hwidths (by rw [List.getElem?_map, hp]; rfl)]

/-- All experts, one after the other. The induction is on the experts that have answered. -/
theorem runExperts_rows (hans : Answers expertBatch w d ne n expert) (hlen : hs.length = n * d)
    {R : Nat → List (Nat × K)} (hR : ∀ t, ((R t).map Prod.fst).Nodup) :
    ((List.range ne).map fun e => group e ((List.range n).flatMap fun t =>
        (R t).map fun (e, w) => (e, (t, w)))).zipIdx.foldlM
      (fun out (tokens, e) => runExpert expertBatch w d hs out tokens e) (List.replicate (n * d) 0)
      = .ok (rows n fun t => mixtureOf d ne (R t) expert (rowOf d t hs)) := by
  have hzero : List.replicate (n * d) (0 : K) = rows n fun _ => List.replicate d 0 := by
    refine (eq_flatMap_iff fun _ _ => List.length_replicate).mpr ⟨List.length_replicate,
      fun t ht => ?_⟩
    have hle := row_le (w := d) ht
    rw [Nat.add_one_mul] at hle
    rw [rowOf, List.drop_replicate, List.take_replicate, Nat.min_eq_left (by omega)]
  have hrun : ∀ k, k ≤ ne → (List.range k).foldlM
      (fun out e => runExpert expertBatch w d hs out (group e ((List.range n).flatMap fun t =>
        (R t).map fun (e, w) => (e, (t, w)))) e) (List.replicate (n * d) 0)
      = .ok (rows n fun t => mixtureOf d k (R t) expert (rowOf d t hs)) := by
    intro k hk
    induction k with
    | zero =>
      rw [hzero]
      rfl
    | succ k ih =>
      rw [List.range_succ, List.foldlM_append, ih (by omega), Checked.ok_bind, List.foldlM_cons,
        runExpert_rows hans hlen hk ?_ (length_group_le hR k) fun t _ => length_mixtureOf _ _ _]
      · show Checked.ok _ = Checked.ok _
        congr 1
        refine List.flatMap_congr fun t ht => ?_
        rw [given_group (List.mem_range.mp ht), List.foldl_map, mixtureOf, mixtureOf, byExpert,
          byExpert, List.range_succ, List.flatMap_append, List.foldl_append, List.flatMap_singleton]
        refine List.foldl_ext _ _ _ fun out p hp => ?_
        have he : p.1 = k := of_decide_eq_true (List.mem_filter.mp hp).2
        rw [← he]
      · intro p hp
        obtain ⟨t, ht, hmem⟩ := List.mem_flatMap.mp (mem_group.mp hp)
        obtain ⟨q, -, heq⟩ := List.mem_map.mp hmem
        cases heq
        exact List.mem_range.mp ht
  rw [zipIdx_map_range, List.foldlM_map]
  exact hrun ne le_rfl

variable {used : Nat} {router : Weight K}
  {matvec : Weight K → List K → List K → Checked GarudaError (List K)} {score : List K → List K}

/-- A router has a score for each expert. -/
structure Scores (matvec : Weight K → List K → List K → Checked GarudaError (List K))
    (router : Weight K) (d ne : Nat) (score : List K → List K) : Prop where
  matvec : ∀ h, h.length = d → matvec router h (List.replicate ne 0) = .ok (score h)
  length : ∀ h, h.length = d → (score h).length = ne

/-- What a feed-forward's products come to for up to `n` tokens at once. -/
def Computes (matvec : Weight K → List K → List K → Checked GarudaError (List K))
    (expertBatch : Swiglu K → Nat → List K → Nat → List K → Checked GarudaError (List K))
    (ffn : Ffn K) (d ne n : Nat) (score : List K → List K) (expert : Nat → List K → List K) :
    Prop :=
  match ffn with
  | .dense w => Answers expertBatch w d 1 n expert
  | .moe router w => Scores matvec router d ne score ∧ Answers expertBatch w d ne n expert

theorem Computes.mono {ffn : Ffn K} {limit : Nat}
    (h : Computes matvec expertBatch ffn d ne limit score expert) (hn : n ≤ limit) :
    Computes matvec expertBatch ffn d ne n score expert := by
  have hmono : ∀ {ne : Nat} {w : Swiglu K}, Answers expertBatch w d ne limit expert →
      Answers expertBatch w d ne n expert := fun h =>
    ⟨h.width, fun e xs m he hm hmn hxs => h.batch e xs m he hm (hmn.trans hn) hxs⟩
  cases ffn with
  | dense w => exact hmono h
  | moe router w => exact ⟨h.1, hmono h.2⟩

theorem Computes.width {ffn : Ffn K} (h : Computes matvec expertBatch ffn d ne n score expert)
    {x : List K} (hx : x.length = d) : (ffnOf d ne used ffn score expert x).length = d := by
  cases ffn with
  | dense w => exact Answers.width h 0 x Nat.one_pos hx
  | moe router w => exact length_mixtureOf _ _ _

/-- **A batch is its tokens, bit for bit**, whatever else is in it. -/
theorem feedForwardBatch_rows {ffn : Ffn K}
    (h : Computes matvec expertBatch ffn d ne n score expert) (hn : 0 < n)
    (hlen : hs.length = n * d) :
    feedForwardBatch matvec expertBatch d ne used ffn hs n
      = .ok (rows n fun t => ffnOf d ne used ffn score expert (rowOf d t hs)) := by
  cases ffn with
  | dense w => exact Answers.batch h 0 hs n Nat.one_pos hn le_rfl hlen
  | moe router w =>
    obtain ⟨hscores, hans⟩ := h
    have hrow : ∀ t, t < n → (rowOf d t hs).length = d := fun t ht =>
      length_rowOf (hlen ▸ row_le ht)
    let R : Nat → List (Nat × K) := fun t =>
      route (max used 1) (Simd.softmax (score (rowOf d t hs)))
    have hpicks : (List.range n).mapM (fun t => do
        let h ← rowAt d t hs
        let scores ← matvec router h (List.replicate ne 0)
        .ok (route (max used 1) (Simd.softmax scores))) = (.ok ((List.range n).map R) :
          Checked GarudaError _) := Checked.mapM_eq_ok fun t ht => by
      have ht := List.mem_range.mp ht
      rw [rowAt_eq hlen ht, Checked.ok_bind, hscores.matvec _ (hrow t ht), Checked.ok_bind]
    have hpushes : pushes ((List.range n).map R)
        = (List.range n).flatMap fun t => (R t).map fun (e, w) => (e, (t, w)) := by
      rw [pushes, zipIdx_map_range, List.flatMap_map]
    have hempty : List.replicate ne ([] : List (Nat × K)) = (List.range ne).map fun _ => [] := by
      rw [List.map_const', List.length_range]
    rw [feedForwardBatch]
    dsimp only
    rw [hpicks, Checked.ok_bind, hpushes, hempty, pushAll_eq ?_, Checked.ok_bind]
    · simp only [List.nil_append]
      exact runExperts_rows hans hlen fun t => (route_sound _ _).1
    · rintro ⟨e, t, w⟩ hp
      obtain ⟨t', ht', hp⟩ := List.mem_flatMap.mp hp
      obtain ⟨⟨e', w'⟩, hmem, heq⟩ := List.mem_map.mp hp
      cases heq
      have hlt := (route_sound _ _).2 _ hmem
      rwa [Simd.length_softmax, hscores.length _ (hrow t (List.mem_range.mp ht'))] at hlt

end Batch

end Rounded

end

end Llama

end Garuda
