import Garuda.Llama.Forward
import Garuda.Runtime.Passes

/-!
# What the layers mean

The layers of a backend whose products are functions of one vector at a time.

* `Meaning` is these functions, and `Sound` says that the backend's weights compute them, for
  batches up to some size.
* `stack` is the layers they make, as a causal stack.

`layerBatchOver_ends` says that a layer of the code is a layer of the stack, for any batch: it does
not matter whether its tokens follow each other in one sequence or belong to a sequence each.
-/

namespace Garuda

open Infra Quant Simd Attention

variable {σ : Type}

namespace Llama

variable [Analytic F32]

/-- A weight is a function of each of the vectors that it is given, up to so many of them, when its
rows are looked for in a block. -/
structure Weight.MeansIn (host : Host) (block : Option (Bytes × Nat)) (w : Weight F32)
    (rows cols limit : Nat) (f : List F32 → List F32) : Prop where
  width : ∀ x, (f x).length = rows
  product : ∀ xs n out, 0 < n → n ≤ limit → xs.length = n * cols → out.length = n * rows →
    w.matmulIn host block xs n out = .ok ((List.range n).flatMap fun t => f (rowOf cols t xs))

/-- The same of a weight whose rows are where it was loaded. -/
abbrev Weight.Means (host : Host) (w : Weight F32) (rows cols limit : Nat)
    (f : List F32 → List F32) : Prop := w.MeansIn host none rows cols limit f

section Means

variable {host : Host} {block : Option (Bytes × Nat)} {w : Weight F32} {rows cols limit : Nat}
  {f : List F32 → List F32} {α : Type} {l : List α} {g : α → List F32}

/-- One result for each element. -/
theorem Weight.MeansIn.eachIn (h : w.MeansIn host block rows cols limit f)
    (hg : ∀ x ∈ l, (g x).length = cols) (hpos : 0 < l.length) (hle : l.length ≤ limit) :
    w.matmulIn host block (l.flatMap g) l.length (List.replicate (l.length * rows) 0)
      = .ok (l.flatMap fun x => f (g x)) := by
  rw [h.product _ _ _ hpos hle (length_each hg) List.length_replicate, flatMap_rowOf_each hg]

theorem Weight.MeansIn.each (h : w.Means host rows cols limit f)
    (hg : ∀ x ∈ l, (g x).length = cols) (hpos : 0 < l.length) (hle : l.length ≤ limit) :
    w.matmulRows host (l.flatMap g) l.length (List.replicate (l.length * rows) 0)
      = .ok (l.flatMap fun x => f (g x)) := h.eachIn hg hpos hle

/-- One row of results for each hidden state. -/
theorem Weight.MeansIn.head_eq (h : w.Means host rows cols limit f)
    (hg : ∀ x ∈ l, (g x).length = cols) (hpos : 0 < l.length) (hle : l.length ≤ limit) :
    w.head host rows (l.map g) l.length = .ok (l.map fun x => f (g x)) := by
  have hall : (List.range l.length).mapM (fun i =>
      (rowAt rows i (l.flatMap fun x => f (g x)) : Checked GarudaError _))
      = .ok ((List.range l.length).map fun i => (l[i]?).elim [] fun x => f (g x)) := by
    refine Checked.mapM_eq_ok fun i hi => ?_
    have hget := List.getElem?_eq_getElem (List.mem_range.mp hi)
    rw [rowAt_each (fun x _ => h.width (g x)) hget, hget]
    rfl
  rw [head, ← List.flatMap_def, h.each hg hpos hle, Checked.ok_bind, hall]
  congr 1
  refine List.ext_getElem (by simp) fun i h₁ h₂ => ?_
  simp only [List.length_map, List.length_range] at h₁
  simp [h₁]

end Means

/-- The products of one layer. -/
structure LayerMeaning where
  q : List F32 → List F32
  k : List F32 → List F32
  v : List F32 → List F32
  o : List F32 → List F32
  score : List F32 → List F32
  expert : Nat → List F32 → List F32

/-- The products of a model. -/
structure Meaning where
  embed : Token → List F32
  layer : Nat → LayerMeaning
  output : List F32 → List F32

namespace LlamaBackend

variable (host : Host) (b : LlamaBackend)

/-- The weights of a layer compute its products, for batches of up to `limit` tokens. -/
structure LayerSound (limit : Nat) (layer : Layer) (M : LayerMeaning) : Prop where
  q : layer.wq.Means host b.cfg.dModel b.cfg.dModel limit M.q
  k : layer.wk.Means host b.cfg.kvDim b.cfg.dModel limit M.k
  v : layer.wv.Means host b.cfg.kvDim b.cfg.dModel limit M.v
  o : layer.wo.Means host b.cfg.dModel b.cfg.dModel limit M.o
  ffn : Rounded.Computes (fun w x out => w.matvec host x out)
    (expertBatch host.dots host.build host.plan silu b.cfg.dModel b.cfg.dFf) layer.ffn
    b.cfg.dModel b.cfg.nExperts limit M.score M.expert

/-- The shapes fit each other, and the weights compute the model's products. -/
structure Sound (limit : Nat) (M : Meaning) : Prop where
  heads : b.cfg.nHeads * b.cfg.headDim = b.cfg.dModel
  grouped : b.cfg.nKvHeads ∣ b.cfg.nHeads
  size : b.layers.length = b.cfg.nLayers
  vocab_pos : 0 < b.cfg.vocab
  vocab_le : b.cfg.vocab ≤ 2 ^ 32
  embed : ∀ t : Token, t.toNat < b.cfg.vocab →
    b.tokenEmbd.row host t.toNat = .ok (M.embed t) ∧ (M.embed t).length = b.cfg.dModel
  layers : ∀ l layer, b.layers[l]? = some layer → LayerSound host b limit layer (M.layer l)
  output : b.output.Means host b.cfg.vocab b.cfg.dModel limit M.output

/-! ## The layers, one token at a time -/

/-- Rotary embedding of each of `n` heads. -/
def turned (n pos : Nat) (x : List F32) : List F32 :=
  (List.range n).flatMap fun hh =>
    rope pos b.cfg.ropeTheta (rowOf b.cfg.headDim hh x)

/-- The key and the value of the token at `pos`. -/
def entryOf (layer : Layer) (M : LayerMeaning) (pos : Nat) (x : List F32) : KvPair :=
  let h := b.norm x layer.attnNorm
  (b.turned b.cfg.nKvHeads pos (M.k h), M.v h)

/-- What a query finds among the entries of its window. -/
def contextOf (host : Host) (window : Option Nat) (es : List KvPair) (q : List F32) : List F32 :=
  headsOf host.dots.dot b.cfg.nHeads b.cfg.headDim (b.cfg.nHeads / b.cfg.nKvHeads)
    (es.drop (windowStart window es.length)) (b.turned b.cfg.nHeads (es.length - 1) q)

/-- A layer's output for the last of the tokens whose entries these are. -/
def outOf (host : Host) (window : Option Nat) (layer : Layer) (M : LayerMeaning) (es : List KvPair)
    (x : List F32) : List F32 :=
  let x' := addAssign x (M.o (b.contextOf host window es (M.q (b.norm x layer.attnNorm))))
  addAssign x' (ffnOf b.cfg.dModel b.cfg.nExperts b.cfg.nExpertsUsed layer.ffn M.score M.expert
    (b.norm x' layer.ffnNorm))

/-- The layers of a model, attending over a window. -/
def stack (host : Host) (M : Meaning) (window : Option Nat) : Causal Token (List F32) KvPair where
  embed := M.embed
  entry l pos x :=
    match b.layers[l]? with
    | some layer => b.entryOf layer (M.layer l) pos x
    | none => ([], [])
  out l es x :=
    match b.layers[l]? with
    | some layer => b.outOf host window layer (M.layer l) es x
    | none => x

section

variable {host b} {limit : Nat} {M : Meaning} {window : Option Nat}

@[simp] theorem length_norm (x weight : List F32) : (b.norm x weight).length = x.length := by
  rw [norm, length_mulAssign, length_rmsnorm]

@[simp] theorem length_outOf (layer : Layer) (LM : LayerMeaning) (es : List KvPair) (x : List F32) :
    (b.outOf host window layer LM es x).length = x.length := by
  rw [outOf, length_addAssign, length_addAssign]

theorem length_turned {n pos : Nat} {x : List F32} (hx : x.length = n * b.cfg.headDim) :
    (b.turned n pos x).length = n * b.cfg.headDim :=
  length_flatMap_range fun hh hlt => by rw [length_rope, length_rowOf (hx ▸ row_le hlt)]

/-- Every hidden state is as wide as the model. -/
theorem Sound.length_input (h : Sound host b limit M) {t : Token} (ht : t.toNat < b.cfg.vocab)
    (us : List Token) (l : Nat) :
    ((b.stack host M window).input l (us ++ [t])).length = b.cfg.dModel := by
  refine Causal.input_rule _ (P := fun x : List F32 => x.length = b.cfg.dModel) (h.embed t ht).2
    (fun l es x hx => ?_) l
  rw [stack]
  dsimp only
  split
  · rw [length_outOf, hx]
  · exact hx

/-- A query head reads a head that is there. -/
theorem Sound.group_le (h : Sound host b limit M) {hh : Nat} (hlt : hh < b.cfg.nHeads) :
    (hh / (b.cfg.nHeads / b.cfg.nKvHeads) + 1) * b.cfg.headDim ≤ b.cfg.kvDim := by
  obtain ⟨g, hg⟩ := h.grouped
  have hkv : 0 < b.cfg.nKvHeads := by
    rcases Nat.eq_zero_or_pos b.cfg.nKvHeads with hz | hpos
    · rw [hz, Nat.zero_mul] at hg
      omega
    · exact hpos
  refine row_le ?_
  rw [hg, Nat.mul_div_cancel_left g hkv]
  exact Nat.div_lt_of_lt_mul (by rwa [Nat.mul_comm, ← hg])

/-- The backend, as a function of the tokens seen. -/
def model (hs : Sound host b limit M) (window : Option Nat) : TokenModel F32 where
  vocab := b.cfg.vocab
  vocab_pos := hs.vocab_pos
  vocab_le := hs.vocab_le
  entry l ts := (b.stack host M window).entryAt l ts
  recurrent _ := false
  summary _ _ := ([], [])
  hidden ts := b.norm ((b.stack host M window).input b.cfg.nLayers ts) b.outputNorm
  logits ts := M.output (b.norm ((b.stack host M window).input b.cfg.nLayers ts) b.outputNorm)
  logits_length _ := hs.output.width _

/-! ## Attention -/

section Attend

variable {storage : Option (StorageBackend σ)} {law : ReadsBack storage} {kv : KVCacheState σ}
  {st : σ} {vs : List KvPair} {q k v : List F32}

/-- **One token's attention** is what its query finds in the window, its own entry included. -/
theorem attendOne_ends (hs : Sound host b limit M) (hlaw : Steady law)
    (hstorage : kv.storage = storage) (h : kv.Holds (law.content st) vs)
    (hdim : kv.kvDim = b.cfg.kvDim) (hroom : vs.length < kv.maxPositions)
    (hq : q.length = b.cfg.dModel) (hk : k.length = b.cfg.kvDim) (hv : v.length = b.cfg.kvDim) :
    Attempt.Ends (b.attendOne host q k v (List.replicate b.cfg.dModel 0)) (kv, st) fun out c =>
      out = b.contextOf host kv.slidingWindow
          (vs ++ [(b.turned b.cfg.nKvHeads vs.length k, v)]) q ∧
        c.1.Holds (law.content c.2) (vs ++ [(b.turned b.cfg.nKvHeads vs.length k, v)]) ∧
        KVCacheState.SameShape kv c.1 ∧ SeqState.OnlyLayer law kv.seqId kv.layer st c.2 := by
  have hq' : q.length = b.cfg.nHeads * b.cfg.headDim := hq.trans hs.heads.symm
  unfold attendOne
  refine Attempt.Ends.gets_bind ?_
  rw [show ((kv, st) : KVCacheState σ × σ).1.len = vs.length from h.len_eq]
  refine Attempt.Ends.lift_bind (updateRows_eq (g := fun _ head => rope vs.length b.cfg.ropeTheta
    head) hq' (fun _ _ => rfl) fun hh hlt => ?_) ?_
  · rw [length_rope, length_rowOf (hq' ▸ row_le hlt)]
  refine Attempt.Ends.lift_bind (updateRows_eq (g := fun _ head => rope vs.length b.cfg.ropeTheta
    head) hk (fun _ _ => rfl) fun hh hlt => ?_) ?_
  · rw [length_rope, length_rowOf (hk ▸ row_le hlt)]
  have hlen : (vs ++ [(b.turned b.cfg.nKvHeads vs.length k, v)]).length = vs.length + 1 := by simp
  have hgroup : ∀ hh, hh < b.cfg.nHeads →
      (hh / (b.cfg.nHeads / b.cfg.nKvHeads) + 1) * b.cfg.headDim ≤ kv.kvDim := fun hh hlt => by
    rw [hdim]
    exact hs.group_le hlt
  rw [← hs.heads]
  refine (attend_ends (k := b.turned b.cfg.nKvHeads vs.length k) hlaw hstorage h
    ((length_turned hk).trans hdim.symm) (hv.trans hdim.symm) hroom (length_turned hq')
    hgroup).mono ?_
  rintro _ c ⟨rfl, hleft⟩
  refine ⟨?_, hleft⟩
  rw [contextOf, hlen, Nat.add_sub_cancel]

end Attend

/-! ## A batch -/

section Batches

variable {cfg : KvConfig σ} {law : ReadsBack cfg.storage} {ids : List Nat}
  {base w : List (SeqState σ) × σ} {room : Nat} {targets : KvTargets}
  {before : Nat → List Token} {rows : List (Nat × List Token)} {l : Nat} {layer : Layer}

theorem Sound.length_inputs (hs : Sound host b limit M)
    (h : Batch b.cfg.vocab room limit targets ids before rows) (l : Nat) :
    ∀ r ∈ rows, ((b.stack host M window).input l r.2).length = b.cfg.dModel := by
  intro r hr
  obtain ⟨i, hi⟩ := List.mem_iff_getElem?.mp hr
  obtain ⟨t, ht⟩ := h.follows i r hi
  rw [ht]
  exact hs.length_input (h.known r hr t (by rw [ht]; simp)) _ l

/-- **The attention of a batch.** The induction is on the tokens whose entries are in. -/
theorem attendBatch_ends (hs : Sound host b limit M) (hlaw : Steady law) (hnodup : ids.Nodup)
    (hfit : Fitted b.cfg.nLayers (fun _ => b.cfg.kvDim) window room base.1)
    (hbase : base.1.length = ids.length)
    (h : Batch b.cfg.vocab room limit targets ids before rows) (hl : l < b.cfg.nLayers)
    {q k v : (Nat × List Token) → List F32}
    (hq : ∀ r ∈ rows, (q r).length = b.cfg.dModel) (hk : ∀ r ∈ rows, (k r).length = b.cfg.kvDim)
    (hv : ∀ r ∈ rows, (v r).length = b.cfg.kvDim)
    (hentry : ∀ r ∈ rows, (b.stack host M window).entryAt l r.2
      = (b.turned b.cfg.nKvHeads (r.2.length - 1) (k r), v r))
    (hF : Fleet law (model hs window) ids base w (reached before rows l 0)) :
    Attempt.Ends (b.attendBatch host l targets (rows.flatMap q) (rows.flatMap k) (rows.flatMap v)
        rows.length) w fun context w' =>
      context = rows.flatMap (fun r =>
        b.contextOf host window ((b.stack host M window).entries l r.2) (q r)) ∧
      Fleet law (model hs window) ids base w' (reached before rows (l + 1) 0) := by
  refine (Attempt.Ends.eachRow
    (fun r => b.contextOf host window ((b.stack host M window).entries l r.2) (q r))
    (fun r _ => by rw [contextOf, length_headsOf, hs.heads])
    (fun i w => Fleet law (model hs window) ids base w (reached before rows l i)) ?_ hF).mono ?_
  · intro i r w' hi hF'
    have hmem := List.mem_of_getElem? hi
    refine Attempt.Ends.lift_bind (rowAt_each hq hi) ?_
    refine Attempt.Ends.lift_bind (rowAt_each hk hi) ?_
    refine Attempt.Ends.lift_bind (rowAt_each hv hi) ?_
    refine hF'.attend_step hnodup hfit hbase h hl rfl hi
      fun kv seen t ht hstorage hdim hwindow hroom hholds => ?_
    have hlen : ((model hs window).kvOf l seen).length = seen.length := TokenModel.length_kvOf ..
    have hentries : (model hs window).kvOf l r.2 = (model hs window).kvOf l seen
        ++ [(b.turned b.cfg.nKvHeads seen.length (k r), v r)] := by
      have hlast := hentry r hmem
      rw [ht, List.length_append, List.length_singleton, Nat.add_sub_cancel] at hlast
      rw [ht, TokenModel.kvOf_concat, ← hlast]
      rfl
    refine (attendOne_ends hs hlaw hstorage hholds hdim (by rwa [hlen]) (hq r hmem) (hk r hmem)
      (hv r hmem)).mono fun out c hc => ?_
    rw [hlen, ← hentries, hwindow] at hc
    exact hc
  · rintro context w' ⟨rfl, hF'⟩
    rw [reached_next] at hF'
    exact ⟨rfl, hF'⟩

/-- The feed-forward of each of the tokens. -/
theorem LayerSound.ffn_each {LM : LayerMeaning} (hs : LayerSound host b limit layer LM) {α : Type}
    {xs : List α} {g : α → List F32} (hg : ∀ x ∈ xs, (g x).length = b.cfg.dModel)
    (hpos : 0 < xs.length) (hle : xs.length ≤ limit) :
    b.feedForwardBatch host layer.ffn (xs.flatMap g) xs.length
        = .ok (xs.flatMap fun x => ffnOf b.cfg.dModel b.cfg.nExperts b.cfg.nExpertsUsed layer.ffn
            LM.score LM.expert (g x)) := by
  rw [feedForwardBatch, Rounded.feedForwardBatch_rows (hs.ffn.mono hle) hpos (length_each hg),
    Llama.rows, flatMap_rowOf_each hg]

/-- **A layer over a batch** is a layer of the stack for each of its tokens. -/
theorem layerBatchOver_ends (hs : Sound host b limit M) (hlaw : Steady law) (hnodup : ids.Nodup)
    (hfit : Fitted b.cfg.nLayers (fun _ => b.cfg.kvDim) window room base.1)
    (hbase : base.1.length = ids.length)
    (h : Batch b.cfg.vocab room limit targets ids before rows) (hl : l < b.cfg.nLayers)
    (hF : Fleet law (model hs window) ids base w (reached before rows l 0)) :
    Attempt.Ends (b.layerBatchOver host targets l
        (rows.map fun r => (b.stack host M window).input l r.2)) w fun xs w' =>
      xs = rows.map (fun r => (b.stack host M window).input (l + 1) r.2) ∧
      Fleet law (model hs window) ids base w' (reached before rows (l + 1) 0) := by
  obtain ⟨layer, hlayer⟩ : ∃ layer, b.layers[l]? = some layer :=
    ⟨_, List.getElem?_eq_getElem (hs.size.symm ▸ hl)⟩
  have hLS := hs.layers l layer hlayer
  have hwidth : ∀ r ∈ rows, ((b.stack host M window).input l r.2).length = b.cfg.dModel :=
    hs.length_inputs h l
  have hnorm : ∀ weight, ∀ r ∈ rows,
      (b.norm ((b.stack host M window).input l r.2) weight).length = b.cfg.dModel :=
    fun weight r hr => (length_norm _ _).trans (hwidth r hr)
  have hentry : ∀ r ∈ rows, (b.stack host M window).entryAt l r.2
      = b.entryOf layer (M.layer l) (r.2.length - 1) ((b.stack host M window).input l r.2) := by
    intro r _
    rw [Causal.entryAt]
    simp only [stack, hlayer]
  have hnext : ∀ r : Nat × List Token, (b.stack host M window).input (l + 1) r.2
      = b.outOf host window layer (M.layer l) ((b.stack host M window).entries l r.2)
          ((b.stack host M window).input l r.2) := by
    intro r
    rw [Causal.input_succ]
    simp only [stack, hlayer]
  have hattend := attendBatch_ends hs hlaw hnodup hfit hbase h hl
    (q := fun r => (M.layer l).q (b.norm ((b.stack host M window).input l r.2) layer.attnNorm))
    (k := fun r => (M.layer l).k (b.norm ((b.stack host M window).input l r.2) layer.attnNorm))
    (v := fun r => (M.layer l).v (b.norm ((b.stack host M window).input l r.2) layer.attnNorm))
    (fun _ _ => hLS.q.width _) (fun _ _ => hLS.k.width _) (fun _ _ => hLS.v.width _) hentry hF
  simp only [hnext]
  generalize b.stack host M window = C at *
  rw [layerBatchOver, hlayer]
  dsimp only
  rw [List.flatMap_map, List.length_map]
  have hqkv : b.projectQkv host layer
      (rows.flatMap fun r => b.norm (C.input l r.2) layer.attnNorm) rows.length
      = .ok (rows.flatMap fun r => (M.layer l).q (b.norm (C.input l r.2) layer.attnNorm),
        rows.flatMap fun r => (M.layer l).k (b.norm (C.input l r.2) layer.attnNorm),
        rows.flatMap fun r => (M.layer l).v (b.norm (C.input l r.2) layer.attnNorm)) := by
    rw [projectQkv, hLS.q.each (hnorm _) h.pos h.few, Checked.ok_bind,
      hLS.k.each (hnorm _) h.pos h.few, Checked.ok_bind, hLS.v.each (hnorm _) h.pos h.few,
      Checked.ok_bind]
  refine Attempt.Ends.lift_bind hqkv ?_
  dsimp only
  refine Attempt.Ends.bind hattend ?_
  rintro _ w' ⟨rfl, hF'⟩
  have hcontext : ∀ r ∈ rows, (b.contextOf host window (C.entries l r.2)
      ((M.layer l).q (b.norm (C.input l r.2) layer.attnNorm))).length = b.cfg.dModel := fun r _ => by
    rw [contextOf, length_headsOf, hs.heads]
  refine Attempt.Ends.lift_bind (hLS.o.each hcontext h.pos h.few) ?_
  refine Attempt.Ends.lift_bind (addRows_eq fun r _ => hLS.o.width _) ?_
  have hmiddle : ∀ r ∈ rows, (b.norm (addAssign (C.input l r.2) ((M.layer l).o
      (b.contextOf host window (C.entries l r.2)
        ((M.layer l).q (b.norm (C.input l r.2) layer.attnNorm))))) layer.ffnNorm).length
      = b.cfg.dModel := fun r hr => by
    rw [length_norm, length_addAssign, hwidth r hr]
  rw [List.flatMap_map]
  refine Attempt.Ends.lift_bind (hLS.ffn_each hmiddle h.pos h.few) ?_
  exact Attempt.Ends.lift (addRows_eq fun r hr => hLS.ffn.width (hmiddle r hr)) ⟨rfl, hF'⟩

end Batches

end

end LlamaBackend

end Llama

end Garuda
