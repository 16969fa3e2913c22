import Garuda.Qwen35.Meaning

/-!
# The blocks of the code

A block of the code over a batch is a block of the stack for each of its tokens, whichever sequences
they are of.

* `attendOne_ends` is one token's attention, and `deltaToken_ends` its turn at a recurrent block.
* `attnBatch_ends` and `deltaNetBatch_ends` are the same of a batch.
* `runLayer_ends` is a block.
-/

namespace Garuda

open Infra Quant Simd Attention SeqState

variable {σ : Type}

namespace Qwen35

variable [Analytic F32] {host : Host} {b : Qwen35Runner} {limit : Nat} {M : Meaning}
  {window : Option Nat}

/-- The backend, as a function of the tokens seen. -/
def model (hs : Sound host b limit M) (window : Option Nat) : TokenModel F32 :=
  modelOf b.loaded.cfg b.nums host.dots.dot M window hs.vocab_pos hs.vocab_le hs.output.width

/-- The blocks of the backend's model. -/
abbrev stackOf (host : Host) (b : Qwen35Runner) (M : Meaning) (window : Option Nat) :
    Causal Token (List F32) (KvPair × List F32) :=
  stack b.loaded.cfg b.nums host.dots.dot M window

/-- Every hidden state is as wide as the model. -/
theorem Sound.length_input (h : Sound host b limit M) {t : Token}
    (ht : t.toNat < b.loaded.cfg.vocab) (us : List Token) (l : Nat) :
    ((stackOf host b M window).input l (us ++ [t])).length = b.loaded.cfg.dModel := by
  refine Causal.input_rule _ (P := fun x : List F32 => x.length = b.loaded.cfg.dModel)
    (h.embed t ht).2 (fun l es x hx => ?_) l
  exact (length_outOf ..).trans hx

theorem kvOf_eq (hs : Sound host b limit M) (window : Option Nat) (l : Nat) (ts : List Token) :
    (model hs window).kvOf l ts = ((stackOf host b M window).entries l ts).map Prod.fst := by
  rw [Causal.entries, List.map_map]
  rfl

/-- A query head reads a head that is there. -/
theorem Sound.group_le (h : Sound host b limit M) {hh : Nat} (hlt : hh < b.loaded.cfg.nHeads) :
    (hh / (b.loaded.cfg.nHeads / b.loaded.cfg.nKvHeads) + 1) * b.loaded.cfg.headDim
      ≤ b.loaded.cfg.kvWidth := by
  obtain ⟨g, hg⟩ := h.grouped
  have hkv : 0 < b.loaded.cfg.nKvHeads := by
    rcases Nat.eq_zero_or_pos b.loaded.cfg.nKvHeads with hz | hpos
    · rw [hz, Nat.zero_mul] at hg
      omega
    · exact hpos
  refine row_le ?_
  rw [hg, Nat.mul_div_cancel_left g hkv]
  exact Nat.div_lt_of_lt_mul (by rwa [Nat.mul_comm, ← hg])

/-! ## A token -/

section Attend

variable {storage : Option (StorageBackend σ)} {law : ReadsBack storage} {kv : KVCacheState σ}
  {st : σ} {vs : List KvPair} {qNorm kNorm row k v : List F32}

/-- **One token's attention** is what its query finds in the window, its own entry included. -/
theorem attendOne_ends (hs : Sound host b limit M) (hlaw : Steady law)
    (hstorage : kv.storage = storage) (h : kv.Holds (law.content st) vs)
    (hdim : kv.kvDim = b.loaded.cfg.kvWidth) (hroom : vs.length < kv.maxPositions)
    (hrow : row.length = 2 * b.loaded.cfg.attnWidth) (hk : k.length = b.loaded.cfg.kvWidth)
    (hv : v.length = b.loaded.cfg.kvWidth) :
    Attempt.Ends (b.attendOne host qNorm kNorm row k v
        (List.replicate b.loaded.cfg.attnWidth 0)) (kv, st) fun out c =>
      let es := vs ++ [(turned b.loaded.cfg b.nums b.loaded.cfg.nKvHeads kNorm vs.length k, v)]
      out = contextOf b.loaded.cfg b.nums host.dots.dot kv.slidingWindow qNorm es row ∧
        c.1.Holds (law.content c.2) es ∧ KVCacheState.SameShape kv c.1 ∧
        OnlyLayer law kv.seqId kv.layer st c.2 := by
  have hq := length_queriesOf hrow
  unfold Qwen35Runner.attendOne
  refine Attempt.Ends.lift_bind (splitHeads_eq hrow) (Attempt.Ends.gets_bind ?_)
  dsimp only
  rw [show kv.len = vs.length from h.len_eq]
  refine Attempt.Ends.lift_bind (updateRows_eq (g := fun _ head =>
    turnHead b.nums qNorm vs.length head) hq (fun _ _ => rfl) fun hh hlt => ?_) ?_
  · rw [length_turnHead, length_rowOf (hq ▸ row_le hlt)]
  refine Attempt.Ends.lift_bind (updateRows_eq (g := fun _ head =>
    turnHead b.nums kNorm vs.length head) hk (fun _ _ => rfl) fun hh hlt => ?_) ?_
  · rw [length_turnHead, length_rowOf (hk ▸ row_le hlt)]
  have hlen : (vs ++ [(turned b.loaded.cfg b.nums b.loaded.cfg.nKvHeads kNorm vs.length k,
      v)]).length = vs.length + 1 := by simp
  have hgroup : ∀ hh, hh < b.loaded.cfg.nHeads →
      (hh / (b.loaded.cfg.nHeads / b.loaded.cfg.nKvHeads) + 1) * b.loaded.cfg.headDim
        ≤ kv.kvDim := fun hh hlt => by
    rw [hdim]
    exact hs.group_le hlt
  refine Attempt.Ends.bind (attend_ends
    (k := turned b.loaded.cfg b.nums b.loaded.cfg.nKvHeads kNorm vs.length k) hlaw hstorage h
    ((length_turned kNorm vs.length hk).trans hdim.symm) (hv.trans hdim.symm) hroom
    (length_turned qNorm vs.length hq) hgroup) ?_
  rintro _ c ⟨rfl, hleft⟩
  refine Attempt.Ends.pure ⟨?_, hleft⟩
  rw [contextOf, hlen, Nat.add_sub_cancel]
  rfl

end Attend

section Delta

variable {cfg : KvConfig σ} {law : ReadsBack cfg.storage} {l : Nat} {seq : SeqState σ} {st : σ}
  {D : DeltaMeaning}

omit [Analytic F32] in
/-- The state that a layer is handed, allocated or not. -/
theorem linear_ends {convLen stateLen : Nat} {o : Option LinearState} (ho : seq.linear[l]? = some o)
    (hconv : (linearOr convLen stateLen o).conv.length = convLen)
    (hstate : (linearOr convLen stateLen o).state.length = stateLen) :
    linear l convLen stateLen (seq, st) = (.ok (linearOr convLen stateLen o),
      ({ seq with linear := seq.linear.set l (some (linearOr convLen stateLen o)) }, st)) := by
  rw [linear, linearAt, ho]
  cases o with
  | none => rfl
  | some s =>
    obtain ⟨hlt, hget⟩ := List.getElem?_eq_some_iff.mp ho
    have hset : seq.linear.set l (some s) = seq.linear := by
      conv_lhs => rw [← hget]
      exact List.set_getElem_self hlt
    simp only [linearOr, Option.getD_some] at hconv hstate ⊢
    rw [hset, if_neg (by rw [hconv, hstate]; simp)]

/-- A token's turn, with a state of the configured sizes. -/
theorem DeltaMeaning.turn_eq {cfg : Qwen35Config} (D : DeltaMeaning) (nums : Qwen35Numbers)
    {s : List F32 × List F32} {h : List F32} (hp : D.params.Fits cfg) (hkh : 0 < cfg.nKHeads)
    (hr : (D.rows h).Fits cfg) (hs : StateFits cfg s) :
    (recur cfg nums.rmsEps D.params s.1 s.2 (D.rows h) : Checked GarudaError _)
        = .ok ((D.turn cfg nums s h).1.1, (D.turn cfg nums s h).1.2, (D.turn cfg nums s h).2) ∧
      StateFits cfg (D.turn cfg nums s h).1 ∧
      (D.turn cfg nums s h).2.length = cfg.valueWidth := recur_eq hp hkh hr hs

/-- The state of a block keeps the configured sizes. -/
theorem DeltaMeaning.after_fits {cfg : Qwen35Config} (nums : Qwen35Numbers)
    (hp : D.params.Fits cfg) (hkh : 0 < cfg.nKHeads) (hr : ∀ h, (D.rows h).Fits cfg)
    (hs : List (List F32)) : StateFits cfg (D.after cfg nums hs) := by
  induction hs using List.reverseRecOn with
  | nil => exact ⟨List.length_replicate, List.length_replicate⟩
  | append_singleton hs h ih =>
    rw [DeltaMeaning.after_concat]
    exact (D.turn_eq nums hp hkh (hr h) ih).2.1

/-- A recurrent block finds the state that the inputs before have made. -/
theorem DeltaMeaning.found_eq {m : TokenModel F32} (hrecurrent : m.recurrent l = true)
    {hs : List (List F32)} {seen : List Token}
    (hseen : m.summary l seen = D.after b.loaded.cfg b.nums hs) (hlength : seen = [] → hs = [])
    {kv : KVCacheState σ} {o : Option LinearState}
    (hfinds : Finds law m l 0 window seen (seq, st) kv o) :
    ((linearOr b.loaded.cfg.windowLen b.loaded.cfg.stateLen o).conv,
      (linearOr b.loaded.cfg.windowLen b.loaded.cfg.stateLen o).state)
      = D.after b.loaded.cfg b.nums hs := by
  cases o with
  | none =>
    have hnone : seen = [] :=
      List.eq_nil_of_length_eq_zero (hfinds.recalls.folded hrecurrent).symm
    rw [hlength hnone]
    rfl
  | some s => exact (hfinds.recalls.state s rfl).trans hseen

/-- **One token's turn**: the state becomes what the input makes of it, and the position counts. -/
theorem deltaToken_ends {m : TokenModel F32} (hlaw : Steady law) (hkh : 0 < b.loaded.cfg.nKHeads)
    (hp : D.params.Fits b.loaded.cfg) (hr : ∀ h, (D.rows h).Fits b.loaded.cfg)
    (hrecurrent : m.recurrent l = true) {hs : List (List F32)} {h : List F32} {seen : List Token}
    {t : Token} (hseen : m.summary l seen = D.after b.loaded.cfg b.nums hs)
    (hlength : seen = [] → hs = [])
    (hnext : m.summary l (seen ++ [t]) = D.after b.loaded.cfg b.nums (hs ++ [h]))
    (hentry : m.entry l (seen ++ [t]) = ([], [])) {kv : KVCacheState σ} {o : Option LinearState}
    (hfinds : Finds law m l 0 window seen (seq, st) kv o) :
    Attempt.Ends (b.deltaToken l D.params (D.rows h)) (seq, st) fun out s' =>
      out = (D.turn b.loaded.cfg b.nums (D.after b.loaded.cfg b.nums hs) h).2 ∧
      Turn law m l (seen ++ [t]) (seq, st) s' := by
  have hafter := DeltaMeaning.after_fits b.nums hp hkh hr hs
  have hstate := DeltaMeaning.found_eq hrecurrent hseen hlength hfinds
  generalize hfound : linearOr b.loaded.cfg.windowLen b.loaded.cfg.stateLen o = found at hstate
  have hconv : found.conv.length = b.loaded.cfg.windowLen := by
    rw [show found.conv = (D.after b.loaded.cfg b.nums hs).1 from congrArg Prod.fst hstate]
    exact hafter.window
  have hmats : found.state.length = b.loaded.cfg.stateLen := by
    rw [show found.state = (D.after b.loaded.cfg b.nums hs).2 from congrArg Prod.snd hstate]
    exact hafter.state
  obtain ⟨hrecur, hfits, -⟩ := D.turn_eq b.nums hp hkh (hr h) hafter
  rw [← hstate] at hrecur hfits ⊢
  have hsummary : (D.turn b.loaded.cfg b.nums (found.conv, found.state) h).1
      = m.summary l (seen ++ [t]) := by
    rw [hnext, DeltaMeaning.after_concat, hstate]
  generalize D.turn b.loaded.cfg b.nums (found.conv, found.state) h = out at hrecur hfits hsummary ⊢
  obtain ⟨⟨window', state'⟩, mixed⟩ := out
  have hlt := (List.getElem?_eq_some_iff.mp hfinds.state).1
  -- the state as it is before the token is folded in, copied if the pass is recorded
  obtain ⟨s, hcopy⟩ : ∃ s, s = if seq.recording then found.snapshot else found := ⟨_, rfl⟩
  have hsame : s.conv = found.conv ∧ s.state = found.state := by
    rw [hcopy]
    split
    · exact ⟨rfl, rfl⟩
    · exact ⟨rfl, rfl⟩
  obtain ⟨folded, hfolded⟩ : ∃ folded : LinearState,
      folded = { s with conv := window', state := state' } := ⟨_, rfl⟩
  have hfold : folded.advance = (linearOr b.loaded.cfg.windowLen b.loaded.cfg.stateLen o).fold
      seq.recording window' state' := by
    rw [hfolded, hfound, hcopy]
    rfl
  unfold Qwen35Runner.deltaToken
  refine Attempt.Ends.gets_bind ?_
  refine Attempt.Ends.run_bind (linear_ends hfinds.state (hfound ▸ hconv) (hfound ▸ hmats)) ?_
  dsimp only
  rw [hfound, ← hcopy]
  refine Attempt.Ends.modify_bind (Attempt.Ends.lift_bind (a := (window', state', mixed)) ?_
    (Attempt.Ends.modify_bind ?_))
  · rw [hsame.1, hsame.2]
    exact hrecur
  dsimp only
  rw [List.set_set, List.set_set, ← hfolded]
  have hthere : (seq.linear.set l (some folded))[l]? = some (some folded) :=
    List.getElem?_set_self hlt
  refine Attempt.Ends.run_bind (linear_ends hthere (hfolded ▸ hfits.window)
    (hfolded ▸ hfits.state)) (Attempt.Ends.modify_bind ?_)
  dsimp only
  rw [List.set_set, List.set_set, show linearOr b.loaded.cfg.windowLen b.loaded.cfg.stateLen
    (some folded) = folded from rfl, hfold]
  -- the position is counted
  obtain ⟨happend, hstored, hshape, honly⟩ := hfinds.counted hlaw hentry
  refine Attempt.Ends.bind (Q := fun _ s' => Turn law m l (seen ++ [t]) (seq, st) s')
    (Attempt.Ends.focus (show layerOf l _ = some (kv, st) by rw [layerOf, hfinds.cache]; rfl)
      (ofStep_ends happend ?_)) ?_
  · exact Turn.folds hfinds.cache hfinds.state hfinds.recalls hrecurrent
      (by rw [hfound, hstate, hseen]) hsummary hshape hstored honly
  · rintro - s' hturn
    exact Attempt.Ends.pure ⟨rfl, hturn⟩

end Delta

/-! ## A batch -/

section Batches

variable {cfg : KvConfig σ} {law : ReadsBack cfg.storage} {ids : List Nat}
  {base w : List (SeqState σ) × σ} {room l : Nat} {targets : KvTargets}
  {before : Nat → List Token} {rows : List (Nat × List Token)}

theorem Sound.length_inputs (hs : Sound host b limit M)
    (h : Batch b.loaded.cfg.vocab room limit targets ids before rows) (l : Nat) :
    ∀ r ∈ rows, ((stackOf host b M window).input l r.2).length = b.loaded.cfg.dModel := by
  intro r hr
  obtain ⟨i, hi⟩ := List.mem_iff_getElem?.mp hr
  obtain ⟨t, ht⟩ := h.follows i r hi
  rw [ht]
  exact hs.length_input (h.known r hr t (by rw [ht]; simp)) _ l

/-- What goes into the mixer of a block. -/
def mixerInput (host : Host) (b : Qwen35Runner) (M : Meaning) (window : Option Nat) (l : Nat)
    (ts : List Token) : List F32 :=
  normed b.nums ((stackOf host b M window).input l ts) (M.layer l).attnNorm

theorem entryAt_eq (host : Host) (b : Qwen35Runner) (M : Meaning) (window : Option Nat) (l : Nat)
    (ts : List Token) : (stackOf host b M window).entryAt l ts
    = (M.layer l).mixer.entry b.loaded.cfg b.nums (ts.length - 1)
        (mixerInput host b M window l ts) := rfl

variable (hs : Sound host b limit M) (hlaw : Steady law) (hnodup : ids.Nodup)
  (hfit : Fitted b.loaded.cfg.nLayers b.loaded.cfg.kvWidthOf window room base.1)
  (hbase : base.1.length = ids.length)
  (h : Batch b.loaded.cfg.vocab room limit targets ids before rows) (hl : l < b.loaded.cfg.nLayers)
include hs hlaw hnodup hfit hbase h hl

/-- **The attention of a batch.** The induction is on the tokens whose entries are in. -/
theorem attnBatch_ends {A : AttnMeaning} (hmixer : (M.layer l).mixer = .attn A)
    {block : Option (Bytes × Nat)} {wqg wk wv wo : Llama.Weight F32}
    (hqg : wqg.MeansIn host.toHost block (2 * b.loaded.cfg.attnWidth) b.loaded.cfg.dModel limit
      A.qg)
    (hk : wk.MeansIn host.toHost block b.loaded.cfg.kvWidth b.loaded.cfg.dModel limit A.k)
    (hv : wv.MeansIn host.toHost block b.loaded.cfg.kvWidth b.loaded.cfg.dModel limit A.v)
    (ho : wo.MeansIn host.toHost block b.loaded.cfg.dModel b.loaded.cfg.attnWidth limit A.o)
    (hF : Fleet law (model hs window) ids base w (reached before rows l 0)) :
    Attempt.Ends (b.attnBatch host block l targets wqg wk wv wo A.qNorm A.kNorm
        (rows.flatMap fun r => mixerInput host b M window l r.2) rows.length) w fun out w' =>
      out = rows.flatMap (fun r => (M.layer l).mixer.out b.loaded.cfg b.nums host.dots.dot window
        ((stackOf host b M window).entries l r.2) (mixerInput host b M window l r.2)) ∧
      Fleet law (model hs window) ids base w' (reached before rows (l + 1) 0) := by
  have hwidth : ∀ r ∈ rows, (mixerInput host b M window l r.2).length = b.loaded.cfg.dModel :=
    fun r hr => (length_normed _ _).trans (hs.length_inputs h l r hr)
  have hplain : (model hs window).recurrent l = false := by
    show (M.layer l).mixer.recurrent = false
    rw [hmixer]
    rfl
  have hdim : b.loaded.cfg.kvWidthOf l = b.loaded.cfg.kvWidth := by
    rw [Qwen35Config.kvWidthOf, ← hs.recurrent l hl, hmixer]
    rfl
  unfold Qwen35Runner.attnBatch
  refine Attempt.Ends.lift_bind (hqg.eachIn hwidth h.pos h.few) ?_
  refine Attempt.Ends.lift_bind (hk.eachIn hwidth h.pos h.few) ?_
  refine Attempt.Ends.lift_bind (hv.eachIn hwidth h.pos h.few) ?_
  refine Attempt.Ends.bind (Attempt.Ends.eachRow (fun r => contextOf b.loaded.cfg b.nums
      host.dots.dot window A.qNorm ((model hs window).kvOf l r.2)
      (A.qg (mixerInput host b M window l r.2)))
    (fun r _ => length_contextOf ..)
    (fun i w => Fleet law (model hs window) ids base w (reached before rows l i)) ?_ hF) ?_
  · intro i r w' hi hF'
    refine Attempt.Ends.lift_bind (rowAt_each (fun r _ => hqg.width _) hi) ?_
    refine Attempt.Ends.lift_bind (rowAt_each (fun r _ => hk.width _) hi) ?_
    refine Attempt.Ends.lift_bind (rowAt_each (fun r _ => hv.width _) hi) ?_
    refine hF'.attend_step hnodup hfit hbase h hl hplain hi
      fun kv seen t ht hstorage hwide hwindow hroom hholds => ?_
    have hlen : ((model hs window).kvOf l seen).length = seen.length := TokenModel.length_kvOf ..
    have hentries : (model hs window).kvOf l r.2 = (model hs window).kvOf l seen
        ++ [A.entry b.loaded.cfg b.nums seen.length (mixerInput host b M window l r.2)] := by
      have hlast := congrArg Prod.fst (entryAt_eq host b M window l r.2)
      rw [hmixer, ht, List.length_append, List.length_singleton, Nat.add_sub_cancel] at hlast
      rw [ht, TokenModel.kvOf_concat]
      exact congrArg (fun e => (model hs window).kvOf l seen ++ [e]) hlast
    refine (attendOne_ends hs hlaw hstorage hholds (hwide.trans hdim) (by rwa [hlen])
      (hqg.width _) (hk.width _) (hv.width _)).mono fun out c hc => ?_
    rw [hlen, hwindow] at hc
    rw [hentries]
    exact hc
  · rintro _ w' ⟨rfl, hF'⟩
    rw [reached_next] at hF'
    refine Attempt.Ends.lift (ho.eachIn (fun r _ => length_contextOf ..) h.pos h.few) ⟨?_, hF'⟩
    refine List.flatMap_congr fun r _ => ?_
    rw [hmixer, kvOf_eq]
    rfl

/-- **The delta net over a batch.** The induction is on the tokens that have been folded in. -/
theorem deltaNetBatch_ends {D : DeltaMeaning} (hmixer : (M.layer l).mixer = .delta D)
    {block : Option (Bytes × Nat)} {wqkv wz wbeta walpha wout : Llama.Weight F32}
    (hqkv : wqkv.MeansIn host.toHost block b.loaded.cfg.convWidth b.loaded.cfg.dModel limit D.qkv)
    (hz : wz.MeansIn host.toHost block b.loaded.cfg.valueWidth b.loaded.cfg.dModel limit D.z)
    (hbeta : wbeta.MeansIn host.toHost block b.loaded.cfg.nVHeads b.loaded.cfg.dModel limit D.beta)
    (halpha : walpha.MeansIn host.toHost block b.loaded.cfg.nVHeads b.loaded.cfg.dModel limit
      D.alpha)
    (hout : wout.MeansIn host.toHost block b.loaded.cfg.dModel b.loaded.cfg.valueWidth limit D.out)
    (hp : D.params.Fits b.loaded.cfg)
    (hF : Fleet law (model hs window) ids base w (reached before rows l 0)) :
    Attempt.Ends (b.deltaNetBatch host block l targets wqkv wz wbeta walpha wout D.params
        (rows.flatMap fun r => mixerInput host b M window l r.2) rows.length) w fun out w' =>
      out = rows.flatMap (fun r => (M.layer l).mixer.out b.loaded.cfg b.nums host.dots.dot window
        ((stackOf host b M window).entries l r.2) (mixerInput host b M window l r.2)) ∧
      Fleet law (model hs window) ids base w' (reached before rows (l + 1) 0) := by
  have hwidth : ∀ r ∈ rows, (mixerInput host b M window l r.2).length = b.loaded.cfg.dModel :=
    fun r hr => (length_normed _ _).trans (hs.length_inputs h l r hr)
  have hrecurrent : (model hs window).recurrent l = true := by
    show (M.layer l).mixer.recurrent = true
    rw [hmixer]
    rfl
  have hdim : b.loaded.cfg.kvWidthOf l = 0 := by
    rw [Qwen35Config.kvWidthOf, ← hs.recurrent l hl, hmixer]
    rfl
  have hfits : ∀ x, (D.rows x).Fits b.loaded.cfg := fun x =>
    ⟨hqkv.width x, hz.width x, hbeta.width x, halpha.width x⟩
  have hsummary : ∀ ts, (model hs window).summary l ts = D.after b.loaded.cfg b.nums
      (((stackOf host b M window).entries l ts).map Prod.snd) := fun ts => by
    simp only [model, modelOf, hmixer]
  have hlast : ∀ ts, (stackOf host b M window).entryAt l ts
      = (([], []), mixerInput host b M window l ts) := fun ts => by
    rw [entryAt_eq, hmixer]
    rfl
  -- what a token's turn comes to
  obtain ⟨found, hfound⟩ : ∃ found : List Token → List F32, found = fun ts =>
      (D.turn b.loaded.cfg b.nums (D.after b.loaded.cfg b.nums
        (((stackOf host b M window).entries l ts).dropLast.map Prod.snd))
        (mixerInput host b M window l ts)).2 := ⟨_, rfl⟩
  have hturn : ∀ ts, (found ts).length = b.loaded.cfg.valueWidth := fun ts => by
    rw [hfound]
    exact (D.turn_eq b.nums hp hs.keyHeads (hfits _)
      (DeltaMeaning.after_fits b.nums hp hs.keyHeads hfits _)).2.2
  unfold Qwen35Runner.deltaNetBatch
  refine Attempt.Ends.lift_bind (hqkv.eachIn hwidth h.pos h.few) ?_
  refine Attempt.Ends.lift_bind (hz.eachIn hwidth h.pos h.few) ?_
  refine Attempt.Ends.lift_bind (hbeta.eachIn hwidth h.pos h.few) ?_
  refine Attempt.Ends.lift_bind (halpha.eachIn hwidth h.pos h.few) ?_
  refine Attempt.Ends.bind (Attempt.Ends.eachRow (fun r => found r.2)
    (fun r _ => hturn r.2)
    (fun i w => Fleet law (model hs window) ids base w (reached before rows l i)) ?_ hF) ?_
  · intro i r w' hi hF'
    refine Attempt.Ends.lift_bind (rowAt_each (fun r _ => hqkv.width _) hi) ?_
    refine Attempt.Ends.lift_bind (rowAt_each (fun r _ => hz.width _) hi) ?_
    refine Attempt.Ends.lift_bind (rowAt_each (fun r _ => hbeta.width _) hi) ?_
    refine Attempt.Ends.lift_bind (rowAt_each (fun r _ => halpha.width _) hi) ?_
    refine hF'.token_step hnodup hfit hbase h hl hi fun seq kv o seen t ht hfinds => ?_
    rw [hdim] at hfinds
    have hconcat : (stackOf host b M window).entries l (seen ++ [t])
        = (stackOf host b M window).entries l seen
          ++ [(([], []), mixerInput host b M window l (seen ++ [t]))] := by
      rw [Causal.entries_concat, hlast]
    rw [ht]
    refine (deltaToken_ends (t := t) hlaw hs.keyHeads hp hfits hrecurrent (hsummary seen) ?_ ?_ ?_
      hfinds).mono fun out s' hdone => ?_
    · rintro rfl
      rfl
    · rw [hsummary, hconcat, List.map_append]
      rfl
    · exact congrArg Prod.fst (hlast (seen ++ [t]))
    · rw [hfound]
      dsimp only
      rw [hconcat, List.dropLast_concat]
      exact hdone
  · rintro _ w' ⟨rfl, hF'⟩
    rw [reached_next] at hF'
    refine Attempt.Ends.lift (hout.eachIn (fun r _ => hturn r.2) h.pos h.few) ⟨?_, hF'⟩
    refine List.flatMap_congr fun r _ => ?_
    rw [hmixer, hfound]
    rfl

/-- The mixer of a block, whichever it is. -/
theorem mixBatch_ends {block : Option (Bytes × Nat)} {mixer : Mixer F32}
    (hmixer : MixerSound host block b.loaded.cfg limit mixer (M.layer l).mixer)
    (hF : Fleet law (model hs window) ids base w (reached before rows l 0)) :
    Attempt.Ends (b.mixBatch host block l targets mixer
        (rows.flatMap fun r => mixerInput host b M window l r.2) rows.length) w fun out w' =>
      out = rows.flatMap (fun r => (M.layer l).mixer.out b.loaded.cfg b.nums host.dots.dot window
        ((stackOf host b M window).entries l r.2) (mixerInput host b M window l r.2)) ∧
      Fleet law (model hs window) ids base w' (reached before rows (l + 1) 0) := by
  generalize hM : (M.layer l).mixer = mm at hmixer
  rw [← hM]
  cases hmixer with
  | attn qg k v o => exact attnBatch_ends hs hlaw hnodup hfit hbase h hl hM qg k v o hF
  | delta qkv z beta alpha out params =>
    exact deltaNetBatch_ends hs hlaw hnodup hfit hbase h hl hM qkv z beta alpha out params hF

end Batches

/-! ## A block -/

section Block

variable {cfg : KvConfig σ} {law : ReadsBack cfg.storage} {ids : List Nat}
  {base w : List (SeqState σ) × σ} {room l : Nat} {targets : KvTargets}
  {before : Nat → List Token} {rows : List (Nat × List Token)}

/-- What a mixer gives is as wide as the model. -/
theorem MixerSound.length_out {block : Option (Bytes × Nat)} {mixer : Mixer F32}
    {mm : MixerMeaning} (hmixer : MixerSound host block b.loaded.cfg limit mixer mm)
    (es : List (KvPair × List F32)) (x : List F32) :
    (mm.out b.loaded.cfg b.nums host.dots.dot window es x).length = b.loaded.cfg.dModel := by
  cases hmixer with
  | attn _ _ _ o => exact o.width _
  | delta _ _ _ _ out => exact out.width _

/-- The feed-forward of each of the tokens. -/
theorem LayerSound.ffn_each {block : Option (Bytes × Nat)} {layer : Layer F32} {L : LayerMeaning}
    (hL : LayerSound host block b.loaded.cfg limit layer L) {α : Type} {xs : List α}
    {g : α → List F32} (hg : ∀ x ∈ xs, (g x).length = b.loaded.cfg.dModel) (hpos : 0 < xs.length)
    (hle : xs.length ≤ limit) :
    b.feedForwardBatch host block layer (xs.flatMap g) xs.length
      = .ok (xs.flatMap fun x => L.feedForward (g x)) := by
  have hgated : mulAssign ((xs.flatMap fun x => L.gate (g x)).map silu)
      (xs.flatMap fun x => L.up (g x))
      = xs.flatMap fun x => mulAssign ((L.gate (g x)).map silu) (L.up (g x)) := by
    rw [List.map_flatMap]
    refine assign_each _ fun x _ => ?_
    rw [List.length_map, hL.gate.width, hL.up.width]
  have hwide : ∀ x ∈ xs, (mulAssign ((L.gate (g x)).map silu) (L.up (g x))).length
      = b.loaded.cfg.dFf := fun x _ => by
    rw [length_mulAssign, List.length_map]
    exact hL.gate.width _
  rw [Qwen35Runner.feedForwardBatch, hL.gate.eachIn hg hpos hle, Checked.ok_bind,
    hL.up.eachIn hg hpos hle, Checked.ok_bind, hgated]
  exact hL.down.eachIn hwide hpos hle

/-- **A block over a batch** is a block of the stack for each of its tokens. -/
theorem runLayer_ends (hs : Sound host b limit M) (hlaw : Steady law) (hnodup : ids.Nodup)
    (hfit : Fitted b.loaded.cfg.nLayers b.loaded.cfg.kvWidthOf window room base.1)
    (hbase : base.1.length = ids.length)
    (h : Batch b.loaded.cfg.vocab room limit targets ids before rows)
    (hl : l < b.loaded.cfg.nLayers)
    (hF : Fleet law (model hs window) ids base w (reached before rows l 0)) :
    Attempt.Ends (b.runLayer host targets l
        (rows.map fun r => (stackOf host b M window).input l r.2)) w fun xs w' =>
      xs = rows.map (fun r => (stackOf host b M window).input (l + 1) r.2) ∧
      Fleet law (model hs window) ids base w' (reached before rows (l + 1) 0) := by
  obtain ⟨layer, hlayer⟩ : ∃ layer, b.loaded.layers[l]? = some layer :=
    ⟨_, List.getElem?_eq_getElem (hs.size.symm ▸ hl)⟩
  have hL := hs.layers l layer hlayer
  have hmix := mixBatch_ends hs hlaw hnodup hfit hbase h hl hL.mixer hF
  have hwidth : ∀ r ∈ rows, ((stackOf host b M window).input l r.2).length
      = b.loaded.cfg.dModel := hs.length_inputs h l
  have hnext : ∀ r : Nat × List Token, (stackOf host b M window).input (l + 1) r.2
      = (M.layer l).outOf b.loaded.cfg b.nums host.dots.dot window
          ((stackOf host b M window).entries l r.2) ((stackOf host b M window).input l r.2) :=
    fun r => Causal.input_succ ..
  simp only [hnext]
  have hmixed : ∀ r : Nat × List Token, ((M.layer l).mixer.out b.loaded.cfg b.nums host.dots.dot
      window ((stackOf host b M window).entries l r.2) (mixerInput host b M window l r.2)).length
        = b.loaded.cfg.dModel := fun r => hL.mixer.length_out _ _
  simp only [mixerInput] at hmix hmixed
  generalize stackOf host b M window = C at *
  rw [Qwen35Runner.runLayer, Qwen35Runner.layerBatch, hlayer]
  dsimp only
  rw [List.flatMap_map, List.length_map, hL.attnNorm]
  refine Attempt.Ends.bind hmix ?_
  rintro _ w' ⟨rfl, hF'⟩
  refine Attempt.Ends.lift_bind (addRows_eq fun r _ => hmixed r) ?_
  rw [List.flatMap_map, hL.postAttnNorm]
  refine Attempt.Ends.lift_bind (hL.ffn_each (fun r hr => ?_) h.pos h.few) ?_
  · rw [length_normed, length_addAssign, hwidth r hr]
  exact Attempt.Ends.lift (addRows_eq fun r _ => hL.down.width _) ⟨rfl, hF'⟩

end Block

end Qwen35

end Garuda
