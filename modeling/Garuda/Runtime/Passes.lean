import Garuda.Runtime.Decoder

/-!
# Passes

What a pass does to sequences that stand for tokens, for any decoder whose layers compute a model:
whichever way the tokens were cut into chunks, it leaves a sequence standing for the tokens it had
and the new ones, and answers for these.

* `Decoder.Computes` is what the layers and the output head have to do.
* `forwardTail_runs` is a pass that is not refused, and `forwardTail_unknown` one that meets a token
  it does not know: the whole chunks before that have gone in.
* `pass_served` is any call that runs a pass and then looks at its last states, and
  `recorded_served` one whose pass is recorded.
-/

namespace Garuda

open Infra SeqState

variable {σ : Type}

/-- What is left when a batch has been through all layers. -/
structure Through {cfg : KvConfig σ} (law : ReadsBack cfg.storage) (m : TokenModel F32)
    (state : List Token → List F32) (fs : List (Feed σ)) (rows : List (Nat × List Token)) (st : σ)
    (xs : List (List F32)) (w : List (SeqState σ) × σ) : Prop where
  states : xs = rows.map fun r => state r.2
  size : w.1.length = fs.length
  stands : ∀ (j : Nat) (f : Feed σ), fs[j]? = some f → ∃ seq, w.1[j]? = some seq ∧
    Stands law m f.seqId (seq, w.2) (grown (seenOf fs) rows j) ∧ Recorded f.seq seq
  own : OnlyThose law (fs.map Feed.seqId) st w.2

/-- The layers take every token to its hidden state, for up to `limit` tokens at once, and the
output head takes that to the model's logits. -/
structure Decoder.Computes {cfg : KvConfig σ} (d : Decoder σ) (law : ReadsBack cfg.storage)
    (m : TokenModel F32) (limit : Nat) (embed : Token → List F32)
    (state : List Token → List F32) : Prop where
  vocab : d.vocab = m.vocab
  layers : max cfg.nLayers.toNat 1 = d.nLayers
  row : ∀ t : Token, t.toNat < m.vocab → d.row t.toNat = .ok (embed t)
  together : ∀ {fs : List (Feed σ)} {st : σ} {targets : KvTargets} {rows : List (Nat × List Token)},
    (fs.map Feed.seqId).Nodup → (∀ f ∈ fs, Stands law m f.seqId (f.seq, st) f.seen) →
    Batch m.vocab (roomOf cfg) limit targets (fs.map Feed.seqId) (seenOf fs) rows →
    Attempt.Ends (d.throughLayers targets (rows.map fun r => embed (r.2.getLastD default)))
      (fs.map Feed.seq, st) (Through law m state fs rows st)
  head : ∀ {us : List (List Token)}, 0 < us.length → us.length ≤ limit →
    (∀ u ∈ us, ∃ t ∈ u.getLast?, t.toNat < m.vocab) →
    d.head (us.map fun u => d.outputNorm (state u)) us.length = .ok (us.map m.logits)

/-! ## Layer by layer -/

section Layers

variable {cfg : KvConfig σ} {law : ReadsBack cfg.storage} {m : TokenModel F32} {d : Decoder σ}
  {fs : List (Feed σ)} {st : σ}

/-- Sequences that stand for tokens, at the beginning of a pass. -/
theorem fleet_of_stands (h : ∀ f ∈ fs, Stands law m f.seqId (f.seq, st) f.seen) :
    Fleet law m (fs.map Feed.seqId) (fs.map Feed.seq, st) (fs.map Feed.seq, st)
      (fun j _ => seenOf fs j) := by
  have hfeed : ∀ j seq, (fs.map Feed.seq)[j]? = some seq → ∃ f, fs[j]? = some f ∧ f.seq = seq ∧
      seenOf fs j = f.seen := fun j seq hseq => by
    rw [List.getElem?_map, Option.map_eq_some_iff] at hseq
    obtain ⟨f, hf, rfl⟩ := hseq
    exact ⟨f, hf, rfl, by rw [seenOf, hf]; rfl⟩
  refine ⟨by rw [List.length_map, List.length_map], fun j id seq hid hseq => ?_,
    fun j seq hseq l o ho => ?_, fun _ seq hseq => ⟨seq, hseq, Kept.refl seq⟩, OnlyThose.refl _ _⟩
  · obtain ⟨f, hf, rfl, hseen⟩ := hfeed j seq hseq
    rw [List.getElem?_map, hf] at hid
    cases hid
    simp only [hseen]
    exact (h f (List.mem_of_getElem? hf)).layers
  · obtain ⟨f, hf, rfl, hseen⟩ := hfeed j seq hseq
    rw [hseen]
    exact (h f (List.mem_of_getElem? hf)).linear l o ho

/-- A sequence whose layers have all had the tokens `ts`. -/
theorem Stands.moved {seqId : Nat} {seq seq' : SeqState σ} {st' : σ} {seen ts : List Token}
    (h : Stands law m seqId (seq, st) seen) (hkept : Kept seq seq')
    (hlayers : Layers law seqId (seq', st') fun l => m.kvOf l ts)
    (hlinear : ∀ (l : Nat) (o : Option LinearState), seq'.linear[l]? = some o → m.Recalls l ts o) :
    Stands law m seqId (seq', st') ts where
  size := hkept.size.trans h.size
  sizeLinear := by
    rw [hkept.sizeLinear, hkept.size]
    exact h.sizeLinear
  shape := by
    intro l kv hkv
    obtain ⟨kv₀, hkv₀, hshape⟩ := hkept.shape l kv hkv
    exact (h.shape l kv₀ hkv₀).trans hshape
  layers := hlayers
  linear := hlinear

variable {targets : KvTargets} {rows : List (Nat × List Token)}
  {input : Nat → List Token → List F32}

/-- **All layers over a batch**, from each of them. The induction is on the layers that are done. -/
theorem Decoder.throughLayers_ends (hlayers : max cfg.nLayers.toNat 1 = d.nLayers)
    (hstands : ∀ f ∈ fs, Stands law m f.seqId (f.seq, st) f.seen)
    (hlayer : ∀ l w, l < d.nLayers →
      Fleet law m (fs.map Feed.seqId) (fs.map Feed.seq, st) w (reached (seenOf fs) rows l 0) →
      Attempt.Ends (d.layer targets l (rows.map fun r => input l r.2)) w fun xs w' =>
        xs = rows.map (fun r => input (l + 1) r.2) ∧
        Fleet law m (fs.map Feed.seqId) (fs.map Feed.seq, st) w'
          (reached (seenOf fs) rows (l + 1) 0)) :
    Attempt.Ends (d.throughLayers targets (rows.map fun r => input 0 r.2)) (fs.map Feed.seq, st)
      (Through law m (input d.nLayers) fs rows st) := by
  have hF := fleet_of_stands hstands
  rw [show (fun j (_ : Nat) => seenOf fs j) = reached (seenOf fs) rows 0 0 from
    funext fun j => funext fun l => (reached_zero _ rows j l).symm] at hF
  refine (Attempt.Ends.range (fun l xs w => xs = rows.map (fun r => input l r.2) ∧
    Fleet law m (fs.map Feed.seqId) (fs.map Feed.seq, st) w (reached (seenOf fs) rows l 0)) ?_
    ⟨rfl, hF⟩).mono ?_
  · rintro l _ w hl ⟨rfl, hF⟩
    exact hlayer l w hl hF
  · rintro _ w ⟨rfl, hF⟩
    refine ⟨rfl, by rw [hF.size, List.length_map], fun j f hf => ?_, hF.own⟩
    have hid : (fs.map Feed.seqId)[j]? = some f.seqId := by rw [List.getElem?_map, hf]; rfl
    have hseq₀ : (fs.map Feed.seq)[j]? = some f.seq := by rw [List.getElem?_map, hf]; rfl
    obtain ⟨seq, hseq, hkept⟩ := hF.sequence hid hseq₀
    have hmine := hstands f (List.mem_of_getElem? hf)
    have hsize : seq.kvs.length = d.nLayers := hkept.size.trans (hmine.size.trans hlayers)
    have hrow := hF.layers j f.seqId seq hid hseq
    refine ⟨seq, hseq, hmine.moved hkept { hrow with holds := fun l kv hkv => ?_ }
      fun l o ho => ?_, hkept.recorded⟩
    · have hl : l < d.nLayers := hsize ▸ (List.getElem?_eq_some_iff.mp hkv).1
      have hholds := hrow.holds l kv hkv
      rwa [reached_of_lt hl] at hholds
    · have hl : l < d.nLayers := by
        rw [← hsize, hkept.size, ← hmine.sizeLinear, ← hkept.sizeLinear]
        exact (List.getElem?_eq_some_iff.mp ho).1
      have hlin := hF.linear j seq hseq l o ho
      rwa [reached_of_lt hl] at hlin

end Layers

/-! ## A token at a layer -/

section Tokens

variable {cfg : KvConfig σ} {law : ReadsBack cfg.storage} {m : TokenModel F32}

/-- What a token finds at a layer that has had the tokens before it. -/
structure Finds (law : ReadsBack cfg.storage) (m : TokenModel F32) (l kvDim : Nat)
    (window : Option Nat) (seen : List Token) (s : SeqState σ × σ) (kv : KVCacheState σ)
    (o : Option LinearState) : Prop where
  cache : s.1.kvs[l]? = some kv
  state : s.1.linear[l]? = some o
  storage : kv.storage = cfg.storage
  wide : kv.kvDim = kvDim
  slidingWindow : kv.slidingWindow = window
  room : seen.length < kv.maxPositions
  holds : kv.Holds (law.content s.2) (m.kvOf l seen)
  recalls : m.Recalls l seen o

/-- A layer that stores nothing for a position counts it. -/
theorem Finds.counted {l : Nat} {window : Option Nat} {seen : List Token} {seq : SeqState σ}
    {st : σ} {kv : KVCacheState σ} {o : Option LinearState}
    (hfinds : Finds law m l 0 window seen (seq, st) kv o) (hlaw : Steady law) {t : Token}
    (hentry : m.entry l (seen ++ [t]) = ([], [])) :
    (kv.append [] [] st).1 = .ok () ∧
      (kv.append [] [] st).2.1.Holds (law.content (kv.append [] [] st).2.2)
        (m.kvOf l (seen ++ [t])) ∧
      KVCacheState.SameShape kv (kv.append [] [] st).2.1 ∧
      OnlyLayer law kv.seqId kv.layer st (kv.append [] [] st).2.2 := by
  have happend := hfinds.holds.append_steady hlaw hfinds.storage (k := []) (v := [])
    hfinds.wide.symm hfinds.wide.symm (by rw [TokenModel.length_kvOf]; exact hfinds.room)
  have hstored := hfinds.holds.append law hfinds.storage happend
  rw [show ([], []) = m.entry l (seen ++ [t]) from hentry.symm, ← TokenModel.kvOf_concat] at hstored
  exact ⟨happend, hstored, KVCacheState.append_shape [] [] kv st,
    append_onlyLayer [] [] hfinds.storage st⟩

variable {ids : List Nat} {base w : List (SeqState σ) × σ} {before : Nat → List Token}
  {rows : List (Nat × List Token)} {vocab room limit nLayers l i : Nat} {targets : KvTargets}
  {kvDim : Nat → Nat} {window : Option Nat} {α : Type} {Q : α → Prop}

/-- **A token of a batch at a layer**, of a sequence that is as the tokens before it left it. -/
theorem Fleet.token_step (hF : Fleet law m ids base w (reached before rows l i))
    (hnodup : ids.Nodup) (hfit : Fitted nLayers kvDim window room base.1)
    (hbase : base.1.length = ids.length) (h : Batch vocab room limit targets ids before rows)
    (hl : l < nLayers) {r : Nat × List Token} (hi : rows[i]? = some r)
    {x : Attempt GarudaError (SeqState σ × σ) α}
    (hx : ∀ seq kv o seen t, r.2 = seen ++ [t] →
      Finds law m l (kvDim l) window seen (seq, w.2) kv o →
      Attempt.Ends x (seq, w.2) fun a s' => Q a ∧ Turn law m l r.2 (seq, w.2) s') :
    Attempt.Ends (onSequence (targets.get i) x) w fun a w' =>
      Q a ∧ Fleet law m ids base w' (reached before rows l (i + 1)) := by
  have hmem := List.mem_of_getElem? hi
  obtain ⟨t, ht⟩ := h.follows i r hi
  have hid := List.getElem?_eq_getElem (h.seq r hmem)
  have hseq₀ := List.getElem?_eq_getElem (hbase.symm ▸ h.seq r hmem)
  have hmem₀ := List.mem_of_getElem? hseq₀
  rw [h.target i r hi, reached_step (show rows[i]? = some (r.1, r.2) from hi)]
  refine hF.step hnodup hid hseq₀ fun seq hkept hlayers hlinear => ?_
  have hkv := List.getElem?_eq_getElem (hkept.size.symm ▸ (hfit.size _ hmem₀).symm ▸ hl)
  have ho := List.getElem?_eq_getElem (hkept.sizeLinear.symm ▸ (hfit.sizeLinear _ hmem₀).symm ▸ hl)
  obtain ⟨kv₀, hkv₀, hshape⟩ := hkept.shape l _ hkv
  obtain ⟨hdim, hwindow, hroom⟩ := hfit.cache _ hmem₀ l kv₀ hkv₀
  have hholds := hlayers.holds l _ hkv
  have hrecalls := hlinear l _ ho
  rw [reached_self] at hholds hrecalls
  refine hx seq _ _ _ t ht ⟨hkv, ho, hlayers.storage_eq l _ hkv, hshape.kvDim.trans hdim,
    hshape.slidingWindow.trans hwindow, ?_, hholds, hrecalls⟩
  have hfits := h.room r hmem
  rw [ht, List.length_append, List.length_singleton] at hfits
  rw [hshape.maxPositions]
  omega

/-- **A token at a layer that attends**: its entry goes into the cache. -/
theorem Fleet.attend_step (hF : Fleet law m ids base w (reached before rows l i))
    (hnodup : ids.Nodup) (hfit : Fitted nLayers kvDim window room base.1)
    (hbase : base.1.length = ids.length) (h : Batch vocab room limit targets ids before rows)
    (hl : l < nLayers) (hplain : m.recurrent l = false) {r : Nat × List Token}
    (hi : rows[i]? = some r) {x : Attempt GarudaError (KVCacheState σ × σ) α}
    (hx : ∀ kv seen t, r.2 = seen ++ [t] → kv.storage = cfg.storage → kv.kvDim = kvDim l →
      kv.slidingWindow = window → seen.length < kv.maxPositions →
      kv.Holds (law.content w.2) (m.kvOf l seen) → Attempt.Ends x (kv, w.2) fun a c =>
        Q a ∧ c.1.Holds (law.content c.2) (m.kvOf l r.2) ∧ KVCacheState.SameShape kv c.1 ∧
          OnlyLayer law kv.seqId kv.layer w.2 c.2) :
    Attempt.Ends (onSequence (targets.get i) (onLayer l x)) w fun a w' =>
      Q a ∧ Fleet law m ids base w' (reached before rows l (i + 1)) := by
  refine hF.token_step hnodup hfit hbase h hl hi fun seq kv o seen t ht hfinds => ?_
  exact Turn.attends hplain hfinds.cache (fun o' ho' => by
      rw [hfinds.state] at ho'
      cases ho'
      exact hfinds.recalls)
    (hx kv seen t ht hfinds.storage hfinds.wide hfinds.slidingWindow hfinds.room hfinds.holds)

end Tokens

namespace Decoder

variable {cfg : KvConfig σ} {d : Decoder σ} {law : ReadsBack cfg.storage} {m : TokenModel F32}
  {limit : Nat} {embed : Token → List F32} {state : List Token → List F32} {st : σ}

/-! ## Chunks -/

section Alone

variable {seqId : Nat} {w : SeqState σ × σ} {seen : List Token}

theorem alone_ends {α : Type} {x : Attempt GarudaError (List (SeqState σ) × σ) α}
    {Q : α → SeqState σ × σ → Prop} {R : α → List (SeqState σ) × σ → Prop}
    (h : Attempt.Ends x ([w.1], w.2) R)
    (hQ : ∀ a w', R a w' → ∃ seq, w'.1 = [seq] ∧ Q a (seq, w'.2)) :
    Attempt.Ends (alone x) w Q := by
  obtain ⟨a, w', hx, hR⟩ := h
  obtain ⟨seq, hseq, hq⟩ := hQ a w' hR
  refine ⟨a, (seq, w'.2), ?_, hq⟩
  rw [alone, hx]
  dsimp only
  rw [hseq]
  rfl

/-- The hidden states of the `new` tokens after `seen`. -/
def statesOf (state : List Token → List F32) (seen new : List Token) : List (List F32) :=
  (inOrder 0 seen new).map fun r => state r.2

@[simp] theorem length_statesOf (seen new : List Token) :
    (statesOf state seen new).length = new.length := by
  rw [statesOf, List.length_map, length_inOrder]

theorem statesOf_append (seen xs ys : List Token) : statesOf state seen (xs ++ ys)
    = statesOf state seen xs ++ statesOf state (seen ++ xs) ys := by
  simp only [statesOf, inOrder, List.length_append, List.range_add, List.map_append, List.map_map]
  congr 1
  · refine List.map_congr_left fun i hi => ?_
    have hlt := List.mem_range.mp hi
    simp only [Function.comp_apply]
    rw [List.take_append_of_le_length (by omega)]
  · refine List.map_congr_left fun i _ => ?_
    simp only [Function.comp_apply]
    rw [show xs.length + i + 1 = xs.length + (i + 1) by omega, List.take_length_add_append,
      List.append_assoc]

/-- The last hidden states of a pass are those after the last contexts. -/
theorem lastN_statesOf {seen new : List Token} {n : Nat} (hn : n ≤ new.length) :
    lastN n (statesOf state seen new) = (lastContexts (seen ++ new) n).map state := by
  rw [statesOf, lastN_map, inOrder, lastN_map, lastN_range hn, lastContexts, List.map_map,
    List.map_map, List.map_map]
  refine List.map_congr_left fun i _ => ?_
  simp only [Function.comp_apply]
  rw [List.length_append, show seen.length + new.length - n + i + 1
    = seen.length + (new.length - n + i + 1) by omega, List.take_length_add_append]

/-- New tokens of one sequence, as a batch. -/
theorem batch_inOrder {f : Feed σ} {chunk : List Token} (hne : chunk ≠ [])
    (hfew : chunk.length ≤ limit) (hknown : m.Knows chunk)
    (hroom : (f.seen ++ chunk).length ≤ roomOf cfg) :
    Batch m.vocab (roomOf cfg) limit .shared [f.seqId] (seenOf [f]) (inOrder 0 f.seen chunk) where
  pos := by rw [length_inOrder]; exact List.length_pos_iff.mpr hne
  few := by rwa [length_inOrder]
  follows := follows_inOrder (seenOf [f]) 0 chunk
  target := by
    intro i r hr
    obtain ⟨_, -, rfl⟩ := List.mem_map.mp (List.mem_of_getElem? hr)
    rfl
  seq := by
    intro r hr
    obtain ⟨_, -, rfl⟩ := List.mem_map.mp hr
    exact Nat.one_pos
  room := by
    intro r hr
    obtain ⟨i, -, rfl⟩ := List.mem_map.mp hr
    rw [List.length_append] at hroom ⊢
    exact (Nat.add_le_add_left (List.length_take_le' ..) _).trans hroom
  known := by
    intro r hr t ht
    obtain ⟨i, hi, rfl⟩ := List.mem_map.mp hr
    have hlt := List.mem_range.mp hi
    rw [List.getLast?_append, List.getLast?_take] at ht
    simp only [Nat.add_one_ne_zero, if_false, Nat.add_sub_cancel,
      List.getElem?_eq_getElem hlt, Option.some_or] at ht
    cases ht
    exact hknown _ (List.getElem_mem hlt)

theorem embeds_inOrder (seen chunk : List Token) : chunk.map embed
    = (inOrder 0 seen chunk).map fun r => embed (r.2.getLastD default) := by
  refine List.ext_getElem? fun i => ?_
  rw [List.getElem?_map, List.getElem?_map]
  rcases Nat.lt_or_ge i chunk.length with hi | hi
  · rw [getElem?_inOrder hi, List.getElem?_eq_getElem hi, List.take_succ_eq_append_getElem hi,
      ← List.append_assoc, Option.map_some, Option.map_some, List.getLastD_concat]
  · rw [List.getElem?_eq_none hi, List.getElem?_eq_none (by simpa using hi)]
    rfl

section

variable (hd : d.Computes law m limit embed state)
include hd

theorem Computes.embed_known {t : Token} (ht : t.toNat < m.vocab) : d.embed t = .ok (embed t) := by
  rw [Decoder.embed, if_neg (by rw [hd.vocab]; omega), hd.row t ht]

theorem Computes.embed_unknown {t : Token} (ht : m.vocab ≤ t.toNat) :
    d.embed t = .err (.invalidToken t) := by
  rw [Decoder.embed, if_pos (by rw [hd.vocab]; exact ht)]

/-- **One chunk.** -/
theorem Computes.passChunk_ends (h : Stands law m seqId w seen) {chunk : List Token}
    (hne : chunk ≠ []) (hfew : chunk.length ≤ limit) (hknown : m.Knows chunk)
    (hroom : (seen ++ chunk).length ≤ roomOf cfg) (nLast : Nat) (tail : List (List F32)) :
    Attempt.Ends (d.passChunk nLast tail chunk) w fun tail' w' =>
      tail' = lastN nLast (tail ++ statesOf state seen chunk) ∧
      Stands law m seqId w' (seen ++ chunk) ∧ OnlySequence law seqId w.2 w'.2 ∧
      Recorded w.1 w'.1 := by
  let f : Feed σ := ⟨seqId, w.1, seen, chunk⟩
  have hbatch : Batch m.vocab (roomOf cfg) limit .shared [seqId] (seenOf [f])
      (inOrder 0 seen chunk) := batch_inOrder (f := f) hne hfew hknown hroom
  have hembed : chunk.mapM d.embed = .ok (chunk.map embed) :=
    Checked.mapM_eq_ok fun t ht => hd.embed_known (hknown t ht)
  refine Attempt.Ends.lift_bind hembed (Attempt.Ends.bind (Q := fun xs w' =>
    xs = statesOf state seen chunk ∧ Stands law m seqId w' (seen ++ chunk) ∧
    OnlySequence law seqId w.2 w'.2 ∧ Recorded w.1 w'.1) ?_ ?_)
  · rw [embeds_inOrder seen chunk]
    have hone : ∀ g ∈ [f], Stands law m g.seqId (g.seq, w.2) g.seen := by
      intro g hg
      rw [List.mem_singleton.mp hg]
      exact h
    refine alone_ends (hd.together (show ([f].map Feed.seqId).Nodup from List.nodup_singleton _)
      hone hbatch) ?_
    rintro xs ⟨seqs, st'⟩ ⟨rfl, hlen, hall, hown⟩
    obtain ⟨seq, hseq⟩ := List.length_eq_one_iff.mp hlen
    dsimp only at hseq
    subst hseq
    obtain ⟨_, hget, hstands, hrec⟩ := hall 0 f rfl
    cases hget
    refine ⟨seq, rfl, rfl, ?_, fun q hq => hown q fun id hid => ?_, hrec⟩
    · rw [show inOrder 0 seen chunk = inOrder 0 (seenOf [f] 0) chunk from rfl, grown_inOrder,
        Function.update_self] at hstands
      exact hstands
    · rw [List.mem_singleton.mp hid]
      exact hq
  · rintro _ w' ⟨rfl, hleft⟩
    exact Attempt.Ends.pure ⟨rfl, hleft⟩

/-- **All chunks.** The induction is on the tokens that have gone in. -/
theorem Computes.chunks_ends (hfew : roomOf cfg ≤ limit) (h : Stands law m seqId w seen)
    {new : List Token} (hknown : m.Knows new) (hroom : (seen ++ new).length ≤ roomOf cfg)
    (nLast : Nat) :
    Attempt.Ends ((pieces (max d.prefillChunk 1) new).foldlM (d.passChunk nLast) []) w
      fun tail w' =>
        tail = lastN nLast (statesOf state seen new) ∧ Stands law m seqId w' (seen ++ new) ∧
        OnlySequence law seqId w.2 w'.2 ∧ Recorded w.1 w'.1 := by
  refine Attempt.Ends.pieces (Nat.le_max_right _ _) (fun done tail w' =>
    tail = lastN nLast (statesOf state seen done) ∧ Stands law m seqId w' (seen ++ done) ∧
    OnlySequence law seqId w.2 w'.2 ∧ Recorded w.1 w'.1) ?_
    ⟨?_, ?_, OnlySequence.refl _ _, Recorded.refl _⟩
  · rintro done p tail w' ⟨rest, rfl⟩ hne - ⟨rfl, hstands, hown, hrec⟩
    simp only [List.length_append] at hroom
    refine (hd.passChunk_ends hstands hne (by omega) (fun t ht => hknown t (by simp [ht]))
      (by simp only [List.length_append]; omega) nLast _).mono ?_
    rintro _ w'' ⟨rfl, hstands', hown', hrec'⟩
    rw [lastN_append, statesOf_append, List.append_assoc] at *
    exact ⟨rfl, hstands', fun q hq => (hown' q hq).trans (hown q hq), hrec.trans hrec'⟩
  · simp [statesOf, inOrder, lastN]
  · rw [List.append_nil]
    exact h

/-! ## Passes -/

/-- A pass is refused where there is nothing new, or no room for it. -/
theorem Computes.refusal_eq_none_iff {f : Feed σ} (h : Stands law m f.seqId (f.seq, st) f.seen) :
    d.refusal f.context f.seq = none ↔ f.new ≠ [] ∧ f.context.length ≤ roomOf cfg := by
  have hlen : f.seq.len = f.seen.length := h.len_eq
  have hkvs : f.seq.kvs.length = d.nLayers := h.size.trans hd.layers
  have hroom : f.seq.maxPositions = roomOf cfg := h.maxPositions_eq
  have hcontext : f.context.length = f.seen.length + f.new.length := List.length_append
  have hdrop : f.context.drop f.seq.len = f.new := by
    rw [hlen]
    exact List.drop_left
  rw [refusal, hdrop, hkvs, hroom, hlen]
  rcases eq_or_ne f.new [] with hnil | hne
  · rw [hnil]
    constructor
    · intro hnone
      exfalso
      revert hnone
      split_ifs <;> simp_all
    · rintro ⟨hne, -⟩
      exact absurd rfl hne
  · have hcne : f.context ≠ [] := by
      rw [Feed.context]
      simp [hne]
    rw [if_neg (by simpa using hcne), if_neg (by simp), if_neg (by omega),
      if_neg (by simpa using hne), hcontext]
    split
    · next hlt => simpa [hne] using hlt
    · next hle => simpa [hne] using hle

/-- **A pass that is not refused.** If it was asked for more states than it computes, it is refused
afterwards. -/
theorem Computes.forwardTail_runs (hfew : roomOf cfg ≤ limit) {f : Feed σ}
    (h : Stands law m f.seqId (f.seq, st) f.seen) (hne : f.new ≠ [])
    (hroom : f.context.length ≤ roomOf cfg) (hknown : m.Knows f.new) (nLast : Nat) :
    ∃ w', d.forwardTail f.context nLast (f.seq, st)
        = (if f.new.length < nLast then .err (tooFew nLast f.new.length)
          else .ok ((lastN nLast (statesOf state f.seen f.new)).map d.outputNorm), w') ∧
      Stands law m f.seqId w' f.context ∧ OnlySequence law f.seqId st w'.2 ∧
      Recorded f.seq w'.1 := by
  obtain ⟨tail, w', hrun, rfl, hleft⟩ := hd.chunks_ends hfew h hknown hroom nLast
  refine ⟨w', ?_, hleft⟩
  have hdrop : f.context.drop f.seq.len = f.new := by
    rw [show f.seq.len = f.seen.length from h.len_eq]
    exact List.drop_left
  rw [forwardTail, Attempt.gets_bind, (hd.refusal_eq_none_iff h).mpr ⟨hne, hroom⟩]
  dsimp only
  rw [hdrop, Attempt.bind_ok hrun, length_lastN, length_statesOf]
  split
  · next hlt =>
    rw [if_pos (by omega), Nat.min_eq_right (by omega)]
    rfl
  · rw [if_neg (by omega), Attempt.pure_run]
    have hidem : lastN nLast (lastN nLast (statesOf state f.seen f.new))
        = lastN nLast (statesOf state f.seen f.new) := by
      have := lastN_append nLast (statesOf state f.seen f.new) []
      rwa [List.append_nil, List.append_nil] at this
    rw [hidem]

omit hd in
/-- The first element that is refused decides. -/
theorem mapM_err {α β : Type} {xs rest : List α} {a : α} {f : α → Checked GarudaError β} {g : α → β}
    {e : GarudaError} (hxs : ∀ x ∈ xs, f x = .ok (g x)) (ha : f a = .err e) :
    (xs ++ a :: rest).mapM f = .err e := by
  rw [List.mapM_append, Checked.mapM_eq_ok hxs, Checked.ok_bind, List.mapM_cons, ha]
  rfl

/-- **A token that is not known.** The whole chunks before it have gone in, and nothing of its
own. -/
theorem Computes.forwardTail_unknown (hfew : roomOf cfg ≤ limit) {f : Feed σ}
    (h : Stands law m f.seqId (f.seq, st) f.seen) (hroom : f.context.length ≤ roomOf cfg)
    {known rest : List Token} {t : Token} (hnew : f.new = known ++ t :: rest)
    (hknown : m.Knows known) (ht : m.vocab ≤ t.toNat) (nLast : Nat) :
    ∃ w', d.forwardTail f.context nLast (f.seq, st) = (.err (.invalidToken t), w') ∧
      Stands law m f.seqId w' (f.seen ++
        known.take (known.length / max d.prefillChunk 1 * max d.prefillChunk 1)) ∧
      OnlySequence law f.seqId st w'.2 ∧ Recorded f.seq w'.1 := by
  have hpos : 0 < max d.prefillChunk 1 := by omega
  have hmod := Nat.div_add_mod' known.length (max d.prefillChunk 1)
  have hlt := Nat.mod_lt known.length hpos
  generalize hn : max d.prefillChunk 1 = n at *
  generalize hk : known.length / n * n = k at *
  have hwhole : (known.take k).length = k := by
    rw [List.length_take]
    omega
  -- the chunk of the unknown token
  have hcut : pieces n f.new = pieces n (known.take k)
      ++ (known.drop k ++ t :: rest).take n :: pieces n ((known.drop k ++ t :: rest).drop n) := by
    have hsplit : f.new = known.take k ++ (known.drop k ++ t :: rest) := by
      rw [hnew, ← List.append_assoc, List.take_append_drop]
    rw [hsplit, pieces_append hpos (by rw [hwhole, ← hk]; exact Nat.dvd_mul_left _ _),
      pieces_eq_cons hpos (show known.drop k ++ t :: rest ≠ [] by simp)]
  have hchunk : (known.drop k ++ t :: rest).take n
      = known.drop k ++ t :: rest.take (n - (known.length - k) - 1) := by
    rw [List.take_append, List.take_of_length_le (by rw [List.length_drop]; omega),
      List.length_drop, List.take_cons (by omega)]
  have hlen : f.context.length = f.seen.length + (known.length + (rest.length + 1)) := by
    rw [Feed.context, hnew, List.length_append, List.length_append, List.length_cons]
  have hchunks := hd.chunks_ends hfew h
    (fun u (hu : u ∈ known.take k) => hknown u (List.mem_of_mem_take hu))
    (by rw [List.length_append, hwhole]; omega) nLast
  rw [hn] at hchunks
  obtain ⟨tail, w', ⟨-, hleft⟩, hrun⟩ := Attempt.Ends.foldlM_err
    (pieces n ((known.drop k ++ t :: rest).drop n)) (e := .invalidToken t)
    (a := (known.drop k ++ t :: rest).take n) hchunks fun tail' w' _ => by
      refine Attempt.bind_err ?_
      rw [Attempt.lift_run, hchunk, mapM_err (g := embed) (fun u hu => ?_) (hd.embed_unknown ht)]
      exact hd.embed_known (hknown u (List.mem_of_mem_drop hu))
  refine ⟨w', ?_, hleft⟩
  have hdrop : f.context.drop f.seq.len = f.new := by
    rw [show f.seq.len = f.seen.length from h.len_eq]
    exact List.drop_left
  rw [forwardTail, Attempt.gets_bind, (hd.refusal_eq_none_iff h).mpr ⟨by simp [hnew], hroom⟩]
  dsimp only
  rw [hdrop, hn, hcut]
  exact Attempt.bind_err hrun

/-! ## Calls for one sequence -/

variable {f : Feed σ} {n : Nat}

/-- A pass that answers. -/
theorem Computes.forwardTail_answers (hfew : roomOf cfg ≤ limit)
    (h : Stands law m f.seqId (f.seq, st) f.seen) (hfits : Fits m cfg f n) :
    ∃ w', d.forwardTail f.context n (f.seq, st)
        = (.ok ((lastContexts f.context n).map fun us => d.outputNorm (state us)), w') ∧
      Stands law m f.seqId w' f.context ∧ OnlySequence law f.seqId st w'.2 ∧
      Recorded f.seq w'.1 := by
  obtain ⟨w', hrun, hleft⟩ := hd.forwardTail_runs hfew h hfits.new hfits.room hfits.known n
  rw [if_neg (Nat.not_lt.mpr hfits.enough), lastN_statesOf hfits.enough, List.map_map] at hrun
  exact ⟨w', hrun, hleft⟩

/-- **Whatever a pass comes to**, it has fed the sequence with some of the tokens, and it answers
where it can. -/
theorem Computes.forwardTail_cases (hfew : roomOf cfg ≤ limit)
    (h : Stands law m f.seqId (f.seq, st) f.seen) (n : Nat) :
    ∃ w', (Fits m cfg f n ∧ d.forwardTail f.context n (f.seq, st)
          = (.ok ((lastContexts f.context n).map fun us => d.outputNorm (state us)), w') ∨
        ¬ Fits m cfg f n ∧ ∃ e, d.forwardTail f.context n (f.seq, st) = (.err e, w')) ∧
      f.Took law m (Fits m cfg f n) w' ∧ OnlySequence law f.seqId st w'.2 ∧
      Recorded f.seq w'.1 := by
  have hall : ∀ w' (succeeded : Prop), Stands law m f.seqId w' f.context →
      f.Took law m succeeded w' := fun w' _ hstands =>
    ⟨f.new.length, le_rfl, fun _ => rfl, by rw [List.take_length]; exact hstands⟩
  cases hrefusal : d.refusal f.context f.seq with
  | some e =>
    -- nothing is touched
    have hrun : d.forwardTail f.context n (f.seq, st) = (.err e, (f.seq, st)) := by
      rw [forwardTail, Attempt.gets_bind, hrefusal]
      rfl
    have hnot : ¬ Fits m cfg f n := fun hfits => by
      rw [(hd.refusal_eq_none_iff h).mpr ⟨hfits.new, hfits.room⟩] at hrefusal
      cases hrefusal
    exact ⟨_, .inr ⟨hnot, e, hrun⟩, h.took fun h => absurd h hnot, OnlySequence.refl _ _,
      Recorded.refl _⟩
  | none =>
    obtain ⟨hne, hroom⟩ := (hd.refusal_eq_none_iff h).mp hrefusal
    by_cases hknown : m.Knows f.new
    · rcases Nat.lt_or_ge f.new.length n with hlt | hn
      · -- too many positions were asked for
        obtain ⟨w', hrun, hstands, hleft⟩ := hd.forwardTail_runs hfew h hne hroom hknown n
        rw [if_pos hlt] at hrun
        exact ⟨w', .inr ⟨fun hfits => Nat.not_lt.mpr hfits.enough hlt, _, hrun⟩,
          hall w' _ hstands, hleft⟩
      · have hfits : Fits m cfg f n := ⟨hne, hroom, hknown, hn⟩
        obtain ⟨w', hrun, hstands, hleft⟩ := hd.forwardTail_answers hfew h hfits
        exact ⟨w', .inl ⟨hfits, hrun⟩, hall w' _ hstands, hleft⟩
    · -- the chunk of the first token that is not known is not begun
      obtain ⟨t, ht⟩ := Option.isSome_iff_exists.mp
        (show (f.new.find? fun t => decide (m.vocab ≤ t.toNat)).isSome = true by
          simpa [TokenModel.Knows] using hknown)
      obtain ⟨hbad, known, rest, hnew, hgood⟩ := List.find?_eq_some_iff_append.mp ht
      obtain ⟨w', hrun, hstands, hleft⟩ := hd.forwardTail_unknown hfew h hroom hnew
        (fun u hu => by simpa using hgood u hu) (of_decide_eq_true hbad) n
      have hnot : ¬ Fits m cfg f n := fun hfits => hknown hfits.known
      refine ⟨w', .inr ⟨hnot, _, hrun⟩, ⟨known.length / max d.prefillChunk 1 * max d.prefillChunk 1,
        ?_, fun h => absurd h hnot, ?_⟩, hleft⟩
      · rw [hnew, List.length_append]
        exact (Nat.div_mul_le_self ..).trans (Nat.le_add_right ..)
      · rw [hnew, List.take_append_of_le_length (Nat.div_mul_le_self ..)]
        exact hstands

omit hd in
/-- What the runtime is told, from whatever a call comes to. -/
theorem served_told {α : Type} {a : α} {fits : Prop} {out : Checked GarudaError α × SeqState σ × σ}
    {w' : SeqState σ × σ} (panicked : GarudaError)
    (hout : fits ∧ out = (.ok a, w') ∨ ¬ fits ∧ ∃ e, out = (.err e, w'))
    (htook : f.Took law m fits w') (hown : OnlySequence law f.seqId st w'.2) :
    Served law m f st fits a (told panicked out) := by
  rcases hout with ⟨hfits, rfl⟩ | ⟨hnot, e, rfl⟩
  · refine ⟨htook.sameFiles (fun _ _ => rfl) fun _ => hfits, hown,
      fun v => ⟨fun hv => ⟨hfits, (Except.ok.inj hv).symm⟩, ?_⟩⟩
    rintro ⟨-, rfl⟩
    rfl
  · refine ⟨htook.sameFiles (fun _ _ => rfl) ?_, hown, fun v => ⟨fun hv => (by cases hv), ?_⟩⟩
    · rintro ⟨_, hv⟩
      cases hv
    · rintro ⟨hfits, -⟩
      exact absurd hfits hnot

/-- **Any call that runs a pass** and then looks at its last states. -/
theorem Computes.pass_served {α : Type} {a : α}
    {g : List (List F32) → Attempt GarudaError (SeqState σ × σ) α} (panicked : GarudaError)
    (hfew : roomOf cfg ≤ limit)
    (h : Stands law m f.seqId (f.seq, st) f.seen)
    (hg : Fits m cfg f n →
      ∀ w, g ((lastContexts f.context n).map fun us => d.outputNorm (state us)) w = (.ok a, w)) :
    Served law m f st (Fits m cfg f n) a
      (told panicked ((d.forwardTail f.context n >>= g) (f.seq, st))) := by
  obtain ⟨w', hcases, htook, hown, -⟩ := hd.forwardTail_cases hfew h n
  refine served_told panicked (hcases.imp ?_ ?_) htook hown
  · rintro ⟨hfits, hrun⟩
    exact ⟨hfits, (Attempt.bind_ok hrun).trans (hg hfits w')⟩
  · rintro ⟨hnot, e, hrun⟩
    exact ⟨hnot, e, Attempt.bind_err hrun⟩

/-- **A call that is recorded.** Whatever it comes to, every recurrent state can be put back to
where it stood before any of the tokens that it has had. -/
theorem Computes.recorded_served {α : Type} {a : α} {g : List (List F32) → Checked GarudaError α}
    (panicked : GarudaError) (hfew : roomOf cfg ≤ limit)
    (h : Stands law m f.seqId (f.seq, st) f.seen)
    (hg : Fits m cfg f n →
      g ((lastContexts f.context n).map fun us => d.outputNorm (state us)) = .ok a)
    {x : Attempt GarudaError (SeqState σ × σ) α}
    (hx : x = Attempt.bracket (fun w => (w.1.beginRecording, w.2))
        (fun w => (w.1.endRecording, w.2)) (d.forwardTail f.context n)
      >>= fun xs => Attempt.lift (g xs)) :
    Served law m f st (Fits m cfg f n) a (told panicked (x (f.seq, st))) ∧
      Copied f.seen.length (x (f.seq, st)).2.1 := by
  have hbegun : Stands law m f.seqId (f.seq.beginRecording, st) f.seen := h.beginRecording
  -- the pass finds the sequence as it is when the recording has begun
  obtain ⟨w', hcases, ⟨k, hk, hall, hstands⟩, hown, hrec⟩ :=
    hd.forwardTail_cases (f := { f with seq := f.seq.beginRecording }) hfew hbegun n
  have hfits : Fits m cfg { f with seq := f.seq.beginRecording } n ↔ Fits m cfg f n :=
    ⟨fun h => ⟨h.new, h.room, h.known, h.enough⟩, fun h => ⟨h.new, h.room, h.known, h.enough⟩⟩
  rw [hfits] at hcases hall
  have hout : Fits m cfg f n ∧ x (f.seq, st) = (.ok a, w'.1.endRecording, w'.2) ∨
      ¬ Fits m cfg f n ∧ ∃ e, x (f.seq, st) = (.err e, w'.1.endRecording, w'.2) := by
    rw [hx]
    refine hcases.imp ?_ ?_
    · rintro ⟨hfits, hrun⟩
      exact ⟨hfits, (Attempt.bind_ok (Attempt.bracket_ok hrun)).trans (congrArg (·, _) (hg hfits))⟩
    · rintro ⟨hnot, e, hrun⟩
      exact ⟨hnot, e, Attempt.bind_err (Attempt.bracket_err hrun)⟩
  refine ⟨served_told panicked hout ⟨k, hk, hall, hstands.endRecording⟩ hown, ?_⟩
  have hleft : (x (f.seq, st)).2.1 = w'.1.endRecording := by
    rcases hout with ⟨-, hrun⟩ | ⟨-, e, hrun⟩
    · rw [hrun]
    · rw [hrun]
  rw [hleft]
  exact hrec.copied rfl _ hbegun.copied_length

/-- A call for a hidden state. -/
theorem Computes.hidden_served (panicked : GarudaError) (hfew : roomOf cfg ≤ limit)
    (h : Stands law m f.seqId (f.seq, st) f.seen) :
    Served law m f st (Fits m cfg f 1) (d.outputNorm (state f.context))
      (told panicked (d.hidden f.context (f.seq, st))) := by
  refine hd.pass_served panicked hfew h fun hfits w => ?_
  rw [lastContexts_one hfits.context_ne_nil]
  rfl

omit hd in
/-- Every one of the last contexts ends in a new token. -/
theorem lastContexts_known (hfits : Fits m cfg f n) :
    ∀ us ∈ lastContexts f.context n, ∃ t ∈ us.getLast?, t.toNat < m.vocab := by
  intro us hus
  obtain ⟨i, hi, rfl⟩ := List.mem_map.mp hus
  have hlt := List.mem_range.mp hi
  have hn := hfits.enough
  have hlen : f.context.length = f.seen.length + f.new.length := List.length_append
  have hget : f.context.length - n + i < f.context.length := by omega
  refine ⟨f.context[f.context.length - n + i], ?_, hfits.known _ ?_⟩
  · rw [List.take_succ_eq_append_getElem hget, Option.mem_def, List.getLast?_concat]
  · have hnew : f.seen.length ≤ f.context.length - n + i := by omega
    simp only [Feed.context] at hnew ⊢
    rw [List.getElem_append_right hnew]
    exact List.getElem_mem _

/-- **Any call that goes on from the last hidden state.** -/
theorem Computes.hidden_bind_served {α : Type} {a : α}
    {g : List F32 → Attempt GarudaError (SeqState σ × σ) α} (panicked : GarudaError)
    (hfew : roomOf cfg ≤ limit) (h : Stands law m f.seqId (f.seq, st) f.seen)
    (hg : (∃ t ∈ f.context.getLast?, t.toNat < m.vocab) →
      ∀ w, g (d.outputNorm (state f.context)) w = (.ok a, w)) :
    Served law m f st (Fits m cfg f 1) a
      (told panicked ((d.hidden f.context >>= g) (f.seq, st))) := by
  rw [hidden, Attempt.assoc]
  refine hd.pass_served panicked hfew h fun hfits w => ?_
  have hlast := lastContexts_known hfits
  rw [lastContexts_one hfits.context_ne_nil] at hlast ⊢
  exact hg (hlast _ (List.mem_singleton_self _)) w

/-- The output head over the last states. -/
theorem Computes.head_last (hfew : roomOf cfg ≤ limit) (hpos : 0 < n) (hfits : Fits m cfg f n) :
    d.head ((lastContexts f.context n).map fun us => d.outputNorm (state us)) n
      = .ok ((lastContexts f.context n).map m.logits) := by
  have hlen : f.context.length = f.seen.length + f.new.length := List.length_append
  have hn := hfits.enough
  have hroom := hfits.room
  have hsome : 0 < (lastContexts f.context n).length := by rwa [length_lastContexts]
  have hall := hd.head hsome (by rw [length_lastContexts]; omega) (lastContexts_known hfits)
  rwa [length_lastContexts] at hall

end

end Alone

/-! ## Calls for several sequences -/

section Together

variable {fs : List (Feed σ)}

/-- One new token of each sequence, as a batch. -/
theorem batch_oneEach (hpos : 0 < fs.length) (hfew : fs.length ≤ limit)
    (hone : ∀ f ∈ fs, f.new.length = 1) (hfits : ∀ f ∈ fs, Fits m cfg f 1) :
    Batch m.vocab (roomOf cfg) limit .perToken (fs.map Feed.seqId) (seenOf fs)
      (oneEach (fs.map Feed.context)) := by
  have hmem : ∀ r ∈ oneEach (fs.map Feed.context), ∃ f ∈ fs, r.1 < fs.length ∧ r.2 = f.context := by
    intro r hr
    obtain ⟨j, hj⟩ := List.mem_iff_getElem?.mp hr
    have hlt : j < fs.length := by simpa using (List.getElem?_eq_some_iff.mp hj).1
    have hget := List.getElem?_eq_getElem hlt
    rw [getElem?_oneEach (by rw [List.getElem?_map, hget]; rfl)] at hj
    cases hj
    exact ⟨_, List.mem_of_getElem? hget, hlt, rfl⟩
  refine ⟨by simpa using hpos, by simpa using hfew, follows_oneEach fun j us hus => ?_,
    fun i r hr => ?_, fun r hr => ?_, fun r hr => ?_, fun r hr t ht => ?_⟩
  · rw [List.getElem?_map, Option.map_eq_some_iff] at hus
    obtain ⟨f, hf, rfl⟩ := hus
    obtain ⟨t, ht⟩ := List.length_eq_one_iff.mp (hone f (List.mem_of_getElem? hf))
    refine ⟨t, ?_⟩
    rw [seenOf, hf, Feed.context, ht]
    rfl
  · have hlt : i < fs.length := by simpa using (List.getElem?_eq_some_iff.mp hr).1
    have hget := List.getElem?_eq_getElem hlt
    rw [getElem?_oneEach (by rw [List.getElem?_map, hget]; rfl)] at hr
    cases hr
    rfl
  · obtain ⟨_, -, hlt, -⟩ := hmem r hr
    rwa [List.length_map]
  · obtain ⟨f, hf, -, hus⟩ := hmem r hr
    exact hus ▸ (hfits f hf).room
  · obtain ⟨f, hf, -, hus⟩ := hmem r hr
    obtain ⟨u, hu⟩ := List.length_eq_one_iff.mp (hone f hf)
    have hlast : r.2.getLast? = some u := by
      rw [hus, Feed.context, hu, List.getLast?_append]
      rfl
    rw [hlast] at ht
    cases ht
    exact (hfits f hf).known _ (by rw [hu]; exact List.mem_singleton_self _)

section

variable (hd : d.Computes law m limit embed state)
include hd

/-- **One decode step of several sequences** answers each as its own pass would. -/
theorem Computes.stepTogether_answers (hnodup : (fs.map Feed.seqId).Nodup)
    (hstands : ∀ f ∈ fs, Stands law m f.seqId (f.seq, st) f.seen) (hpos : 0 < fs.length)
    (hfew : fs.length ≤ limit) (hone : ∀ f ∈ fs, f.new.length = 1)
    (hfits : ∀ f ∈ fs, Fits m cfg f 1) :
    ∃ w', d.stepTogether (fs.map Feed.context) (fs.map Feed.seq, st)
        = (.ok (fs.map fun f => m.logits f.context), w') ∧
      List.Forall₂ (fun f seq => Stands law m f.seqId (seq, w'.2) f.context) fs w'.1 ∧
      OnlyThose law (fs.map Feed.seqId) st w'.2 := by
  have hbatch := batch_oneEach hpos hfew hone hfits
  obtain ⟨xs, w', hrun, rfl, hlen, hall, hown⟩ := hd.together hnodup hstands hbatch
  have hrows : ∀ g : List Token → List F32, ((oneEach (fs.map Feed.context)).map fun r => g r.2)
      = (fs.map Feed.context).map g := fun g => by
    conv => rhs; rw [← map_snd_oneEach (fs.map Feed.context), List.map_map]
    rfl
  have hlast : ∀ f ∈ fs, ∃ t ∈ f.context.getLast?, t.toNat < m.vocab := fun f hf => by
    obtain ⟨t, ht⟩ := List.length_eq_one_iff.mp (hone f hf)
    refine ⟨t, ?_, (hfits f hf).known t (by rw [ht]; exact List.mem_singleton_self _)⟩
    rw [Feed.context, ht, List.getLast?_append]
    rfl
  have hembed : (fs.map Feed.context).mapM d.embedLast
      = .ok ((fs.map Feed.context).map fun us => embed (us.getLastD default)) := by
    refine Checked.mapM_eq_ok fun c hc => ?_
    obtain ⟨f, hf, rfl⟩ := List.mem_map.mp hc
    obtain ⟨t, ht, hknown⟩ := hlast f hf
    rw [embedLast, List.getLastD_eq_getLast?, Option.mem_def.mp ht]
    exact hd.row t hknown
  have hsome : 0 < (fs.map Feed.context).length := by rwa [List.length_map]
  have hhead := hd.head hsome (by rwa [List.length_map]) (List.forall_mem_map.mpr hlast)
  rw [hrows fun us => embed (us.getLastD default)] at hrun
  refine ⟨w', ?_, ?_, hown⟩
  · rw [stepTogether, Attempt.lift_bind hembed, Attempt.bind_ok hrun, hrows state, List.map_map,
      Attempt.lift_run]
    refine congrArg (·, w') (hhead.trans ?_)
    rw [List.map_map]
    rfl
  · rw [List.forall₂_iff_get]
    refine ⟨hlen.symm, fun j h₁ h₂ => ?_⟩
    obtain ⟨seq, hseq, hmine, -⟩ := hall j _ (List.getElem?_eq_getElem h₁)
    rw [List.getElem?_eq_getElem h₂] at hseq
    cases hseq
    rw [grown_oneEach, List.getElem?_map, List.getElem?_eq_getElem h₁] at hmine
    exact hmine

/-- The sequences are stepped together where there are several and each has one new token. -/
theorem Computes.oneStepEach_iff (hstands : ∀ f ∈ fs, Stands law m f.seqId (f.seq, st) f.seen) :
    d.oneStepEach (fs.map Feed.context) (fs.map Feed.seq) = true ↔
      1 < fs.length ∧ ∀ f ∈ fs, f.new.length = 1 := by
  rw [oneStepEach, List.zip_map', Bool.and_eq_true, decide_eq_true_eq, List.length_map,
    List.all_map, List.all_eq_true]
  refine and_congr_right fun _ => forall₂_congr fun f hf => ?_
  have hsize : f.seq.kvs.length = d.nLayers := (hstands f hf).size.trans hd.layers
  have hlen : f.seq.len = f.seen.length := (hstands f hf).len_eq
  simp [hsize, hlen, Feed.context]

/-- A step is refused for a sequence exactly if it cannot be answered. -/
theorem Computes.stepRefusal_eq_none_iff {f : Feed σ} (h : Stands law m f.seqId (f.seq, st) f.seen)
    (hone : f.new.length = 1) : d.stepRefusal f.context f.seq = none ↔ Fits m cfg f 1 := by
  obtain ⟨t, ht⟩ := List.length_eq_one_iff.mp hone
  have hlen : f.seq.len = f.seen.length := h.len_eq
  have hlast : f.context.getLast? = some t := by
    rw [Feed.context, ht, List.getLast?_append]
    rfl
  have hcontext : f.context.length = f.seen.length + 1 := by
    rw [Feed.context, List.length_append, hone]
  rw [stepRefusal, hlast, h.maxPositions_eq, hlen, hd.vocab]
  dsimp only
  constructor
  · intro hnone
    split_ifs at hnone with hbad hfull
    refine ⟨by simp [ht], by omega, fun u hu => ?_, hone.ge⟩
    rw [ht, List.mem_singleton] at hu
    exact hu ▸ Nat.lt_of_not_le hbad
  · intro hfits
    have hknown : t.toNat < m.vocab := hfits.known t (by simp [ht])
    have hroom := hfits.room
    rw [if_neg (by omega), if_neg (by omega)]

variable {panicked : GarudaError}
  {logits : List Token → Attempt GarudaError (SeqState σ × σ) (List F32)}

/-- A step that cannot be answered for one of the sequences is not begun. -/
theorem Computes.logitsBatch_refused (hstands : ∀ f ∈ fs, Stands law m f.seqId (f.seq, st) f.seen)
    (hseveral : 1 < fs.length) (hone : ∀ f ∈ fs, f.new.length = 1)
    (hnot : ∃ f ∈ fs, ¬ Fits m cfg f 1) :
    ∃ e, d.logitsBatch panicked logits (fs.map Feed.context) (fs.map Feed.seq) st
      = (.error e, fs.map Feed.seq, st) := by
  obtain ⟨f, hf, hnot⟩ := hnot
  have hrefused : ((fs.map Feed.context).zip (fs.map Feed.seq)).findSome?
      (fun p => d.stepRefusal p.1 p.2) ≠ none := by
    rw [List.zip_map', ne_eq, List.findSome?_eq_none_iff, List.forall_mem_map]
    exact fun hall => hnot
      ((hd.stepRefusal_eq_none_iff (hstands f hf) (hone f hf)).mp (hall f hf))
  rw [logitsBatch, if_neg (by simp), if_pos ((hd.oneStepEach_iff hstands).mpr ⟨hseveral, hone⟩)]
  split
  · exact ⟨_, rfl⟩
  · next hnone => exact absurd hnone hrefused

/-- **A call for several sequences**, of which each may have any tokens to take in. -/
theorem Computes.logitsBatch_served (hlogits : ∀ (f : Feed σ) (st : σ),
      Stands law m f.seqId (f.seq, st) f.seen →
      Served law m f st (Fits m cfg f 1) (m.logits f.context)
        (told panicked (logits f.context (f.seq, st))))
    (hnodup : (fs.map Feed.seqId).Nodup)
    (hstands : ∀ f ∈ fs, Stands law m f.seqId (f.seq, st) f.seen) (hmany : fs.length ≤ limit) :
    ServedAll law m fs st
      (d.logitsBatch panicked logits (fs.map Feed.context) (fs.map Feed.seq) st) := by
  rw [logitsBatch, if_neg (by simp)]
  split
  case isFalse => exact logitsInTurn_served hlogits hnodup hstands
  case isTrue htogether =>
    obtain ⟨hseveral, hone⟩ := (hd.oneStepEach_iff hstands).mp htogether
    rw [List.zip_map']
    split
    · next e hrefused =>
      -- one of them is refused, and so are all
      obtain ⟨f, hf, hrefused⟩ := List.exists_of_findSome?_eq_some hrefused
      obtain ⟨f, hmem, rfl⟩ := List.mem_map.mp hf
      have hfailed : ¬ Succeeds (Except.error e : Except GarudaError (List (List F32))) := by
        rintro ⟨_, h⟩
        cases h
      refine ⟨⟨?_, OnlyThose.refl _ _, fun _ h => by cases h⟩, fun h => absurd h hfailed,
        fun hall => ?_⟩
      · rw [List.forall₂_map_right_iff, List.forall₂_same]
        exact fun g hg => (hstands g hg).took fun h => absurd h hfailed
      · dsimp only at hrefused
        rw [(hd.stepRefusal_eq_none_iff (hstands f hmem) (hone f hmem)).mpr (hall f hmem)]
          at hrefused
        cases hrefused
    · next hnone =>
      rw [List.findSome?_eq_none_iff, List.forall_mem_map] at hnone
      have hfits : ∀ f ∈ fs, Fits m cfg f 1 := fun f hf =>
        (hd.stepRefusal_eq_none_iff (hstands f hf) (hone f hf)).mp (hnone f hf)
      obtain ⟨w', hrun, hleft, hown⟩ := hd.stepTogether_answers hnodup hstands
        (by omega) hmany hone hfits
      rw [hrun]
      refine ⟨⟨hleft.imp fun f seq hseq => ?_, hown, fun answers h => ?_⟩,
        fun _ => hfits, fun _ => ⟨_, rfl⟩⟩
      · exact ⟨f.new.length, le_rfl, fun _ => rfl, by rw [List.take_length]; exact hseq⟩
      · exact ⟨fun f hf => (hfits f hf).new, (Except.ok.inj h).symm⟩

end

end Together

end Decoder

end Garuda
