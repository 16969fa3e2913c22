import Garuda.Llama.Load
import Garuda.Qwen35.Pass

/-!
# Weights that are there

A `qwen35` backend all of whose matrices lie in the bytes that they are read from: those of a block
in what its layer is lent. Of the numbers in them only the embeddings have to be finite, as a packed
row that is not is refused; such a backend serves the model that its rows make, and a round of
guesses can be taken back.

* `Weight.readFrom` is a weight as its rows are looked for when a block is at hand.
* `Whole` is a backend of such weights, `meaning` what it computes, and `Whole.sound` connects the
  two.
-/

namespace Garuda

open Infra Quant Simd Attention SeqState

namespace Llama

variable {K : Type} {block : Option (Bytes × Nat)}

/-! ## One matrix -/

/-- A weight as its rows are looked for when a block is at hand. -/
def Weight.readFrom (block : Option (Bytes × Nat)) : Weight K → Weight K
  | .full data cols => .full data cols
  | .packed qtype cols src start =>
    .packed qtype cols (.owned (located src start block).1) (located src start block).2

theorem Weight.matmulRowsIn_readFrom [Rounds K] [Zero K] (d : RowDots K) (b : Build) (plan : Split)
    (w : Weight K) (first : Nat) (xs : List K) (n : Nat) (out : List K) :
    w.matmulRowsIn d b plan block first xs n out
      = (w.readFrom block).matmulRowsIn d b plan none first xs n out := by
  cases w with
  | full data cols => rfl
  | packed qtype cols src start => rfl

/-- A matrix that is whole in a block is a function of each of the vectors that it is given. -/
theorem Weight.Whole.meansIn [Analytic F32] {host : Host} {w : Weight F32} {rows cols limit : Nat}
    (h : (w.readFrom block).Whole rows cols) (hcols : 0 < cols)
    (hin : 4 * (limit * cols) < 2 ^ 63) (hout : 4 * (limit * rows) < 2 ^ 63) :
    w.MeansIn host block rows cols limit ((w.readFrom block).product host.dots 0 rows) where
  width _ := Weight.length_product
  product xs n out hn hle hxs hlen := by
    rw [Weight.matmulIn, Weight.matmulRowsIn_readFrom]
    exact (h.means hcols hin hout).product xs n out hn hle hxs hlen

end Llama

/-! ## Backends -/

def Mixer.recurrent {K : Type} : Mixer K → Bool
  | attn .. => false
  | linear .. => true

namespace Qwen35

/-- The weights of a mixer are all there. -/
inductive MixerWhole (cfg : Qwen35Config) (block : Option (Bytes × Nat)) : Mixer F32 → Prop where
  | attn {wqg wk wv wo : Llama.Weight F32} {qNorm kNorm : List F32}
      (qg : (wqg.readFrom block).Whole (2 * cfg.attnWidth) cfg.dModel)
      (k : (wk.readFrom block).Whole cfg.kvWidth cfg.dModel)
      (v : (wv.readFrom block).Whole cfg.kvWidth cfg.dModel)
      (o : (wo.readFrom block).Whole cfg.dModel cfg.attnWidth) :
      MixerWhole cfg block (.attn wqg wk wv wo qNorm kNorm)
  | delta {wqkv wz wbeta walpha wout : Llama.Weight F32} {p : DeltaParams}
      (qkv : (wqkv.readFrom block).Whole cfg.convWidth cfg.dModel)
      (z : (wz.readFrom block).Whole cfg.valueWidth cfg.dModel)
      (beta : (wbeta.readFrom block).Whole cfg.nVHeads cfg.dModel)
      (alpha : (walpha.readFrom block).Whole cfg.nVHeads cfg.dModel)
      (out : (wout.readFrom block).Whole cfg.dModel cfg.valueWidth) (params : p.Fits cfg) :
      MixerWhole cfg block (.linear wqkv wz p.conv wbeta walpha p.dtBias p.a p.norm wout)

/-- The same of a block. -/
structure LayerWhole (cfg : Qwen35Config) (block : Option (Bytes × Nat)) (layer : Layer F32) :
    Prop where
  mixer : MixerWhole cfg block layer.mixer
  gate : (layer.ffnGate.readFrom block).Whole cfg.dFf cfg.dModel
  up : (layer.ffnUp.readFrom block).Whole cfg.dFf cfg.dModel
  down : (layer.ffnDown.readFrom block).Whole cfg.dModel cfg.dFf

/-- **A backend whose weights are all there**, each block's in what its layer is lent. -/
structure Whole (host : Host) (b : Qwen35Runner) : Prop where
  grouped : b.loaded.cfg.nKvHeads ∣ b.loaded.cfg.nHeads
  keyHeads : 0 < b.loaded.cfg.nKHeads
  size : b.loaded.layers.length = b.loaded.cfg.nLayers
  recurrent : ∀ l layer, b.loaded.layers[l]? = some layer →
    layer.mixer.recurrent = b.loaded.cfg.recurrent.getD l false
  tokenEmbd : b.loaded.tokenEmbd.Whole b.loaded.cfg.vocab b.loaded.cfg.dModel
  output : b.loaded.output.Whole b.loaded.cfg.vocab b.loaded.cfg.dModel
  layers : ∀ l layer, b.loaded.layers[l]? = some layer →
    LayerWhole b.loaded.cfg (host.lent l) layer

/-- How wide the vectors are that a pass makes. -/
def widths (cfg : Qwen35Config) : List Nat :=
  [cfg.dModel, 2 * cfg.attnWidth, cfg.attnWidth, cfg.kvWidth, cfg.convWidth, cfg.valueWidth,
    cfg.nVHeads, cfg.dFf, cfg.vocab]

/-- Sizes that no computation on up to `limit` tokens at once exceeds. -/
structure Sizes (cfg : Qwen35Config) (limit : Nat) : Prop where
  vocab_pos : 0 < cfg.vocab
  vocab_le : cfg.vocab ≤ 2 ^ 32
  dModel_pos : 0 < cfg.dModel
  attn_pos : 0 < cfg.attnWidth
  value_pos : 0 < cfg.valueWidth
  dFf_pos : 0 < cfg.dFf
  limit_pos : 0 < limit
  few : ∀ w ∈ widths cfg, 4 * (limit * w) < 2 ^ 63

section Meaning

variable [Analytic F32] (cfg : Qwen35Config) (dots : RowDots F32) (block : Option (Bytes × Nat))

/-- The products of an attention block's rows. -/
def attnMeaning (wqg wk wv wo : Llama.Weight F32) (qNorm kNorm : List F32) : AttnMeaning where
  qg := (wqg.readFrom block).product dots 0 (2 * cfg.attnWidth)
  k := (wk.readFrom block).product dots 0 cfg.kvWidth
  v := (wv.readFrom block).product dots 0 cfg.kvWidth
  o := (wo.readFrom block).product dots 0 cfg.dModel
  qNorm := qNorm
  kNorm := kNorm

/-- The products of a recurrent block's rows. -/
def deltaMeaning (wqkv wz wbeta walpha wout : Llama.Weight F32) (p : DeltaParams) :
    DeltaMeaning where
  qkv := (wqkv.readFrom block).product dots 0 cfg.convWidth
  z := (wz.readFrom block).product dots 0 cfg.valueWidth
  beta := (wbeta.readFrom block).product dots 0 cfg.nVHeads
  alpha := (walpha.readFrom block).product dots 0 cfg.nVHeads
  out := (wout.readFrom block).product dots 0 cfg.dModel
  params := p

def mixerMeaning : Mixer F32 → MixerMeaning
  | .attn wqg wk wv wo qNorm kNorm => .attn (attnMeaning cfg dots block wqg wk wv wo qNorm kNorm)
  | .linear wqkv wz conv wbeta walpha dtBias a norm wout =>
    .delta (deltaMeaning cfg dots block wqkv wz wbeta walpha wout { conv, dtBias, a, norm })

/-- The products of a block's rows. -/
def layerMeaning (layer : Layer F32) : LayerMeaning where
  attnNorm := layer.attnNorm
  postAttnNorm := layer.postAttnNorm
  mixer := mixerMeaning cfg dots block layer.mixer
  gate := (layer.ffnGate.readFrom block).product dots 0 cfg.dFf
  up := (layer.ffnUp.readFrom block).product dots 0 cfg.dFf
  down := (layer.ffnDown.readFrom block).product dots 0 cfg.dModel

/-- The products of a backend's rows. -/
def meaning (host : Host) (b : Qwen35Runner) : Meaning where
  embed t := b.loaded.tokenEmbd.values t.toNat
  layer l := (b.loaded.layers[l]?).elim ⟨[], [], .attn ⟨id, id, id, id, [], []⟩, id, id, id⟩
    (layerMeaning b.loaded.cfg host.dots (host.lent l))
  outputNorm := b.loaded.outputNorm
  output := b.loaded.output.product host.dots 0 b.loaded.cfg.vocab

end Meaning

section Sound

variable [Analytic F32] {host : Host} {b : Qwen35Runner} {cfg : Qwen35Config} {limit : Nat}
  {block : Option (Bytes × Nat)}

theorem Sizes.meansIn (h : Sizes cfg limit) {w : Llama.Weight F32} {rows cols : Nat}
    (hw : (w.readFrom block).Whole rows cols) (hpos : 0 < cols) (hcols : cols ∈ widths cfg)
    (hrows : rows ∈ widths cfg) :
    w.MeansIn host.toHost block rows cols limit ((w.readFrom block).product host.dots 0 rows) :=
  hw.meansIn hpos (h.few cols hcols) (h.few rows hrows)

theorem MixerWhole.sound {mixer : Mixer F32} (h : MixerWhole cfg block mixer)
    (hsizes : Sizes cfg limit) :
    MixerSound host block cfg limit mixer (mixerMeaning cfg host.dots block mixer) := by
  have hd : cfg.dModel ∈ widths cfg := by simp [widths]
  have hkv : cfg.kvWidth ∈ widths cfg := by simp [widths]
  have hv : cfg.valueWidth ∈ widths cfg := by simp [widths]
  have hn : cfg.nVHeads ∈ widths cfg := by simp [widths]
  have hdp := hsizes.dModel_pos
  cases h with
  | @attn wqg wk wv wo qNorm kNorm qg k v o =>
    exact .attn (A := attnMeaning cfg host.dots block wqg wk wv wo qNorm kNorm)
      (hsizes.meansIn qg hdp hd (by simp [widths])) (hsizes.meansIn k hdp hd hkv)
      (hsizes.meansIn v hdp hd hkv) (hsizes.meansIn o hsizes.attn_pos (by simp [widths]) hd)
  | @delta wqkv wz wbeta walpha wout p qkv z beta alpha out params =>
    exact .delta (D := deltaMeaning cfg host.dots block wqkv wz wbeta walpha wout p)
      (hsizes.meansIn qkv hdp hd (by simp [widths])) (hsizes.meansIn z hdp hd hv)
      (hsizes.meansIn beta hdp hd hn) (hsizes.meansIn alpha hdp hd hn)
      (hsizes.meansIn out hsizes.value_pos hv hd) params

theorem LayerWhole.sound {layer : Layer F32} (h : LayerWhole cfg block layer)
    (hsizes : Sizes cfg limit) :
    LayerSound host block cfg limit layer (layerMeaning cfg host.dots block layer) := by
  have hd : cfg.dModel ∈ widths cfg := by simp [widths]
  have hf : cfg.dFf ∈ widths cfg := by simp [widths]
  exact
    { attnNorm := rfl
      postAttnNorm := rfl
      mixer := h.mixer.sound hsizes
      gate := hsizes.meansIn h.gate hsizes.dModel_pos hd hf
      up := hsizes.meansIn h.up hsizes.dModel_pos hd hf
      down := hsizes.meansIn h.down hsizes.dFf_pos hf hd }

/-- The meaning of a block that is there. -/
theorem meaning_layer (host : Host) {l : Nat} {layer : Layer F32}
    (hl : b.loaded.layers[l]? = some layer) :
    (meaning host b).layer l = layerMeaning b.loaded.cfg host.dots (host.lent l) layer := by
  show (b.loaded.layers[l]?).elim _ _ = _
  rw [hl]
  rfl

omit [Analytic F32] in
/-- A vector is small enough to be made at all. -/
theorem Sizes.alone (h : Sizes cfg limit) {w : Nat} (hw : w ∈ widths cfg) : 4 * w < 2 ^ 63 := by
  have hfew := h.few w hw
  have hone : w ≤ limit * w := Nat.le_mul_of_pos_left w h.limit_pos
  omega

/-- **A backend whose weights are all there computes what they mean**, if its embeddings are
finite. -/
theorem Whole.sound (h : Whole host b) (hsizes : Sizes b.loaded.cfg limit)
    (hfinite : ∀ r, r < b.loaded.cfg.vocab →
      ∀ v ∈ b.loaded.tokenEmbd.values r, Floats.isFinite v = true) :
    Sound host b limit (meaning host b) where
  grouped := h.grouped
  keyHeads := h.keyHeads
  size := h.size
  recurrent l hl := by
    obtain ⟨layer, hlayer⟩ : ∃ layer, b.loaded.layers[l]? = some layer :=
      ⟨_, List.getElem?_eq_getElem (h.size.symm ▸ hl)⟩
    rw [meaning_layer host hlayer, ← h.recurrent l layer hlayer]
    show (mixerMeaning _ _ _ layer.mixer).recurrent = _
    cases layer.mixer with
    | attn => rfl
    | linear => rfl
  vocab_pos := hsizes.vocab_pos
  vocab_le := hsizes.vocab_le
  embed t ht := h.tokenEmbd.row_eq (hsizes.alone (by simp [widths])) ht (hfinite _ ht)
  layers l layer hl := by
    rw [meaning_layer host hl]
    exact (h.layers l layer hl).sound hsizes
  outputNorm := rfl
  output := h.output.means hsizes.dModel_pos (hsizes.few _ (by simp [widths]))
    (hsizes.few _ (by simp [widths]))
  outputOne x hx := h.output.matvecRowsIn_eq hsizes.dModel_pos
    (show 0 + b.loaded.cfg.vocab ≤ b.loaded.cfg.vocab by omega) hx List.length_replicate
    (hsizes.alone (by simp [widths]))

end Sound

/-! ## The contract -/

section Contract

variable [Analytic F32] {σ : Type} {host : Host} {b : Qwen35Runner} {limit : Nat}
  {cfg : KvConfig σ}

/-- **A backend whose weights are all there answers as its model, exactly where it can**, alone or
in a batch, over any storage that gives back what was put there. -/
theorem Whole.whole_serves (h : Whole host b) (hsizes : Sizes b.loaded.cfg limit)
    (hfinite : ∀ r, r < b.loaded.cfg.vocab →
      ∀ v ∈ b.loaded.tokenEmbd.values r, Floats.isFinite v = true)
    (htpl : Template b.loaded.cfg cfg) (hfew : roomOf cfg ≤ limit) {law : ReadsBack cfg.storage}
    (hlaw : Steady law) (panicked : GarudaError) :
    (b.backend host panicked).Serves (model (h.sound hsizes hfinite) (windowOf cfg)) law limit :=
  backend_serves (h.sound hsizes hfinite) panicked htpl hfew hlaw

/-- **A backend whose weights are all there honours the runtime's contract**, in whatever chunks it
takes the prompt and wherever its blocks are lent from. -/
theorem Whole.whole_honours (h : Whole host b) (hsizes : Sizes b.loaded.cfg limit)
    (hfinite : ∀ r, r < b.loaded.cfg.vocab →
      ∀ v ∈ b.loaded.tokenEmbd.values r, Floats.isFinite v = true)
    (htpl : Template b.loaded.cfg cfg) (hfew : roomOf cfg ≤ limit) (hstorage : cfg.storage = none)
    (panicked : GarudaError) :
    (b.backend host panicked : InferenceBackend σ F32).Honours
      (model (h.sound hsizes hfinite) (windowOf cfg)) cfg :=
  backend_honours (h.sound hsizes hfinite) panicked htpl hfew hstorage

/-- **A round of guesses can be taken back.** After a call for the logits of `n` positions the
sequence can be cut back to any of them, and what is asked of it from there on is answered as if the
tokens that were cut off had never been. -/
theorem Whole.guesses_taken_back (h : Whole host b) (hsizes : Sizes b.loaded.cfg limit)
    (hfinite : ∀ r, r < b.loaded.cfg.vocab →
      ∀ v ∈ b.loaded.tokenEmbd.values r, Floats.isFinite v = true)
    (htpl : Template b.loaded.cfg cfg) (hfew : roomOf cfg ≤ limit) (hstorage : cfg.storage = none)
    (panicked : GarudaError) {seq : SeqState σ} {ts new more : List Token} {n j : Nat} (st : σ)
    (hseq : Describes (model (h.sound hsizes hfinite) (windowOf cfg)) cfg seq ts)
    (hpos : 0 < n) (hn : n ≤ new.length)
    (hknows : (model (h.sound hsizes hfinite) (windowOf cfg)).Knows (ts ++ new))
    (hroom : (ts ++ new).length ≤ cfg.maxPositions.toNat)
    (hlo : (ts ++ new).length - n < j) (hhi : j ≤ (ts ++ new).length) (hne : more ≠ [])
    (hmore : (model (h.sound hsizes hfinite) (windowOf cfg)).Knows more)
    (hroom' : j + more.length ≤ cfg.maxPositions.toNat) :
    ∃ seq' st', (b.backend host panicked).logitsMulti (ts ++ new) seq n st
        = (.ok ((lastContexts (ts ++ new) n).map
            (model (h.sound hsizes hfinite) (windowOf cfg)).logits), seq', st') ∧
      (seq'.truncate j st').1 = .ok () ∧
      ((b.backend host panicked).logits ((ts ++ new).take j ++ more)
          (seq'.truncate j st').2.1 (seq'.truncate j st').2.2).1
        = .ok ((model (h.sound hsizes hfinite) (windowOf cfg)).logits
            ((ts ++ new).take j ++ more)) := by
  have hb := backend_honours (h.sound hsizes hfinite) panicked htpl hfew hstorage
  obtain ⟨seq', st', hrun, hdescribes, hcopies⟩ := hb.logitsMulti n st rfl hseq hpos hn hknows hroom
  refine ⟨seq', st', hrun.trans ?_, ?_⟩
  · rw [lastContexts, List.map_map]
    rfl
  have hrecoverable : ∀ s, some s ∈ seq'.linear → s.recoverable j = true := by
    intro s hs
    rcases Nat.lt_or_eq_of_le hhi with hlt | rfl
    · exact hcopies j hlo hlt s hs
    · exact hdescribes.recoverable_length hs
  obtain ⟨hok, hcut⟩ := hdescribes.truncate hstorage hhi hrecoverable st'
  obtain ⟨_, _, hlogits, -⟩ := hb.logits (seq'.truncate j st').2.2 hcut hne
    ((hknows.sublist (List.take_sublist ..)).append hmore)
    (by rw [List.length_append, List.length_take]; omega)
  exact ⟨hok, by rw [hlogits]⟩

end Contract

/-! ## A small backend -/

/-- A recurrent block and one that attends, with one number to a head and no number but zero. -/
def hybridRunner : Qwen35Runner where
  loaded :=
    let zeros (n : Nat) : List F32 := List.replicate n ⟨0⟩
    let w (n : Nat) : Llama.Weight F32 := .full (zeros n) 1
    { cfg :=
        { dModel := 1, nLayers := 2, dFf := 1, vocab := 1, nHeads := 1, nKvHeads := 1, headDim := 1
          convKernel := 2, nKHeads := 1, nVHeads := 1, keyHeadDim := 1, valueHeadDim := 1
          recurrent := [true, false] }
      tokenEmbd := w 1
      outputNorm := zeros 1
      output := w 1
      layers :=
        [⟨zeros 1, zeros 1,
            .linear (w 3) (w 1) (zeros 6) (w 1) (w 1) (zeros 1) (zeros 1) (zeros 1) (w 1),
            w 1, w 1, w 1⟩,
          ⟨zeros 1, zeros 1, .attn (w 2) (w 1) (w 1) (w 1) (zeros 1) (zeros 1), w 1, w 1, w 1⟩]
      layerSpans := []
      pinnedBytes := 0 }
  nums := ⟨⟨0⟩, ⟨0⟩, 0⟩
  prefillChunk := 2

/-- Caches for it, with no storage. -/
def hybridCaches : KvConfig (Path → Option Bytes) :=
  { tinyCfg 2 1 none memoryStorage with nLayers := 2, kvDims := some [0, 1], storage := none }

theorem hybridSizes : Sizes hybridRunner.loaded.cfg 64 where
  vocab_pos := by decide
  vocab_le := by decide
  dModel_pos := by decide
  attn_pos := by decide
  value_pos := by decide
  dFf_pos := by decide
  limit_pos := by decide
  few := by decide

theorem hybridTemplate : Template hybridRunner.loaded.cfg hybridCaches where
  layers := rfl
  width _ l hl := by
    match l, hl with
    | 0, _ => rfl
    | 1, _ => rfl

theorem whole_one (block : Option (Bytes × Nat)) (n : Nat) (hn : 4 * n < 2 ^ 63) :
    ((Llama.Weight.full (List.replicate n (⟨0⟩ : F32)) 1).readFrom block).Whole n 1 :=
  ⟨rfl, by rw [List.length_replicate, Nat.mul_one], by rwa [List.length_replicate]⟩

theorem hybridRunner_whole (host : Host) : Whole host hybridRunner where
  grouped := ⟨1, rfl⟩
  keyHeads := by decide
  size := rfl
  recurrent l layer hl := by
    rcases l with _ | _ | l
    · cases hl
      rfl
    · cases hl
      rfl
    · cases hl
  tokenEmbd := whole_one none 1 (by decide)
  output := whole_one none 1 (by decide)
  layers l layer hl := by
    have hw := whole_one (host.lent l)
    rcases l with _ | _ | l
    · cases hl
      exact ⟨.delta (p := ⟨List.replicate 6 ⟨0⟩, [⟨0⟩], [⟨0⟩], [⟨0⟩]⟩) (hw 3 (by decide))
        (hw 1 (by decide)) (hw 1 (by decide)) (hw 1 (by decide)) (hw 1 (by decide))
        ⟨rfl, rfl, rfl⟩, hw 1 (by decide), hw 1 (by decide), hw 1 (by decide)⟩
    · cases hl
      exact ⟨.attn (hw 2 (by decide)) (hw 1 (by decide)) (hw 1 (by decide)) (hw 1 (by decide)),
        hw 1 (by decide), hw 1 (by decide), hw 1 (by decide)⟩
    · cases hl

/-- There is an arithmetic in which its embeddings are finite. -/
theorem hybrid_finite : ∃ (_ : Analytic F32), ∀ r, r < hybridRunner.loaded.cfg.vocab →
    ∀ v ∈ hybridRunner.loaded.tokenEmbd.values r, Floats.isFinite v = true :=
  ⟨Llama.wrapping, fun _ _ _ _ => rfl⟩

/-- Caches for it that spill. -/
def hybridSpilling : KvConfig (Path → Option Bytes) :=
  { hybridCaches with storage := some memoryStorage }

def hybridLaw : ReadsBack hybridSpilling.storage := memoryStorage_reliable.toReadsBack

theorem whole_serves_hybrid : ∃ (_ : Analytic F32)
    (hs : ∀ host, Sound host hybridRunner 64 (meaning host hybridRunner)), ∀ host panicked,
    (hybridRunner.backend host panicked).Serves (model (hs host) none) hybridLaw 64 := by
  obtain ⟨inst, hfinite⟩ := hybrid_finite
  have htpl : Template hybridRunner.loaded.cfg hybridSpilling :=
    ⟨hybridTemplate.layers, hybridTemplate.width⟩
  exact ⟨inst, fun host => (hybridRunner_whole host).sound hybridSizes hfinite,
    fun host panicked => (hybridRunner_whole host).whole_serves hybridSizes hfinite htpl
      (by decide) Llama.smallLaw_steady panicked⟩

theorem whole_honours_hybrid : ∃ (_ : Analytic F32)
    (hs : ∀ host, Sound host hybridRunner 64 (meaning host hybridRunner)), ∀ host panicked,
    (hybridRunner.backend host panicked : InferenceBackend (Path → Option Bytes) F32).Honours
      (model (hs host) none) hybridCaches := by
  obtain ⟨inst, hfinite⟩ := hybrid_finite
  exact ⟨inst, fun host => (hybridRunner_whole host).sound hybridSizes hfinite,
    fun host panicked => (hybridRunner_whole host).whole_honours hybridSizes hfinite hybridTemplate
      (by decide) rfl panicked⟩

theorem guesses_taken_back_hybrid : ∃ (_ : Analytic F32)
    (hs : ∀ host, Sound host hybridRunner 64 (meaning host hybridRunner)), ∀ host panicked,
    ∃ seq st, (hybridRunner.backend host panicked).logitsMulti [0, 0, 0] (.new hybridCaches 7) 2
        (fun _ => none) = (.ok ((lastContexts [0, 0, 0] 2).map (model (hs host) none).logits),
          seq, st) ∧
      (seq.truncate 2 st).1 = .ok () ∧
      ((hybridRunner.backend host panicked).logits [0, 0, 0] (seq.truncate 2 st).2.1
          (seq.truncate 2 st).2.2).1 = .ok ((model (hs host) none).logits [0, 0, 0]) := by
  obtain ⟨inst, hfinite⟩ := hybrid_finite
  have hs : ∀ host, Sound host hybridRunner 64 (meaning host hybridRunner) := fun host =>
    (hybridRunner_whole host).sound hybridSizes hfinite
  have hknows : ∀ host (ts : List Token), (∀ t ∈ ts, t = 0) → (model (hs host) none).Knows ts := by
    intro host ts hts t ht
    rw [hts t ht]
    exact Nat.one_pos
  refine ⟨inst, hs, fun host panicked => ?_⟩
  exact (hybridRunner_whole host).guesses_taken_back (n := 2) (j := 2) hybridSizes hfinite
    hybridTemplate (by decide) rfl panicked (fun _ => none) (describes_new _ _ 7) (by decide)
    (by decide) (hknows host ([] ++ [0, 0, 0]) (by simp)) (by decide) (by decide) (by decide)
    (by decide) (hknows host [0] (by simp)) (by decide)

end Qwen35

end Garuda
