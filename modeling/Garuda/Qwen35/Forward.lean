import Garuda.Llama.Forward
import Garuda.Qwen35.DeltaNet

/-!
# The forward pass of Qwen3.5

The `qwen35` backend from embeddings to logits. Most of its blocks are gated delta nets, which keep
a state that every token is folded into; the others attend.

* `Qwen35Runner.attnBatch` and `Qwen35Runner.deltaNetBatch` are the two kinds of mixer over a batch.
* `Qwen35Runner.runLayer` is a block, with its weights wherever they are.
* `Qwen35Runner.logitsMulti` records the recurrent state of every token of its pass, so that what
  was guessed wrongly can be taken back.
-/

namespace Garuda

open Infra Quant Simd Attention

variable {σ : Type}

/-! ## Data -/

/-- The numbers of the metadata that only the forward pass needs. -/
structure Qwen35Numbers where
  rmsEps : F32
  ropeTheta : F32
  /-- How many numbers of each attention head are rotated. -/
  nRot : Nat

/-- A loaded backend, with what its passes need besides. -/
structure Qwen35Runner where
  loaded : Qwen35Backend F32
  nums : Qwen35Numbers
  /-- Prompt tokens pushed through one layer before moving to the next. -/
  prefillChunk : Nat

namespace Qwen35

/-- What a product depends on besides its operands. The block that a layer borrows depends on the
layer alone: a slot that can be read holds the bytes of its own block. -/
structure Host extends Llama.Host where
  lent : Nat → Option (Bytes × Nat)

variable [Analytic F32]

/-- RMSNorm followed by an elementwise scale. -/
def normed (nums : Qwen35Numbers) (x weight : List F32) : List F32 :=
  mulAssign (rmsnorm nums.rmsEps x) weight

/-- A query or key head of the token at `pos`. -/
def turnHead (nums : Qwen35Numbers) (weight : List F32) (pos : Nat) (head : List F32) : List F32 :=
  ropePartial pos nums.ropeTheta nums.nRot (normed nums head weight)

/-- The queries and the gates of a row that has `[query | gate]` for each head in turn. -/
def splitHeads {ε : Type} (nHeads hd : Nat) (row : List F32) :
    Checked ε (List F32 × List F32) := do
  let heads ← (List.range nHeads).mapM fun h => rowAt (2 * hd) h row
  .ok (heads.flatMap (List.take hd), heads.flatMap (List.drop hd))

/-- `linear`: a layer's recurrent state, zeroed on first use. -/
def linear (l convLen stateLen : Nat) : Attempt GarudaError (SeqState σ × σ) LinearState := fun w =>
  match w.1.linearAt l convLen stateLen with
  | (.ok s, seq) => (.ok s, (seq, w.2))
  | (.error e, seq) => (.err e, (seq, w.2))

def putLinear (l : Nat) (s : LinearState) : Attempt GarudaError (SeqState σ × σ) Unit :=
  Attempt.modify fun w => ({ w.1 with linear := w.1.linear.set l (some s) }, w.2)

end Qwen35

namespace Qwen35Runner

open Qwen35

variable [Analytic F32] (host : Qwen35.Host) (b : Qwen35Runner)

/-! ## Attention -/

/-- One token's attention, given its row of the query projection and its `k` and `v`. -/
def attendOne (qNorm kNorm row k v context : List F32) :
    Attempt GarudaError (KVCacheState σ × σ) (List F32) := do
  let cfg := b.loaded.cfg
  let group := cfg.nHeads / cfg.nKvHeads
  let (q, gate) ← Attempt.lift (splitHeads cfg.nHeads cfg.headDim row)
  let pos ← Attempt.gets fun w => w.1.len
  let q ← Attempt.lift
    (updateRows cfg.headDim cfg.nHeads (fun _ head => .ok (turnHead b.nums qNorm pos head)) q)
  let k ← Attempt.lift
    (updateRows cfg.headDim cfg.nKvHeads (fun _ head => .ok (turnHead b.nums kNorm pos head)) k)
  let context ← attend host.dots.dot Llama.LlamaBackend.missing cfg.nHeads cfg.headDim group q k v
    context
  pure (mulAssign context (gate.map sigmoid))

/-- Grouped-query attention with a per-head output gate, per-head query and key norms and partial
rotation. -/
def attnBatch (block : Option (Bytes × Nat)) (l : Nat) (targets : KvTargets)
    (wqg wk wv wo : Llama.Weight F32) (qNorm kNorm hs : List F32) (n : Nat) :
    Attempt GarudaError (List (SeqState σ) × σ) (List F32) := do
  let cfg := b.loaded.cfg
  let qg ← Attempt.lift
    (wqg.matmulIn host.toHost block hs n (List.replicate (n * (2 * cfg.attnWidth)) 0))
  let k ← Attempt.lift (wk.matmulIn host.toHost block hs n (List.replicate (n * cfg.kvWidth) 0))
  let v ← Attempt.lift (wv.matmulIn host.toHost block hs n (List.replicate (n * cfg.kvWidth) 0))
  let contexts ← Attempt.eachRow 0 cfg.attnWidth n fun i context => do
    let row ← Attempt.lift (rowAt (2 * cfg.attnWidth) i qg)
    let ki ← Attempt.lift (rowAt cfg.kvWidth i k)
    let vi ← Attempt.lift (rowAt cfg.kvWidth i v)
    onSequence (targets.get i) (onLayer l (b.attendOne host qNorm kNorm row ki vi context))
  Attempt.lift (wo.matmulIn host.toHost block contexts n (List.replicate (n * cfg.dModel) 0))

/-! ## The gated delta net -/

/-- One token's turn at a recurrent block. -/
def deltaToken (l : Nat) (p : DeltaParams) (rows : DeltaRows) :
    Attempt GarudaError (SeqState σ × σ) (List F32) := do
  let cfg := b.loaded.cfg
  let recording ← Attempt.gets fun w => w.1.recording
  let s ← linear l cfg.windowLen cfg.stateLen
  -- a copy from before the token changes the state, so that a rejected guess can be taken back
  let s := if recording then s.snapshot else s
  putLinear l s
  let (window, state, mixed) ← Attempt.lift (recur cfg b.nums.rmsEps p s.conv s.state rows)
  putLinear l { s with conv := window, state := state }
  let s ← linear l cfg.windowLen cfg.stateLen
  putLinear l s.advance
  -- nothing is stored for the position, but the position counts
  onLayer l (ofStep (KVCacheState.append [] []))
  pure mixed

/-- The projections are made for the whole batch; the tokens take their turns in order, since each
finds the state as the one before has left it. -/
def deltaNetBatch (block : Option (Bytes × Nat)) (l : Nat) (targets : KvTargets)
    (wqkv wz wbeta walpha wout : Llama.Weight F32) (p : DeltaParams) (hs : List F32) (n : Nat) :
    Attempt GarudaError (List (SeqState σ) × σ) (List F32) := do
  let cfg := b.loaded.cfg
  let qkv ← Attempt.lift
    (wqkv.matmulIn host.toHost block hs n (List.replicate (n * cfg.convWidth) 0))
  let z ← Attempt.lift (wz.matmulIn host.toHost block hs n (List.replicate (n * cfg.valueWidth) 0))
  let beta ← Attempt.lift
    (wbeta.matmulIn host.toHost block hs n (List.replicate (n * cfg.nVHeads) 0))
  let alpha ← Attempt.lift
    (walpha.matmulIn host.toHost block hs n (List.replicate (n * cfg.nVHeads) 0))
  let mixed ← Attempt.eachRow 0 cfg.valueWidth n fun i _ => do
    let qkv ← Attempt.lift (rowAt cfg.convWidth i qkv)
    let z ← Attempt.lift (rowAt cfg.valueWidth i z)
    let beta ← Attempt.lift (rowAt cfg.nVHeads i beta)
    let alpha ← Attempt.lift (rowAt cfg.nVHeads i alpha)
    onSequence (targets.get i) (b.deltaToken l p { qkv, z, beta, alpha })
  Attempt.lift (wout.matmulIn host.toHost block mixed n (List.replicate (n * cfg.dModel) 0))

/-! ## A block -/

/-- `down(silu(gate(x)) ⊙ up(x))`, for `n` hidden states. -/
def feedForwardBatch (block : Option (Bytes × Nat)) (layer : Layer F32) (hs : List F32) (n : Nat) :
    Checked GarudaError (List F32) := do
  let cfg := b.loaded.cfg
  let gate ← layer.ffnGate.matmulIn host.toHost block hs n (List.replicate (n * cfg.dFf) 0)
  let up ← layer.ffnUp.matmulIn host.toHost block hs n (List.replicate (n * cfg.dFf) 0)
  layer.ffnDown.matmulIn host.toHost block (mulAssign (gate.map silu) up) n
    (List.replicate (n * cfg.dModel) 0)

/-- The attention, or the delta net. -/
def mixBatch (block : Option (Bytes × Nat)) (l : Nat) (targets : KvTargets) (mixer : Mixer F32)
    (hs : List F32) (n : Nat) : Attempt GarudaError (List (SeqState σ) × σ) (List F32) :=
  match mixer with
  | .attn wqg wk wv wo qNorm kNorm =>
    b.attnBatch host block l targets wqg wk wv wo qNorm kNorm hs n
  | .linear wqkv wz conv wbeta walpha dtBias a norm wout =>
    b.deltaNetBatch host block l targets wqkv wz wbeta walpha wout { conv, dtBias, a, norm } hs n

/-- One block over a batch of tokens. -/
def layerBatch (block : Option (Bytes × Nat)) (targets : KvTargets) (l : Nat)
    (xs : List (List F32)) : Attempt GarudaError (List (SeqState σ) × σ) (List (List F32)) :=
  match b.loaded.layers[l]? with
  | none => Attempt.crash
  | some layer => do
    let d := b.loaded.cfg.dModel
    let n := xs.length
    let hs := xs.flatMap fun x => normed b.nums x layer.attnNorm
    let mixed ← b.mixBatch host block l targets layer.mixer hs n
    let xs ← Attempt.lift (addRows d mixed xs)
    let hsFfn := xs.flatMap fun x => normed b.nums x layer.postAttnNorm
    let ffn ← Attempt.lift (b.feedForwardBatch host block layer hsFfn n)
    Attempt.lift (addRows d ffn xs)

/-- One block, with its weights wherever they are. -/
def runLayer (targets : KvTargets) (l : Nat) (xs : List (List F32)) :
    Attempt GarudaError (List (SeqState σ) × σ) (List (List F32)) :=
  b.layerBatch host (host.lent l) targets l xs

/-! ## Logits -/

/-- What the backend's calls are made of. -/
def decoder : Decoder σ where
  nLayers := b.loaded.cfg.nLayers
  vocab := b.loaded.cfg.vocab
  prefillChunk := b.prefillChunk
  layersCalled := "layers"
  row := b.loaded.tokenEmbd.row host.toHost
  layer := b.runLayer host
  outputNorm x := normed b.nums x b.loaded.outputNorm
  head := b.loaded.output.head host.toHost b.loaded.cfg.vocab

/-- The output head over one hidden state. -/
def headOne (h : List F32) : Checked GarudaError (List F32) :=
  b.loaded.output.matvec host.toHost h (List.replicate b.loaded.cfg.vocab 0)

def hidden (context : List Token) : Attempt GarudaError (SeqState σ × σ) (List F32) :=
  (b.decoder host).hidden context

def logits (context : List Token) : Attempt GarudaError (SeqState σ × σ) (List F32) := do
  let h ← b.hidden host context
  Attempt.lift (b.headOne host h)

/-- Logits at the last `n` positions, from a single pass. Of more than one, the pass records a copy
of every recurrent state per token. -/
def logitsMulti (context : List Token) (n : Nat) :
    Attempt GarudaError (SeqState σ × σ) (List (List F32)) :=
  if n = 1 then do
    let x ← b.logits host context
    pure [x]
  else do
    let tail ← Attempt.bracket (fun w => (w.1.beginRecording, w.2))
      (fun w => (w.1.endRecording, w.2)) ((b.decoder host).forwardTail context n)
    Attempt.lift (tail.mapM (b.headOne host))

variable (panicked : GarudaError)

def logitsBatch (contexts : List (List Token)) (seqs : List (SeqState σ)) (st : σ) :
    Except GarudaError (List (List F32)) × List (SeqState σ) × σ :=
  (b.decoder host).logitsBatch panicked (b.logits host) contexts seqs st

/-- The backend as the runtime knows it. -/
def backend : InferenceBackend σ F32 where
  hidden context seq st := told panicked (b.hidden host context (seq, st))
  logits context seq st := told panicked (b.logits host context (seq, st))
  logitsMulti context seq n st := told panicked (b.logitsMulti host context n (seq, st))
  logitsBatch := b.logitsBatch host panicked
  speculationSupported := true

end Qwen35Runner

end Garuda
