import Garuda.Attention.Heads
import Garuda.Llama.FeedForward
import Garuda.Runtime.Decoder

/-!
# The forward pass

The `llama` backend from embeddings to logits: a pass over a sequence's new tokens, chunk by chunk
and in each chunk layer by layer, and one decode step of several sequences at once.

* `LlamaBackend.layerBatchOver` is a layer over a batch, whose tokens share one sequence's cache or
  have a sequence each.
* `LlamaBackend.decoder` is the stack of layers.
* `LlamaBackend.backend` is the backend that the runtime is given.

The build, the division of products among threads and the inner products are the `Host`.
-/

namespace Garuda

open Infra Quant Simd Attention

variable {σ : Type}

namespace Llama

/-! ## Data -/

/-- What a product depends on besides its operands. -/
structure Host where
  dots : RowDots F32
  build : Build
  plan : Split

/-- The architecture parameters. -/
structure LlamaConfig where
  dModel : Nat
  nLayers : Nat
  nHeads : Nat
  nKvHeads : Nat
  headDim : Nat
  dFf : Nat
  vocab : Nat
  rmsEps : F32
  ropeTheta : F32
  /-- `0` means a dense feed-forward. -/
  nExperts : Nat
  nExpertsUsed : Nat

/-- Width of one stored key or value. -/
def LlamaConfig.kvDim (cfg : LlamaConfig) : Nat := cfg.nKvHeads * cfg.headDim

/-- One transformer block's weights. -/
structure Layer where
  attnNorm : List F32
  wq : Weight F32
  wk : Weight F32
  wv : Weight F32
  wo : Weight F32
  ffnNorm : List F32
  ffn : Ffn F32

structure LlamaBackend where
  cfg : LlamaConfig
  tokenEmbd : Weight F32
  outputNorm : List F32
  output : Weight F32
  layers : List Layer
  /-- Prompt tokens pushed through one layer before moving to the next. -/
  prefillChunk : Nat

/-! ## Products -/

section Code

variable [Analytic F32] (host : Host)

/-- One row, decoded. -/
def Weight.row (w : Weight F32) (r : Nat) : Checked GarudaError (List F32) :=
  match w with
  | .full data cols => between data (r * cols) ((r + 1) * cols)
  | .packed qtype cols src start => do
    let rowBytes ← byteSize host.build qtype cols
    let skipped ← host.build.fit (r * rowBytes)
    let off ← host.build.fit (start + skipped)
    let stop ← host.build.fit (off + rowBytes)
    let raw ← index src.bytes off stop
    dequantize host.build qtype raw cols

def Weight.matvec (w : Weight F32) (x out : List F32) : Checked GarudaError (List F32) :=
  w.matvecRowsIn host.dots host.build host.plan none 0 x out

/-- All rows, wherever they are. -/
def Weight.matmulIn (block : Option (Bytes × Nat)) (w : Weight F32) (xs : List F32) (n : Nat)
    (out : List F32) : Checked GarudaError (List F32) :=
  w.matmulRowsIn host.dots host.build host.plan block 0 xs n out

def Weight.matmulRows (w : Weight F32) (xs : List F32) (n : Nat) (out : List F32) :
    Checked GarudaError (List F32) := w.matmulIn host none xs n out

/-- A matrix of `rows` rows as an output head, over `n` hidden states. -/
def Weight.head (w : Weight F32) (rows : Nat) (tail : List (List F32)) (n : Nat) :
    Checked GarudaError (List (List F32)) := do
  let all ← w.matmulRows host tail.flatten n (List.replicate (n * rows) 0)
  (List.range n).mapM fun i => rowAt rows i all

namespace LlamaBackend

variable (b : LlamaBackend)

/-- RMSNorm followed by an elementwise scale. -/
def norm (x weight : List F32) : List F32 := mulAssign (rmsnorm b.cfg.rmsEps x) weight

def projectQkv (layer : Layer) (hs : List F32) (n : Nat) :
    Checked GarudaError (List F32 × List F32 × List F32) := do
  let q ← layer.wq.matmulRows host hs n (List.replicate (n * b.cfg.dModel) 0)
  let k ← layer.wk.matmulRows host hs n (List.replicate (n * b.cfg.kvDim) 0)
  let v ← layer.wv.matmulRows host hs n (List.replicate (n * b.cfg.kvDim) 0)
  .ok (q, k, v)

/-! ## A layer -/

/-- How the errors of the attention are worded. -/
def missing : Missing where
  key j := .cache s!"missing key at {j}"
  value j := .cache s!"missing value at {j}"

/-- One token's attention, given its `q`, `k` and `v`. -/
def attendOne (q k v context : List F32) :
    Attempt GarudaError (KVCacheState σ × σ) (List F32) := do
  let cfg := b.cfg
  let group := cfg.nHeads / cfg.nKvHeads
  let pos ← Attempt.gets fun w => w.1.len
  let q ← Attempt.lift
    (updateRows cfg.headDim cfg.nHeads (fun _ head => .ok (rope pos cfg.ropeTheta head)) q)
  let k ← Attempt.lift
    (updateRows cfg.headDim cfg.nKvHeads (fun _ head => .ok (rope pos cfg.ropeTheta head)) k)
  attend host.dots.dot missing cfg.nHeads cfg.headDim group q k v context

/-- `down_e(silu(gate_e · h) ⊙ (up_e · h))`, or a mixture of them, for `n` hidden states. -/
def feedForwardBatch (ffn : Ffn F32) (hs : List F32) (n : Nat) : Checked GarudaError (List F32) :=
  Rounded.feedForwardBatch (fun w x out => w.matvec host x out)
    (expertBatch host.dots host.build host.plan silu b.cfg.dModel b.cfg.dFf)
    b.cfg.dModel b.cfg.nExperts b.cfg.nExpertsUsed ffn hs n

/-- The attention of a batch: token by token, since each has to be in the cache before the next. -/
def attendBatch (l : Nat) (targets : KvTargets) (q k v : List F32) (n : Nat) :
    Attempt GarudaError (List (SeqState σ) × σ) (List F32) :=
  Attempt.eachRow 0 b.cfg.dModel n fun i ci => do
    let qi ← Attempt.lift (rowAt b.cfg.dModel i q)
    let ki ← Attempt.lift (rowAt b.cfg.kvDim i k)
    let vi ← Attempt.lift (rowAt b.cfg.kvDim i v)
    onSequence (targets.get i) (onLayer l (b.attendOne host qi ki vi ci))

/-- One layer over a batch of tokens. -/
def layerBatchOver (targets : KvTargets) (l : Nat) (xs : List (List F32)) :
    Attempt GarudaError (List (SeqState σ) × σ) (List (List F32)) :=
  match b.layers[l]? with
  | none => Attempt.crash
  | some layer => do
    let d := b.cfg.dModel
    let n := xs.length
    let hs := xs.flatMap fun x => b.norm x layer.attnNorm
    let (q, k, v) ← Attempt.lift (b.projectQkv host layer hs n)
    let context ← b.attendBatch host l targets q k v n
    let attnOut ← Attempt.lift (layer.wo.matmulRows host context n (List.replicate (n * d) 0))
    let xs ← Attempt.lift (addRows d attnOut xs)
    let hsFfn := xs.flatMap fun x => b.norm x layer.ffnNorm
    let ffn ← Attempt.lift (b.feedForwardBatch host layer.ffn hsFfn n)
    Attempt.lift (addRows d ffn xs)

/-! ## Logits -/

/-- The output head over `n` hidden states. -/
def head (tail : List (List F32)) (n : Nat) : Checked GarudaError (List (List F32)) :=
  b.output.head host b.cfg.vocab tail n

/-- What the backend's calls are made of. -/
def decoder : Decoder σ where
  nLayers := b.cfg.nLayers
  vocab := b.cfg.vocab
  prefillChunk := b.prefillChunk
  layersCalled := "kv layers"
  row := b.tokenEmbd.row host
  layer := b.layerBatchOver host
  outputNorm x := b.norm x b.outputNorm
  head := b.head host

/-- The last `nLast` positions' final hidden states, from one pass. -/
def forwardTail (context : List Token) (nLast : Nat) :
    Attempt GarudaError (SeqState σ × σ) (List (List F32)) :=
  (b.decoder host).forwardTail context nLast

def logitsMulti (context : List Token) (n : Nat) :
    Attempt GarudaError (SeqState σ × σ) (List (List F32)) :=
  if n = 0 then Attempt.fail (.inference "logits_multi needs n >= 1")
  else do
    let tail ← b.forwardTail host context n
    Attempt.lift (b.head host tail n)

def logits (context : List Token) : Attempt GarudaError (SeqState σ × σ) (List F32) := do
  let all ← b.logitsMulti host context 1
  popped all

def hidden (context : List Token) : Attempt GarudaError (SeqState σ × σ) (List F32) :=
  (b.decoder host).hidden context

variable (panicked : GarudaError)

def logitsBatch (contexts : List (List Token)) (seqs : List (SeqState σ)) (st : σ) :
    Except GarudaError (List (List F32)) × List (SeqState σ) × σ :=
  (b.decoder host).logitsBatch panicked (b.logits host) contexts seqs st

/-- The backend as the runtime knows it. -/
def backend : InferenceBackend σ F32 where
  hidden context seq st := told panicked (b.hidden host context (seq, st))
  logits context seq st := told panicked (b.logits host context (seq, st))
  logitsMulti context seq n st := told panicked (b.logitsMulti host context n (seq, st))
  logitsBatch := b.logitsBatch host panicked
  speculationSupported := true

end LlamaBackend

end Code

end Llama

end Garuda
