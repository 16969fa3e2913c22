import Garuda.Llama.Weight

/-!
# Loading Qwen3.5

`Qwen35Backend::from_gguf_pinned`: the configuration from the metadata, the span of each block in
the file, what the budget pins, and every weight at its place.

* `Qwen35Config.fromGguf` reads the dimensions, and refuses those that do not fit together.
* `blockSpans` is where each block's tensors lie; `pinBlocks` spends the budget on them.
* `loadLayer` reads one block's weights, out of a buffer of its own if it is pinned.
-/

namespace Garuda

open Infra Quant Llama

/-! ## Configuration -/

/-- The dimensions that the loader reads. -/
structure Qwen35Config where
  dModel : Nat
  nLayers : Nat
  dFf : Nat
  vocab : Nat
  nHeads : Nat
  nKvHeads : Nat
  headDim : Nat
  convKernel : Nat
  nKHeads : Nat
  nVHeads : Nat
  keyHeadDim : Nat
  valueHeadDim : Nat
  /-- Whether the block is a gated delta net, by block. -/
  recurrent : List Bool
  deriving Repr

namespace Qwen35Config

def need (g : Gguf) (suffix : String) : Checked GarudaError Nat :=
  match g.archU64 suffix with
  | some n => .ok n.toNat
  | none => .err (.model s!"gguf is missing qwen35.{suffix}")

/-- Which blocks are recurrent: as the file lists them, or all but the last of each group. -/
def recurrentLayers (g : Gguf) (nLayers interval : Nat) : List Bool :=
  match (g.get "qwen35.attention.recurrent_layers").bind Value.asArray with
  | some list =>
    if nLayers ≤ list.length then
      (list.take nLayers).map fun v => v.asBool.getD false
    else (List.range nLayers).map fun l => (l + 1) % interval != 0
  | none => (List.range nLayers).map fun l => (l + 1) % interval != 0

/-- Refuses with `msg` unless `p`. -/
def require (p : Prop) [Decidable p] (msg : String) : Checked GarudaError Unit :=
  if p then .ok () else .err (.model msg)

def checkArchitecture (g : Gguf) : Checked GarudaError Unit :=
  match g.architecture with
  | some "qwen35" => .ok ()
  | some "qwen35moe" =>
    .err (.model ("architecture 'qwen35moe' is not supported: this backend runs the dense "
      ++ "Qwen3.5 series, whose blocks have a single feed-forward network"))
  | other =>
    let found := other.getD "unknown"
    .err (.model s!"architecture '{found}' is not Qwen3.5")

def fromGguf (g : Gguf) : Checked GarudaError Qwen35Config := do
  checkArchitecture g
  let dModel ← need g "embedding_length"
  let nBlocks ← need g "block_count"
  let nNextn := ((g.archU64 "nextn_predict_layers").map UInt64.toNat).getD 0
  require (nNextn < nBlocks)
    (s!"qwen35.nextn_predict_layers ({nNextn}) leaves no decoder blocks out of "
      ++ s!"                 {nBlocks}")
  -- the prediction blocks sit after the stack and are not part of it
  let nLayers := nBlocks - nNextn
  let nHeads ← need g "attention.head_count"
  let nKvHeads ← need g "attention.head_count_kv"
  let headDim ← need g "attention.key_length"
  let valueLength := ((g.archU64 "attention.value_length").map UInt64.toNat).getD headDim
  let dFf ← need g "feed_forward_length"
  let convKernel ← need g "ssm.conv_kernel"
  let keyHeadDim ← need g "ssm.state_size"
  let nKHeads ← need g "ssm.group_count"
  let nVHeads ← need g "ssm.time_step_rank"
  let inner ← need g "ssm.inner_size"
  require (nHeads ≠ 0 ∧ nKvHeads ≠ 0 ∧ nHeads % nKvHeads = 0)
    s!"head_count {nHeads} must be a non-zero multiple of head_count_kv {nKvHeads}"
  require (headDim = valueLength)
    (s!"attention key_length {headDim} and value_length {valueLength} differ, "
      ++ "which this backend does not implement")
  require (nKHeads ≠ 0 ∧ nVHeads ≠ 0 ∧ nVHeads % nKHeads = 0)
    (s!"ssm.time_step_rank {nVHeads} must be a non-zero multiple of "
      ++ s!"ssm.group_count {nKHeads}")
  require (2 ≤ convKernel) s!"ssm.conv_kernel {convKernel} must be at least 2"
  require (inner % nVHeads = 0)
    s!"ssm.inner_size {inner} is not divisible by ssm.time_step_rank {nVHeads}"
  let valueHeadDim := inner / nVHeads
  require (valueHeadDim = keyHeadDim)
    (s!"delta net key heads are {keyHeadDim} wide and value heads "
      ++ s!"{valueHeadDim}; this backend implements the square case the "
      ++ "published checkpoints use")
  let interval := ((g.archU64 "full_attention_interval").map UInt64.toNat).getD 4
  require (interval ≠ 0) "qwen35.full_attention_interval must be non-zero"
  match (g.get "tokenizer.ggml.tokens").bind Value.asArray with
  | none => .err (.model "gguf has no token list")
  | some tokens =>
    .ok { dModel, nLayers, dFf, vocab := tokens.length, nHeads, nKvHeads, headDim, convKernel,
          nKHeads, nVHeads, keyHeadDim, valueHeadDim,
          recurrent := recurrentLayers g nLayers interval }

variable (b : Build) (cfg : Qwen35Config)

/-- Width of one stored key/value vector. -/
def kvDim : Checked GarudaError Nat := b.fit (cfg.nKvHeads * cfg.headDim)

/-- Concatenated width of all attention heads. -/
def attnDim : Checked GarudaError Nat := b.fit (cfg.nHeads * cfg.headDim)

def valueDim : Checked GarudaError Nat := b.fit (cfg.nVHeads * cfg.valueHeadDim)

/-- Query, key and value width of a delta net block's joint projection. -/
def convDim : Checked GarudaError Nat := do
  let heads ← b.fit (2 * cfg.nKHeads)
  let keys ← b.fit (heads * cfg.keyHeadDim)
  let values ← b.fit (cfg.nVHeads * cfg.valueHeadDim)
  b.fit (keys + values)

end Qwen35Config

/-! ## Spans -/

/-- Digits after an optional sign. -/
def dropSign : List Char → List Char
  | '+' :: rest => rest
  | cs => cs

/-- `str::parse::<usize>`. -/
def parseUsize (cs : List Char) : Option Nat :=
  let digits := dropSign cs
  if digits = [] ∨ digits.all Char.isDigit = false then none
  else if Nat.ofDigitChars 10 digits 0 < 2 ^ 64 then some (Nat.ofDigitChars 10 digits 0)
  else none

/-- The block that a tensor's name puts it in. -/
def blockIndex (name : String) : Option Nat :=
  match name.toList with
  | 'b' :: 'l' :: 'k' :: '.' :: rest =>
    if '.' ∈ rest then parseUsize (rest.takeWhile (· != '.')) else none
  | _ => none

/-- `unwrap_or(0)`, of a length in bytes. -/
def lengthOrZero (x : Checked GarudaError Nat) : Checked GarudaError Nat :=
  match x with
  | .ok n => .ok n
  | .err _ => .ok 0
  | .panic => .panic

/-- Widens the block's first and last byte by one tensor. -/
def spanStep (b : Build) (g : Gguf) (spans : List (Nat × Nat)) (t : TensorInfo) :
    Checked GarudaError (List (Nat × Nat)) :=
  match blockIndex t.name with
  | none => .ok spans
  | some l =>
    if spans.length ≤ l then .ok spans
    else do
      let start ← b.fit (g.dataOffset + t.offset.toNat)
      let n ← t.nElements b
      let len ← lengthOrZero (byteSize b t.ggmlType n)
      let stop ← b.fit (start + len)
      .ok (spans.modify l fun span => (min span.1 start, max span.2 stop))

/-- `usize::MAX`. -/
def usizeMax : Nat := 2 ^ 64 - 1

def spanOf (b : Build) (span : Nat × Nat) : Checked GarudaError (Nat × Nat) :=
  if span.1 = usizeMax then .ok (0, 0)
  else do
    let len ← b.sub span.2 span.1
    .ok (span.1, len)

/-- Where each block's weights live in the file: start and length. -/
def blockSpans (b : Build) (g : Gguf) (nLayers : Nat) : Checked GarudaError (List (Nat × Nat)) := do
  let spans ← g.tensors.foldlM (spanStep b g) (List.replicate nLayers (usizeMax, 0))
  spans.mapM (spanOf b)

/-- Spends the budget on the blocks in order: which it pins, and how many bytes that takes. -/
def pinBlocks (budget : Nat) : List (Nat × Nat) → List Bool × Nat
  | [] => ([], 0)
  | (_, len) :: spans =>
    if 0 < len ∧ len ≤ budget then
      let (pinned, used) := pinBlocks (budget - len) spans
      (true :: pinned, len + used)
    else
      let (pinned, used) := pinBlocks budget spans
      (false :: pinned, used)

/-! ## The backend -/

inductive Mixer (K : Type) where
  | attn (wqg wk wv wo : Llama.Weight K) (qNorm kNorm : List K)
  | linear (wqkv wz : Llama.Weight K) (conv : List K) (wbeta walpha : Llama.Weight K)
      (dtBias a norm : List K) (wout : Llama.Weight K)

structure Layer (K : Type) where
  attnNorm : List K
  postAttnNorm : List K
  mixer : Mixer K
  ffnGate : Llama.Weight K
  ffnUp : Llama.Weight K
  ffnDown : Llama.Weight K

structure Qwen35Backend (K : Type) where
  cfg : Qwen35Config
  tokenEmbd : Llama.Weight K
  outputNorm : List K
  output : Llama.Weight K
  layers : List (Layer K)
  layerSpans : List (Nat × Nat)
  pinnedBytes : Nat

variable {K : Type} [Floats K]

/-- The name of a tensor of block `l`. -/
def blockTensor (l : Nat) (suffix : String) : String := s!"blk.{l}.{suffix}"

/-- The name of a matrix or a norm of block `l`. -/
def weightName (l : Nat) (name : String) : String := blockTensor l s!"{name}.weight"

/-- A weight of a block: out of the block's own buffer, or out of the file. -/
def weightAt (b : Build) (g : Gguf) (bytes : Bytes) (mmap : Option Bytes)
    (held : Option (Bytes × Nat)) (name : String) (rows cols : Nat) :
    Checked GarudaError (Llama.Weight K) :=
  match held with
  | some (src, base) => pinnedWeight b g (.owned src) base name rows cols
  | none => loadWeight b g bytes mmap name rows cols

def loadMixer (b : Build) (g : Gguf) (bytes : Bytes) (mmap : Option Bytes) (cfg : Qwen35Config)
    (l : Nat) (held : Option (Bytes × Nat)) (recurrent : Bool) : Checked GarudaError (Mixer K) := do
  let p := weightName l
  let weight := weightAt b g bytes mmap held
  if recurrent then
    let convDim ← cfg.convDim b
    let wqkv ← weight (p "attn_qkv") convDim cfg.dModel
    let valueDim ← cfg.valueDim b
    let wz ← weight (p "attn_gate") valueDim cfg.dModel
    let taps ← b.fit (convDim * cfg.convKernel)
    let conv ← loadNorm b g bytes (p "ssm_conv1d") taps
    let wbeta ← weight (p "ssm_beta") cfg.nVHeads cfg.dModel
    let walpha ← weight (p "ssm_alpha") cfg.nVHeads cfg.dModel
    let dtBias ← loadNorm b g bytes (blockTensor l "ssm_dt.bias") cfg.nVHeads
    let a ← loadNorm b g bytes (blockTensor l "ssm_a") cfg.nVHeads
    let norm ← loadNorm b g bytes (p "ssm_norm") cfg.valueHeadDim
    let wout ← weight (p "ssm_out") cfg.dModel valueDim
    .ok (.linear wqkv wz conv wbeta walpha dtBias a norm wout)
  else
    let attnDim ← cfg.attnDim b
    let both ← b.fit (2 * attnDim)
    let wqg ← weight (p "attn_q") both cfg.dModel
    let kvDim ← cfg.kvDim b
    let wk ← weight (p "attn_k") kvDim cfg.dModel
    let wv ← weight (p "attn_v") kvDim cfg.dModel
    let wo ← weight (p "attn_output") cfg.dModel attnDim
    let qNorm ← loadNorm b g bytes (p "attn_q_norm") cfg.headDim
    let kNorm ← loadNorm b g bytes (p "attn_k_norm") cfg.headDim
    .ok (.attn wqg wk wv wo qNorm kNorm)

def loadLayer (b : Build) (g : Gguf) (bytes : Bytes) (mmap : Option Bytes) (cfg : Qwen35Config)
    (l : Nat) (held : Option (Bytes × Nat)) : Checked GarudaError (Layer K) := do
  let p := weightName l
  let weight := weightAt b g bytes mmap held
  match cfg.recurrent[l]? with
  | none => .panic
  | some recurrent =>
    let mixer ← loadMixer b g bytes mmap cfg l held recurrent
    let attnNorm ← loadNorm b g bytes (p "attn_norm") cfg.dModel
    let postAttnNorm ← loadNorm b g bytes (p "post_attention_norm") cfg.dModel
    let ffnGate ← weight (p "ffn_gate") cfg.dFf cfg.dModel
    let ffnUp ← weight (p "ffn_up") cfg.dFf cfg.dModel
    let ffnDown ← weight (p "ffn_down") cfg.dModel cfg.dFf
    .ok { attnNorm, postAttnNorm, mixer, ffnGate, ffnUp, ffnDown }

/-- Reads a span of the file into memory of this process. -/
def pin (b : Build) (bytes : Bytes) (start len : Nat) : Checked GarudaError Bytes := do
  let stop ← b.fit (start + len)
  if bytes.length < stop then .err (.model "a block runs past the end of the file")
  else index bytes start stop

/-- The buffer of a pinned block, and where it starts in the file. -/
def hold (b : Build) (bytes : Bytes) (span : Nat × Nat) (pinned : Bool) :
    Checked GarudaError (Option (Bytes × Nat)) :=
  if pinned then do
    let src ← pin b bytes span.1 span.2
    .ok (some (src, span.1))
  else .ok none

/-- The blocks from `l` on, with their spans and whether they are pinned. -/
def loadLayers (b : Build) (g : Gguf) (bytes : Bytes) (mmap : Option Bytes) (cfg : Qwen35Config)
    (l : Nat) : List ((Nat × Nat) × Bool) → Checked GarudaError (List (Layer K))
  | [] => .ok []
  | (span, pinned) :: rest => do
    let held ← hold b bytes span pinned
    let layer ← loadLayer b g bytes mmap cfg l held
    let layers ← loadLayers b g bytes mmap cfg (l + 1) rest
    .ok (layer :: layers)

/-- Where the output head lies, if the file has one of a known length. -/
def headSpan (b : Build) (g : Gguf) (cfg : Qwen35Config) :
    Checked GarudaError (Option (Nat × Nat)) :=
  match g.tensor "output.weight" with
  | none => .ok none
  | some t => do
    let n ← b.fit (cfg.vocab * cfg.dModel)
    match byteSize b t.ggmlType n with
    | .err _ => .ok none
    | .panic => .panic
    | .ok len => do
      let start ← b.fit (g.dataOffset + t.offset.toNat)
      .ok (some (start, len))

/-- The output head, of its own buffer if the budget pins it; the embeddings if there is none. -/
def loadOutput (b : Build) (g : Gguf) (bytes : Bytes) (mmap : Option Bytes) (cfg : Qwen35Config)
    (held : Option (Nat × Nat)) (tokenEmbd : Llama.Weight K) :
    Checked GarudaError (Llama.Weight K) :=
  match g.tensor "output.weight" with
  | none => .ok tokenEmbd
  | some _ =>
    match held with
    | some (start, len) => do
      let src ← pin b bytes start len
      pinnedWeight b g (.owned src) start "output.weight" cfg.vocab cfg.dModel
    | none => loadWeight b g bytes mmap "output.weight" cfg.vocab cfg.dModel

namespace Qwen35Backend

/-- Loads, holding up to `pinBudget` bytes of weights in buffers of this process. -/
def fromGgufPinned (b : Build) (g : Gguf) (bytes : Bytes) (mmap : Option Bytes)
    (pinBudget : Nat) : Checked GarudaError (Qwen35Backend K) := do
  let cfg ← Qwen35Config.fromGguf g
  let spans ← blockSpans b g cfg.nLayers
  -- with no map the weights are expanded already, and there is nothing to pin
  let budget := if mmap.isSome then pinBudget else 0
  let head ← headSpan b g cfg
  let heldHead := head.filter fun span => decide (span.2 ≤ budget)
  let headBytes := (heldHead.map Prod.snd).getD 0
  let (pinned, used) := pinBlocks (budget - headBytes) spans
  let tokenEmbd ← loadWeight b g bytes mmap "token_embd.weight" cfg.vocab cfg.dModel
  let outputNorm ← loadNorm b g bytes "output_norm.weight" cfg.dModel
  let output ← loadOutput b g bytes mmap cfg heldHead tokenEmbd
  let layers ← loadLayers b g bytes mmap cfg 0 (spans.zip pinned)
  .ok { cfg, tokenEmbd, outputNorm, output, layers, pinnedBytes := headBytes + used,
        layerSpans := (spans.zip pinned).map fun (span, held) => if held then (0, 0) else span }

end Qwen35Backend

end Garuda
