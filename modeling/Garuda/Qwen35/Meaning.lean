import Garuda.Llama.Meaning
import Garuda.Qwen35.Forward

/-!
# What the blocks mean

The blocks of a backend whose products are functions of one vector at a time, as a causal stack.

* `Meaning` is these functions and the small tensors; it says nothing of where a weight lives.
* `DeltaMeaning.after` is the state of a recurrent block after the inputs it has had.
* `stack` is the blocks, whose entries are what a block stores and, for a recurrent one, its input.
* `Sound` says that a backend's weights compute a `Meaning`, each out of the block it is handed, and
  `model` is the backend as a function of the tokens seen.
-/

namespace Garuda

open Infra Quant Simd Attention

variable {σ : Type}

namespace Qwen35

/-! ## Data -/

/-- The products and the norms of an attention block. -/
structure AttnMeaning where
  qg : List F32 → List F32
  k : List F32 → List F32
  v : List F32 → List F32
  o : List F32 → List F32
  qNorm : List F32
  kNorm : List F32

/-- The products and the small tensors of a recurrent block. -/
structure DeltaMeaning where
  qkv : List F32 → List F32
  z : List F32 → List F32
  beta : List F32 → List F32
  alpha : List F32 → List F32
  out : List F32 → List F32
  params : DeltaParams

inductive MixerMeaning where
  | attn (A : AttnMeaning)
  | delta (D : DeltaMeaning)

def MixerMeaning.recurrent : MixerMeaning → Bool
  | attn _ => false
  | delta _ => true

structure LayerMeaning where
  attnNorm : List F32
  postAttnNorm : List F32
  mixer : MixerMeaning
  gate : List F32 → List F32
  up : List F32 → List F32
  down : List F32 → List F32

structure Meaning where
  embed : Token → List F32
  layer : Nat → LayerMeaning
  outputNorm : List F32
  output : List F32 → List F32

variable [Analytic F32]

section Stack

variable (cfg : Qwen35Config) (nums : Qwen35Numbers) (dot : List F32 → List F32 → F32)

/-! ## Attention -/

/-- Each of `n` heads normed, scaled and turned. -/
def turned (n : Nat) (weight : List F32) (pos : Nat) (x : List F32) : List F32 :=
  (List.range n).flatMap fun h => turnHead nums weight pos (rowOf cfg.headDim h x)

def queriesOf (row : List F32) : List F32 :=
  (List.range cfg.nHeads).flatMap fun h => (rowOf (2 * cfg.headDim) h row).take cfg.headDim

def gatesOf (row : List F32) : List F32 :=
  (List.range cfg.nHeads).flatMap fun h => (rowOf (2 * cfg.headDim) h row).drop cfg.headDim

/-- The key and the value of the token at `pos`. -/
def AttnMeaning.entry (A : AttnMeaning) (pos : Nat) (h : List F32) : KvPair :=
  (turned cfg nums cfg.nKvHeads A.kNorm pos (A.k h), A.v h)

/-- What a row of the query projection finds among the entries of its window, gated. -/
def contextOf (window : Option Nat) (qNorm : List F32) (es : List KvPair) (row : List F32) :
    List F32 :=
  mulAssign (headsOf dot cfg.nHeads cfg.headDim (cfg.nHeads / cfg.nKvHeads)
      (es.drop (windowStart window es.length))
      (turned cfg nums cfg.nHeads qNorm (es.length - 1) (queriesOf cfg row)))
    ((gatesOf cfg row).map sigmoid)

/-! ## The gated delta net -/

/-- A token's row of each of the projections. -/
def DeltaMeaning.rows (D : DeltaMeaning) (h : List F32) : DeltaRows where
  qkv := D.qkv h
  z := D.z h
  beta := D.beta h
  alpha := D.alpha h

/-- A token's turn, after the inputs `hs`. -/
def DeltaMeaning.turn (D : DeltaMeaning) (s : List F32 × List F32) (h : List F32) :
    (List F32 × List F32) × List F32 := recurred cfg nums.rmsEps D.params s (D.rows h)

/-- The window and the matrices after the inputs `hs`. -/
def DeltaMeaning.after (D : DeltaMeaning) (hs : List (List F32)) : List F32 × List F32 :=
  hs.foldl (fun s h => (D.turn cfg nums s h).1)
    ((LinearState.zeros cfg.windowLen cfg.stateLen).conv,
      (LinearState.zeros cfg.windowLen cfg.stateLen).state)

/-! ## The stack -/

/-- What a block keeps for a token: what it stores, and the input if it is recurrent. -/
def MixerMeaning.entry (pos : Nat) (h : List F32) : MixerMeaning → KvPair × List F32
  | attn A => (A.entry cfg nums pos h, [])
  | delta _ => (([], []), h)

/-- What comes out of the mixer for the last of the tokens whose entries these are. -/
def MixerMeaning.out (window : Option Nat) (es : List (KvPair × List F32)) (h : List F32) :
    MixerMeaning → List F32
  | attn A => A.o (contextOf cfg nums dot window A.qNorm (es.map Prod.fst) (A.qg h))
  | delta D => D.out (D.turn cfg nums (D.after cfg nums (es.dropLast.map Prod.snd)) h).2

def LayerMeaning.feedForward (L : LayerMeaning) (h : List F32) : List F32 :=
  L.down (mulAssign ((L.gate h).map silu) (L.up h))

def LayerMeaning.outOf (L : LayerMeaning) (window : Option Nat) (es : List (KvPair × List F32))
    (x : List F32) : List F32 :=
  let x' := addAssign x (L.mixer.out cfg nums dot window es (normed nums x L.attnNorm))
  addAssign x' (L.feedForward (normed nums x' L.postAttnNorm))

/-- The blocks of a model, attending over a window. -/
def stack (M : Meaning) (window : Option Nat) : Causal Token (List F32) (KvPair × List F32) where
  embed := M.embed
  entry l pos x := (M.layer l).mixer.entry cfg nums pos (normed nums x (M.layer l).attnNorm)
  out l es x := (M.layer l).outOf cfg nums dot window es x

variable {cfg nums dot}

@[simp] theorem length_normed (x weight : List F32) : (normed nums x weight).length = x.length := by
  rw [normed, length_mulAssign, length_rmsnorm]

@[simp] theorem length_turnHead (weight : List F32) (pos : Nat) (head : List F32) :
    (turnHead nums weight pos head).length = head.length := by
  rw [turnHead, length_ropePartial, length_normed]

@[simp] theorem length_outOf (L : LayerMeaning) (window : Option Nat)
    (es : List (KvPair × List F32)) (x : List F32) :
    (L.outOf cfg nums dot window es x).length = x.length := by
  rw [LayerMeaning.outOf, length_addAssign, length_addAssign]

theorem length_turned {n : Nat} {x : List F32} (weight : List F32) (pos : Nat)
    (hx : x.length = n * cfg.headDim) :
    (turned cfg nums n weight pos x).length = n * cfg.headDim :=
  length_flatMap_range fun h hlt => by rw [length_turnHead, length_rowOf (hx ▸ row_le hlt)]

theorem length_contextOf (window : Option Nat) (qNorm : List F32) (es : List KvPair)
    (row : List F32) :
    (contextOf cfg nums dot window qNorm es row).length = cfg.attnWidth := by
  rw [contextOf, length_mulAssign, length_headsOf]
  rfl

omit [Analytic F32] in
theorem splitHeads_eq {ε : Type} {row : List F32} (hrow : row.length = 2 * cfg.attnWidth) :
    (splitHeads cfg.nHeads cfg.headDim row : Checked ε _)
      = .ok (queriesOf cfg row, gatesOf cfg row) := by
  have hlen : row.length = cfg.nHeads * (2 * cfg.headDim) := by
    rw [hrow, Qwen35Config.attnWidth, Nat.mul_left_comm]
  rw [splitHeads, Checked.mapM_eq_ok fun h hh => rowAt_eq hlen (List.mem_range.mp hh),
    Checked.ok_bind, List.flatMap_map, List.flatMap_map]
  rfl

omit [Analytic F32] in
theorem length_queriesOf {row : List F32} (hrow : row.length = 2 * cfg.attnWidth) :
    (queriesOf cfg row).length = cfg.nHeads * cfg.headDim := by
  have hlen : row.length = cfg.nHeads * (2 * cfg.headDim) := by
    rw [hrow, Qwen35Config.attnWidth, Nat.mul_left_comm]
  refine length_flatMap_range fun h hlt => ?_
  rw [List.length_take, length_rowOf (hlen ▸ row_le hlt)]
  omega

theorem DeltaMeaning.after_concat (D : DeltaMeaning) (hs : List (List F32)) (h : List F32) :
    D.after cfg nums (hs ++ [h]) = (D.turn cfg nums (D.after cfg nums hs) h).1 := by
  rw [DeltaMeaning.after, List.foldl_append]
  rfl

end Stack

/-! ## Backends -/

section Sound

variable (host : Host) (block : Option (Bytes × Nat)) (cfg : Qwen35Config) (limit : Nat)

/-- The weights of a mixer compute its products, for batches of up to `limit` tokens. -/
inductive MixerSound : Mixer F32 → MixerMeaning → Prop where
  | attn {wqg wk wv wo : Llama.Weight F32} {A : AttnMeaning}
      (qg : wqg.MeansIn host.toHost block (2 * cfg.attnWidth) cfg.dModel limit A.qg)
      (k : wk.MeansIn host.toHost block cfg.kvWidth cfg.dModel limit A.k)
      (v : wv.MeansIn host.toHost block cfg.kvWidth cfg.dModel limit A.v)
      (o : wo.MeansIn host.toHost block cfg.dModel cfg.attnWidth limit A.o) :
      MixerSound (.attn wqg wk wv wo A.qNorm A.kNorm) (.attn A)
  | delta {wqkv wz wbeta walpha wout : Llama.Weight F32} {D : DeltaMeaning}
      (qkv : wqkv.MeansIn host.toHost block cfg.convWidth cfg.dModel limit D.qkv)
      (z : wz.MeansIn host.toHost block cfg.valueWidth cfg.dModel limit D.z)
      (beta : wbeta.MeansIn host.toHost block cfg.nVHeads cfg.dModel limit D.beta)
      (alpha : walpha.MeansIn host.toHost block cfg.nVHeads cfg.dModel limit D.alpha)
      (out : wout.MeansIn host.toHost block cfg.dModel cfg.valueWidth limit D.out)
      (params : D.params.Fits cfg) :
      MixerSound (.linear wqkv wz D.params.conv wbeta walpha D.params.dtBias D.params.a
        D.params.norm wout) (.delta D)

/-- The same of a block. -/
structure LayerSound (layer : Layer F32) (L : LayerMeaning) : Prop where
  attnNorm : layer.attnNorm = L.attnNorm
  postAttnNorm : layer.postAttnNorm = L.postAttnNorm
  mixer : MixerSound host block cfg limit layer.mixer L.mixer
  gate : layer.ffnGate.MeansIn host.toHost block cfg.dFf cfg.dModel limit L.gate
  up : layer.ffnUp.MeansIn host.toHost block cfg.dFf cfg.dModel limit L.up
  down : layer.ffnDown.MeansIn host.toHost block cfg.dModel cfg.dFf limit L.down

end Sound

/-- The shapes fit each other, and the weights compute the model's products, each block out of what
it is lent. -/
structure Sound (host : Host) (b : Qwen35Runner) (limit : Nat) (M : Meaning) : Prop where
  grouped : b.loaded.cfg.nKvHeads ∣ b.loaded.cfg.nHeads
  keyHeads : 0 < b.loaded.cfg.nKHeads
  size : b.loaded.layers.length = b.loaded.cfg.nLayers
  recurrent : ∀ l, l < b.loaded.cfg.nLayers →
    (M.layer l).mixer.recurrent = b.loaded.cfg.recurrent.getD l false
  vocab_pos : 0 < b.loaded.cfg.vocab
  vocab_le : b.loaded.cfg.vocab ≤ 2 ^ 32
  embed : ∀ t : Token, t.toNat < b.loaded.cfg.vocab →
    b.loaded.tokenEmbd.row host.toHost t.toNat = .ok (M.embed t) ∧
      (M.embed t).length = b.loaded.cfg.dModel
  layers : ∀ l layer, b.loaded.layers[l]? = some layer →
    LayerSound host (host.lent l) b.loaded.cfg limit layer (M.layer l)
  outputNorm : b.loaded.outputNorm = M.outputNorm
  output : b.loaded.output.Means host.toHost b.loaded.cfg.vocab b.loaded.cfg.dModel limit M.output
  outputOne : ∀ h, h.length = b.loaded.cfg.dModel → b.headOne host h = .ok (M.output h)

/-- A model, as a function of the tokens seen. -/
def modelOf (cfg : Qwen35Config) (nums : Qwen35Numbers) (dot : List F32 → List F32 → F32)
    (M : Meaning) (window : Option Nat) (vocab_pos : 0 < cfg.vocab) (vocab_le : cfg.vocab ≤ 2 ^ 32)
    (width : ∀ h, (M.output h).length = cfg.vocab) : TokenModel F32 where
  vocab := cfg.vocab
  vocab_pos := vocab_pos
  vocab_le := vocab_le
  entry l ts := ((stack cfg nums dot M window).entryAt l ts).1
  recurrent l := (M.layer l).mixer.recurrent
  summary l ts :=
    match (M.layer l).mixer with
    | .attn _ => ([], [])
    | .delta D => D.after cfg nums (((stack cfg nums dot M window).entries l ts).map Prod.snd)
  hidden ts := normed nums ((stack cfg nums dot M window).input cfg.nLayers ts) M.outputNorm
  logits ts := M.output (normed nums ((stack cfg nums dot M window).input cfg.nLayers ts) M.outputNorm)
  logits_length _ := width _

end Qwen35

end Garuda
