import Garuda.Llama.Whole

/-!
# Loading a backend

`from_gguf` of the `llama` backend: the architecture parameters, and every tensor under its name.

`fromGguf_whole` says that a backend that was loaded is whole, if no size wraps and the rows of its
packed matrices are whole blocks. If its embeddings are finite as well (`Loads`), it serves the
model that the file describes:

* `loaded_serves`, `loaded_honours` — what the runtime is owed
* `loaded_refuses_unknown` — a token that is not known, in the middle of a prompt
* `step_all_or_nothing` — a decode step of several sequences
-/

namespace Garuda

open Infra Quant SeqState

/-- An `{arch}.{suffix}` metadata number. -/
def Gguf.archF32 (g : Gguf) (suffix : String) : Option F32 := do
  let arch ← g.architecture
  let v ← g.get s!"{arch}.{suffix}"
  v.asF32

namespace Llama

/-! ## The code -/

namespace LlamaConfig

def need (g : Gguf) (suffix : String) : Checked GarudaError Nat :=
  match g.archU64 suffix with
  | some n => .ok n.toNat
  | none => .err (.model s!"gguf is missing llama.{suffix}")

def checkArchitecture (g : Gguf) : Checked GarudaError Unit :=
  match g.architecture with
  | some "llama" => .ok ()
  | other =>
    let found := other.getD "unknown"
    .err (.model (s!"architecture '{found}' is not supported "
      ++ "(this runtime loads llama and qwen35)"))

/-- How the heads divide the model between them. -/
def checkHeads (dModel heads kvHeads : Nat) : Checked GarudaError Unit :=
  if heads = 0 ∨ kvHeads = 0 ∨ dModel % heads ≠ 0 then
    .err (.model (s!"inconsistent head configuration: d_model={dModel}, heads={heads}, "
      ++ s!"kv_heads={kvHeads}"))
  else if heads % kvHeads ≠ 0 then
    .err (.model s!"head_count {heads} is not a multiple of head_count_kv {kvHeads}")
  else .ok ()

def fromGguf (g : Gguf) : Checked GarudaError LlamaConfig := do
  checkArchitecture g
  let dModel ← need g "embedding_length"
  let nHeads ← need g "attention.head_count"
  let nKvHeads := ((g.archU64 "attention.head_count_kv").map UInt64.toNat).getD nHeads
  let nLayers ← need g "block_count"
  let dFf ← need g "feed_forward_length"
  checkHeads dModel nHeads nKvHeads
  match (g.get "tokenizer.ggml.tokens").bind Value.asArray with
  | none => .err (.model "gguf has no token list")
  | some tokens =>
    .ok { dModel, nLayers, nHeads, nKvHeads, headDim := dModel / nHeads, dFf
          vocab := tokens.length
          -- `1e-5` and `10_000.0`
          rmsEps := (g.archF32 "attention.layer_norm_rms_epsilon").getD ⟨0x3727c5ac⟩
          ropeTheta := (g.archF32 "rope.freq_base").getD ⟨0x461c4000⟩
          nExperts := ((g.archU64 "expert_count").map UInt64.toNat).getD 0
          nExpertsUsed := ((g.archU64 "expert_used_count").map UInt64.toNat).getD 0 }

end LlamaConfig

/-- The name of a tensor of block `l`. -/
def blockName (l : Nat) (name : String) : String := s!"blk.{l}.{name}.weight"

/-- The name of the tensor of one expert of block `l`, where they are not stacked. -/
def expertName (l : Nat) (name : String) (e : Nat) : String := s!"blk.{l}.{name}.{e}.weight"

section Code

variable [Analytic F32] (b : Build) (g : Gguf) (bytes : Bytes) (mmap : Option Bytes)
  (cfg : LlamaConfig) (l : Nat)

/-- The feed-forward of a block: its experts if there are any, stacked or not. -/
def loadFfn : Checked GarudaError (Ffn F32) := do
  let p := blockName l
  let pe := expertName l
  let ne := cfg.nExperts
  if 0 < ne ∧ (g.tensor (p "ffn_gate_exps")).isSome then do
    let router ← loadWeight b g bytes mmap (p "ffn_gate_inp") ne cfg.dModel
    let gate ← loadStacked b g bytes mmap (p "ffn_gate_exps") ne cfg.dFf cfg.dModel
    let up ← loadStacked b g bytes mmap (p "ffn_up_exps") ne cfg.dFf cfg.dModel
    let down ← loadStacked b g bytes mmap (p "ffn_down_exps") ne cfg.dModel cfg.dFf
    .ok (.moe router { gate, up, down })
  else if 0 < ne ∧ (g.tensor (pe "ffn_gate" 0)).isSome then do
    let router ← loadWeight b g bytes mmap (p "ffn_gate_inp") ne cfg.dModel
    let gate ← loadSplit b g bytes mmap (pe "ffn_gate") ne cfg.dFf cfg.dModel
    let up ← loadSplit b g bytes mmap (pe "ffn_up") ne cfg.dFf cfg.dModel
    let down ← loadSplit b g bytes mmap (pe "ffn_down") ne cfg.dModel cfg.dFf
    .ok (.moe router { gate, up, down })
  else do
    let gate ← loadWeight b g bytes mmap (p "ffn_gate") cfg.dFf cfg.dModel
    let up ← loadWeight b g bytes mmap (p "ffn_up") cfg.dFf cfg.dModel
    let down ← loadWeight b g bytes mmap (p "ffn_down") cfg.dModel cfg.dFf
    .ok (.dense { gate := .stacked gate, up := .stacked up, down := .stacked down })

def loadLayer : Checked GarudaError Layer := do
  let p := blockName l
  let ffn ← loadFfn b g bytes mmap cfg l
  let attnNorm ← loadNorm b g bytes (p "attn_norm") cfg.dModel
  let wq ← loadWeight b g bytes mmap (p "attn_q") cfg.dModel cfg.dModel
  let wk ← loadWeight b g bytes mmap (p "attn_k") cfg.kvDim cfg.dModel
  let wv ← loadWeight b g bytes mmap (p "attn_v") cfg.kvDim cfg.dModel
  let wo ← loadWeight b g bytes mmap (p "attn_output") cfg.dModel cfg.dModel
  let ffnNorm ← loadNorm b g bytes (p "ffn_norm") cfg.dModel
  .ok { attnNorm, wq, wk, wv, wo, ffnNorm, ffn }

/-- The output head; the embeddings if there is none. -/
def loadOutput (tokenEmbd : Weight F32) : Checked GarudaError (Weight F32) :=
  if (g.tensor "output.weight").isSome then
    loadWeight b g bytes mmap "output.weight" cfg.vocab cfg.dModel
  else .ok tokenEmbd

namespace LlamaBackend

def fromGguf : Checked GarudaError LlamaBackend := do
  let cfg ← LlamaConfig.fromGguf g
  let tokenEmbd ← loadWeight b g bytes mmap "token_embd.weight" cfg.vocab cfg.dModel
  let outputNorm ← loadNorm b g bytes "output_norm.weight" cfg.dModel
  let output ← loadOutput b g bytes mmap cfg tokenEmbd
  let layers ← (List.range cfg.nLayers).mapM fun l => loadLayer b g bytes mmap cfg l
  -- one token at a time, unless somebody asks for more
  .ok { cfg, tokenEmbd, outputNorm, output, layers, prefillChunk := 1 }

/-- How many prompt tokens go through a layer together. -/
def withPrefillChunk (backend : LlamaBackend) (chunk : Nat) : LlamaBackend :=
  { backend with prefillChunk := max chunk 1 }

end LlamaBackend

end Code

/-! ## What was loaded -/

/-- No number that loading computes from the table of tensors wraps. -/
structure Tame (g : Gguf) : Prop where
  products : ∀ t ∈ g.tensors, ∀ ps, ps <+: t.dims → (ps.map UInt64.toNat).prod < 2 ^ 64
  stop : ∀ t ∈ g.tensors, ∀ m, t.bytes = some m → g.dataOffset + t.offset.toNat + m < 2 ^ 64

theorem Tame.noWrap {g : Gguf} (h : Tame g) {name : String} {t : TensorInfo}
    (ht : g.tensor name = some t) {rows cols : Nat} (hrows : rows < 2 ^ 64)
    (hcells : rows * cols < 2 ^ 64) (hcols : 4 * cols < 2 ^ 64) : NoWrap g t rows cols where
  products := h.products t (List.mem_of_find?_eq_some ht)
  height := hrows
  cells := hcells
  rowBytes _ hrb := (dataBytes_le hrb).trans_lt hcols
  stop := h.stop t (List.mem_of_find?_eq_some ht)

variable {K : Type}

/-- The rows of a packed matrix are whole blocks. -/
def Weight.Blocks : Weight K → Prop
  | .full _ _ => True
  | .packed qtype cols _ _ => (dataBytes qtype cols).isSome

/-- All matrices of an expert's. -/
def ExpertWeight.weights : ExpertWeight K → List (Weight K)
  | .stacked w => [w]
  | .split ws => ws

def Swiglu.weights (w : Swiglu K) : List (Weight K) :=
  w.gate.weights ++ w.up.weights ++ w.down.weights

def Ffn.weights : Ffn K → List (Weight K)
  | .dense w => w.weights
  | .moe router w => router :: w.weights

def Layer.weights (layer : Layer) : List (Weight F32) :=
  [layer.wq, layer.wk, layer.wv, layer.wo] ++ layer.ffn.weights

/-- All matrices of a backend. -/
def LlamaBackend.weights (b : LlamaBackend) : List (Weight F32) :=
  [b.tokenEmbd, b.output] ++ b.layers.flatMap Layer.weights

section Loaded

variable [Floats K] {b : Build} {g : Gguf} {file : Bytes} {packed : Bool} {name : String}
  {rows cols : Nat} {w : Weight K}

/-- Numbers that have been read fit into memory. -/
theorem expanded_size {t : TensorInfo} {vs : List K} (hfile : file.length < 2 ^ 63)
    (ht : g.tensor name = some t) (hno : NoWrap g t rows cols)
    (h : g.tensorF32 b file name = .ok vs) : 4 * vs.length < 2 ^ 63 := by
  have hlength : ∀ m, t.bytes = some m → m < 2 ^ 64 := fun m hm => by
    have := hno.stop m hm
    omega
  obtain ⟨t', m, ht', hm, hlen, hin, -⟩ := Gguf.reads_of_ok hfile ht hno.products hlength h
  rw [ht] at ht'
  cases ht'
  by_contra hbig
  rw [Gguf.tensorF32_of_some ht, TensorInfo.nElements_of_products hno.products b,
    Checked.ok_bind, byteSize_of_dataBytes b hm, Build.fit_of_lt b (hlength m hm), Checked.mapErr,
    Checked.ok_bind, Gguf.readAt_inside hfile hin, dequantize_large (by omega)] at h
  cases h

/-- **A matrix that was loaded is whole.** -/
theorem loadWeight_whole (hfile : file.length < 2 ^ 63) (hg : Tame g) (hrows : rows < 2 ^ 64)
    (hcells : rows * cols < 2 ^ 64) (hcols : 4 * cols < 2 ^ 64)
    (h : loadWeight b g file (if packed then some file else none) name rows cols = .ok w)
    (hblocks : w.Blocks) : w.Whole rows cols := by
  obtain ⟨t, hshaped, hload⟩ := Checked.bind_eq_ok h
  have ht := (shaped_eq_ok hshaped).1
  have hno := hg.noWrap ht hrows hcells hcols
  cases packed with
  | true =>
    obtain ⟨rfl, m, hm, hin⟩ := packed_place ht hno h
    obtain ⟨rb, hrb⟩ := Option.isSome_iff_exists.mp hblocks
    rw [dataBytes_mul hrb] at hm
    cases hm
    exact ⟨rfl, hfile, rb, hrb, hin⟩
  | false =>
    obtain ⟨data, hdata, hw⟩ := Checked.bind_eq_ok hload
    cases hw
    have hlength : ∀ m, t.bytes = some m → m < 2 ^ 64 := fun m hm => by
      have := hno.stop m hm
      omega
    obtain ⟨t', -, ht', -, hlen, -⟩ := Gguf.reads_of_ok hfile ht hno.products hlength hdata
    rw [ht] at ht'
    cases ht'
    refine ⟨rfl, ?_, expanded_size hfile ht hno hdata⟩
    rw [hlen, hno.elements_eq (shaped_eq_ok hshaped).2]

variable {ne block : Nat} {ew : ExpertWeight K}

theorem loadStacked_whole (hfile : file.length < 2 ^ 63) (hg : Tame g)
    (hrows : ne * block < 2 ^ 64) (hcells : ne * block * cols < 2 ^ 64) (hcols : 4 * cols < 2 ^ 64)
    (h : loadStacked b g file (if packed then some file else none) name ne block cols = .ok ew)
    (hblocks : ∀ w ∈ ew.weights, w.Blocks) : ew.Whole ne block cols := by
  obtain ⟨w, hw, rfl⟩ := loadStacked_eq_ok hrows h
  exact loadWeight_whole hfile hg hrows hcells hcols hw (hblocks w List.mem_cons_self)

theorem loadSplit_whole {names : Nat → String} (hfile : file.length < 2 ^ 63) (hg : Tame g)
    (hrows : block < 2 ^ 64) (hcells : block * cols < 2 ^ 64) (hcols : 4 * cols < 2 ^ 64)
    (h : loadSplit b g file (if packed then some file else none) names ne block cols = .ok ew)
    (hblocks : ∀ w ∈ ew.weights, w.Blocks) : ew.Whole ne block cols := by
  obtain ⟨ws, rfl, hws⟩ := loadSplit_eq_ok h
  intro e he
  obtain ⟨w, hw, hload⟩ := hws e he
  exact ⟨w, hw, loadWeight_whole hfile hg hrows hcells hcols hload
    (hblocks w (List.mem_of_getElem? hw))⟩

end Loaded

/-! ## A backend that was loaded -/

/-- No count of the numbers in a matrix wraps. -/
structure Cells (cfg : LlamaConfig) : Prop where
  embeddings : cfg.vocab * cfg.dModel < 2 ^ 64
  square : cfg.dModel * cfg.dModel < 2 ^ 64
  keys : cfg.kvDim * cfg.dModel < 2 ^ 64
  expert : cfg.dFf * cfg.dModel < 2 ^ 64
  experts : cfg.nExperts * cfg.dFf * cfg.dModel < 2 ^ 64
  dModel : 4 * cfg.dModel < 2 ^ 64
  dFf : 4 * cfg.dFf < 2 ^ 64

namespace LlamaConfig

theorem checkHeads_eq_ok {dModel heads kvHeads : Nat}
    (h : checkHeads dModel heads kvHeads = .ok ()) :
    heads * (dModel / heads) = dModel ∧ kvHeads ∣ heads := by
  rw [checkHeads] at h
  split_ifs at h with hzero hkv
  push Not at hzero hkv
  exact ⟨Nat.mul_div_cancel' (Nat.dvd_of_mod_eq_zero hzero.2.2), Nat.dvd_of_mod_eq_zero hkv⟩

/-- The heads of a model that is not refused divide it between them. -/
theorem fromGguf_heads {g : Gguf} {cfg : LlamaConfig} (h : fromGguf g = .ok cfg) :
    cfg.nHeads * cfg.headDim = cfg.dModel ∧ cfg.nKvHeads ∣ cfg.nHeads := by
  obtain ⟨-, -, h⟩ := Checked.bind_eq_ok h
  obtain ⟨dModel, -, h⟩ := Checked.bind_eq_ok h
  obtain ⟨nHeads, -, h⟩ := Checked.bind_eq_ok h
  obtain ⟨nLayers, -, h⟩ := Checked.bind_eq_ok h
  obtain ⟨dFf, -, h⟩ := Checked.bind_eq_ok h
  obtain ⟨_, hheads, h⟩ := Checked.bind_eq_ok h
  split at h
  · cases h
  · cases h
    exact checkHeads_eq_ok hheads

end LlamaConfig

section Backend

variable [Analytic F32] {b : Build} {g : Gguf} {file : Bytes} {packed : Bool} {cfg : LlamaConfig}
  {l : Nat}

theorem loadFfn_whole (hfile : file.length < 2 ^ 63) (hg : Tame g) (hd : 0 < cfg.dModel)
    (hf : 0 < cfg.dFf) (hcells : Cells cfg) {ffn : Ffn F32}
    (h : loadFfn b g file (if packed then some file else none) cfg l = .ok ffn)
    (hblocks : ∀ w ∈ ffn.weights, w.Blocks) : ffn.Whole cfg.nExperts cfg.dModel cfg.dFf := by
  have hrows : ∀ {rows cols : Nat}, 0 < cols → rows * cols < 2 ^ 64 → rows < 2 ^ 64 :=
    fun hpos hlt => (Nat.le_mul_of_pos_right _ hpos).trans_lt hlt
  have hexpert := hcells.expert
  have hexpert' : cfg.dModel * cfg.dFf < 2 ^ 64 := by rwa [Nat.mul_comm]
  have hexperts := hcells.experts
  have hexperts' : cfg.nExperts * cfg.dModel * cfg.dFf < 2 ^ 64 := by
    rwa [Nat.mul_assoc, Nat.mul_comm cfg.dModel, ← Nat.mul_assoc]
  have hrouter : cfg.nExperts * cfg.dModel < 2 ^ 64 := hrows hf hexperts'
  rw [loadFfn] at h
  generalize hmap : (if packed then some file else none) = mmap at h
  split_ifs at h <;> subst hmap
  · obtain ⟨router, hload, h⟩ := Checked.bind_eq_ok h
    obtain ⟨gate, hgate, h⟩ := Checked.bind_eq_ok h
    obtain ⟨up, hup, h⟩ := Checked.bind_eq_ok h
    obtain ⟨down, hdown, h⟩ := Checked.bind_eq_ok h
    cases h
    simp only [Ffn.weights, Swiglu.weights, List.forall_mem_cons, List.forall_mem_append] at hblocks
    obtain ⟨hb, ⟨hbgate, hbup⟩, hbdown⟩ := hblocks
    exact ⟨loadWeight_whole hfile hg (hrows hd hrouter) hrouter hcells.dModel hload hb,
      loadStacked_whole hfile hg (hrows hd hexperts) hexperts hcells.dModel hgate hbgate,
      loadStacked_whole hfile hg (hrows hd hexperts) hexperts hcells.dModel hup hbup,
      loadStacked_whole hfile hg (hrows hf hexperts') hexperts' hcells.dFf hdown hbdown⟩
  · obtain ⟨router, hload, h⟩ := Checked.bind_eq_ok h
    obtain ⟨gate, hgate, h⟩ := Checked.bind_eq_ok h
    obtain ⟨up, hup, h⟩ := Checked.bind_eq_ok h
    obtain ⟨down, hdown, h⟩ := Checked.bind_eq_ok h
    cases h
    simp only [Ffn.weights, Swiglu.weights, List.forall_mem_cons, List.forall_mem_append] at hblocks
    obtain ⟨hb, ⟨hbgate, hbup⟩, hbdown⟩ := hblocks
    exact ⟨loadWeight_whole hfile hg (hrows hd hrouter) hrouter hcells.dModel hload hb,
      loadSplit_whole hfile hg (hrows hd hexpert) hexpert hcells.dModel hgate hbgate,
      loadSplit_whole hfile hg (hrows hd hexpert) hexpert hcells.dModel hup hbup,
      loadSplit_whole hfile hg (hrows hf hexpert') hexpert' hcells.dFf hdown hbdown⟩
  · obtain ⟨gate, hgate, h⟩ := Checked.bind_eq_ok h
    obtain ⟨up, hup, h⟩ := Checked.bind_eq_ok h
    obtain ⟨down, hdown, h⟩ := Checked.bind_eq_ok h
    cases h
    simp only [Ffn.weights, Swiglu.weights, ExpertWeight.weights, List.forall_mem_append,
      List.forall_mem_singleton] at hblocks
    obtain ⟨⟨hbgate, hbup⟩, hbdown⟩ := hblocks
    -- a stack of one
    have hone : ∀ {rows cols : Nat} {w : Weight F32}, w.Whole rows cols →
        (ExpertWeight.stacked w).Whole 1 rows cols := fun hw => by
      rw [ExpertWeight.Whole, Nat.one_mul]
      exact hw
    exact ⟨hone (loadWeight_whole hfile hg (hrows hd hexpert) hexpert hcells.dModel hgate hbgate),
      hone (loadWeight_whole hfile hg (hrows hd hexpert) hexpert hcells.dModel hup hbup),
      hone (loadWeight_whole hfile hg (hrows hf hexpert') hexpert' hcells.dFf hdown hbdown)⟩

theorem loadLayer_whole (hfile : file.length < 2 ^ 63) (hg : Tame g) (hd : 0 < cfg.dModel)
    (hf : 0 < cfg.dFf) (hcells : Cells cfg) {layer : Layer}
    (h : loadLayer b g file (if packed then some file else none) cfg l = .ok layer)
    (hblocks : ∀ w ∈ layer.weights, w.Blocks) : LlamaBackend.LayerWhole cfg layer := by
  have hrows : ∀ {rows : Nat}, rows * cfg.dModel < 2 ^ 64 → rows < 2 ^ 64 :=
    fun hlt => (Nat.le_mul_of_pos_right _ hd).trans_lt hlt
  obtain ⟨ffn, hffn, h⟩ := Checked.bind_eq_ok h
  obtain ⟨attnNorm, -, h⟩ := Checked.bind_eq_ok h
  obtain ⟨wq, hwq, h⟩ := Checked.bind_eq_ok h
  obtain ⟨wk, hwk, h⟩ := Checked.bind_eq_ok h
  obtain ⟨wv, hwv, h⟩ := Checked.bind_eq_ok h
  obtain ⟨wo, hwo, h⟩ := Checked.bind_eq_ok h
  obtain ⟨ffnNorm, -, h⟩ := Checked.bind_eq_ok h
  cases h
  simp only [Layer.weights, List.forall_mem_append, List.forall_mem_cons] at hblocks
  obtain ⟨⟨hbq, hbk, hbv, hbo, -⟩, hbffn⟩ := hblocks
  exact ⟨loadWeight_whole hfile hg (hrows hcells.square) hcells.square hcells.dModel hwq hbq,
    loadWeight_whole hfile hg (hrows hcells.keys) hcells.keys hcells.dModel hwk hbk,
    loadWeight_whole hfile hg (hrows hcells.keys) hcells.keys hcells.dModel hwv hbv,
    loadWeight_whole hfile hg (hrows hcells.square) hcells.square hcells.dModel hwo hbo,
    loadFfn_whole hfile hg hd hf hcells hffn hbffn⟩

/-- **A backend that was loaded is whole**, if no size wraps and packed rows are whole blocks. -/
theorem fromGguf_whole (hfile : file.length < 2 ^ 63) (hg : Tame g) {backend : LlamaBackend}
    (h : LlamaBackend.fromGguf b g file (if packed then some file else none) = .ok backend)
    (hd : 0 < backend.cfg.dModel) (hf : 0 < backend.cfg.dFf) (hcells : Cells backend.cfg)
    (hblocks : ∀ w ∈ backend.weights, w.Blocks) : backend.Whole := by
  obtain ⟨cfg, hcfg, h⟩ := Checked.bind_eq_ok h
  obtain ⟨tokenEmbd, hembd, h⟩ := Checked.bind_eq_ok h
  obtain ⟨outputNorm, -, h⟩ := Checked.bind_eq_ok h
  obtain ⟨output, houtput, h⟩ := Checked.bind_eq_ok h
  obtain ⟨layers, hlayers, h⟩ := Checked.bind_eq_ok h
  cases h
  dsimp only at hd hf hcells
  simp only [LlamaBackend.weights, List.forall_mem_append, List.forall_mem_cons,
    List.forall_mem_flatMap] at hblocks
  obtain ⟨⟨hbembd, hboutput, -⟩, hblayers⟩ := hblocks
  obtain ⟨hheads, hgrouped⟩ := LlamaConfig.fromGguf_heads hcfg
  have hvocab : cfg.vocab < 2 ^ 64 :=
    (Nat.le_mul_of_pos_right _ hd).trans_lt hcells.embeddings
  have hwhole : tokenEmbd.Whole cfg.vocab cfg.dModel :=
    loadWeight_whole hfile hg hvocab hcells.embeddings hcells.dModel hembd hbembd
  refine ⟨hheads, hgrouped, ?_, hwhole, ?_, fun layer hlayer => ?_⟩
  · rw [Checked.length_mapM hlayers, List.length_range]
  · rw [loadOutput] at houtput
    split at houtput
    · exact loadWeight_whole hfile hg hvocab hcells.embeddings hcells.dModel houtput hboutput
    · cases houtput
      exact hwhole
  · obtain ⟨l, -, hload⟩ := Checked.mapM_mem hlayers hlayer
    exact loadLayer_whole hfile hg hd hf hcells hload (hblayers layer hlayer)

/-- A backend that was loaded from a file, of sizes that nothing exceeds. -/
structure Loads (b : Build) (g : Gguf) (file : Bytes) (packed : Bool) (limit : Nat)
    (backend : LlamaBackend) : Prop where
  length : file.length < 2 ^ 63
  tame : Tame g
  loaded : LlamaBackend.fromGguf b g file (if packed then some file else none) = .ok backend
  sizes : LlamaBackend.Sizes backend.cfg limit
  cells : Cells backend.cfg
  blocks : ∀ w ∈ backend.weights, w.Blocks
  /-- A packed embedding that is not finite is refused when its token comes. -/
  finite : ∀ r, r < backend.cfg.vocab → ∀ v ∈ backend.tokenEmbd.values r, Floats.isFinite v = true

end Backend

/-! ## What it answers -/

namespace Loads

variable [Analytic F32] {b : Build} {g : Gguf} {file : Bytes} {packed : Bool} {limit : Nat}
  {backend : LlamaBackend}

theorem whole (h : Loads b g file packed limit backend) : backend.Whole :=
  fromGguf_whole h.length h.tame h.loaded h.sizes.dModel_pos h.sizes.dFf_pos h.cells h.blocks

/-- However it is run, it computes the products of the file's rows. -/
theorem sound (h : Loads b g file packed limit backend) (host : Host) (chunk : Nat) :
    LlamaBackend.Sound host (backend.withPrefillChunk chunk) limit (backend.meaning host) := by
  have hwhole := h.whole
  have hchunk : (backend.withPrefillChunk chunk).Whole :=
    ⟨hwhole.heads, hwhole.grouped, hwhole.size, hwhole.tokenEmbd, hwhole.output, hwhole.layers⟩
  exact hchunk.sound h.sizes h.finite

/-- The backend, as a function of the tokens seen. -/
def model (h : Loads b g file packed limit backend) (dots : RowDots F32) (window : Option Nat) :
    TokenModel F32 := LlamaBackend.model (h.sound ⟨dots, .release, .whole⟩ 1) window

variable {σ : Type} {cfg : KvConfig σ} {law : ReadsBack cfg.storage} {st : σ}

omit [Analytic F32] in
theorem template (htpl : backend.Template cfg) (chunk : Nat) :
    (backend.withPrefillChunk chunk).Template cfg := ⟨htpl.layers, htpl.width⟩

section Answers

variable (h : Loads b g file packed limit backend) (htpl : backend.Template cfg)
  (hfew : roomOf cfg ≤ limit) (host : Host) (chunk : Nat) (panicked : GarudaError)
include htpl hfew

/-- **A loaded backend answers as the file's model, exactly where it can**: over any storage that
does not fail, in any build, on any number of threads and for any size of the chunks. -/
theorem loaded_serves (hlaw : Steady law) :
    ((backend.withPrefillChunk chunk).backend host panicked).Serves
      (h.model host.dots (windowOf cfg)) law limit :=
  LlamaBackend.backend_serves (h.sound host chunk) panicked (template htpl chunk) hfew hlaw

/-- **Without a storage it honours the runtime's contract.** -/
theorem loaded_honours (hstorage : cfg.storage = none) :
    ((backend.withPrefillChunk chunk).backend host panicked).Honours
      (h.model host.dots (windowOf cfg)) cfg :=
  LlamaBackend.backend_honours (h.sound host chunk) panicked (template htpl chunk) hfew hstorage

/-- **A token that is not known** is named, wherever it stands among the new ones. The whole chunks
before it have gone in, and the sequence can go on from there. -/
theorem loaded_refuses_unknown (hlaw : Steady law) {f : Feed σ}
    (hstands : Stands law (h.model host.dots (windowOf cfg)) f.seqId (f.seq, st) f.seen)
    (hroom : f.context.length ≤ roomOf cfg) {known rest : List Token} {t : Token}
    (hnew : f.new = known ++ t :: rest) (hknown : ∀ t ∈ known, t.toNat < backend.cfg.vocab)
    (ht : backend.cfg.vocab ≤ t.toNat) :
    ∃ w', ((backend.withPrefillChunk chunk).backend host panicked).logits f.context f.seq st
        = (.error (.invalidToken t), w') ∧
      Stands law (h.model host.dots (windowOf cfg)) f.seqId w'
        (f.seen ++ known.take (known.length / max chunk 1 * max chunk 1)) ∧
      OnlySequence law f.seqId st w'.2 := by
  have hcomputes := LlamaBackend.computes (h.sound host chunk) hlaw (template htpl chunk)
  obtain ⟨w', hrun, hleft, hown, -⟩ :=
    hcomputes.forwardTail_unknown hfew hstands hroom hnew hknown ht 1
  refine ⟨w', ?_, ?_, hown⟩
  · show told panicked ((backend.withPrefillChunk chunk).logits host _ _) = _
    rw [LlamaBackend.logits, LlamaBackend.logitsMulti, if_neg Nat.one_ne_zero, Attempt.assoc,
      LlamaBackend.forwardTail, Attempt.bind_err hrun]
    rfl
  · rwa [show max ((backend.withPrefillChunk chunk).decoder host : Decoder σ).prefillChunk 1
      = max chunk 1 from Nat.max_eq_left (Nat.le_max_right ..)] at hleft

/-- **A decode step of several sequences is all or nothing.** If each of them would be answered
alone, they get those answers; if not, no cache and no file has changed. -/
theorem step_all_or_nothing (hlaw : Steady law) {fs : List (Feed σ)}
    (hnodup : (fs.map Feed.seqId).Nodup)
    (hstands : ∀ f ∈ fs, Stands law (h.model host.dots (windowOf cfg)) f.seqId (f.seq, st) f.seen)
    (hseveral : 1 < fs.length) (hmany : fs.length ≤ limit) (hone : ∀ f ∈ fs, f.new.length = 1) :
    let model := (backend.withPrefillChunk chunk).backend host panicked
    let out := model.logitsBatch (fs.map Feed.context) (fs.map Feed.seq) st
    (∃ answers, out.1 = .ok answers ∧
      List.Forall₂ (fun f v => (model.logits f.context f.seq st).1 = .ok v) fs answers ∧
      List.Forall₂ (fun f seq => Stands law (h.model host.dots (windowOf cfg)) f.seqId
        (seq, out.2.2) f.context) fs out.2.1) ∨
    ((∃ e, out = (.error e, fs.map Feed.seq, st)) ∧
      ∃ f ∈ fs, ¬ Succeeds (model.logits f.context f.seq st).1) := by
  intro model out
  have hserves : model.Serves (h.model host.dots (windowOf cfg)) law limit :=
    LlamaBackend.backend_serves (h.sound host chunk) panicked (template htpl chunk) hfew hlaw
  have hall : ServedAll law (h.model host.dots (windowOf cfg)) fs st out :=
    hserves.logitsBatch fs st hnodup hstands hmany
  have hfits : ∀ f ∈ fs, (Succeeds (model.logits f.context f.seq st).1 ↔
      Fits (h.model host.dots (windowOf cfg)) cfg f 1) := fun f hf =>
    (hserves.logits f st (hstands f hf)).succeeds_iff
  by_cases hevery : ∀ f ∈ fs, Fits (h.model host.dots (windowOf cfg)) cfg f 1
  · obtain ⟨answers, hanswers⟩ := hall.succeeds.mpr hevery
    refine .inl ⟨answers, hanswers, ?_, ?_⟩
    · rw [(hall.answers answers hanswers).2, List.forall₂_map_right_iff, List.forall₂_same]
      exact fun f hf => ((hserves.logits f st (hstands f hf)).answers _).mpr ⟨hevery f hf, rfl⟩
    · refine hall.took.imp fun f seq htook => ?_
      obtain ⟨k, -, hk, hleft⟩ := htook
      rwa [hk ⟨answers, hanswers⟩, List.take_length] at hleft
  · push Not at hevery
    obtain ⟨f, hf, hnot⟩ := hevery
    have hcomputes := LlamaBackend.computes (h.sound host chunk) hlaw (template htpl chunk)
    exact .inr ⟨hcomputes.logitsBatch_refused hstands hseveral hone ⟨f, hf, hnot⟩, f, hf,
      fun hs => hnot ((hfits f hf).mp hs)⟩

end Answers

/-- **A batch goes through the feed-forward as its tokens do alone**, bit for bit: that tokens with
the same expert share its products, and where one expert's answers are added to another's, cannot be
seen. -/
theorem feedForward_apart (h : Loads b g file packed limit backend) (host : Host) {layer : Layer}
    (hl : layer ∈ backend.layers) {hs : List F32} {n : Nat} (hn : 0 < n) (hle : n ≤ limit)
    (hlen : hs.length = n * backend.cfg.dModel) :
    ∃ out, backend.feedForwardBatch host layer.ffn hs n = .ok out ∧
      out.length = n * backend.cfg.dModel ∧
      ∀ t, t < n → backend.feedForwardBatch host layer.ffn (rowOf backend.cfg.dModel t hs) 1
        = .ok (rowOf backend.cfg.dModel t out) := by
  have hsound : LlamaBackend.LayerSound host backend limit layer
      (backend.layerMeaning host layer) := (h.whole.layers layer hl).sound h.sizes
  have hffn := hsound.ffn
  have hrow : ∀ t, t < n → (rowOf backend.cfg.dModel t hs).length = backend.cfg.dModel :=
    fun t ht => length_rowOf (hlen ▸ row_le ht)
  have hwidth : ∀ t, t < n → (ffnOf backend.cfg.dModel backend.cfg.nExperts
      backend.cfg.nExpertsUsed layer.ffn _ _ (rowOf backend.cfg.dModel t hs)).length
      = backend.cfg.dModel := fun t ht => hffn.width (hrow t ht)
  refine ⟨_, Rounded.feedForwardBatch_rows (hffn.mono hle) hn hlen, length_rows hwidth,
    fun t ht => ?_⟩
  rw [LlamaBackend.feedForwardBatch, Rounded.feedForwardBatch_rows (hffn.mono h.sizes.limit_pos)
    Nat.one_pos (by rw [hrow t ht, Nat.one_mul]), rows, rows, rowOf_flatMap hwidth ht,
    List.range_one, List.flatMap_singleton, rowOf_zero_one (by rw [hrow t ht, Nat.one_mul])]

end Loads

/-! ## A small file -/

/-- Arithmetic on the bits of numbers, to run things in. -/
@[reducible] def wrapping : Analytic F32 where
  add a b := ⟨a.bits + b.bits⟩
  sub a b := ⟨a.bits - b.bits⟩
  mul a b := ⟨a.bits * b.bits⟩
  div a b := ⟨a.bits / b.bits⟩
  neg a := ⟨-a.bits⟩
  ofBits w := ⟨w⟩
  ofInt n := ⟨UInt32.ofInt n⟩
  powi n := ⟨UInt32.ofInt n⟩
  infinity := ⟨0⟩
  nan := ⟨0⟩
  isFinite _ := true
  abs a := a
  max a b := ⟨max a.bits b.bits⟩
  isPos a := decide (0 < a.bits)
  roundI8 a := Int8.ofNat a.bits.toNat
  zero := ⟨0⟩
  one := ⟨1⟩
  min a b := ⟨min a.bits b.bits⟩
  beq a b := decide (a = b)
  lt a b := a.bits < b.bits
  le a b := a.bits ≤ b.bits
  decidableLT a b := inferInstanceAs (Decidable (a.bits < b.bits))
  decidableLE a b := inferInstanceAs (Decidable (a.bits ≤ b.bits))
  num := ⟨⟨0⟩, fun _ => true, fun _ => "", id, fun n => ⟨UInt32.ofNat n⟩⟩
  sqrt := id
  sin := id
  cos := id
  powf a b := ⟨a.bits * b.bits⟩
  totalCmp a b := compare a.bits b.bits
  ln1p := id
  sum l := ⟨(l.map F32.bits).sum⟩

/-- The tensors of a block, less its feed-forward: norms in full, and matrices of `q8_0`. -/
def smallBlock (l : Nat) : List (String × List UInt64 × UInt32) :=
  [(blockName l "attn_norm", [32], 0), (blockName l "attn_q", [32, 32], 8),
    (blockName l "attn_k", [32, 16], 8), (blockName l "attn_v", [32, 16], 8),
    (blockName l "attn_output", [32, 32], 8), (blockName l "ffn_norm", [32], 0)]

/-- A block with two experts, and one without. -/
def smallTensors : List (String × List UInt64 × UInt32) :=
  [("token_embd.weight", [32, 2], 8), ("output_norm.weight", [32], 0)] ++ smallBlock 0 ++
    [(blockName 0 "ffn_gate_inp", [32, 2], 8), (blockName 0 "ffn_gate_exps", [32, 32, 2], 8),
      (blockName 0 "ffn_up_exps", [32, 32, 2], 8), (blockName 0 "ffn_down_exps", [32, 32, 2], 8)] ++
    smallBlock 1 ++ [(blockName 1 "ffn_gate", [32, 32], 8), (blockName 1 "ffn_up", [32, 32], 8),
      (blockName 1 "ffn_down", [32, 32], 8)]

/-- A model of two tokens, with two heads that share their keys. All tensors start at one place. -/
def smallGguf : Gguf where
  version := 3
  metadata := Std.ExtTreeMap.ofList <| show List (String × Value) from
    [("general.architecture", .string "llama"), ("llama.embedding_length", .u32 32),
      ("llama.attention.head_count", .u32 2), ("llama.attention.head_count_kv", .u32 1),
      ("llama.block_count", .u32 2), ("llama.feed_forward_length", .u32 32),
      ("llama.expert_count", .u32 2), ("llama.expert_used_count", .u32 1),
      ("tokenizer.ggml.tokens", .array [.string "a", .string "b"])]
  tensors := smallTensors.map fun t => ⟨t.1, t.2.1, t.2.2, 0⟩
  dataOffset := 0

/-- The file of that table, as long as the experts' matrices. -/
def smallFile : Bytes := List.replicate 2176 1

/-- The feed-forward has experts. -/
def Ffn.routed : Ffn K → Bool
  | .dense _ => false
  | .moe _ _ => true

/-- What is known of a backend that is loaded from it. -/
def isSmall [Analytic F32] (backend : LlamaBackend) : Bool :=
  let cfg := backend.cfg
  (cfg.vocab, cfg.dModel, cfg.dFf, cfg.kvDim, cfg.nExperts, cfg.nLayers) == (2, 32, 32, 16, 2, 2) &&
    backend.weights.all (fun w => match w with
      | .full _ _ => false
      | .packed qtype cols _ _ => (dataBytes qtype cols).isSome) &&
    backend.layers.any fun layer => layer.ffn.routed

/-- A load of such a backend. -/
def loadsSmall [Analytic F32] : Checked GarudaError LlamaBackend → Bool
  | .ok backend => isSmall backend
  | _ => false

theorem exists_of_loadsSmall [Analytic F32] {res : Checked GarudaError LlamaBackend}
    (h : loadsSmall res = true) : ∃ backend, res = .ok backend ∧ isSmall backend = true := by
  cases res with
  | ok backend => exact ⟨backend, rfl, h⟩
  | err e => cases h
  | panic => cases h

theorem smallGguf_loads : ∃ (_ : Analytic F32) (backend : LlamaBackend),
    Loads .release smallGguf smallFile true 64 backend ∧ backend.cfg.nLayers = 2 ∧
      backend.cfg.kvDim = 16 ∧ backend.cfg.vocab = 2 ∧ backend.cfg.dModel = 32 ∧
      ∃ layer ∈ backend.layers, layer.ffn.routed = true := by
  let _ : Analytic F32 := wrapping
  have hload : loadsSmall (LlamaBackend.fromGguf .release smallGguf smallFile (some smallFile))
      = true := by decide +kernel
  obtain ⟨backend, hb, hsmall⟩ := exists_of_loadsSmall hload
  obtain ⟨hrest, hrouted⟩ := Bool.and_eq_true_iff.mp hsmall
  obtain ⟨hcfg, hpacked⟩ := Bool.and_eq_true_iff.mp hrest
  obtain ⟨hvocab, hdModel, hdFf, hkvDim, hexperts, hlayers⟩ : backend.cfg.vocab = 2 ∧
      backend.cfg.dModel = 32 ∧ backend.cfg.dFf = 32 ∧ backend.cfg.kvDim = 16 ∧
      backend.cfg.nExperts = 2 ∧ backend.cfg.nLayers = 2 := by simpa using hcfg
  have htable : (∀ t ∈ smallGguf.tensors, ∀ ps ∈ t.dims.inits,
      (ps.map UInt64.toNat).prod < 2 ^ 64) ∧ ∀ t ∈ smallGguf.tensors, ∀ m ∈ t.bytes,
      smallGguf.dataOffset + t.offset.toNat + m < 2 ^ 64 := by decide +kernel
  have hlength : smallFile.length < 2 ^ 63 := List.length_replicate.trans_lt (by norm_num)
  refine ⟨wrapping, backend, ⟨hlength, ⟨fun t ht ps hps => ?_, fun t ht m hm => ?_⟩, hb, ?_, ?_,
    fun w hw => ?_, fun _ _ _ _ => rfl⟩, hlayers, hkvDim, hvocab, hdModel,
    List.any_eq_true.mp hrouted⟩
  · exact htable.1 t ht ps ((List.mem_inits ..).mpr hps)
  · exact htable.2 t ht m hm
  · constructor <;> simp [hvocab, hdModel, hdFf, hkvDim, hexperts]
  · constructor <;> simp [hvocab, hdModel, hdFf, hkvDim, hexperts]
  · have hblocks := List.all_eq_true.mp hpacked w hw
    cases w with
    | full data cols => trivial
    | packed qtype cols src start => exact hblocks

/-- Caches of two positions to a block, with one block in memory. -/
def smallCaches : KvConfig (Path → Option Bytes) :=
  { tinyCfg 2 1 none memoryStorage with nLayers := 2, kvDim := 16 }

/-- The same without a storage. -/
def plainCaches : KvConfig (Path → Option Bytes) := { smallCaches with storage := none }

def smallLaw : ReadsBack smallCaches.storage := memoryStorage_reliable.toReadsBack

theorem smallLaw_steady : Steady smallLaw where
  nothing h := by cases h
  reliable b h := by
    cases h
    exact ⟨memoryStorage_reliable, rfl⟩

theorem smallTemplate {backend : LlamaBackend} (hlayers : backend.cfg.nLayers = 2)
    (hkvDim : backend.cfg.kvDim = 16) : backend.Template smallCaches :=
  ⟨by rw [hlayers]; rfl, fun _ _ _ => by rw [hkvDim]; rfl⟩

theorem loaded_serves_small : ∃ (_ : Analytic F32) (backend : LlamaBackend)
    (h : Loads .release smallGguf smallFile true 64 backend), ∀ host chunk panicked,
    ((backend.withPrefillChunk chunk).backend host panicked).Serves (h.model host.dots none)
      smallLaw 64 := by
  obtain ⟨inst, backend, h, hlayers, hkvDim, -⟩ := smallGguf_loads
  exact ⟨inst, backend, h, fun host chunk panicked =>
    h.loaded_serves (smallTemplate hlayers hkvDim) (by decide) host chunk panicked smallLaw_steady⟩

theorem loaded_honours_small : ∃ (_ : Analytic F32) (backend : LlamaBackend)
    (h : Loads .release smallGguf smallFile true 64 backend), ∀ host chunk panicked,
    ((backend.withPrefillChunk chunk).backend host panicked).Honours (h.model host.dots none)
      plainCaches := by
  obtain ⟨inst, backend, h, hlayers, hkvDim, -⟩ := smallGguf_loads
  have htpl : backend.Template plainCaches :=
    ⟨(smallTemplate hlayers hkvDim).layers, (smallTemplate hlayers hkvDim).width⟩
  exact ⟨inst, backend, h, fun host chunk panicked =>
    h.loaded_honours htpl (by decide) host chunk panicked rfl⟩

theorem loaded_refuses_unknown_small : ∃ (_ : Analytic F32) (backend : LlamaBackend)
    (h : Loads .release smallGguf smallFile true 64 backend), ∀ host panicked, ∃ w',
    ((backend.withPrefillChunk 2).backend host panicked).logits [0, 1, 1, 5, 0]
        (.new smallCaches 7) (fun _ => none) = (.error (.invalidToken 5), w') ∧
      Stands smallLaw (h.model host.dots none) 7 w' [0, 1] := by
  obtain ⟨inst, backend, h, hlayers, hkvDim, hvocab, -⟩ := smallGguf_loads
  refine ⟨inst, backend, h, fun host panicked => ?_⟩
  obtain ⟨w', hrun, hstands, -⟩ := h.loaded_refuses_unknown (smallTemplate hlayers hkvDim)
    (by decide) host 2 panicked smallLaw_steady (f := ⟨7, .new smallCaches 7, [], [0, 1, 1, 5, 0]⟩)
    (stands_new smallLaw _ 7 fun _ => none) (by decide)
    (show [0, 1, 1, 5, 0] = [0, 1, 1] ++ 5 :: [0] from rfl) (by simp [hvocab]) (by simp [hvocab])
  exact ⟨w', hrun, hstands⟩

/-- Two sequences that have seen nothing, with a token each. -/
def smallFeeds (t u : Token) : List (Feed (Path → Option Bytes)) :=
  [⟨7, .new smallCaches 7, [], [t]⟩, ⟨8, .new smallCaches 8, [], [u]⟩]

/-- Alone, such a sequence is answered if its token is one of the two. -/
theorem smallFeeds_alone [Analytic F32] {backend : LlamaBackend}
    (h : Loads .release smallGguf smallFile true 64 backend) (hlayers : backend.cfg.nLayers = 2)
    (hkvDim : backend.cfg.kvDim = 16) (hvocab : backend.cfg.vocab = 2) (host : Host)
    (panicked : GarudaError) (id : Nat) (t : Token) :
    Succeeds (((backend.withPrefillChunk 1).backend host panicked).logits [t] (.new smallCaches id)
      fun _ => none).1 ↔ t.toNat < 2 := by
  have hserves := LlamaBackend.backend_serves (h.sound host 1) panicked
    (Loads.template (smallTemplate hlayers hkvDim) 1) (show roomOf smallCaches ≤ 64 by decide)
    smallLaw_steady
  refine (hserves.logits ⟨id, .new smallCaches id, [], [t]⟩ _
    (stands_new smallLaw _ id _)).succeeds_iff.trans ⟨fun hfits => ?_, fun ht => ?_⟩
  · have hknown : t.toNat < backend.cfg.vocab := hfits.known t List.mem_cons_self
    rwa [hvocab] at hknown
  · have hknown : t.toNat < backend.cfg.vocab := by rwa [hvocab]
    exact ⟨List.cons_ne_nil t [], show 1 ≤ roomOf smallCaches by decide,
      List.forall_mem_singleton.mpr hknown, le_rfl⟩

/-- They have seen nothing indeed. -/
theorem smallFeeds_stand (m : TokenModel F32) (t u : Token) : ∀ f ∈ smallFeeds t u,
    Stands smallLaw m f.seqId (f.seq, fun _ => none) f.seen := by
  simp only [smallFeeds, List.forall_mem_cons, List.not_mem_nil, false_imp_iff, implies_true,
    and_true]
  exact ⟨stands_new smallLaw m 7 _, stands_new smallLaw m 8 _⟩

theorem step_all_or_nothing_small : ∃ (_ : Analytic F32) (backend : LlamaBackend)
    (_ : Loads .release smallGguf smallFile true 64 backend), ∀ host panicked,
    let model := (backend.withPrefillChunk 1).backend host panicked
    let empty : Path → Option Bytes := fun _ => none
    (∃ x y, (model.logitsBatch [[0], [1]] [.new smallCaches 7, .new smallCaches 8] empty).1
        = .ok [x, y] ∧ (model.logits [0] (.new smallCaches 7) empty).1 = .ok x ∧
      (model.logits [1] (.new smallCaches 8) empty).1 = .ok y) ∧
    ∃ e, model.logitsBatch [[0], [5]] [.new smallCaches 7, .new smallCaches 8] empty
      = (.error e, [.new smallCaches 7, .new smallCaches 8], empty) := by
  obtain ⟨inst, backend, h, hlayers, hkvDim, hvocab, -⟩ := smallGguf_loads
  refine ⟨inst, backend, h, fun host panicked => ?_⟩
  have halone := smallFeeds_alone h hlayers hkvDim hvocab host panicked
  have hstep := fun t u => h.step_all_or_nothing (smallTemplate hlayers hkvDim) (by decide) host 1
    panicked smallLaw_steady (show ((smallFeeds t u).map Feed.seqId).Nodup by simp [smallFeeds])
    (smallFeeds_stand _ t u) (show 1 < 2 by decide) (show 2 ≤ 64 by decide) (by simp [smallFeeds])
  constructor
  · rcases hstep 0 1 with ⟨answers, hout, hanswers, -⟩ | ⟨-, f, hf, hnot⟩
    · obtain ⟨x, rest, hx, hrest, rfl⟩ := List.forall₂_cons_left_iff.mp hanswers
      obtain ⟨y, rest, hy, hnil, rfl⟩ := List.forall₂_cons_left_iff.mp hrest
      cases hnil
      exact ⟨x, y, hout, hx, hy⟩
    · refine absurd ?_ hnot
      rcases List.mem_cons.mp hf with rfl | hf
      · exact (halone 7 0).mpr (by decide)
      · rw [List.mem_singleton.mp hf]
        exact (halone 8 1).mpr (by decide)
  · rcases hstep 0 5 with ⟨answers, -, hanswers, -⟩ | ⟨⟨e, hout⟩, -⟩
    · obtain ⟨x, rest, -, hrest, -⟩ := List.forall₂_cons_left_iff.mp hanswers
      obtain ⟨y, -, hy, -, -⟩ := List.forall₂_cons_left_iff.mp hrest
      exact absurd ((halone 8 5).mp ⟨y, hy⟩) (by decide)
    · exact ⟨e, hout⟩

theorem feedForward_apart_small : ∃ (_ : Analytic F32) (backend : LlamaBackend)
    (_ : Loads .release smallGguf smallFile true 64 backend), ∀ host, ∃ layer ∈ backend.layers,
    layer.ffn.routed = true ∧ ∃ first second : List F32, first.length = 32 ∧
      backend.feedForwardBatch host layer.ffn (List.replicate 32 ⟨3⟩ ++ List.replicate 32 ⟨5⟩) 2
        = .ok (first ++ second) ∧
      backend.feedForwardBatch host layer.ffn (List.replicate 32 ⟨3⟩) 1 = .ok first ∧
      backend.feedForwardBatch host layer.ffn (List.replicate 32 ⟨5⟩) 1 = .ok second := by
  obtain ⟨inst, backend, h, -, -, -, hdModel, layer, hlayer, hrouted⟩ := smallGguf_loads
  refine ⟨inst, backend, h, fun host => ⟨layer, hlayer, hrouted, ?_⟩⟩
  obtain ⟨out, hout, hlen, hrows⟩ := h.feedForward_apart host hlayer (show 0 < 2 by decide)
    (by decide) (show (List.replicate 32 (⟨3⟩ : F32) ++ List.replicate 32 (⟨5⟩ : F32)).length
      = 2 * backend.cfg.dModel by rw [hdModel]; rfl)
  rw [hdModel] at hlen hrows
  have hlast : rowOf 32 1 out = out.drop 32 := by
    rw [rowOf, List.take_of_length_le (by rw [List.length_drop, hlen])]
  refine ⟨rowOf 32 0 out, out.drop 32, by simp [rowOf, hlen], ?_, hrows 0 (by decide), ?_⟩
  · rw [hout, rowOf, Nat.zero_mul, List.drop_zero, List.take_append_drop]
  · rw [← hlast]
    exact hrows 1 (by decide)

end Llama

end Garuda
