import Garuda.Qwen35.Spans
import Garuda.Stream.Streamer

/-!
# Where a weight lives

A weight of the backend is read out of the map, out of a buffer that its block or the head was
pinned into, or out of the block that was streamed for the layer.

* `blockFor` is the streamed block that a layer is handed, if any.
* `Llama.Weight.ReadsOwn` says of a packed weight that it reads what the file holds at its tensor.
* `placement_faithful` says so of every weight of a backend that was loaded, whatever was pinned
  and whatever is streamed, and that the spans and the pinned bytes are as they should be.
-/

namespace Garuda

open Infra Quant Llama

variable {K : Type}

/-! ## Reading a tensor's bytes -/

/-- A packed weight reads the bytes that the file holds at its tensor, in bounds of the buffer it
reads them from: all of them, and any run of rows among them. -/
structure ReadsOwn (g : Gguf) (file : Bytes) (t : TensorInfo) (qtype : UInt32) (cols : Nat)
    (src : Buffer) (start : Nat) (block : Option (Bytes × Nat)) : Prop where
  qtype_eq : qtype = t.ggmlType
  inBounds : ∃ m, t.bytes = some m ∧
    (located src start block).2 + m ≤ (located src start block).1.length ∧
    slice (located src start block).1 (located src start block).2 m = slice file (g.place t) m
  rows : ∀ b rb rowStart n, dataBytes qtype cols = some rb → 0 < n →
    (rowStart + n) * cols ≤ t.elements →
    rowsBytes b qtype cols src start block rowStart n
      = .ok (slice file (g.place t + rowStart * rb) (n * rb))

def Llama.Weight.ReadsOwn (g : Gguf) (file : Bytes) (name : String) (block : Option (Bytes × Nat)) :
    Llama.Weight K → Prop
  | .full _ _ => True
  | .packed qtype cols src start =>
    ∃ t, g.tensor name = some t ∧ Garuda.ReadsOwn g file t qtype cols src start block

/-- Bytes that are the tensor's where the weight is located are read as such, row by row. -/
theorem readsOwn_of_located {g : Gguf} {file : Bytes} {t : TensorInfo} {cols m : Nat}
    {src : Buffer} {start : Nat} {block : Option (Bytes × Nat)} {buf : Bytes} {origin : Nat}
    (hbuf : buf.length < 2 ^ 63) (hloc : located src start block = (buf, origin))
    (hm : t.bytes = some m) (hin : origin + m ≤ buf.length)
    (heq : slice buf origin m = slice file (g.place t) m) :
    ReadsOwn g file t t.ggmlType cols src start block := by
  refine ⟨rfl, ⟨m, hm, by rwa [hloc], by rwa [hloc]⟩, fun b rb rowStart n hrb hn hrows => ?_⟩
  have hlen : (rowStart + n) * rb ≤ m := dataBytes_mono (dataBytes_mul hrb) hm hrows
  rw [rowsBytes_eq b hloc hbuf hrb (show origin + (rowStart + n) * rb ≤ buf.length by omega)
    (by omega) (Nat.le_refl _)]
  rw [Nat.add_mul] at hlen
  rw [← slice_slice hlen, heq, slice_slice hlen]

/-! ## What the loaders place -/

theorem Gguf.tensor_mem {g : Gguf} {name : String} {t : TensorInfo}
    (h : g.tensor name = some t) : t ∈ g.tensors ∧ t.name = name := by
  have := List.find?_some h
  exact ⟨List.mem_of_find?_eq_some h, of_decide_eq_true this⟩

/-- A packed weight starts at its tensor and fits in its buffer. -/
theorem pinnedWeight_place {g : Gguf} {file : Bytes} (hwf : WellFormed g file) {b : Build}
    {src : Buffer} {base : Nat} {name : String} {rows cols : Nat} {w : Llama.Weight K}
    (h : pinnedWeight b g src base name rows cols = .ok w) :
    ∃ t m, g.tensor name = some t ∧ t.bytes = some m ∧ base ≤ g.place t ∧
      g.place t - base + m ≤ src.bytes.length ∧
      w = .packed t.ggmlType cols src (g.place t - base) := by
  obtain ⟨t, ht, hp, rfl⟩ := pinnedWeight_eq_ok h
  obtain ⟨m, hm, hext⟩ := hp.extent
  have hmem := (Gguf.tensor_mem ht).1
  have hplace : (g.dataOffset + t.offset.toNat) % 2 ^ 64 = g.place t := by
    have := hwf.within t hmem
    have := hwf.size
    refine Nat.mod_eq_of_lt ?_
    show g.place t < 2 ^ 64
    omega
  have hbytes : t.bytes = some m := by
    rwa [← hp.elements, Nat.mod_eq_of_lt (hwf.elements_lt hmem)] at hm
  have hle := hwf.bytes_le hmem hbytes
  have hsize := hwf.size
  have hbase := hp.position
  rw [hplace] at hext hbase ⊢
  rw [Nat.mod_eq_of_lt (show m < 2 ^ 64 by omega), Nat.mod_eq_of_lt (by omega)] at hext
  exact ⟨t, m, ht, hbytes, hbase, hext, rfl⟩

/-- From a buffer that holds the file's bytes of a span, a weight reads its tensor. -/
theorem readsOwn_pinned {g : Gguf} {file : Bytes} (hwf : WellFormed g file) {b : Build}
    {name : String} {rows cols : Nat} {w : Llama.Weight K} {span : Nat × Nat}
    (hspan : span.1 + span.2 ≤ file.length)
    (h : pinnedWeight b g (.owned (slice file span.1 span.2)) span.1 name rows cols = .ok w) :
    w.ReadsOwn g file name none := by
  obtain ⟨t, m, ht, hm, hlo, hhi, rfl⟩ := pinnedWeight_place hwf h
  have hlen := length_slice hspan
  have hsize := hwf.size
  have hhi : g.place t - span.1 + m ≤ (slice file span.1 span.2).length := hhi
  have hbuf : (slice file span.1 span.2).length < 2 ^ 63 := by omega
  refine ⟨t, ht, readsOwn_of_located hbuf rfl hm hhi ?_⟩
  show slice (slice file span.1 span.2) _ _ = _
  rw [slice_slice (by omega), Nat.add_sub_cancel' hlo]

section

variable [Floats K] {g : Gguf} {file : Bytes} {mmap : Option Bytes} {b : Build} {name : String}
  {rows cols : Nat} {w : Llama.Weight K}

/-- What is loaded off the file is expanded, or packed at its place in the map. -/
theorem loadWeight_place (hwf : WellFormed g file) (hmap : ∀ m, mmap = some m → m = file)
    (h : loadWeight b g file mmap name rows cols = .ok w) :
    (∃ data, w = .full data cols) ∨
    ∃ t m, g.tensor name = some t ∧ t.bytes = some m ∧
      w = .packed t.ggmlType cols (.mapped file) (g.place t) := by
  obtain ⟨t, -, h⟩ := Checked.bind_eq_ok h
  cases hm : mmap with
  | none =>
    rw [hm] at h
    obtain ⟨data, -, h⟩ := Checked.bind_eq_ok h
    cases h
    exact .inl ⟨data, rfl⟩
  | some m =>
    rw [hm] at h
    obtain ⟨t, len, ht, hlen, -, -, rfl⟩ := pinnedWeight_place hwf h
    rw [hmap m hm]
    exact .inr ⟨t, len, ht, hlen, rfl⟩

/-- From the map, a weight reads its tensor. -/
theorem readsOwn_mapped (hwf : WellFormed g file) (hmap : ∀ m, mmap = some m → m = file)
    (h : loadWeight b g file mmap name rows cols = .ok w) : w.ReadsOwn g file name none := by
  obtain ⟨data, rfl⟩ | ⟨t, m, ht, hm, rfl⟩ := loadWeight_place hwf hmap h
  · trivial
  · exact ⟨t, ht, readsOwn_of_located hwf.size rfl hm
      (hwf.bytes_le (Gguf.tensor_mem ht).1 hm) rfl⟩

/-- From a streamed block that covers the tensor, it does too. -/
theorem readsOwn_streamed (hwf : WellFormed g file) (hmap : ∀ m, mmap = some m → m = file)
    (h : loadWeight b g file mmap name rows cols = .ok w) {span : Nat × Nat}
    (hspan : span.1 + span.2 ≤ file.length)
    (hcover : ∀ t, g.tensor name = some t →
      span.1 ≤ g.place t ∧ g.place t + t.extent ≤ span.1 + span.2) :
    w.ReadsOwn g file name (some (slice file span.1 span.2, span.1)) := by
  obtain ⟨data, rfl⟩ | ⟨t, m, ht, hm, rfl⟩ := loadWeight_place hwf hmap h
  · trivial
  · obtain ⟨hlo, hhi⟩ := hcover t ht
    rw [TensorInfo.extent, hm, Option.getD_some] at hhi
    have hlen := length_slice hspan
    have hsize := hwf.size
    refine ⟨t, ht, readsOwn_of_located (by omega) (if_pos hlo) hm (by omega) ?_⟩
    rw [slice_slice (by omega), Nat.add_sub_cancel' hlo]

end

/-! ## The budget -/

/-- The bytes that a span takes of the budget. -/
def pinnedLength (entry : (Nat × Nat) × Bool) : Nat := if entry.2 then entry.1.2 else 0

/-- What is spent is the pinned spans, and no more than the budget. -/
theorem pinBlocks_used (budget : Nat) (spans : List (Nat × Nat)) :
    (pinBlocks budget spans).2 ≤ budget ∧
    ((spans.zip (pinBlocks budget spans).1).map pinnedLength).sum = (pinBlocks budget spans).2 := by
  induction spans generalizing budget with
  | nil => exact ⟨Nat.zero_le _, rfl⟩
  | cons span spans ih =>
    rw [pinBlocks]
    split
    · next hfits =>
      obtain ⟨hle, hsum⟩ := ih (budget - span.2)
      refine ⟨by simp only; omega, ?_⟩
      rw [List.zip_cons_cons, List.map_cons, List.sum_cons, hsum]
      rfl
    · obtain ⟨hle, hsum⟩ := ih budget
      refine ⟨hle, ?_⟩
      rw [List.zip_cons_cons, List.map_cons, List.sum_cons, hsum]
      exact Nat.zero_add _

/-! ## The weights of a block -/

/-- The packed matrices of a block, by the names of their tensors. -/
def Mixer.weights (l : Nat) : Mixer K → List (String × Llama.Weight K)
  | .attn wqg wk wv wo _ _ =>
    [(weightName l "attn_q", wqg), (weightName l "attn_k", wk), (weightName l "attn_v", wv),
     (weightName l "attn_output", wo)]
  | .linear wqkv wz _ wbeta walpha _ _ _ wout =>
    [(weightName l "attn_qkv", wqkv), (weightName l "attn_gate", wz),
     (weightName l "ssm_beta", wbeta), (weightName l "ssm_alpha", walpha),
     (weightName l "ssm_out", wout)]

def Layer.weights (l : Nat) (layer : Layer K) : List (String × Llama.Weight K) :=
  layer.mixer.weights l ++
    [(weightName l "ffn_gate", layer.ffnGate), (weightName l "ffn_up", layer.ffnUp),
     (weightName l "ffn_down", layer.ffnDown)]

theorem Layer.ffnGate_mem (l : Nat) (layer : Layer K) :
    (weightName l "ffn_gate", layer.ffnGate) ∈ layer.weights l :=
  List.mem_append_right _ List.mem_cons_self

section

variable [Floats K] {g : Gguf} {file : Bytes} {mmap : Option Bytes} {b : Build}
  {cfg : Qwen35Config} {l : Nat} {held : Option (Bytes × Nat)}

theorem loadMixer_weights {recurrent : Bool} {mixer : Mixer K}
    (h : loadMixer b g file mmap cfg l held recurrent = .ok mixer) :
    ∀ p ∈ mixer.weights l, ∃ suffix rows cols, p.1 = blockTensor l suffix ∧
      weightAt b g file mmap held p.1 rows cols = .ok p.2 := by
  unfold loadMixer at h
  cases recurrent with
  | true =>
    obtain ⟨convDim, -, h⟩ := Checked.bind_eq_ok h
    obtain ⟨wqkv, h1, h⟩ := Checked.bind_eq_ok h
    obtain ⟨valueDim, -, h⟩ := Checked.bind_eq_ok h
    obtain ⟨wz, h2, h⟩ := Checked.bind_eq_ok h
    obtain ⟨taps, -, h⟩ := Checked.bind_eq_ok h
    obtain ⟨conv, -, h⟩ := Checked.bind_eq_ok h
    obtain ⟨wbeta, h3, h⟩ := Checked.bind_eq_ok h
    obtain ⟨walpha, h4, h⟩ := Checked.bind_eq_ok h
    obtain ⟨dtBias, -, h⟩ := Checked.bind_eq_ok h
    obtain ⟨a, -, h⟩ := Checked.bind_eq_ok h
    obtain ⟨norm, -, h⟩ := Checked.bind_eq_ok h
    obtain ⟨wout, h5, h⟩ := Checked.bind_eq_ok h
    cases h
    intro p hp
    simp only [Mixer.weights, List.mem_cons, List.not_mem_nil, or_false] at hp
    obtain rfl | rfl | rfl | rfl | rfl := hp
    · exact ⟨_, _, _, rfl, h1⟩
    · exact ⟨_, _, _, rfl, h2⟩
    · exact ⟨_, _, _, rfl, h3⟩
    · exact ⟨_, _, _, rfl, h4⟩
    · exact ⟨_, _, _, rfl, h5⟩
  | false =>
    obtain ⟨attnDim, -, h⟩ := Checked.bind_eq_ok h
    obtain ⟨both, -, h⟩ := Checked.bind_eq_ok h
    obtain ⟨wqg, h1, h⟩ := Checked.bind_eq_ok h
    obtain ⟨kvDim, -, h⟩ := Checked.bind_eq_ok h
    obtain ⟨wk, h2, h⟩ := Checked.bind_eq_ok h
    obtain ⟨wv, h3, h⟩ := Checked.bind_eq_ok h
    obtain ⟨wo, h4, h⟩ := Checked.bind_eq_ok h
    obtain ⟨qNorm, -, h⟩ := Checked.bind_eq_ok h
    obtain ⟨kNorm, -, h⟩ := Checked.bind_eq_ok h
    cases h
    intro p hp
    simp only [Mixer.weights, List.mem_cons, List.not_mem_nil, or_false] at hp
    obtain rfl | rfl | rfl | rfl := hp
    · exact ⟨_, _, _, rfl, h1⟩
    · exact ⟨_, _, _, rfl, h2⟩
    · exact ⟨_, _, _, rfl, h3⟩
    · exact ⟨_, _, _, rfl, h4⟩

/-- Every matrix of a block is placed alike, and the block has a norm as wide as the model. -/
theorem loadLayer_weights {layer : Layer K} (h : loadLayer b g file mmap cfg l held = .ok layer) :
    (∀ p ∈ layer.weights l, ∃ suffix rows cols, p.1 = blockTensor l suffix ∧
      weightAt b g file mmap held p.1 rows cols = .ok p.2) ∧
    ∃ suffix, (loadNorm b g file (blockTensor l suffix) cfg.dModel : Checked GarudaError (List K))
      = .ok layer.attnNorm := by
  unfold loadLayer at h
  cases hr : cfg.recurrent[l]? with
  | none =>
    rw [hr] at h
    cases h
  | some recurrent =>
    rw [hr] at h
    obtain ⟨mixer, hmixer, h⟩ := Checked.bind_eq_ok h
    obtain ⟨attnNorm, hnorm, h⟩ := Checked.bind_eq_ok h
    obtain ⟨postAttnNorm, -, h⟩ := Checked.bind_eq_ok h
    obtain ⟨ffnGate, h1, h⟩ := Checked.bind_eq_ok h
    obtain ⟨ffnUp, h2, h⟩ := Checked.bind_eq_ok h
    obtain ⟨ffnDown, h3, h⟩ := Checked.bind_eq_ok h
    cases h
    refine ⟨fun p hp => ?_, _, hnorm⟩
    rcases List.mem_append.mp hp with hp | hp
    · exact loadMixer_weights hmixer p hp
    · simp only [List.mem_cons, List.not_mem_nil, or_false] at hp
      obtain rfl | rfl | rfl := hp
      · exact ⟨_, _, _, rfl, h1⟩
      · exact ⟨_, _, _, rfl, h2⟩
      · exact ⟨_, _, _, rfl, h3⟩

/-! ## All blocks -/

/-- What a pinned span is held as. -/
def heldSpan (file : Bytes) (entry : (Nat × Nat) × Bool) : Option (Bytes × Nat) :=
  if entry.2 then some (slice file entry.1.1 entry.1.2, entry.1.1) else none

theorem pin_eq {start len : Nat} (hfile : file.length < 2 ^ 63) (h : start + len ≤ file.length)
    (b : Build) : pin b file start len = .ok (slice file start len) := by
  rw [pin, Build.fit_of_lt b (by omega), Checked.ok_bind, if_neg (by omega), index,
    if_pos (by omega), Nat.add_sub_cancel_left]

theorem hold_eq {entry : (Nat × Nat) × Bool} (hfile : file.length < 2 ^ 63)
    (h : entry.1.1 + entry.1.2 ≤ file.length) (b : Build) :
    hold b file entry.1 entry.2 = .ok (heldSpan file entry) := by
  unfold hold heldSpan
  split
  · rw [pin_eq hfile h b, Checked.ok_bind]
  · rfl

theorem loadLayers_get (hfile : file.length < 2 ^ 63) : ∀ (entries : List ((Nat × Nat) × Bool))
    (l : Nat) (layers : List (Layer K)),
    (∀ entry ∈ entries, entry.1.1 + entry.1.2 ≤ file.length) →
    loadLayers b g file mmap cfg l entries = .ok layers →
    layers.length = entries.length ∧
    ∀ i layer, layers[i]? = some layer → ∃ entry, entries[i]? = some entry ∧
      loadLayer b g file mmap cfg (l + i) (heldSpan file entry) = .ok layer := by
  intro entries
  induction entries with
  | nil =>
    intro l layers _ h
    cases h
    exact ⟨rfl, fun i layer hi => nomatch hi⟩
  | cons entry entries ih =>
    intro l layers hin h
    rw [loadLayers] at h
    obtain ⟨held, hheld, h⟩ := Checked.bind_eq_ok h
    obtain ⟨first, hfirst, h⟩ := Checked.bind_eq_ok h
    obtain ⟨rest, hrest, h⟩ := Checked.bind_eq_ok h
    cases h
    rw [hold_eq hfile (hin entry List.mem_cons_self) b] at hheld
    cases hheld
    obtain ⟨hlen, hget⟩ := ih (l + 1) rest (fun e he => hin e (List.mem_cons_of_mem _ he)) hrest
    refine ⟨by rw [List.length_cons, hlen, List.length_cons], fun i layer hi => ?_⟩
    cases i with
    | zero =>
      cases hi
      exact ⟨entry, rfl, hfirst⟩
    | succ i =>
      obtain ⟨e, he, hload⟩ := hget i layer hi
      refine ⟨e, he, ?_⟩
      rwa [Nat.add_right_comm, Nat.add_assoc] at hload

end

/-! ## The configuration -/

theorem Qwen35Config.need_eq_ok {g : Gguf} {suffix : String} {n : Nat}
    (h : Qwen35Config.need g suffix = .ok n) : ∃ v, g.archU64 suffix = some v ∧ n = v.toNat := by
  unfold Qwen35Config.need at h
  split at h
  · next v hv =>
    cases h
    exact ⟨v, hv, rfl⟩
  · cases h

/-- The width is the file's, and the blocks can be counted. -/
theorem Qwen35Config.fromGguf_eq_ok {g : Gguf} {cfg : Qwen35Config}
    (h : Qwen35Config.fromGguf g = .ok cfg) :
    (∃ d, g.archU64 "embedding_length" = some d ∧ cfg.dModel = d.toNat) ∧ cfg.nLayers < 2 ^ 64 := by
  obtain ⟨_, -, h⟩ := Checked.bind_eq_ok h
  obtain ⟨dModel, hd, h⟩ := Checked.bind_eq_ok h
  obtain ⟨nBlocks, hblocks, h⟩ := Checked.bind_eq_ok h
  obtain ⟨_, -, h⟩ := Checked.bind_eq_ok h
  obtain ⟨nHeads, -, h⟩ := Checked.bind_eq_ok h
  obtain ⟨nKvHeads, -, h⟩ := Checked.bind_eq_ok h
  obtain ⟨headDim, -, h⟩ := Checked.bind_eq_ok h
  obtain ⟨dFf, -, h⟩ := Checked.bind_eq_ok h
  obtain ⟨convKernel, -, h⟩ := Checked.bind_eq_ok h
  obtain ⟨keyHeadDim, -, h⟩ := Checked.bind_eq_ok h
  obtain ⟨nKHeads, -, h⟩ := Checked.bind_eq_ok h
  obtain ⟨nVHeads, -, h⟩ := Checked.bind_eq_ok h
  obtain ⟨inner, -, h⟩ := Checked.bind_eq_ok h
  obtain ⟨_, -, h⟩ := Checked.bind_eq_ok h
  obtain ⟨_, -, h⟩ := Checked.bind_eq_ok h
  obtain ⟨_, -, h⟩ := Checked.bind_eq_ok h
  obtain ⟨_, -, h⟩ := Checked.bind_eq_ok h
  obtain ⟨_, -, h⟩ := Checked.bind_eq_ok h
  obtain ⟨_, -, h⟩ := Checked.bind_eq_ok h
  obtain ⟨_, -, h⟩ := Checked.bind_eq_ok h
  obtain ⟨d, hwidth, rfl⟩ := Qwen35Config.need_eq_ok hd
  obtain ⟨n, -, rfl⟩ := Qwen35Config.need_eq_ok hblocks
  split at h
  · cases h
  · cases h
    refine ⟨⟨d, hwidth, rfl⟩, ?_⟩
    have := n.toNat_lt
    simp only
    omega

/-! ## The backend -/

/-- All the matrices of the block are packed in one buffer of this process. -/
def Layer.HeldIn (l : Nat) (layer : Layer K) (v : Bytes) : Prop :=
  ∀ p ∈ layer.weights l, ∃ qtype cols start, p.2 = .packed qtype cols (.owned v) start

/-- None of them is. -/
def Layer.Unpinned (l : Nat) (layer : Layer K) : Prop :=
  ∀ p ∈ layer.weights l, ∀ qtype cols v start, p.2 ≠ .packed qtype cols (.owned v) start

/-- The length of the buffer that holds a weight, if it is of this process. -/
def Llama.Weight.heldBytes : Llama.Weight K → Nat
  | .packed _ _ (.owned v) _ => v.length
  | _ => 0

/-- The bytes in buffers of this process: the head's, and one for each pinned block. -/
def Qwen35Backend.heldBytes (be : Qwen35Backend K) : Nat :=
  be.output.heldBytes + (be.layers.map fun layer => layer.ffnGate.heldBytes).sum

/-- The block that `run_layer` hands to a layer. -/
def blockFor (streamer : Option BlockStreamer) (l : Nat) (answer : Nat → ReadAnswer)
    (st : SlotState) : Option (Bytes × Nat) :=
  match streamer with
  | some s => if s.streams l then some (s.guardBytes l answer st, s.base l) else none
  | none => none

theorem runLayer_eq {α : Type} (s : BlockStreamer)
    (layerBatch : Option (Bytes × Nat) → Except GarudaError α) (l : Nat)
    (answer : Nat → ReadAnswer) (st : SlotState) :
    s.runLayer layerBatch l answer st = layerBatch (blockFor (some s) l answer st) := by
  unfold BlockStreamer.runLayer blockFor
  simp only
  split <;> rfl

/-- A streamer of the file that streams some of the blocks at their spans, and whose slot has been
filled by what came before and can be read. -/
structure Streaming (be : Qwen35Backend K) (file : Bytes) (l : Nat) (answer : Nat → ReadAnswer)
    (st : SlotState) (s : BlockStreamer) : Prop where
  file_eq : s.file = file
  spans : ∀ (k : Nat) (span : Nat × Nat), s.spans[k]? = some span →
    span.2 = 0 ∨ be.layerSpans[k]? = some span
  honest : s.Honest st
  readable : s.streams l = true → s.Readable l answer st

/-- A streamed block has the bytes of a span that the backend left to stream. -/
theorem blockFor_cases {be : Qwen35Backend K} {file : Bytes} {l : Nat}
    {answer : Nat → ReadAnswer} {st : SlotState} {streamer : Option BlockStreamer}
    (h : ∀ s, streamer = some s → Streaming be file l answer st s) :
    blockFor streamer l answer st = none ∨ ∃ span, be.layerSpans[l]? = some span ∧ 0 < span.2 ∧
      blockFor streamer l answer st = some (slice file span.1 span.2, span.1) := by
  cases streamer with
  | none => exact .inl rfl
  | some s =>
    have hs := h s rfl
    simp only [blockFor]
    by_cases hstream : s.streams l = true
    · right
      rw [if_pos hstream, BlockStreamer.guardBytes_of_readable hs.honest (hs.readable hstream)]
      rw [BlockStreamer.streams, Option.any_eq_true] at hstream
      obtain ⟨span, hspan, hpos⟩ := hstream
      replace hpos := of_decide_eq_true hpos
      refine ⟨span, (hs.spans l span hspan).resolve_left (by omega), hpos, ?_⟩
      rw [BlockStreamer.blockBytes, BlockStreamer.base, hspan, hs.file_eq]
      rfl
    · exact .inl (if_neg hstream)

/-- Wherever its weights live, the backend reads what the file holds. -/
structure Qwen35Backend.Faithful (be : Qwen35Backend K) (g : Gguf) (file : Bytes)
    (pinBudget : Nat) : Prop where
  budget : be.pinnedBytes ≤ pinBudget
  held : be.heldBytes = be.pinnedBytes
  embeddings : be.tokenEmbd.ReadsOwn g file "token_embd.weight" none
  tied : g.tensor "output.weight" = none → be.output = be.tokenEmbd
  output : g.tensor "output.weight" ≠ none → be.output.ReadsOwn g file "output.weight" none
  layers : ∀ l layer streamer answer st, be.layers[l]? = some layer →
    (∀ s, streamer = some s → Streaming be file l answer st s) →
    ∀ p ∈ layer.weights l, p.2.ReadsOwn g file p.1 (blockFor streamer l answer st)
  spans : ∀ l layer, be.layers[l]? = some layer → ∃ span, be.layerSpans[l]? = some span ∧
    ((span.2 = 0 ∧ ∃ v, layer.HeldIn l v) ∨
     (0 < span.2 ∧ layer.Unpinned l ∧ ∀ t ∈ g.tensors, blockIndex t.name = some l →
        span.1 ≤ g.place t ∧ g.place t + t.extent ≤ span.1 + span.2))

section

variable [Floats K] {g : Gguf} {file : Bytes} {mmap : Option Bytes} {b : Build}
  {cfg : Qwen35Config} {l : Nat} {layer : Layer K} {entry : (Nat × Nat) × Bool}

/-! ## One block -/

/-- A pinned block is in its buffer, and reads its tensors there. -/
theorem loadLayer_pinned (hwf : WellFormed g file) (hin : entry.1.1 + entry.1.2 ≤ file.length)
    (hpinned : entry.2 = true)
    (h : loadLayer b g file mmap cfg l (heldSpan file entry) = .ok layer) :
    layer.HeldIn l (slice file entry.1.1 entry.1.2) ∧ layer.ffnGate.heldBytes = entry.1.2 ∧
      ∀ p ∈ layer.weights l, p.2.ReadsOwn g file p.1 none := by
  rw [heldSpan, if_pos hpinned] at h
  have hweights := (loadLayer_weights h).1
  have hheld : layer.HeldIn l (slice file entry.1.1 entry.1.2) := by
    intro p hp
    obtain ⟨_, rows, cols, -, hw⟩ := hweights p hp
    obtain ⟨t, m, -, -, -, -, heq⟩ := pinnedWeight_place hwf hw
    exact ⟨_, _, _, heq⟩
  refine ⟨hheld, ?_, fun p hp => ?_⟩
  · obtain ⟨qtype, cols, start, heq⟩ := hheld _ (layer.ffnGate_mem l)
    simp only at heq
    rw [heq, Llama.Weight.heldBytes, length_slice hin]
  · obtain ⟨_, rows, cols, -, hw⟩ := hweights p hp
    exact readsOwn_pinned hwf hin hw

/-- Any other block is in the map, and reads its tensors there or in the block streamed for it. -/
theorem loadLayer_unpinned (hwf : WellFormed g file) (hmap : ∀ m, mmap = some m → m = file)
    (hin : entry.1.1 + entry.1.2 ≤ file.length) (hpinned : entry.2 = false)
    (hcover : ∀ t ∈ g.tensors, blockIndex t.name = some l →
      entry.1.1 ≤ g.place t ∧ g.place t + t.extent ≤ entry.1.1 + entry.1.2)
    (hl : l < 2 ^ 64)
    (h : loadLayer b g file mmap cfg l (heldSpan file entry) = .ok layer) :
    layer.Unpinned l ∧ layer.ffnGate.heldBytes = 0 ∧
      ∀ p ∈ layer.weights l, p.2.ReadsOwn g file p.1 none ∧
        p.2.ReadsOwn g file p.1 (some (slice file entry.1.1 entry.1.2, entry.1.1)) := by
  rw [heldSpan, if_neg (by rw [hpinned]; exact Bool.false_ne_true)] at h
  have hweights := (loadLayer_weights h).1
  have hplace : ∀ p ∈ layer.weights l, (∃ data cols, p.2 = .full data cols) ∨
      ∃ qtype cols start, p.2 = .packed qtype cols (.mapped file) start := by
    intro p hp
    obtain ⟨_, rows, cols, -, hw⟩ := hweights p hp
    obtain ⟨data, heq⟩ | ⟨t, m, -, -, heq⟩ := loadWeight_place hwf hmap hw
    · exact .inl ⟨data, cols, heq⟩
    · exact .inr ⟨_, _, _, heq⟩
  refine ⟨fun p hp qtype cols v start heq => ?_, ?_, fun p hp => ?_⟩
  · obtain ⟨data, cols', h'⟩ | ⟨qtype', cols', start', h'⟩ := hplace p hp
    · rw [heq] at h'
      cases h'
    · rw [heq] at h'
      cases h'
  · obtain ⟨data, cols, heq⟩ | ⟨qtype, cols, start, heq⟩ := hplace _ (layer.ffnGate_mem l)
    · simp only at heq
      rw [heq]
      rfl
    · simp only at heq
      rw [heq]
      rfl
  · obtain ⟨suffix, rows, cols, hname, hw⟩ := hweights p hp
    refine ⟨readsOwn_mapped hwf hmap hw, readsOwn_streamed hwf hmap hw hin fun t ht => ?_⟩
    obtain ⟨hmem, htname⟩ := Gguf.tensor_mem ht
    exact hcover t hmem (by rw [htname, hname, blockIndex_blockTensor suffix hl])

/-- A span of a block that was loaded is not empty. -/
theorem span_pos (hwf : WellFormed g file) (hd : cfg.dModel ≠ 0) (hl : l < 2 ^ 64)
    {held : Option (Bytes × Nat)} {span : Nat × Nat}
    (hcover : ∀ t ∈ g.tensors, blockIndex t.name = some l →
      span.1 ≤ g.place t ∧ g.place t + t.extent ≤ span.1 + span.2)
    (h : loadLayer b g file mmap cfg l held = .ok layer) : 0 < span.2 := by
  obtain ⟨suffix, hnorm⟩ := (loadLayer_weights h).2
  obtain ⟨data, hdata, hlen⟩ := Checked.bind_eq_ok hnorm
  have hwidth : data.length = cfg.dModel := by
    split at hlen
    · cases hlen
    · next hne => exact not_not.mp hne
  cases ht : g.tensor (blockTensor l suffix) with
  | none =>
    rw [Gguf.tensorF32, ht] at hdata
    cases hdata
  | some t =>
    obtain ⟨hmem, htname⟩ := Gguf.tensor_mem ht
    have hsize := hwf.size
    obtain ⟨t', m, ht', hm, helems, -, -⟩ := Gguf.reads_of_ok hsize ht (hwf.products t hmem)
      (fun m hm => by
        have := hwf.bytes_le hmem hm
        omega) hdata
    rw [ht] at ht'
    cases ht'
    have hpos : 0 < m := by
      have helems' : 0 < t.elements := by omega
      exact dataBytes_pos hm helems'
    obtain ⟨hlo, hhi⟩ := hcover t hmem (by rw [htname, blockIndex_blockTensor suffix hl])
    rw [TensorInfo.extent, hm, Option.getD_some] at hhi
    omega

/-! ## The head -/

theorem pin_eq_ok {start len : Nat} {src : Bytes} (hstart : start < 2 ^ 63) (hlen : len < 2 ^ 64)
    (h : pin b file start len = .ok src) :
    start + len ≤ file.length ∧ src = slice file start len := by
  obtain ⟨stop, hstop, h⟩ := Checked.bind_eq_ok h
  replace hstop := Build.fit_eq_ok hstop
  split at h
  · cases h
  next hin =>
    unfold index at h
    split at h
    next hbounds =>
      cases h
      have hwhole : stop = start + len := by omega
      rw [hwhole] at hbounds ⊢
      exact ⟨hbounds.2, by rw [Nat.add_sub_cancel_left]⟩
    next => cases h

/-- The head's span starts at its tensor. -/
theorem headSpan_eq_ok (hwf : WellFormed g file) {head : Option (Nat × Nat)}
    (h : headSpan b g cfg = .ok head) :
    (g.tensor "output.weight" = none → head = none) ∧
    ∀ span, head = some span → span.1 < 2 ^ 63 ∧ span.2 < 2 ^ 64 := by
  unfold headSpan at h
  cases ht : g.tensor "output.weight" with
  | none =>
    rw [ht] at h
    cases h
    exact ⟨fun _ => rfl, fun span hspan => nomatch hspan⟩
  | some t =>
    rw [ht] at h
    refine ⟨fun hno => (by cases hno), fun span hspan => ?_⟩
    obtain ⟨n, -, h⟩ := Checked.bind_eq_ok h
    cases hsize : byteSize b t.ggmlType n with
    | err e =>
      rw [hsize] at h
      cases h
      cases hspan
    | panic =>
      rw [hsize] at h
      cases h
    | ok len =>
      rw [hsize] at h
      obtain ⟨start, hstart, h⟩ := Checked.bind_eq_ok h
      obtain ⟨m, -, rfl⟩ := byteSize_eq_ok hsize
      have hplace := hwf.within t (Gguf.tensor_mem ht).1
      have hfile := hwf.size
      replace hstart := Build.fit_eq_ok hstart
      cases h
      cases hspan
      refine ⟨?_, Nat.mod_lt _ (by decide)⟩
      have hle : start ≤ g.place t := hstart ▸ Nat.mod_le _ _
      simp only
      omega

/-- The head reads its tensor out of its own buffer, or out of the map. -/
theorem loadOutput_place (hwf : WellFormed g file) (hmap : ∀ m, mmap = some m → m = file)
    {held : Option (Nat × Nat)} {tokenEmbd output : Llama.Weight K}
    (hheld : ∀ span, held = some span → span.1 < 2 ^ 63 ∧ span.2 < 2 ^ 64)
    (ht : g.tensor "output.weight" ≠ none)
    (h : loadOutput b g file mmap cfg held tokenEmbd = .ok output) :
    output.heldBytes = (held.map Prod.snd).getD 0 ∧
      output.ReadsOwn g file "output.weight" none := by
  obtain ⟨t, ht⟩ := Option.ne_none_iff_exists'.mp ht
  unfold loadOutput at h
  rw [ht] at h
  cases held with
  | none =>
    refine ⟨?_, readsOwn_mapped hwf hmap h⟩
    obtain ⟨data, rfl⟩ | ⟨t, m, -, -, rfl⟩ := loadWeight_place hwf hmap h
    · rfl
    · rfl
  | some span =>
    obtain ⟨start, len⟩ := span
    obtain ⟨hstart, hlen⟩ := hheld _ rfl
    obtain ⟨src, hsrc, h⟩ := Checked.bind_eq_ok h
    obtain ⟨hin, rfl⟩ := pin_eq_ok hstart hlen hsrc
    have hreads : output.ReadsOwn g file "output.weight" none := by
      have hspan : (start, len).1 + (start, len).2 ≤ file.length := hin
      exact readsOwn_pinned hwf hspan h
    refine ⟨?_, hreads⟩
    obtain ⟨t, m, -, -, -, -, rfl⟩ := pinnedWeight_place hwf h
    exact length_slice hin

/-! ## The theorem -/

/-- A streamed block is either of no concern to the layer, or is that of its entry. -/
theorem layer_reads (hwf : WellFormed g file) (hmap : ∀ m, mmap = some m → m = file)
    (hin : entry.1.1 + entry.1.2 ≤ file.length)
    (hcover : ∀ t ∈ g.tensors, blockIndex t.name = some l →
      entry.1.1 ≤ g.place t ∧ g.place t + t.extent ≤ entry.1.1 + entry.1.2)
    (hl : l < 2 ^ 64)
    (h : loadLayer b g file mmap cfg l (heldSpan file entry) = .ok layer)
    {block : Option (Bytes × Nat)}
    (hblock : block = none ∨ (entry.2 = false ∧
      block = some (slice file entry.1.1 entry.1.2, entry.1.1))) :
    ∀ p ∈ layer.weights l, p.2.ReadsOwn g file p.1 block := by
  cases hpinned : entry.2 with
  | true =>
    rcases hblock with rfl | ⟨hno, -⟩
    · exact (loadLayer_pinned hwf hin hpinned h).2.2
    · rw [hpinned] at hno
      cases hno
  | false =>
    obtain ⟨-, -, hreads⟩ := loadLayer_unpinned hwf hmap hin hpinned hcover hl h
    rcases hblock with rfl | ⟨-, rfl⟩
    · exact fun p hp => (hreads p hp).1
    · exact fun p hp => (hreads p hp).2

/-- What a layer holds of its own is what its entry pins. -/
theorem layer_heldBytes (hwf : WellFormed g file) (hmap : ∀ m, mmap = some m → m = file)
    (hin : entry.1.1 + entry.1.2 ≤ file.length)
    (hcover : ∀ t ∈ g.tensors, blockIndex t.name = some l →
      entry.1.1 ≤ g.place t ∧ g.place t + t.extent ≤ entry.1.1 + entry.1.2)
    (hl : l < 2 ^ 64)
    (h : loadLayer b g file mmap cfg l (heldSpan file entry) = .ok layer) :
    layer.ffnGate.heldBytes = pinnedLength entry := by
  cases hpinned : entry.2 with
  | true => rw [(loadLayer_pinned hwf hin hpinned h).2.1, pinnedLength, if_pos hpinned]
  | false =>
    rw [(loadLayer_unpinned hwf hmap hin hpinned hcover hl h).2.1, pinnedLength,
      if_neg (by rw [hpinned]; exact Bool.false_ne_true)]

/-- What is held of the head is its span, if that fits in the budget. -/
theorem output_held (hwf : WellFormed g file) (hmap : ∀ m, mmap = some m → m = file)
    {head held : Option (Nat × Nat)} {budget : Nat} {tokenEmbd output : Llama.Weight K}
    (hheld : (head.filter fun span => decide (span.2 ≤ budget)) = held)
    (hhead : headSpan b g cfg = .ok head)
    (hembd : loadWeight b g file mmap "token_embd.weight" cfg.vocab cfg.dModel = .ok tokenEmbd)
    (h : loadOutput b g file mmap cfg held tokenEmbd = .ok output) :
    (held.map Prod.snd).getD 0 ≤ budget ∧ output.heldBytes = (held.map Prod.snd).getD 0 ∧
      (g.tensor "output.weight" = none → output = tokenEmbd) ∧
      (g.tensor "output.weight" ≠ none → output.ReadsOwn g file "output.weight" none) := by
  obtain ⟨hnone, hspan⟩ := headSpan_eq_ok hwf hhead
  have hkept : ∀ span, held = some span → head = some span ∧ span.2 ≤ budget := by
    intro span hs
    rw [hs, Option.filter_eq_some_iff] at hheld
    exact ⟨hheld.1, of_decide_eq_true hheld.2⟩
  have hle : (held.map Prod.snd).getD 0 ≤ budget := by
    cases hs : held with
    | none => exact Nat.zero_le _
    | some span => exact (hkept span hs).2
  cases ht : g.tensor "output.weight" with
  | some t =>
    have hne : g.tensor "output.weight" ≠ none := by rw [ht]; exact nofun
    obtain ⟨hbytes, hreads⟩ :=
      loadOutput_place hwf hmap (fun span hs => hspan span (hkept span hs).1) hne h
    exact ⟨hle, hbytes, (nomatch ·), fun _ => hreads⟩
  | none =>
    rw [hnone ht] at hheld
    unfold loadOutput at h
    rw [ht] at h
    cases h
    refine ⟨hle, ?_, fun _ => rfl, fun hno => absurd rfl hno⟩
    rw [← hheld]
    rcases loadWeight_place hwf hmap hembd with ⟨data, rfl⟩ | ⟨t, m, -, -, rfl⟩
    · rfl
    · rfl

/-- A layer of the backend, and the entry it was loaded by. -/
structure LoadedBy (b : Build) (g : Gguf) (file : Bytes) (mmap : Option Bytes) (cfg : Qwen35Config)
    (entries : List ((Nat × Nat) × Bool)) (l : Nat) (layer : Layer K)
    (entry : (Nat × Nat) × Bool) : Prop where
  lt : l < 2 ^ 64
  entry_at : entries[l]? = some entry
  inside : entry.1.1 + entry.1.2 ≤ file.length
  covers : ∀ t ∈ g.tensors, blockIndex t.name = some l →
    entry.1.1 ≤ g.place t ∧ g.place t + t.extent ≤ entry.1.1 + entry.1.2
  loaded : loadLayer b g file mmap cfg l (heldSpan file entry) = .ok layer

theorem layers_loadedBy (hwf : WellFormed g file) {spans : List (Nat × Nat)} {pinned : List Bool}
    {layers : List (Layer K)} (hcovers : Covers g file spans) (hcount : spans.length < 2 ^ 64)
    (h : loadLayers b g file mmap cfg 0 (spans.zip pinned) = .ok layers) :
    layers.length = (spans.zip pinned).length ∧ ∀ (l : Nat) (layer : Layer K),
      layers[l]? = some layer →
        ∃ entry, LoadedBy b g file mmap cfg (spans.zip pinned) l layer entry := by
  have hentry : ∀ (l : Nat) (entry : (Nat × Nat) × Bool), (spans.zip pinned)[l]? = some entry →
      spans[l]? = some entry.1 := fun l entry he => (List.getElem?_zip_eq_some.mp he).1
  have hin : ∀ entry ∈ spans.zip pinned, entry.1.1 + entry.1.2 ≤ file.length := by
    intro entry hmem
    obtain ⟨l, hl⟩ := List.getElem?_of_mem hmem
    exact hcovers.inside l entry.1 (hentry l entry hl)
  obtain ⟨hlen, hget⟩ := loadLayers_get hwf.size _ 0 layers hin h
  refine ⟨hlen, fun l layer hl => ?_⟩
  obtain ⟨entry, he, hload⟩ := hget l layer hl
  have hlt : l < spans.length := (List.getElem?_eq_some_iff.mp (hentry l entry he)).1
  rw [Nat.zero_add] at hload
  exact ⟨entry, Nat.lt_trans hlt hcount, he, hin entry (List.mem_of_getElem? he),
    hcovers.holds l entry.1 (hentry l entry he), hload⟩

/-- The layers hold what their entries pin. -/
theorem layers_heldBytes (hwf : WellFormed g file) (hmap : ∀ m, mmap = some m → m = file)
    {entries : List ((Nat × Nat) × Bool)} {layers : List (Layer K)}
    (hlen : layers.length = entries.length)
    (hlayer : ∀ (l : Nat) (layer : Layer K), layers[l]? = some layer →
      ∃ entry, LoadedBy b g file mmap cfg entries l layer entry) :
    (layers.map fun layer => layer.ffnGate.heldBytes) = entries.map pinnedLength := by
  refine List.ext_getElem? fun l => ?_
  rw [List.getElem?_map, List.getElem?_map]
  cases hl : layers[l]? with
  | none =>
    rw [List.getElem?_eq_none_iff, hlen] at hl
    rw [List.getElem?_eq_none_iff.mpr hl]
    rfl
  | some layer =>
    obtain ⟨entry, he⟩ := hlayer l layer hl
    rw [he.entry_at, Option.map_some, Option.map_some,
      layer_heldBytes hwf hmap he.inside he.covers he.lt he.loaded]

/-- A layer reads its own tensors, whichever block is streamed for the span of its entry. -/
theorem LoadedBy.reads (hwf : WellFormed g file) (hmap : ∀ m, mmap = some m → m = file)
    {entries : List ((Nat × Nat) × Bool)} (he : LoadedBy b g file mmap cfg entries l layer entry)
    {block : Option (Bytes × Nat)}
    (hblock : block = none ∨ ∃ span, (if entry.2 then (0, 0) else entry.1) = span ∧ 0 < span.2 ∧
      block = some (slice file span.1 span.2, span.1)) :
    ∀ p ∈ layer.weights l, p.2.ReadsOwn g file p.1 block := by
  refine layer_reads hwf hmap he.inside he.covers he.lt he.loaded (hblock.imp_right ?_)
  rintro ⟨span, hs, hpos, rfl⟩
  cases hpinned : entry.2 with
  | true =>
    rw [hpinned, if_pos rfl] at hs
    rw [← hs] at hpos
    cases hpos
  | false =>
    rw [hpinned, if_neg Bool.false_ne_true] at hs
    rw [hs]
    exact ⟨rfl, rfl⟩

/-- A pinned layer has no span of its own left, and another has all its tensors in its span. -/
theorem LoadedBy.span (hwf : WellFormed g file) (hmap : ∀ m, mmap = some m → m = file)
    (hdModel : cfg.dModel ≠ 0) {entries : List ((Nat × Nat) × Bool)}
    (he : LoadedBy b g file mmap cfg entries l layer entry) {span : Nat × Nat}
    (hspan : (if entry.2 then (0, 0) else entry.1) = span) :
    (span.2 = 0 ∧ ∃ v, layer.HeldIn l v) ∨
      (0 < span.2 ∧ layer.Unpinned l ∧ ∀ t ∈ g.tensors, blockIndex t.name = some l →
        span.1 ≤ g.place t ∧ g.place t + t.extent ≤ span.1 + span.2) := by
  subst hspan
  cases hpinned : entry.2 with
  | true => exact .inl ⟨rfl, _, (loadLayer_pinned hwf he.inside hpinned he.loaded).1⟩
  | false =>
    exact .inr ⟨span_pos hwf hdModel he.lt he.covers he.loaded,
      (loadLayer_unpinned hwf hmap he.inside hpinned he.covers he.lt he.loaded).1, he.covers⟩

/-- The span that is left to be streamed. -/
theorem streamed_span {entries : List ((Nat × Nat) × Bool)} (h : entries[l]? = some entry) :
    (entries.map fun (span, held) => if held then (0, 0) else span)[l]?
      = some (if entry.2 then (0, 0) else entry.1) := by
  rw [List.getElem?_map, h]
  rfl

/--
**Where a weight lives never changes its bytes.**

Of a well-formed file, every packed weight reads what the file holds at its tensor, in bounds,
whatever the budget pins and whatever is streamed. The buffers of this process take no more than
the budget; a block's span is empty just when the block is pinned, and holds all its tensors
otherwise.
-/
theorem placement_faithful (b : Build) (g : Gguf) (file : Bytes) (mmap : Option Bytes)
    (pinBudget : Nat) (be : Qwen35Backend K) (hwf : WellFormed g file)
    (hmap : ∀ m, mmap = some m → m = file)
    (h : Qwen35Backend.fromGgufPinned b g file mmap pinBudget = .ok be) :
    be.Faithful g file pinBudget := by
  unfold Qwen35Backend.fromGgufPinned at h
  obtain ⟨cfg, hcfg, h⟩ := Checked.bind_eq_ok h
  obtain ⟨spans, hspans, h⟩ := Checked.bind_eq_ok h
  obtain ⟨head, hhead, h⟩ := Checked.bind_eq_ok h
  obtain ⟨tokenEmbd, hembd, h⟩ := Checked.bind_eq_ok h
  obtain ⟨outputNorm, -, h⟩ := Checked.bind_eq_ok h
  obtain ⟨output, houtput, h⟩ := Checked.bind_eq_ok h
  obtain ⟨layers, hlayers, h⟩ := Checked.bind_eq_ok h
  cases h
  obtain ⟨⟨d, hd, hwidth⟩, hcount⟩ := Qwen35Config.fromGguf_eq_ok hcfg
  obtain ⟨spans', hspans', hlen, hcovers⟩ := blockSpans_covers hwf b cfg.nLayers
  rw [hspans] at hspans'
  cases hspans'
  have hdModel : cfg.dModel ≠ 0 := by
    intro hzero
    rw [hwidth] at hzero
    exact hwf.width (by rw [hd, UInt64.toNat_inj.mp (hzero.trans UInt64.toNat_zero.symm)])
  generalize hbudget : (if mmap.isSome then pinBudget else 0) = budget at *
  have hbudget_le : budget ≤ pinBudget := by
    rw [← hbudget]
    split
    · exact Nat.le_refl _
    · exact Nat.zero_le _
  generalize hheld : (head.filter fun span => decide (span.2 ≤ budget)) = held at *
  obtain ⟨hheadLe, houtputHeld, htied, hreads⟩ := output_held hwf hmap hheld hhead hembd houtput
  obtain ⟨hused, hsum⟩ := pinBlocks_used (budget - (held.map Prod.snd).getD 0) spans
  generalize pinBlocks (budget - (held.map Prod.snd).getD 0) spans = pinned at *
  obtain ⟨hlayersLen, hlayer⟩ := layers_loadedBy hwf hcovers (by omega) hlayers
  refine ⟨?_, ?_, readsOwn_mapped hwf hmap hembd, htied, hreads, ?_, ?_⟩
  · simp only
    omega
  · rw [Qwen35Backend.heldBytes, houtputHeld, layers_heldBytes hwf hmap hlayersLen hlayer, hsum]
  · intro l layer streamer answer st hl hstreams
    obtain ⟨entry, he⟩ := hlayer l layer hl
    refine he.reads hwf hmap ?_
    rcases blockFor_cases hstreams with hno | ⟨span, hs, hpos, hblock⟩
    · exact .inl hno
    · rw [streamed_span he.entry_at, Option.some.injEq] at hs
      exact .inr ⟨span, hs, hpos, hblock⟩
  · intro l layer hl
    obtain ⟨entry, he⟩ := hlayer l layer hl
    exact ⟨_, streamed_span he.entry_at, he.span hwf hmap hdModel rfl⟩

end

/-! ## A small model -/

/-- One attention block, one wide, with tied embeddings. -/
def smallMetadata : List (String × Value) :=
  [("general.architecture", .string "qwen35"), ("qwen35.embedding_length", .u32 1),
   ("qwen35.block_count", .u32 1), ("qwen35.attention.head_count", .u32 1),
   ("qwen35.attention.head_count_kv", .u32 1), ("qwen35.attention.key_length", .u32 1),
   ("qwen35.feed_forward_length", .u32 1), ("qwen35.ssm.conv_kernel", .u32 2),
   ("qwen35.ssm.state_size", .u32 1), ("qwen35.ssm.group_count", .u32 1),
   ("qwen35.ssm.time_step_rank", .u32 1), ("qwen35.ssm.inner_size", .u32 1),
   ("qwen35.full_attention_interval", .u32 1),
   ("tokenizer.ggml.tokens", .array [.string "a"])]

def smallGguf : Gguf where
  version := 3
  metadata := smallMetadata.foldl (fun m (k, v) => m.insert k v) ∅
  tensors :=
    [⟨"token_embd.weight", [1], f32, 0⟩, ⟨"output_norm.weight", [1], f32, 4⟩,
     ⟨"blk.0.attn_norm.weight", [1], f32, 8⟩, ⟨"blk.0.attn_q.weight", [2], f32, 12⟩,
     ⟨"blk.0.attn_k.weight", [1], f32, 20⟩, ⟨"blk.0.attn_v.weight", [1], f32, 24⟩,
     ⟨"blk.0.attn_output.weight", [1], f32, 28⟩, ⟨"blk.0.attn_q_norm.weight", [1], f32, 32⟩,
     ⟨"blk.0.attn_k_norm.weight", [1], f32, 36⟩,
     ⟨"blk.0.post_attention_norm.weight", [1], f32, 40⟩, ⟨"blk.0.ffn_gate.weight", [1], f32, 44⟩,
     ⟨"blk.0.ffn_up.weight", [1], f32, 48⟩, ⟨"blk.0.ffn_down.weight", [1], f32, 52⟩]
  dataOffset := 0

/-- A load that keeps `n` bytes. -/
def pins (n : Nat) : Checked GarudaError (Qwen35Backend ℚ) → Bool
  | .ok be => be.pinnedBytes == n
  | .err _ => false
  | .panic => false

theorem exists_of_pins {n : Nat} {res : Checked GarudaError (Qwen35Backend ℚ)}
    (h : pins n res = true) : ∃ be, res = .ok be ∧ be.pinnedBytes = n := by
  cases res with
  | ok be => exact ⟨be, rfl, beq_iff_eq.mp h⟩
  | err e => cases h
  | panic => cases h

theorem placement_faithful_small :
    ∃ be : Qwen35Backend ℚ, Qwen35Backend.fromGgufPinned .release smallGguf
        (List.replicate 56 0) (some (List.replicate 56 0)) 100 = .ok be ∧
      be.pinnedBytes = 48 ∧ be.Faithful smallGguf (List.replicate 56 0) 100 := by
  have hpins : pins 48 (Qwen35Backend.fromGgufPinned .release smallGguf (List.replicate 56 0)
      (some (List.replicate 56 0)) 100) = true := by decide +kernel
  obtain ⟨be, hbe, hbytes⟩ := exists_of_pins hpins
  refine ⟨be, hbe, hbytes, placement_faithful .release smallGguf _ _ 100 be ?_ ?_ hbe⟩
  · refine ⟨by decide, fun t ht ps hps => ?_, by decide, by decide +kernel⟩
    have hall : ∀ t ∈ smallGguf.tensors, ∀ ps ∈ t.dims.inits,
        (ps.map UInt64.toNat).prod < 2 ^ 64 := by decide
    exact hall t ht ps ((List.mem_inits ps t.dims).mpr hps)
  · intro m hm
    exact (Option.some.inj hm).symm

end Garuda
