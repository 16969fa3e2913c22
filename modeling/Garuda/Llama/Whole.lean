import Garuda.Llama.Pass

/-!
# Weights that are there

A backend all of whose matrices lie in their buffers. Nothing is asked of the arithmetic, and of the
numbers only that the embeddings are finite, as a packed row that is not is refused: such a backend
computes the products of its rows, and so it serves the model that they make.

* `Weight.Whole` is a matrix of so many rows and columns, expanded or packed, and `Weight.product`
  what some of its rows come to.
* `LlamaBackend.Whole` is a backend of such matrices, and `meaning` what it computes.

`Whole.sound` connects the two.
-/

namespace Garuda

open Infra Quant

namespace Llama

variable {K : Type}

/-! ## One matrix -/

/-- A matrix whose rows all lie in its buffer. -/
def Weight.Whole (rows cols : Nat) : Weight K → Prop
  | .full data c => c = cols ∧ data.length = rows * cols ∧ 4 * data.length < 2 ^ 63
  | .packed qtype c src start => c = cols ∧ src.bytes.length < 2 ^ 63 ∧
      ∃ rb, dataBytes qtype cols = some rb ∧ start + rows * rb ≤ src.bytes.length

/-- The inner product with row `r`. -/
def Weight.dotRow (d : RowDots K) [Rounds K] (r : Nat) (x : List K) : Weight K → K
  | .full data cols => d.dot (rowOf cols r data) x
  | .packed qtype cols src start =>
    let rb := (dataBytes qtype cols).getD 0
    rowDot d qtype (slice src.bytes (start + r * rb) rb) x

/-- The inner products with `n` rows from `first` on. -/
def Weight.product (d : RowDots K) [Rounds K] (w : Weight K) (first n : Nat) (x : List K) :
    List K := (List.range n).map fun r => w.dotRow d (first + r) x

/-- The numbers of row `r`. -/
def Weight.values [Floats K] (r : Nat) : Weight K → List K
  | .full data cols => rowOf cols r data
  | .packed qtype cols src start =>
    let rb := (dataBytes qtype cols).getD 0
    decoded qtype (slice src.bytes (start + r * rb) rb)

theorem rowOf_part {α : Type} {w first n r : Nat} (s : List α) (hr : r < n) :
    rowOf w r ((s.drop (first * w)).take (n * w)) = rowOf w (first + r) s := by
  have hle := row_le (w := w) hr
  rw [Nat.add_one_mul] at hle
  rw [rowOf, rowOf, List.drop_take, List.take_take, List.drop_drop, Nat.min_eq_left (by omega),
    Nat.add_mul]

section Products

variable [Rounds K] {d : RowDots K} {b : Build} {plan : Split} {w : Weight K}
  {rows cols first m n : Nat} {x xs out : List K}

@[simp] theorem Weight.length_product : (w.product d first n x).length = n := by simp [product]

omit [Rounds K] in
/-- The numbers of some of the rows. -/
theorem rowsValues_within {data : List K} (hlen : data.length = rows * cols)
    (hmem : 4 * data.length < 2 ^ 63) (hrows : first + m ≤ rows) :
    rowsValues b data cols first m = .ok ((data.drop (first * cols)).take (m * cols)) := by
  have hall : first * cols + m * cols ≤ rows * cols := by
    rw [← Nat.add_mul]
    exact Nat.mul_le_mul_right cols hrows
  rw [rowsValues, Build.fit_of_lt b (by omega), Checked.ok_bind, Build.fit_of_lt b (by omega),
    Checked.ok_bind, Build.fit_of_lt b (by omega), Checked.ok_bind, between, if_pos (by omega),
    Nat.add_sub_cancel_left]

omit [Rounds K] in
theorem length_part {data : List K} (hlen : data.length = rows * cols) (hrows : first + m ≤ rows) :
    ((data.drop (first * cols)).take (m * cols)).length = m * cols := by
  have hall : first * cols + m * cols ≤ rows * cols := by
    rw [← Nat.add_mul]
    exact Nat.mul_le_mul_right cols hrows
  rw [List.length_take, List.length_drop]
  omega

/-- The rows of a part of a packed matrix. -/
theorem rowOf_slice {src : Bytes} {start rb r : Nat} (hr : r < m) :
    rowOf rb r (slice src (start + first * rb) (m * rb)) = slice src (start + (first + r) * rb) rb := by
  show slice (slice src _ _) (r * rb) rb = _
  rw [slice_slice (expert_le rb hr), Nat.add_mul, Nat.add_assoc]

theorem length_slice_rows {src : Bytes} {start rb : Nat} (hin : start + rows * rb ≤ src.length)
    (hrows : first + m ≤ rows) : (slice src (start + first * rb) (m * rb)).length = m * rb := by
  have hall : first * rb + m * rb ≤ rows * rb := by
    rw [← Nat.add_mul]
    exact Nat.mul_le_mul_right rb hrows
  exact length_slice (by omega)

/-- **A product with some rows, of several vectors.** -/
theorem Weight.Whole.matmulRowsIn_eq [Zero K] (h : w.Whole rows cols) (hcols : 0 < cols)
    (hrows : first + m ≤ rows) (hn : 0 < n) (hxs : xs.length = n * cols)
    (hout : out.length = n * m) (hxmem : 4 * xs.length < 2 ^ 63) (homem : 4 * out.length < 2 ^ 63) :
    w.matmulRowsIn d b plan none first xs n out
      = .ok ((List.range n).flatMap fun t => w.product d first m (rowOf cols t xs)) := by
  have hmany := rows_of_out hn hout
  cases w with
  | full data c =>
    obtain ⟨rfl, hlen, hmem⟩ := h
    have hpart := length_part hlen hrows
    have hle : m * c ≤ data.length := by
      rw [← hpart, List.length_take, List.length_drop]
      omega
    simp only [Weight.matmulRowsIn, hmany, rowsValues_within hlen hmem hrows, Checked.ok_bind]
    rw [Simd.matmul_eq hpart hxs hout (by omega) (by omega) (by omega) hn hcols]
    congr 1
    refine List.flatMap_congr fun t _ => List.map_congr_left fun r hr => ?_
    rw [rowOf_part data (List.mem_range.mp hr), Weight.dotRow]
  | packed qtype c src start =>
    obtain ⟨rfl, hsrc, rb, hrb, hin⟩ := h
    have hrb4 := dataBytes_le hrb
    have hc : c ≤ n * c := Nat.le_mul_of_pos_left c hn
    have hraw := length_slice_rows hin hrows
    have hle : m * rb ≤ rows * rb := Nat.mul_le_mul_right rb (by omega)
    simp only [Weight.matmulRowsIn, hmany]
    rw [rowsBytes_within b (show located src start none = (src.bytes, start) from rfl) hsrc hrb
      (by omega) hin hrows, Checked.ok_bind,
      Quant.matmul_eq hrb hraw hxs hout (by omega) hxmem homem hn hcols]
    congr 1
    refine List.flatMap_congr fun t _ => List.map_congr_left fun r hr => ?_
    simp only [Weight.dotRow, hrb, Option.getD_some]
    rw [rowOf_slice (List.mem_range.mp hr)]

/-- The same of one vector. -/
theorem Weight.Whole.matvecRowsIn_eq [Zero K] (h : w.Whole rows cols) (hcols : 0 < cols)
    (hrows : first + m ≤ rows) (hx : x.length = cols) (hout : out.length = m)
    (hmem : 4 * cols < 2 ^ 63) :
    w.matvecRowsIn d b plan none first x out = .ok (w.product d first m x) := by
  cases w with
  | full data c =>
    obtain ⟨rfl, hlen, hdata⟩ := h
    have hpart := length_part hlen hrows
    have hle : m * c ≤ data.length := by
      rw [← hpart, List.length_take, List.length_drop]
      omega
    simp only [Weight.matvecRowsIn, hout, rowsValues_within hlen hdata hrows, Checked.ok_bind]
    rw [Simd.matvec_eq hpart hx hout (by omega) hcols]
    congr 1
    refine List.map_congr_left fun r hr => ?_
    rw [rowOf_part data (List.mem_range.mp hr), Weight.dotRow]
  | packed qtype c src start =>
    obtain ⟨rfl, hsrc, rb, hrb, hin⟩ := h
    have hrb4 := dataBytes_le hrb
    have hraw := length_slice_rows hin hrows
    have hle : m * rb ≤ rows * rb := Nat.mul_le_mul_right rb (by omega)
    simp only [Weight.matvecRowsIn, hout]
    rw [rowsBytes_within b (show located src start none = (src.bytes, start) from rfl) hsrc hrb
      (by omega) hin hrows, Checked.ok_bind,
      Quant.matvec_eq hrb hraw hx hout (by omega) hmem hcols]
    congr 1
    refine List.map_congr_left fun r hr => ?_
    simp only [Weight.dotRow, hrb, Option.getD_some]
    rw [rowOf_slice (List.mem_range.mp hr)]

end Products

/-! ## Experts -/

/-- One matrix of each of `ne` experts, of `block` rows. -/
def ExpertWeight.Whole (ne block cols : Nat) : ExpertWeight K → Prop
  | .stacked w => w.Whole (ne * block) cols
  | .split ws => ∀ e, e < ne → ∃ w, ws[e]? = some w ∧ w.Whole block cols

def ExpertWeight.product [Rounds K] (d : RowDots K) (block : Nat) (w : ExpertWeight K) (e : Nat)
    (x : List K) : List K :=
  match w with
  | .stacked w => w.product d (e * block) block x
  | .split ws => (ws[e]?).elim [] fun w => w.product d 0 block x

/-- What one expert of three matrices answers. -/
def Swiglu.answer [Rounds K] (d : RowDots K) (silu : K → K) (dModel dFf : Nat) (w : Swiglu K)
    (e : Nat) (x : List K) : List K :=
  w.down.product d dModel e (List.zipWith (· * ·) ((w.gate.product d dFf e x).map silu)
    (w.up.product d dFf e x))

structure Swiglu.Whole (ne dModel dFf : Nat) (w : Swiglu K) : Prop where
  gate : w.gate.Whole ne dFf dModel
  up : w.up.Whole ne dFf dModel
  down : w.down.Whole ne dModel dFf

/-- A feed-forward with a matrix for every expert, and a score for each if there are several. -/
def Ffn.Whole (ne dModel dFf : Nat) : Ffn K → Prop
  | .dense w => w.Whole 1 dModel dFf
  | .moe router w => router.Whole ne dModel ∧ w.Whole ne dModel dFf

section Experts

variable [Rounds K] [Zero K] {d : RowDots K} {b : Build} {plan : Split}
  {ne block cols dModel dFf limit : Nat}

/-- **An expert's matrix is a function of one vector.** -/
theorem ExpertWeight.Whole.multiplies {w : ExpertWeight K} (h : w.Whole ne block cols)
    (hcols : 0 < cols) (hfit : ne * block < 2 ^ 64) (hin : 4 * (limit * cols) < 2 ^ 63)
    (hout : 4 * (limit * block) < 2 ^ 63) :
    Multiplies d b plan w ne block cols limit (w.product d block) := by
  have hsizes : ∀ {n : Nat} {xs out : List K}, n ≤ limit → xs.length = n * cols →
      out.length = n * block → 4 * xs.length < 2 ^ 63 ∧ 4 * out.length < 2 ^ 63 := by
    intro n xs out hn hxs hlen
    have hxs' := Nat.mul_le_mul_right cols hn
    have hout' := Nat.mul_le_mul_right block hn
    omega
  cases w with
  | stacked w =>
    refine ⟨fun e x _ => Weight.length_product, fun e xs n out he hn hlimit hxs hlen => ?_⟩
    have hrows := expert_le block he
    obtain ⟨hxmem, homem⟩ := hsizes hlimit hxs hlen
    rw [matmulExpert_stacked _ _ _ _ (by omega),
      Weight.Whole.matmulRowsIn_eq h hcols hrows hn hxs hlen hxmem homem]
    rfl
  | split ws =>
    refine ⟨fun e x he => ?_, fun e xs n out he hn hlimit hxs hlen => ?_⟩
    · obtain ⟨w, hw, -⟩ := h e he
      rw [ExpertWeight.product, hw]
      exact Weight.length_product
    · obtain ⟨w, hw, hwhole⟩ := h e he
      obtain ⟨hxmem, homem⟩ := hsizes hlimit hxs hlen
      rw [matmulExpert_split _ _ _ _ hw, hwhole.matmulRowsIn_eq hcols
        (show 0 + block ≤ block by omega) hn hxs hlen hxmem homem]
      simp only [ExpertWeight.product, hw]
      rfl

/-- **So is an expert.** -/
theorem Swiglu.Whole.answers {silu : K → K} {w : Swiglu K} (h : w.Whole ne dModel dFf)
    (hd : 0 < dModel) (hf : 0 < dFf) (hgates : ne * dFf < 2 ^ 64) (hdowns : ne * dModel < 2 ^ 64)
    (hin : 4 * (limit * dModel) < 2 ^ 63) (hmid : 4 * (limit * dFf) < 2 ^ 63) :
    Answers (expertBatch d b plan silu dModel dFf) w dModel ne limit
      (w.answer d silu dModel dFf) :=
  expertBatch_answers (h.gate.multiplies hd hgates hin hmid) (h.up.multiplies hd hgates hin hmid)
    (h.down.multiplies hf hdowns hmid hin)

end Experts

/-! ## Backends -/

section

variable [Analytic F32] {host : Host} {w : Weight F32} {rows cols limit : Nat}

/-- A whole matrix is a function of each of the vectors that it is given. -/
theorem Weight.Whole.means (h : w.Whole rows cols) (hcols : 0 < cols)
    (hin : 4 * (limit * cols) < 2 ^ 63) (hout : 4 * (limit * rows) < 2 ^ 63) :
    w.Means host rows cols limit (w.product host.dots 0 rows) where
  width _ := Weight.length_product
  product xs n out hn hle hxs hlen := by
    have hxs' := Nat.mul_le_mul_right cols hle
    have hout' := Nat.mul_le_mul_right rows hle
    exact h.matmulRowsIn_eq hcols (show 0 + rows ≤ rows by omega) hn hxs hlen (by omega) (by omega)

/-- A row of finite numbers is decoded. -/
theorem Weight.Whole.row_eq (h : w.Whole rows cols) (hmem : 4 * cols < 2 ^ 63) {r : Nat}
    (hr : r < rows) (hfinite : ∀ v ∈ w.values r, Floats.isFinite v = true) :
    w.row host r = .ok (w.values r) ∧ (w.values r).length = cols := by
  have hle := row_le (w := cols) hr
  cases w with
  | full data c =>
    obtain ⟨rfl, hlen, -⟩ := h
    refine ⟨?_, length_rowOf (hlen ▸ hle)⟩
    rw [Weight.row, between, if_pos (by rw [Nat.add_one_mul] at hle ⊢; omega), Nat.add_one_mul,
      Nat.add_sub_cancel_left]
    rfl
  | packed qtype c src start =>
    obtain ⟨rfl, hsrc, rb, hrb, hin⟩ := h
    have hrb4 := dataBytes_le hrb
    have hall := row_le (w := rb) hr
    rw [Nat.add_one_mul] at hall
    have hraw : (slice src.bytes (start + r * rb) rb).length = rb := length_slice (by omega)
    have hlen : (decoded qtype (slice src.bytes (start + r * rb) rb) : List F32).length = c :=
      length_decoded (by rw [hraw, hrb])
    simp only [Weight.values, hrb, Option.getD_some] at hfinite ⊢
    refine ⟨?_, hlen⟩
    have hnone : (decoded qtype (slice src.bytes (start + r * rb) rb) : List F32).findIdx?
        (fun v => !Floats.isFinite v) = none := by
      rw [List.findIdx?_eq_none_iff]
      intro v hv
      rw [hfinite v hv]
      rfl
    simp only [Weight.row, byteSize_of_dataBytes _ hrb, Checked.ok_bind,
      Build.fit_of_lt _ (show rb < 2 ^ 64 by omega), Build.fit_of_lt _ (show r * rb < 2 ^ 64 by omega),
      Build.fit_of_lt _ (show start + r * rb < 2 ^ 64 by omega),
      Build.fit_of_lt _ (show start + r * rb + rb < 2 ^ 64 by omega)]
    rw [index, if_pos (by omega), Nat.add_sub_cancel_left, Checked.ok_bind, dequantize, zeros,
      if_pos hmem, Checked.ok_bind, dequantInto_eq (by rw [List.length_replicate, hraw, hrb])
        (by omega), Checked.ok_bind, hnone]

end

namespace LlamaBackend

/-- The weights of a layer are all there. -/
structure LayerWhole (cfg : LlamaConfig) (layer : Layer) : Prop where
  wq : layer.wq.Whole cfg.dModel cfg.dModel
  wk : layer.wk.Whole cfg.kvDim cfg.dModel
  wv : layer.wv.Whole cfg.kvDim cfg.dModel
  wo : layer.wo.Whole cfg.dModel cfg.dModel
  ffn : layer.ffn.Whole cfg.nExperts cfg.dModel cfg.dFf

/-- **A backend whose weights are all there**, and whose heads divide the model between them. -/
structure Whole (b : LlamaBackend) : Prop where
  heads : b.cfg.nHeads * b.cfg.headDim = b.cfg.dModel
  grouped : b.cfg.nKvHeads ∣ b.cfg.nHeads
  size : b.layers.length = b.cfg.nLayers
  tokenEmbd : b.tokenEmbd.Whole b.cfg.vocab b.cfg.dModel
  output : b.output.Whole b.cfg.vocab b.cfg.dModel
  layers : ∀ layer ∈ b.layers, LayerWhole b.cfg layer

/-- Sizes that no computation on up to `limit` tokens at once exceeds. -/
structure Sizes (cfg : LlamaConfig) (limit : Nat) : Prop where
  vocab_pos : 0 < cfg.vocab
  vocab_le : cfg.vocab ≤ 2 ^ 32
  dModel_pos : 0 < cfg.dModel
  dFf_pos : 0 < cfg.dFf
  limit_pos : 0 < limit
  dModel : 4 * (limit * cfg.dModel) < 2 ^ 63
  kvDim : 4 * (limit * cfg.kvDim) < 2 ^ 63
  dFf : 4 * (limit * cfg.dFf) < 2 ^ 63
  vocab : 4 * (limit * cfg.vocab) < 2 ^ 63
  gates : cfg.nExperts * cfg.dFf < 2 ^ 64
  downs : cfg.nExperts * cfg.dModel < 2 ^ 64

section

variable [Analytic F32] (host : Host) (b : LlamaBackend)

/-- The products of a layer's rows. -/
def layerMeaning (layer : Layer) : LayerMeaning where
  q := layer.wq.product host.dots 0 b.cfg.dModel
  k := layer.wk.product host.dots 0 b.cfg.kvDim
  v := layer.wv.product host.dots 0 b.cfg.kvDim
  o := layer.wo.product host.dots 0 b.cfg.dModel
  score :=
    match layer.ffn with
    | .dense _ => fun _ => []
    | .moe router _ => router.product host.dots 0 b.cfg.nExperts
  expert :=
    match layer.ffn with
    | .dense w => w.answer host.dots Simd.silu b.cfg.dModel b.cfg.dFf
    | .moe _ w => w.answer host.dots Simd.silu b.cfg.dModel b.cfg.dFf

/-- The products of a backend's rows. -/
def meaning : Meaning where
  embed t := b.tokenEmbd.values t.toNat
  layer l := (b.layers[l]?).elim ⟨id, id, id, id, id, fun _ => id⟩ (b.layerMeaning host)
  output := b.output.product host.dots 0 b.cfg.vocab

variable {host b} {limit : Nat}

theorem LayerWhole.sound {layer : Layer} (h : LayerWhole b.cfg layer) (hsizes : Sizes b.cfg limit) :
    LayerSound host b limit layer (b.layerMeaning host layer) where
  q := h.wq.means hsizes.dModel_pos hsizes.dModel hsizes.dModel
  k := h.wk.means hsizes.dModel_pos hsizes.dModel hsizes.kvDim
  v := h.wv.means hsizes.dModel_pos hsizes.dModel hsizes.kvDim
  o := h.wo.means hsizes.dModel_pos hsizes.dModel hsizes.dModel
  ffn := by
    have hffn := h.ffn
    have hone : b.cfg.dModel ≤ limit * b.cfg.dModel :=
      Nat.le_mul_of_pos_left b.cfg.dModel hsizes.limit_pos
    have hmid : b.cfg.dFf ≤ limit * b.cfg.dFf :=
      Nat.le_mul_of_pos_left b.cfg.dFf hsizes.limit_pos
    have hd := hsizes.dModel
    have hf := hsizes.dFf
    rw [layerMeaning]
    cases hcase : layer.ffn with
    | dense w =>
      rw [hcase] at hffn
      exact Swiglu.Whole.answers hffn hsizes.dModel_pos hsizes.dFf_pos (by omega) (by omega) hd hf
    | moe router w =>
      rw [hcase] at hffn
      refine ⟨⟨fun x hx => ?_, fun x _ => Weight.length_product⟩,
        hffn.2.answers hsizes.dModel_pos hsizes.dFf_pos hsizes.gates hsizes.downs hd hf⟩
      exact hffn.1.matvecRowsIn_eq hsizes.dModel_pos
        (show 0 + b.cfg.nExperts ≤ b.cfg.nExperts by omega) hx List.length_replicate (by omega)

/-- **A backend whose weights are all there computes what they mean**, if its embeddings are
finite. -/
theorem Whole.sound (h : b.Whole) (hsizes : Sizes b.cfg limit)
    (hfinite : ∀ r, r < b.cfg.vocab → ∀ v ∈ b.tokenEmbd.values r, Floats.isFinite v = true) :
    Sound host b limit (b.meaning host) where
  heads := h.heads
  grouped := h.grouped
  size := h.size
  vocab_pos := hsizes.vocab_pos
  vocab_le := hsizes.vocab_le
  embed t ht := h.tokenEmbd.row_eq (by
    have hone : b.cfg.dModel ≤ limit * b.cfg.dModel :=
      Nat.le_mul_of_pos_left b.cfg.dModel hsizes.limit_pos
    have hd := hsizes.dModel
    omega) ht (hfinite _ ht)
  layers l layer hl := by
    have hmeaning : (b.meaning host).layer l = b.layerMeaning host layer := by
      show (b.layers[l]?).elim _ (b.layerMeaning host) = _
      rw [hl]
      rfl
    rw [hmeaning]
    exact (h.layers layer (List.mem_of_getElem? hl)).sound hsizes
  output := h.output.means hsizes.dModel_pos hsizes.dModel hsizes.vocab

end

end LlamaBackend

end Llama

end Garuda
