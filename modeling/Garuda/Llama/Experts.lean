import Garuda.Llama.Weight
import Garuda.Quant.Matmul

/-!
# Experts

The matrices of a mixture's experts: either one tensor in which they are stacked, or a tensor for
each of them.

* `Weight.matvecRowsIn` and `Weight.matmulRowsIn` are products with some rows of a weight.
* `ExpertWeight` is one matrix of all experts; `matmulExpert` is the product with one expert's, and
  `byteRange` says where that is.
* `expertPageRanges` is the table of those ranges, and `expertBatch` a whole expert.

`expert_slices` says that an expert's product reads the expert's own rows of the stack, and that it
makes no difference whether the experts are stacked.
-/

namespace Garuda

open Infra Quant

namespace Llama

variable {K : Type}

/-! ## Products with some rows -/

/-- `&data[start..stop]`, of numbers. -/
def between (data : List K) (start stop : Nat) : Checked GarudaError (List K) :=
  if start ≤ stop ∧ stop ≤ data.length then .ok ((data.drop start).take (stop - start))
  else .panic

/-- The numbers of `n` rows from `rowStart` on. -/
def rowsValues (b : Build) (data : List K) (cols rowStart n : Nat) :
    Checked GarudaError (List K) := do
  let off ← b.fit (rowStart * cols)
  let len ← b.fit (n * cols)
  let stop ← b.fit (off + len)
  between data off stop

section Code

variable [Rounds K] [Zero K]

/-- `out[i] = dot(row (rowStart + i), x)`, for as many rows as `out` has places. -/
def Weight.matvecRowsIn (d : RowDots K) (b : Build) (plan : Split) (w : Weight K)
    (block : Option (Bytes × Nat)) (rowStart : Nat) (x out : List K) :
    Checked GarudaError (List K) :=
  let n := out.length
  match w with
  | .full data cols => do
    let m ← rowsValues b data cols rowStart n
    Simd.matvec d.dot b plan m n cols x out
  | .packed qtype cols src start => do
    let raw ← rowsBytes b qtype cols src start block rowStart n
    Quant.matvec d b plan qtype raw n cols x out

/-- The same for `n` vectors at once: `out[b * rows + i] = dot(row (rowStart + i), xs[b])`. -/
def Weight.matmulRowsIn (d : RowDots K) (b : Build) (plan : Split) (w : Weight K)
    (block : Option (Bytes × Nat)) (rowStart : Nat) (xs : List K) (n : Nat) (out : List K) :
    Checked GarudaError (List K) :=
  let rows := out.length / max n 1
  match w with
  | .full data cols => do
    let m ← rowsValues b data cols rowStart rows
    Simd.matmul d.dot b plan m rows cols xs n out
  | .packed qtype cols src start => do
    let raw ← rowsBytes b qtype cols src start block rowStart rows
    Quant.matmul d b plan qtype raw rows cols xs n out

/-- One matrix of every expert: rows of a single tensor, or tensors of their own. -/
inductive ExpertWeight (K : Type) where
  | stacked (w : Weight K)
  | split (ws : List (Weight K))

/-- Expert `e`, of `block` rows, applied to `n` vectors at once. -/
def ExpertWeight.matmulExpert (d : RowDots K) (b : Build) (plan : Split) (w : ExpertWeight K)
    (e block : Nat) (xs : List K) (n : Nat) (out : List K) : Checked GarudaError (List K) :=
  match w with
  | .stacked w => do
    let rowStart ← b.fit (e * block)
    w.matmulRowsIn d b plan none rowStart xs n out
  | .split ws =>
    match ws[e]? with
    | none => .panic
    | some w => w.matmulRowsIn d b plan none 0 xs n out

end Code

/-- `ok()?` in a function that answers with an option. -/
def orNone {α : Type} (x : Checked GarudaError Nat) (f : Nat → Checked GarudaError (Option α)) :
    Checked GarudaError (Option α) :=
  match x with
  | .ok n => f n
  | .err _ => .ok none
  | .panic => .panic

/-- Where expert `e`'s packed weight is, and how long; `none` for a weight that is not packed. -/
def ExpertWeight.byteRange (b : Build) (w : ExpertWeight K) (e block : Nat) :
    Checked GarudaError (Option (Nat × Nat)) :=
  match w with
  | .stacked (.packed qtype cols _ start) =>
    orNone (byteSize b qtype cols) fun rowBytes => do
      let row ← b.fit (e * block)
      let skipped ← b.fit (row * rowBytes)
      let off ← b.fit (start + skipped)
      let len ← b.fit (block * rowBytes)
      .ok (some (off, len))
  | .stacked (.full _ _) => .ok none
  | .split ws =>
    match ws[e]? with
    | some (.packed qtype cols _ start) => do
      let n ← b.fit (block * cols)
      orNone (byteSize b qtype n) fun len => .ok (some (start, len))
    | _ => .ok none

/-- The three matrices of a gated expert, or of all of them. -/
structure Swiglu (K : Type) where
  gate : ExpertWeight K
  up : ExpertWeight K
  down : ExpertWeight K

inductive Ffn (K : Type) where
  | dense (w : Swiglu K)
  | moe (router : Weight K) (w : Swiglu K)

/-- `down_e(silu(gate_e · h) ⊙ (up_e · h))` for `n` hidden states at once. -/
def expertBatch [Rounds K] [Zero K] (d : RowDots K) (b : Build) (plan : Split) (silu : K → K)
    (dModel dFf : Nat) (w : Swiglu K) (e : Nat) (hs : List K) (n : Nat) (out : List K) :
    Checked GarudaError (List K) := do
  let g ← w.gate.matmulExpert d b plan e dFf hs n (List.replicate (n * dFf) 0)
  let u ← w.up.matmulExpert d b plan e dFf hs n (List.replicate (n * dFf) 0)
  let g := List.zipWith (· * ·) (g.map silu) u
  -- `debug_assert_eq!`
  if b = .debug ∧ out.length ≠ n * dModel then .panic
  else w.down.matmulExpert d b plan e dModel g n out

/-- The byte ranges of a layer's experts: gate, up and down, as far as there are any. -/
def Ffn.ranges (b : Build) (ne dModel dFf : Nat) :
    Ffn K → Checked GarudaError (List (List (Nat × Nat)))
  | .dense _ => .ok (List.replicate ne [])
  | .moe _ w => (List.range ne).mapM fun e => do
    let gate ← w.gate.byteRange b e dFf
    let up ← w.up.byteRange b e dFf
    let down ← w.down.byteRange b e dModel
    .ok (gate.toList ++ up.toList ++ down.toList)

/-- The byte ranges of every expert of every layer, expert `e` of layer `l` at `l * ne + e`. -/
def expertPageRanges (b : Build) (ne dModel dFf : Nat) (layers : List (Ffn K)) :
    Checked GarudaError (List (List (Nat × Nat))) :=
  if ne = 0 then .ok []
  else do
    let slots ← layers.mapM (Ffn.ranges b ne dModel dFf)
    .ok slots.flatten

/-! ## Loading -/

/-- All experts of one matrix, from the tensor in which they are stacked. -/
def loadStacked [Floats K] (b : Build) (g : Gguf) (bytes : Bytes) (mmap : Option Bytes)
    (name : String) (ne block cols : Nat) : Checked GarudaError (ExpertWeight K) := do
  let rows ← b.fit (ne * block)
  let w ← loadWeight b g bytes mmap name rows cols
  .ok (.stacked w)

/-- The same from a tensor for each expert. -/
def loadSplit [Floats K] (b : Build) (g : Gguf) (bytes : Bytes) (mmap : Option Bytes)
    (names : Nat → String) (ne block cols : Nat) : Checked GarudaError (ExpertWeight K) := do
  let ws ← (List.range ne).mapM fun e => loadWeight b g bytes mmap (names e) block cols
  .ok (.split ws)

/-! ## What was loaded -/

section Loaded

variable {g : Gguf} {t : TensorInfo} {b : Build} {file : Bytes} {name : String}
  {rows cols : Nat} {w : Weight K}

/-- No number that loading computes from the tensor wraps. -/
structure NoWrap (g : Gguf) (t : TensorInfo) (rows cols : Nat) : Prop where
  products : ∀ ps, ps <+: t.dims → (ps.map UInt64.toNat).prod < 2 ^ 64
  height : rows < 2 ^ 64
  cells : rows * cols < 2 ^ 64
  rowBytes : ∀ rb, dataBytes t.ggmlType cols = some rb → rb < 2 ^ 64
  stop : ∀ m, t.bytes = some m → g.dataOffset + t.offset.toNat + m < 2 ^ 64

theorem NoWrap.elements_eq (hno : NoWrap g t rows cols)
    (h : t.elements % 2 ^ 64 = rows * cols % 2 ^ 64) : t.elements = rows * cols := by
  have hlt : t.elements < 2 ^ 64 := hno.products t.dims List.prefix_rfl
  have hcells := hno.cells
  rwa [Nat.mod_eq_of_lt hlt, Nat.mod_eq_of_lt hcells] at h

/-- A packed weight starts at its tensor, which lies in the file. -/
theorem packed_place [Floats K] (ht : g.tensor name = some t) (hno : NoWrap g t rows cols)
    (h : loadWeight b g file (some file) name rows cols = .ok w) :
    w = .packed t.ggmlType cols (.mapped file) (g.dataOffset + t.offset.toNat) ∧
      ∃ m, dataBytes t.ggmlType (rows * cols) = some m ∧
        g.dataOffset + t.offset.toNat + m ≤ file.length := by
  obtain ⟨-, -, h⟩ := Checked.bind_eq_ok h
  obtain ⟨t', ht', hp, rfl⟩ := pinnedWeight_eq_ok h
  rw [ht] at ht'
  cases ht'
  obtain ⟨m, hm, hext⟩ := hp.extent
  have helems := hno.elements_eq hp.elements
  rw [Nat.mod_eq_of_lt hno.cells] at hm
  have hstop := hno.stop m (by rw [TensorInfo.bytes, helems, hm])
  have hplace : (g.dataOffset + t.offset.toNat) % 2 ^ 64 = g.dataOffset + t.offset.toNat :=
    Nat.mod_eq_of_lt (by omega)
  rw [hplace, Nat.sub_zero, Nat.mod_eq_of_lt (show m < 2 ^ 64 by omega),
    Nat.mod_eq_of_lt hstop] at hext
  rw [hplace, Nat.sub_zero]
  exact ⟨rfl, m, hm, hext⟩

/-- An expanded weight holds what the tensor's bytes stand for. -/
theorem full_values [Floats K] (hfile : file.length < 2 ^ 63) (ht : g.tensor name = some t)
    (hno : NoWrap g t rows cols) (h : loadWeight b g file none name rows cols = .ok w) :
    ∃ m, dataBytes t.ggmlType (rows * cols) = some m ∧
      g.dataOffset + t.offset.toNat + m ≤ file.length ∧
      w = .full (decoded t.ggmlType (slice file (g.dataOffset + t.offset.toNat) m)) cols := by
  obtain ⟨t', hshaped, h⟩ := Checked.bind_eq_ok h
  obtain ⟨data, hdata, h⟩ := Checked.bind_eq_ok h
  cases h
  obtain ⟨-, helems⟩ := shaped_eq_ok hshaped
  have ht' := (shaped_eq_ok hshaped).1
  rw [ht] at ht'
  cases ht'
  have hlength : ∀ m, t.bytes = some m → m < 2 ^ 64 := fun m hm => by
    have := hno.stop m hm
    omega
  obtain ⟨t', m, ht', hm, -, hin, hvals⟩ := Gguf.reads_of_ok hfile ht hno.products hlength hdata
  rw [ht] at ht'
  cases ht'
  rw [TensorInfo.bytes, hno.elements_eq helems] at hm
  exact ⟨m, hm, hin, by rw [hvals]⟩

/-- Whole blocks that stand one behind the other are decoded one behind the other. -/
theorem decoded_slice [Floats K] {qtype : UInt32} {n k len e : Nat} {raw : Bytes}
    (hlen : dataBytes qtype n = some len) (hraw : raw.length = k * len) (he : e < k) :
    rowOf n e (decoded qtype raw : List K) = decoded qtype (slice raw (e * len) len) := by
  obtain ⟨elems, bytes, hlayout, hn, hbytes⟩ := dataBytes_eq_some.mp hlen
  have hpieces : ∀ r, r < k → (rowOf len r raw).length = len := fun r hr =>
    length_rowOf (hraw ▸ row_le hr)
  have hwhole : raw = (List.range k).flatMap fun r => rowOf len r raw :=
    (eq_flatMap_iff hpieces).mpr ⟨hraw, fun _ _ => rfl⟩
  have hdvd : bytes ∣ len := ⟨n / elems, by rw [← hbytes, Nat.mul_comm]⟩
  have hdecoded : (decoded qtype raw : List K)
      = (List.range k).flatMap fun r => decoded qtype (rowOf len r raw) := by
    simp only [decoded, hlayout]
    show (rowsOf bytes raw).flatMap _ = (List.range k).flatMap fun r =>
      (rowsOf bytes (rowOf len r raw)).flatMap _
    conv => lhs; rw [hwhole]
    rw [rowsOf_flatMap (blockLayout_pos hlayout).2 hdvd hpieces, List.flatMap_assoc]
  rw [hdecoded, rowOf_flatMap (fun r hr => length_decoded (by rw [hpieces r hr, hlen])) he]
  rfl

end Loaded

/-! ## Products with an expert -/

theorem rows_of_out {n block : Nat} {out : List K} (hn : 0 < n) (hout : out.length = n * block) :
    out.length / max n 1 = block := by
  rw [Nat.max_eq_left hn, hout, Nat.mul_div_cancel_left _ hn]

theorem expert_le {e ne : Nat} (block : Nat) (he : e < ne) : e * block + block ≤ ne * block := by
  have := row_le (w := block) he
  rwa [Nat.add_one_mul] at this

section Products

variable [Rounds K] [Zero K] (d : RowDots K) (b : Build) (plan : Split) {file : Bytes}
  {qtype : UInt32} {cols start e block rb n : Nat} {data out : List K} (xs : List K)

/-- A packed matrix multiplies with the bytes of the rows that are asked for. -/
theorem packed_product (ne : Nat) (hfile : file.length < 2 ^ 63) (hrb : dataBytes qtype cols = some rb)
    (hfit : rb < 2 ^ 64) (hin : start + ne * block * rb ≤ file.length) (he : e < ne) (hn : 0 < n)
    (hout : out.length = n * block) :
    (Weight.packed qtype cols (.mapped file) start).matmulRowsIn d b plan none (e * block) xs n out
      = Quant.matmul d b plan qtype (slice file (start + e * (block * rb)) (block * rb)) block cols
          xs n out := by
  have hraw : rowsBytes b qtype cols (.mapped file) start none (e * block) block
      = .ok (slice file (start + e * block * rb) (block * rb)) :=
    rowsBytes_within b rfl hfile hrb hfit hin (expert_le block he)
  simp only [Weight.matmulRowsIn, rows_of_out hn hout]
  rw [hraw, Checked.ok_bind, Nat.mul_assoc]

/-- One whose rows are not whole blocks is refused. -/
theorem packed_refused (d : RowDots K) (plan : Split) (h : dataBytes qtype cols = none) :
    ∃ err, ∀ b src start rowStart xs n (out : List K),
      (Weight.packed qtype cols src start).matmulRowsIn d b plan none rowStart xs n out
        = .err err := by
  obtain ⟨err, herr⟩ := byteSize_of_none h
  refine ⟨err, fun b src start rowStart xs n out => ?_⟩
  simp only [Weight.matmulRowsIn, rowsBytes, herr b]
  rfl

/-- An expanded matrix multiplies with the numbers of the rows that are asked for. -/
theorem full_product (ne : Nat) (hlen : data.length = ne * block * cols) (hcells : ne * block * cols < 2 ^ 64)
    (he : e < ne) (hn : 0 < n) (hout : out.length = n * block) :
    (Weight.full data cols).matmulRowsIn d b plan none (e * block) xs n out
      = Simd.matmul d.dot b plan (rowOf (block * cols) e data) block cols xs n out := by
  have hall : e * block * cols + block * cols ≤ ne * block * cols := by
    rw [← Nat.add_mul]
    exact Nat.mul_le_mul_right cols (expert_le block he)
  simp only [Weight.matmulRowsIn, rows_of_out hn hout, rowsValues]
  rw [Build.fit_of_lt b (by omega), Checked.ok_bind, Build.fit_of_lt b (by omega),
    Checked.ok_bind, Build.fit_of_lt b (by omega), Checked.ok_bind, between, if_pos (by omega),
    Checked.ok_bind, Nat.add_sub_cancel_left, Nat.mul_assoc e, rowOf]

theorem matmulExpert_stacked {w : Weight K} (h : e * block < 2 ^ 64) :
    (ExpertWeight.stacked w).matmulExpert d b plan e block xs n out
      = w.matmulRowsIn d b plan none (e * block) xs n out := by
  rw [ExpertWeight.matmulExpert, Build.fit_of_lt b h, Checked.ok_bind]

theorem matmulExpert_split {ws : List (Weight K)} {w : Weight K} (h : ws[e]? = some w) :
    (ExpertWeight.split ws).matmulExpert d b plan e block xs n out
      = w.matmulRowsIn d b plan none 0 xs n out := by
  simp only [ExpertWeight.matmulExpert, h]

end Products

/-! ## Slices of a stack -/

theorem loadStacked_eq_ok [Floats K] {b : Build} {g : Gguf} {file : Bytes} {mmap : Option Bytes}
    {name : String} {ne block cols : Nat} {w : ExpertWeight K} (hfit : ne * block < 2 ^ 64)
    (h : loadStacked b g file mmap name ne block cols = .ok w) :
    ∃ w', loadWeight b g file mmap name (ne * block) cols = .ok w' ∧ w = .stacked w' := by
  rw [loadStacked, Build.fit_of_lt b hfit, Checked.ok_bind] at h
  obtain ⟨w', hw', h⟩ := Checked.bind_eq_ok h
  cases h
  exact ⟨w', hw', rfl⟩

theorem loadSplit_eq_ok [Floats K] {b : Build} {g : Gguf} {file : Bytes} {mmap : Option Bytes}
    {names : Nat → String} {ne block cols : Nat} {w : ExpertWeight K}
    (h : loadSplit b g file mmap names ne block cols = .ok w) :
    ∃ ws, w = .split ws ∧ ∀ e, e < ne →
      ∃ w', ws[e]? = some w' ∧ loadWeight b g file mmap (names e) block cols = .ok w' := by
  obtain ⟨ws, hws, h⟩ := Checked.bind_eq_ok h
  cases h
  exact ⟨ws, rfl, fun e he => Checked.mapM_getElem? hws (List.getElem?_range he)⟩

/-- The tensors of another file hold what the experts of a stack do. -/
def SameContents (g : Gguf) (file : Bytes) (t : TensorInfo) (g' : Gguf) (file' : Bytes)
    (names : Nat → String) (ne block cols : Nat) : Prop :=
  ∀ e, e < ne → ∃ t', g'.tensor (names e) = some t' ∧ NoWrap g' t' block cols ∧
    t'.ggmlType = t.ggmlType ∧ ∀ len, dataBytes t.ggmlType (block * cols) = some len →
      slice file' (g'.dataOffset + t'.offset.toNat) len
        = slice file (g.dataOffset + t.offset.toNat + e * len) len

section Stack

variable [Rounds K] [Zero K] (d : RowDots K) {b : Build} (plan : Split) {g : Gguf}
  {t : TensorInfo} {file : Bytes} {name : String} {ne block cols rb : Nat} {w : ExpertWeight K}

/-- The bytes of a packed stack are its experts' bytes, and nothing else. -/
theorem stacked_packed (hfile : file.length < 2 ^ 63) (ht : g.tensor name = some t)
    (hno : NoWrap g t (ne * block) cols) (hrb : dataBytes t.ggmlType cols = some rb)
    (h : loadStacked b g file (some file) name ne block cols = .ok w) :
    g.dataOffset + t.offset.toNat + ne * (block * rb) ≤ file.length ∧
    ∀ e, e < ne →
      w.byteRange b e block
        = .ok (some (g.dataOffset + t.offset.toNat + e * (block * rb), block * rb)) ∧
      ∀ xs n out, 0 < n → out.length = n * block →
        w.matmulExpert d b plan e block xs n out
          = Quant.matmul d b plan t.ggmlType
              (slice file (g.dataOffset + t.offset.toNat + e * (block * rb)) (block * rb))
              block cols xs n out := by
  obtain ⟨w, hw, rfl⟩ := loadStacked_eq_ok hno.height h
  obtain ⟨rfl, m, hm, hin⟩ := packed_place ht hno hw
  have hheight := hno.height
  have hfit := hno.rowBytes rb hrb
  rw [dataBytes_mul hrb] at hm
  cases hm
  refine ⟨by rwa [Nat.mul_assoc] at hin, fun e he => ⟨?_, fun xs n out hn hout => ?_⟩⟩
  · have hrows := expert_le block he
    have hall : e * block * rb + block * rb ≤ ne * block * rb := by
      rw [← Nat.add_mul]
      exact Nat.mul_le_mul_right rb hrows
    simp only [ExpertWeight.byteRange, byteSize_of_dataBytes b hrb, Build.fit_of_lt b hfit, orNone,
      Build.fit_of_lt b (show e * block < 2 ^ 64 by omega), Checked.ok_bind,
      Build.fit_of_lt b (show e * block * rb < 2 ^ 64 by omega),
      Build.fit_of_lt b (show g.dataOffset + t.offset.toNat + e * block * rb < 2 ^ 64 by omega),
      Build.fit_of_lt b (show block * rb < 2 ^ 64 by omega)]
    rw [Nat.mul_assoc]
  · have hrows := expert_le block he
    rw [matmulExpert_stacked _ _ _ _ (by omega)]
    exact packed_product d b plan xs ne hfile hrb hfit hin he hn hout

/-- The numbers of an expanded stack are its experts' numbers. -/
theorem stacked_full (hfile : file.length < 2 ^ 63) (ht : g.tensor name = some t)
    (hno : NoWrap g t (ne * block) cols)
    (h : loadStacked b g file none name ne block cols = .ok w) :
    ∃ m, dataBytes t.ggmlType (ne * block * cols) = some m ∧
      g.dataOffset + t.offset.toNat + m ≤ file.length ∧
      ∀ e, e < ne → w.byteRange b e block = .ok none ∧
        ∀ xs n out, 0 < n → out.length = n * block →
          w.matmulExpert d b plan e block xs n out
            = Simd.matmul d.dot b plan (rowOf (block * cols) e
                (decoded t.ggmlType (slice file (g.dataOffset + t.offset.toNat) m)))
                block cols xs n out := by
  obtain ⟨w, hw, rfl⟩ := loadStacked_eq_ok hno.height h
  obtain ⟨m, hm, hin, rfl⟩ := full_values hfile ht hno hw
  have hlen : (decoded t.ggmlType (slice file (g.dataOffset + t.offset.toNat) m) : List K).length
      = ne * block * cols := length_decoded (by rw [length_slice hin, hm])
  refine ⟨m, hm, hin, fun e he => ⟨rfl, fun xs n out hn hout => ?_⟩⟩
  have hheight := hno.height
  have hrows := expert_le block he
  rw [matmulExpert_stacked _ _ _ _ (by omega)]
  exact full_product d b plan xs ne hlen hno.cells he hn hout

/-- A packed stack whose rows are not whole blocks is not read at all. -/
theorem stacked_refused (ht : g.tensor name = some t) (hno : NoWrap g t (ne * block) cols)
    (hrb : dataBytes t.ggmlType cols = none)
    (h : loadStacked b g file (some file) name ne block cols = .ok w) :
    ∃ err, ∀ e, e < ne → w.byteRange b e block = .ok none ∧
      ∀ xs n (out : List K), w.matmulExpert d b plan e block xs n out = .err err := by
  obtain ⟨w, hw, rfl⟩ := loadStacked_eq_ok hno.height h
  obtain ⟨rfl, -⟩ := packed_place ht hno hw
  obtain ⟨err, herr⟩ := packed_refused d plan hrb
  obtain ⟨size, hsize⟩ := byteSize_of_none hrb
  refine ⟨err, fun e he => ⟨?_, fun xs n out => ?_⟩⟩
  · simp only [ExpertWeight.byteRange, hsize b, orNone]
  · have hheight := hno.height
    have hrows := expert_le block he
    rw [matmulExpert_stacked _ _ _ _ (by omega)]
    exact herr ..

variable {g' : Gguf} {file' : Bytes} {names : Nat → String} {w' : ExpertWeight K} {e n : Nat}
  {xs out : List K}

/-- Packed experts, in a stack or each with a tensor of its own. -/
theorem split_packed (hfile : file.length < 2 ^ 63) (hfile' : file'.length < 2 ^ 63)
    (ht : g.tensor name = some t) (hno : NoWrap g t (ne * block) cols)
    (hsame : SameContents g file t g' file' names ne block cols)
    (h : loadStacked b g file (some file) name ne block cols = .ok w)
    (h' : loadSplit b g' file' (some file') names ne block cols = .ok w')
    (he : e < ne) (hn : 0 < n) (hout : out.length = n * block) :
    w'.matmulExpert d b plan e block xs n out = w.matmulExpert d b plan e block xs n out := by
  obtain ⟨ws, rfl, hws⟩ := loadSplit_eq_ok h'
  obtain ⟨own, hown, hload⟩ := hws e he
  obtain ⟨t', ht', hno', htype, hbytes⟩ := hsame e he
  obtain ⟨rfl, m, hm, hin⟩ := packed_place ht' hno' hload
  rw [matmulExpert_split _ _ _ _ hown]
  cases hrb : dataBytes t.ggmlType cols with
  | none =>
    -- both are refused, and by the same check
    obtain ⟨w, hw, rfl⟩ := loadStacked_eq_ok hno.height h
    obtain ⟨rfl, -⟩ := packed_place ht hno hw
    obtain ⟨err, herr⟩ := packed_refused d plan hrb
    have hheight := hno.height
    have hrows := expert_le block he
    rw [htype, herr, matmulExpert_stacked _ _ _ _ (by omega), herr]
  | some rb =>
    obtain ⟨-, hstack⟩ := stacked_packed d plan hfile ht hno hrb h
    have hlen : dataBytes t.ggmlType (block * cols) = some (block * rb) := dataBytes_mul hrb
    rw [htype, hlen] at hm
    cases hm
    have hproduct := packed_product d b plan xs 1 hfile' (htype ▸ hrb) (hno.rowBytes rb hrb)
      (by rwa [Nat.one_mul]) Nat.one_pos hn hout
    rw [Nat.zero_mul, Nat.zero_mul, Nat.add_zero, hbytes _ hlen] at hproduct
    rw [hproduct, htype, (hstack e he).2 xs n out hn hout]

/-- Expanded experts, in a stack or each with a tensor of its own. -/
theorem split_full (hfile : file.length < 2 ^ 63) (hfile' : file'.length < 2 ^ 63)
    (ht : g.tensor name = some t) (hno : NoWrap g t (ne * block) cols)
    (hsame : SameContents g file t g' file' names ne block cols)
    (h : loadStacked b g file none name ne block cols = .ok w)
    (h' : loadSplit b g' file' none names ne block cols = .ok w')
    (he : e < ne) (hn : 0 < n) (hout : out.length = n * block) :
    w'.matmulExpert d b plan e block xs n out = w.matmulExpert d b plan e block xs n out := by
  obtain ⟨ws, rfl, hws⟩ := loadSplit_eq_ok h'
  obtain ⟨own, hown, hload⟩ := hws e he
  obtain ⟨t', ht', hno', htype, hbytes⟩ := hsame e he
  obtain ⟨m, hm, hin, hstack⟩ := stacked_full d plan hfile ht hno h
  obtain ⟨len, hlen, hin', rfl⟩ := full_values hfile' ht' hno' hload
  rw [htype] at hlen
  have hm' : dataBytes t.ggmlType (ne * (block * cols)) = some (ne * len) := dataBytes_mul hlen
  rw [← Nat.mul_assoc, hm] at hm'
  cases hm'
  have hvals : (decoded t'.ggmlType (slice file' (g'.dataOffset + t'.offset.toNat) len) :
      List K).length = 1 * (block * cols) := by
    rw [Nat.one_mul, length_decoded (by rw [length_slice hin', htype, hlen])]
  -- the expert's numbers in the stack are those of its own tensor
  have hrow : rowOf (block * cols) e
      (decoded t.ggmlType (slice file (g.dataOffset + t.offset.toNat) (ne * len)) : List K)
      = decoded t'.ggmlType (slice file' (g'.dataOffset + t'.offset.toNat) len) := by
    have hle := expert_le len he
    rw [decoded_slice hlen (length_slice hin) he, slice_slice hle, htype, hbytes len hlen]
  have hproduct := full_product d b plan xs 1 (hvals.trans (Nat.mul_assoc ..).symm)
    (by rw [Nat.one_mul]; exact hno'.cells) Nat.one_pos hn hout
  rw [Nat.zero_mul, rowOf_zero_one hvals] at hproduct
  rw [matmulExpert_split _ _ _ _ hown, hproduct, (hstack e he).2 xs n out hn hout, hrow]

end Stack

/--
**An expert's product reads the expert's own rows of the stack, and nothing else.**

For a tensor whose sizes do not wrap: packed rows of whole blocks are read at `byteRange`, which
are the experts' parts of the tensor; packed rows that are not whole blocks are refused; expanded
rows are read in memory. Tensors of the experts' own with the same contents give the same products.
-/
theorem expert_slices [Rounds K] [Zero K] (d : RowDots K) (b : Build) (plan : Split) {g : Gguf}
    {t : TensorInfo} {file : Bytes} {name : String} {ne block cols : Nat}
    (hfile : file.length < 2 ^ 63) (ht : g.tensor name = some t)
    (hno : NoWrap g t (ne * block) cols) :
    (∀ (w : ExpertWeight K) rb,
      loadStacked b g file (some file) name ne block cols = .ok w →
      dataBytes t.ggmlType cols = some rb →
      g.dataOffset + t.offset.toNat + ne * (block * rb) ≤ file.length ∧
      (∀ e, e < ne →
        w.byteRange b e block
          = .ok (some (g.dataOffset + t.offset.toNat + e * (block * rb), block * rb)) ∧
        ∀ xs n out, 0 < n → out.length = n * block →
          w.matmulExpert d b plan e block xs n out
            = Quant.matmul d b plan t.ggmlType
                (slice file (g.dataOffset + t.offset.toNat + e * (block * rb)) (block * rb))
                block cols xs n out) ∧
      ∀ i, g.dataOffset + t.offset.toNat ≤ i →
        i < g.dataOffset + t.offset.toNat + ne * (block * rb) →
        ∃! e, e < ne ∧ g.dataOffset + t.offset.toNat + e * (block * rb) ≤ i ∧
          i < g.dataOffset + t.offset.toNat + e * (block * rb) + block * rb) ∧
    (∀ w : ExpertWeight K, loadStacked b g file (some file) name ne block cols = .ok w →
      dataBytes t.ggmlType cols = none →
      ∃ err, ∀ e, e < ne → w.byteRange b e block = .ok none ∧
        ∀ xs n (out : List K), w.matmulExpert d b plan e block xs n out = .err err) ∧
    (∀ w : ExpertWeight K, loadStacked b g file none name ne block cols = .ok w →
      ∃ m, dataBytes t.ggmlType (ne * block * cols) = some m ∧
        g.dataOffset + t.offset.toNat + m ≤ file.length ∧
        ∀ e, e < ne → w.byteRange b e block = .ok none ∧
          ∀ xs n out, 0 < n → out.length = n * block →
            w.matmulExpert d b plan e block xs n out
              = Simd.matmul d.dot b plan (rowOf (block * cols) e
                  (decoded t.ggmlType (slice file (g.dataOffset + t.offset.toNat) m)))
                  block cols xs n out) ∧
    ∀ (g' : Gguf) (file' : Bytes) (names : Nat → String) (packed : Bool) (w w' : ExpertWeight K),
      file'.length < 2 ^ 63 → SameContents g file t g' file' names ne block cols →
      loadStacked b g file (if packed then some file else none) name ne block cols = .ok w →
      loadSplit b g' file' (if packed then some file' else none) names ne block cols = .ok w' →
      ∀ e xs n out, e < ne → 0 < n → out.length = n * block →
        w'.matmulExpert d b plan e block xs n out = w.matmulExpert d b plan e block xs n out := by
  refine ⟨fun w rb h hrb => ?_, fun w h hrb => stacked_refused d plan ht hno hrb h,
    fun w h => stacked_full d plan hfile ht hno h, ?_⟩
  · obtain ⟨hin, hexperts⟩ := stacked_packed d plan hfile ht hno hrb h
    exact ⟨hin, hexperts, fun i hlo hhi => existsUnique_row hlo hhi⟩
  · rintro g' file' names (_ | _) w w' hfile' hsame h h' e xs n out he hn hout
    · exact split_full d plan hfile hfile' ht hno hsame h h' he hn hout
    · exact split_packed d plan hfile hfile' ht hno hsame h h' he hn hout

/-! ## Experts as functions -/

section Functions

variable [Rounds K] [Zero K] {d : RowDots K} {b : Build} {plan : Split} {ne limit : Nat}

/-- Expert `e` takes each of the vectors that it is given to `f e` of it, up to so many of them. -/
structure Multiplies (d : RowDots K) (b : Build) (plan : Split) (w : ExpertWeight K)
    (ne block cols limit : Nat) (f : Nat → List K → List K) : Prop where
  width : ∀ e x, e < ne → (f e x).length = block
  product : ∀ e xs n out, e < ne → 0 < n → n ≤ limit → xs.length = n * cols →
    out.length = n * block → w.matmulExpert d b plan e block xs n out
      = .ok ((List.range n).flatMap fun t => f e (rowOf cols t xs))

/-- So it is with a stack that was loaded: row `r` of expert `e` is row `e * block + r`. -/
theorem stacked_multiplies {g : Gguf} {t : TensorInfo} {file : Bytes} {name : String}
    {block cols rb : Nat} {w : ExpertWeight K} (hfile : file.length < 2 ^ 63)
    (ht : g.tensor name = some t) (hno : NoWrap g t (ne * block) cols)
    (hrb : dataBytes t.ggmlType cols = some rb) (hcols : 0 < cols)
    (hin : 4 * (limit * cols) < 2 ^ 63) (hout : 4 * (limit * block) < 2 ^ 63)
    (h : loadStacked b g file (some file) name ne block cols = .ok w) :
    Multiplies d b plan w ne block cols limit fun e x => (List.range block).map fun r =>
      rowDot d t.ggmlType
        (slice file (g.dataOffset + t.offset.toNat + (e * block + r) * rb) rb) x := by
  obtain ⟨hend, hstack⟩ := stacked_packed d plan hfile ht hno hrb h
  refine ⟨by simp, fun e xs n out he hn hlimit hxs hlen => ?_⟩
  have hxs' := Nat.mul_le_mul_right cols hlimit
  have hout' := Nat.mul_le_mul_right block hlimit
  have hslice := expert_le (block * rb) he
  have hraw : (slice file (g.dataOffset + t.offset.toNat + e * (block * rb)) (block * rb)).length
      = block * rb := length_slice (by omega)
  have hrow : ∀ r, r < block →
      rowOf rb r (slice file (g.dataOffset + t.offset.toNat + e * (block * rb)) (block * rb))
        = slice file (g.dataOffset + t.offset.toNat + (e * block + r) * rb) rb := fun r hr => by
    show slice (slice file _ _) (r * rb) rb = _
    rw [slice_slice (expert_le rb hr), Nat.add_mul, Nat.mul_assoc, Nat.add_assoc]
  rw [(hstack e he).2 xs n out hn hlen, Quant.matmul_eq hrb hraw hxs hlen (by omega) (by omega)
    (by omega) hn hcols]
  congr 2
  funext t'
  exact List.map_congr_left fun r hr => by rw [hrow r (List.mem_range.mp hr)]

/-- **An expert of three such matrices is a function of each hidden state.** -/
theorem expertBatch_eq {silu : K → K} {dModel dFf : Nat} {w : Swiglu K}
    {gate up down : Nat → List K → List K}
    (hgate : Multiplies d b plan w.gate ne dFf dModel limit gate)
    (hup : Multiplies d b plan w.up ne dFf dModel limit up)
    (hdown : Multiplies d b plan w.down ne dModel dFf limit down) {e n : Nat} {hs out : List K}
    (he : e < ne) (hn : 0 < n) (hlimit : n ≤ limit) (hhs : hs.length = n * dModel)
    (hout : out.length = n * dModel) :
    expertBatch d b plan silu dModel dFf w e hs n out
      = .ok ((List.range n).flatMap fun t => down e (List.zipWith (· * ·)
          ((gate e (rowOf dModel t hs)).map silu) (up e (rowOf dModel t hs)))) := by
  have hg : ∀ t, t < n → ((gate e (rowOf dModel t hs)).map silu).length = dFf := fun t _ => by
    rw [List.length_map, hgate.width e _ he]
  have hu : ∀ t, t < n → (up e (rowOf dModel t hs)).length = dFf := fun t _ => hup.width e _ he
  have hgu : ∀ t, t < n → (List.zipWith (· * ·) ((gate e (rowOf dModel t hs)).map silu)
      (up e (rowOf dModel t hs))).length = dFf := fun t ht => by
    rw [List.length_zipWith, hg t ht, hu t ht, Nat.min_self]
  rw [expertBatch, hgate.product e hs n _ he hn hlimit hhs List.length_replicate, Checked.ok_bind,
    hup.product e hs n _ he hn hlimit hhs List.length_replicate, Checked.ok_bind]
  dsimp only
  rw [if_neg (fun h => h.2 hout), List.map_flatMap, zipWith_flatMap_range _ hg hu,
    hdown.product e _ n out he hn hlimit (length_flatMap_range hgu) hout]
  congr 1
  refine List.flatMap_congr fun t ht => ?_
  rw [rowOf_flatMap hgu (List.mem_range.mp ht)]

end Functions

/-! ## The table of ranges -/

theorem Ffn.length_ranges {b : Build} {ne dModel dFf : Nat} {ffn : Ffn K}
    {slots : List (List (Nat × Nat))} (h : ffn.ranges b ne dModel dFf = .ok slots) :
    slots.length = ne := by
  cases ffn with
  | dense w =>
    cases h
    exact List.length_replicate
  | moe router w => rw [Checked.length_mapM h, List.length_range]

/-- The entry of expert `e` of layer `l` is that expert's three ranges. -/
theorem expertPageRanges_entry {b : Build} {ne dModel dFf l e : Nat} {layers : List (Ffn K)}
    {table : List (List (Nat × Nat))} {router : Weight K} {w : Swiglu K}
    (h : expertPageRanges b ne dModel dFf layers = .ok table)
    (hl : layers[l]? = some (.moe router w)) (he : e < ne) :
    ∃ gate up down, w.gate.byteRange b e dFf = .ok gate ∧ w.up.byteRange b e dFf = .ok up ∧
      w.down.byteRange b e dModel = .ok down ∧
      table[l * ne + e]? = some (gate.toList ++ up.toList ++ down.toList) := by
  rw [expertPageRanges, if_neg (by omega)] at h
  obtain ⟨slots, hslots, h⟩ := Checked.bind_eq_ok h
  cases h
  have hlen : ∀ row ∈ slots, row.length = ne := fun row hrow => by
    obtain ⟨ffn, -, hffn⟩ := Checked.mapM_mem hslots hrow
    exact ffn.length_ranges hffn
  obtain ⟨row, hrow, hranges⟩ := Checked.mapM_getElem? hslots hl
  obtain ⟨entry, hentry, hrun⟩ := Checked.mapM_getElem? hranges (List.getElem?_range he)
  obtain ⟨gate, hgate, hrun⟩ := Checked.bind_eq_ok hrun
  obtain ⟨up, hup, hrun⟩ := Checked.bind_eq_ok hrun
  obtain ⟨down, hdown, hrun⟩ := Checked.bind_eq_ok hrun
  cases hrun
  exact ⟨gate, up, down, hgate, hup, hdown, by rw [getElem?_flatten he hlen hrow, hentry]⟩

/-! ## Two files -/

/-- A file of one `Q8_0` tensor `w` of two rows, whose data section begins at byte 96. -/
def twoRows (cols : Nat) (data : Bytes) : Bytes :=
  let header := Gguf.magic ++ toLE 4 3 ++ toLE 8 1 ++ toLE 8 0 ++ (toLE 8 1 ++ [0x77])
    ++ toLE 4 2 ++ toLE 8 cols ++ toLE 8 2 ++ toLE 4 8 ++ toLE 8 0
  header ++ List.replicate (96 - header.length) 0 ++ data

/-- The file parses, and the two rows are loaded. -/
def twoRowsLoad (cols : Nat) (data : Bytes) : Bool :=
  let file := twoRows cols data
  match Gguf.parse file with
  | .ok g =>
    match (loadStacked .debug g file (some file) "w" 2 1 cols :
        Checked GarudaError (ExpertWeight ℚ)) with
    | .ok _ => g.tensor "w" = some ⟨"w", [UInt64.ofNat cols, 2], 8, 0⟩ ∧ g.dataOffset = 96
    | _ => false
  | _ => false

theorem twoRows_loaded {cols : Nat} {data : Bytes} (h : twoRowsLoad cols data = true) :
    ∃ g w, Gguf.parse (twoRows cols data) = .ok g ∧
      loadStacked .debug g (twoRows cols data) (some (twoRows cols data)) "w" 2 1 cols
        = .ok (w : ExpertWeight ℚ) ∧
      g.tensor "w" = some ⟨"w", [UInt64.ofNat cols, 2], 8, 0⟩ ∧ g.dataOffset = 96 := by
  unfold twoRowsLoad at h
  dsimp only at h
  split at h
  case h_2 => cases h
  case h_1 g hg =>
    split at h
    case h_2 => cases h
    case h_1 w hw => exact ⟨g, w, hg, hw, of_decide_eq_true h⟩

/-- The sizes of the two rows, as they are compared. -/
theorem twoRows_noWrap {g : Gguf} {t : TensorInfo} {cols : Nat} (hoff : g.dataOffset = 96)
    (h : (∀ ps ∈ t.dims.inits, (ps.map UInt64.toNat).prod < 2 ^ 64) ∧ 2 * 1 * cols < 2 ^ 64 ∧
      (∀ rb ∈ dataBytes t.ggmlType cols, rb < 2 ^ 64) ∧
      ∀ m ∈ t.bytes, 96 + t.offset.toNat + m < 2 ^ 64) : NoWrap g t (2 * 1) cols where
  products ps hps := h.1 ps ((List.mem_inits ..).mpr hps)
  height := by decide
  cells := h.2.1
  rowBytes := h.2.2.1
  stop m hm := by
    rw [hoff]
    exact h.2.2.2 m hm

theorem expert_slices_two :
    ∃ g w, Gguf.parse (twoRows 32 (List.replicate 68 0)) = .ok g ∧
      loadStacked .debug g (twoRows 32 (List.replicate 68 0))
        (some (twoRows 32 (List.replicate 68 0))) "w" 2 1 32 = .ok (w : ExpertWeight ℚ) ∧
      ∀ e, e < 2 → w.byteRange .debug e 1 = .ok (some (96 + 0 + e * (1 * 34), 1 * 34)) := by
  obtain ⟨g, w, hg, hw, ht, hoff⟩ := twoRows_loaded
    (show twoRowsLoad 32 (List.replicate 68 0) = true by decide +kernel)
  have hno : NoWrap g ⟨"w", [UInt64.ofNat 32, 2], 8, 0⟩ (2 * 1) 32 :=
    twoRows_noWrap hoff (by decide)
  have hslices := ((expert_slices (K := ℚ) ⟨fun _ _ => 0, fun _ _ _ _ _ => 0⟩ .debug .whole
    (by decide +kernel) ht hno).1 w 34 hw (by decide)).2.1
  rw [hoff] at hslices
  exact ⟨g, w, hg, hw, fun e he => (hslices e he).1⟩

/-- Rows of half a block are loaded, and then no expert has any bytes or any product. -/
theorem half_blocks_refused :
    ∃ g w, Gguf.parse (twoRows 16 (List.replicate 34 0)) = .ok g ∧
      loadStacked .debug g (twoRows 16 (List.replicate 34 0))
        (some (twoRows 16 (List.replicate 34 0))) "w" 2 1 16 = .ok (w : ExpertWeight ℚ) ∧
      ∀ e, e < 2 → w.byteRange .debug e 1 = .ok none ∧
        ∀ d plan xs n out res, w.matmulExpert d .debug plan e 1 xs n out ≠ .ok res := by
  obtain ⟨g, w, hg, hw, ht, hoff⟩ := twoRows_loaded
    (show twoRowsLoad 16 (List.replicate 34 0) = true by decide +kernel)
  have hno : NoWrap g ⟨"w", [UInt64.ofNat 16, 2], 8, 0⟩ (2 * 1) 16 :=
    twoRows_noWrap hoff (by decide)
  refine ⟨g, w, hg, hw, fun e he => ⟨?_, fun d plan xs n out res hres => ?_⟩⟩
  · obtain ⟨err, herr⟩ := stacked_refused ⟨fun _ _ => 0, fun _ _ _ _ _ => 0⟩ .whole ht hno
      (by decide) hw
    exact (herr e he).1
  · obtain ⟨err, herr⟩ := stacked_refused d plan ht hno (by decide) hw
    rw [(herr e he).2] at hres
    cases hres

end Llama

end Garuda
