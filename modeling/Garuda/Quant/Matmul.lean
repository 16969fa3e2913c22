import Garuda.Quant.Dequant
import Garuda.Dense.Kernels

/-!
# Products with packed weights

A packed row is either decoded and dotted against a vector, or dotted as it is against the vector's
int8 codes. Both inner products are parameters here.

* `quantizeActivation` is an activation's codes and scales, and `blockSums` its sums.
* `matvec` is the product with one vector, and `matmul` that with `n` of them at once.
* `rowDot` is what either writes for a row and a vector.

`matmul_columns` says that a batched product is the products of its columns.
-/

namespace Garuda

open Infra

/-- What quantising an activation asks of `f32`, besides the arithmetic. -/
class Rounds (K : Type) extends Floats K where
  abs : K → K
  max : K → K → K
  /-- `> 0.0` -/
  isPos : K → Bool
  /-- `.round().clamp(-127.0, 127.0) as i8` -/
  roundI8 : K → Int8

instance : Rounds ℚ where
  abs q := |q|
  max := Max.max
  isPos q := decide (0 < q)
  roundI8 q :=
    -- halves are rounded away from zero
    let r := if q < 0 then -⌊-q + 1 / 2⌋ else ⌊q + 1 / 2⌋
    Int8.ofInt (Max.max (-127) (min 127 r))

namespace Quant

open Floats

variable {K : Type}

/-! ## Activations -/

/-- One block of 32 to int8, with its scale. -/
def quantizeBlock [Rounds K] (blk : List K) : List Int8 × K :=
  let amax := blk.foldl (fun m v => Rounds.max m (Rounds.abs v)) (ofInt 0)
  let scale := amax / ofInt 127
  let inv := if Rounds.isPos scale then ofInt 1 / scale else ofInt 0
  (blk.map fun v => Rounds.roundI8 (v * inv), scale)

/-- The codes of a vector, and a scale for each block of 32. -/
def quantizeActivation [Rounds K] (x : List K) : List Int8 × List K :=
  let blocks := (rowsOf qk x).map quantizeBlock
  let xq := blocks.flatMap (·.1)
  -- what is behind the last whole block stays zero
  (xq ++ List.replicate (x.length - xq.length) 0, blocks.map (·.2))

theorem length_quantizeActivation [Rounds K] (x : List K) :
    (quantizeActivation x).1.length = x.length ∧
      (quantizeActivation x).2.length = x.length / qk := by
  have hblocks : ∀ c ∈ (rowsOf qk x).map quantizeBlock, c.1.length = qk := fun c hc => by
    obtain ⟨blk, hblk, rfl⟩ := List.mem_map.mp hc
    rw [quantizeBlock, List.length_map, length_of_mem_rowsOf hblk]
  have hrows : (rowsOf qk x).length = x.length / qk := by
    rw [rowsOf, List.length_map, List.length_range]
  have hle := Nat.div_mul_le_self x.length qk
  constructor
  · rw [quantizeActivation, List.length_append, List.length_replicate,
      length_flatMap_const hblocks, List.length_map, hrows]
    omega
  · rw [quantizeActivation, List.length_map, List.length_map, hrows]

/-- Vector `b` of a batch, its codes and scales written among those of the batch. -/
def quantizeNext [Rounds K] (xs : List K) (cols : Nat) :
    List Int8 × List K → Nat → Checked GarudaError (List Int8 × List K)
  | (xq, scales), b => do
    let x ← rowAt cols b xs
    let (q, s) := quantizeActivation x
    let xq ← writeRow cols b q xq
    let scales ← writeRow (cols / qk) b s scales
    .ok (xq, scales)

/-- `quantize_activation` over `n` vectors, one behind the other. -/
def quantizeActivations [Rounds K] (xs : List K) (n cols : Nat) :
    Checked GarudaError (List Int8 × List K) :=
  (List.range n).foldlM (quantizeNext xs cols)
    (List.replicate (n * cols) 0, List.replicate (n * (cols / qk)) (ofInt 0))

/-- The sums of an int8 activation over runs of `width`. -/
def blockSums (width : Nat) (xq : List Int8) : List Int :=
  (rowsOf width xq).map fun blk => (blk.map Int8.toInt).sum

/-- How wide the runs are that a type's minimums are multiplied with; most types have none. -/
def sumWidth (qtype : UInt32) : Option Nat :=
  if qtype = q4_K ∨ qtype = q5_K then some 32
  else if qtype = q2_K then some 16
  else none

/-- The types that are dotted against int8 codes without being decoded. -/
def hasInt8Kernel (qtype : UInt32) : Bool :=
  qtype = q8_0 ∨ qtype = q2_K ∨ qtype = q3_K ∨ qtype = q4_K ∨ qtype = q5_K ∨ qtype = q6_K

/-- The sums of vector `b` among those of a batch. -/
def sumsAt (cols : Nat) (width : Option Nat) (sums : Option (List Int)) (b : Nat) :
    Checked GarudaError (Option (List Int)) :=
  match sums with
  | none => .ok none
  | some s =>
    match width with
    | none => .panic
    | some w => do
      let s ← rowAt (cols / w) b s
      .ok (some s)

/-! ## Products -/

/-- The inner products of a row with a vector. -/
structure RowDots (K : Type) where
  /-- `simd::dot` -/
  dot : List K → List K → K
  /-- `int8_dot`: of a packed row with an activation's codes, scales and sums. -/
  int8Dot : UInt32 → Bytes → List Int8 → List K → Option (List Int) → K

def wrongWeight (op : String) (qtype : UInt32) (got expected rows rowBytes : Nat) : GarudaError :=
  .model (s!"{typeName qtype} {op}: weight is {got} bytes, expected {expected} "
    ++ s!"({rows} rows × {rowBytes})")

section Code

variable [Rounds K]

def matvecInt8 (d : RowDots K) (plan : Split) (qtype : UInt32) (weight : Bytes) (cols : Nat)
    (x out : List K) : Checked GarudaError (List K) :=
  let (xq, xs) := quantizeActivation x
  let sums := (sumWidth qtype).map fun w => blockSums w xq
  match blockLayout qtype with
  | none => .panic
  | some (elems, bytes) => do
    let wrows ← chunks (bytes * (cols / elems)) weight
    single (fun () (_, row) => .ok (d.int8Dot qtype row xq xs sums, ())) () plan wrows out

/-- `out[r] = dot(row r, x)`, of packed rows. -/
def matvec (d : RowDots K) (b : Build) (plan : Split) (qtype : UInt32) (weight : Bytes)
    (rows cols : Nat) (x out : List K) : Checked GarudaError (List K) := do
  let rowBytes ← byteSize b qtype cols
  let expected ← b.fit (rows * rowBytes)
  if weight.length ≠ expected then
    .err (wrongWeight "matvec" qtype weight.length expected rows rowBytes)
  else if x.length ≠ cols ∨ out.length ≠ rows then
    .err (.inference (s!"matvec dimension mismatch: x={x.length}, out={out.length}, "
      ++ s!"expected cols={cols}, rows={rows}"))
  else if hasInt8Kernel qtype then matvecInt8 d plan qtype weight cols x out
  else do
    let wrows ← chunks rowBytes weight
    let step := fun (buf : List K) (_, row) => do
      let buf ← dequantInto b qtype row buf
      .ok (d.dot buf x, buf)
    single step (List.replicate cols (ofInt 0)) plan wrows out

/-- `out[b * rows + r] = dot(row r, xs[b])` for `n` vectors at once, each row decoded once. -/
def matmul (d : RowDots K) (b : Build) (plan : Split) (qtype : UInt32) (weight : Bytes)
    (rows cols : Nat) (xs : List K) (n : Nat) (out : List K) : Checked GarudaError (List K) :=
  if n = 1 then matvec d b plan qtype weight rows cols xs out
  else do
    let rowBytes ← byteSize b qtype cols
    let expected ← b.fit (rows * rowBytes)
    if weight.length ≠ expected then
      .err (wrongWeight "matmul" qtype weight.length expected rows rowBytes)
    else do
      let inLen ← b.fit (n * cols)
      let outLen ← b.fit (n * rows)
      if xs.length ≠ inLen ∨ out.length ≠ outLen then
        .err (.inference (s!"matmul dimension mismatch: xs={xs.length}, out={out.length}, "
          ++ s!"expected {inLen} and {outLen}"))
      else do
        let cells ← b.fit (rows * n)
        let byRow ← zeros cells
        if hasInt8Kernel qtype then do
          -- every activation is quantised once
          let (xq, xsScales) ← quantizeActivations xs n cols
          let width := sumWidth qtype
          let sums := width.map fun w => blockSums w xq
          let wrows ← chunks rowBytes weight
          let step := fun () (dst, row) => do
            let scaleBlocks := cols / qk
            let dst ← (List.range dst.length).mapM fun b => do
              let xqb ← rowAt cols b xq
              let xsb ← rowAt scaleBlocks b xsScales
              let sumsb ← sumsAt cols width sums b
              .ok (d.int8Dot qtype row xqb xsb sumsb)
            .ok (dst, ())
          batched step () plan wrows n byRow out
        else do
          let wrows ← chunks rowBytes weight
          let step := fun (buf : List K) (dst, row) => do
            let buf ← dequantInto b qtype row buf
            let dst ← (List.range dst.length).mapM fun b => do
              let x ← rowAt cols b xs
              .ok (d.dot buf x)
            .ok (dst, buf)
          batched step (List.replicate cols (ofInt 0)) plan wrows n byRow out

/-- What is written for a row and a vector. -/
def rowDot (d : RowDots K) (qtype : UInt32) (row : Bytes) (x : List K) : K :=
  if hasInt8Kernel qtype then
    let (xq, xs) := quantizeActivation x
    d.int8Dot qtype row xq xs ((sumWidth qtype).map fun w => blockSums w xq)
  else d.dot (decoded qtype row) x

end Code

/-! ## A batch of activations -/

section Batch

variable [Rounds K] {xs : List K} {n cols : Nat}

theorem length_codes (hxs : xs.length = n * cols) {t : Nat} (ht : t < n) :
    (quantizeActivation (rowOf cols t xs)).1.length = cols ∧
      (quantizeActivation (rowOf cols t xs)).2.length = cols / qk := by
  have h := length_quantizeActivation (rowOf cols t xs)
  rwa [length_rowOf (hxs ▸ row_le ht)] at h

/-- **Codes and scales stand where their vectors do.** The induction is on the vectors quantised so
far. -/
theorem quantizeActivations_eq (hxs : xs.length = n * cols) :
    quantizeActivations xs n cols
      = .ok ((List.range n).flatMap fun t => (quantizeActivation (rowOf cols t xs)).1,
          (List.range n).flatMap fun t => (quantizeActivation (rowOf cols t xs)).2) := by
  have hrun : ∀ k, k ≤ n → (List.range k).foldlM (quantizeNext xs cols)
      (List.replicate (n * cols) 0, List.replicate (n * (cols / qk)) (ofInt 0))
      = .ok (rowsUpTo cols n k (fun t => (quantizeActivation (rowOf cols t xs)).1) 0,
          rowsUpTo (cols / qk) n k (fun t => (quantizeActivation (rowOf cols t xs)).2)
            (ofInt 0)) := by
    intro k hk
    induction k with
    | zero =>
      rw [rowsUpTo_zero, rowsUpTo_zero]
      rfl
    | succ k ih =>
      have hcodes := writeRow_rowsUpTo (ε := GarudaError) (z := 0) hk
        fun t ht => (length_codes hxs ht).1
      have hscales := writeRow_rowsUpTo (ε := GarudaError) (z := ofInt 0) hk
        fun t ht => (length_codes hxs ht).2
      rw [List.range_succ, List.foldlM_append, ih (by omega), Checked.ok_bind, List.foldlM_cons,
        quantizeNext, rowAt_eq hxs hk, Checked.ok_bind]
      dsimp only
      rw [hcodes, Checked.ok_bind, hscales]
      rfl
  rw [quantizeActivations, hrun n le_rfl, rowsUpTo_all, rowsUpTo_all]

theorem length_blockSums {w : Nat} {x : List Int8} (h : x.length = cols) :
    (blockSums w x).length = cols / w := by
  rw [blockSums, List.length_map, rowsOf, List.length_map, List.length_range, h]

/-- The sums of a batch are its vectors' sums. -/
theorem blockSums_flatMap {w : Nat} {codes : Nat → List Int8} (hw : 0 < w) (hdvd : w ∣ cols)
    (h : ∀ t, t < n → (codes t).length = cols) :
    blockSums w ((List.range n).flatMap codes) = (List.range n).flatMap fun t =>
      blockSums w (codes t) := by
  rw [blockSums, rowsOf_flatMap hw hdvd h, List.map_flatMap]
  rfl

theorem sumsAt_eq {qtype : UInt32} {codes : Nat → List Int8} {t : Nat}
    (hw : ∀ w, sumWidth qtype = some w → 0 < w ∧ w ∣ cols)
    (h : ∀ t, t < n → (codes t).length = cols) (ht : t < n) :
    sumsAt cols (sumWidth qtype)
      ((sumWidth qtype).map fun w => blockSums w ((List.range n).flatMap codes)) t
      = .ok ((sumWidth qtype).map fun w => blockSums w (codes t)) := by
  cases hq : sumWidth qtype with
  | none => rfl
  | some w =>
    obtain ⟨hpos, hdvd⟩ := hw w hq
    have hlen : ∀ t, t < n → (blockSums w (codes t)).length = cols / w := fun t ht =>
      length_blockSums (h t ht)
    simp only [Option.map_some, sumsAt, blockSums_flatMap hpos hdvd h]
    rw [rowAt_eq (length_flatMap_range hlen) ht, Checked.ok_bind, rowOf_flatMap hlen ht]

end Batch

/-! ## What is written -/

section Products

variable [Rounds K] {d : RowDots K} {b : Build} {plan : Split} {qtype : UInt32} {weight : Bytes}
  {x xs out : List K} {rows cols n rb : Nat}

/-- Blocks of a type with an integer kernel are whole runs of 32, and of its sums' width. -/
theorem int8_widths (hk : hasInt8Kernel qtype = true) (hrb : dataBytes qtype cols = some rb) :
    qk ∣ cols ∧ ∀ w, sumWidth qtype = some w → 0 < w ∧ w ∣ cols := by
  obtain ⟨elems, bytes, hlayout, hcols, -⟩ := dataBytes_eq_some.mp hrb
  have helems : elems ∣ cols := Nat.dvd_of_mod_eq_zero hcols
  have hwidths : qk ∣ elems ∧ ∀ w, sumWidth qtype = some w → 0 < w ∧ w ∣ elems := by
    rcases of_decide_eq_true hk with rfl | rfl | rfl | rfl | rfl | rfl <;> cases hlayout <;> decide
  exact ⟨hwidths.1.trans helems, fun w hw => ⟨(hwidths.2 w hw).1, (hwidths.2 w hw).2.trans helems⟩⟩

theorem dataBytes_le (h : dataBytes qtype n = some rb) : rb ≤ 4 * n := by
  obtain ⟨elems, bytes, hlayout, hn, rfl⟩ := dataBytes_eq_some.mp h
  have hbytes : bytes ≤ 4 * elems := by
    simp only [blockLayout, qk, qkK] at hlayout
    repeat' split at hlayout
    all_goals first
      | (simp only [Option.some.injEq, Prod.mk.injEq] at hlayout; omega)
      | cases hlayout
  calc n / elems * bytes ≤ n / elems * (4 * elems) := Nat.mul_le_mul_left _ hbytes
    _ = 4 * (n / elems * elems) := by ring
    _ ≤ 4 * n := Nat.mul_le_mul_left 4 (Nat.div_mul_le_self n elems)

/-- A row that is decoded into a buffer of its length. -/
theorem dequantInto_row {row : Bytes} {buf : List K} (hrb : dataBytes qtype cols = some rb)
    (hrow : row.length = rb) (hbuf : buf.length = cols) (hcols : 4 * cols < 2 ^ 63) :
    dequantInto b qtype row buf = .ok (decoded qtype row) ∧
      (decoded qtype row : List K).length = cols := by
  have hle := dataBytes_le hrb
  exact ⟨dequantInto_eq (by rw [hbuf, hrow, hrb]) (by omega), length_decoded (by rw [hrow, hrb])⟩

theorem matvec_eq (hrb : dataBytes qtype cols = some rb) (hw : weight.length = rows * rb)
    (hx : x.length = cols) (hout : out.length = rows) (hfit : weight.length < 2 ^ 64)
    (hmem : 4 * cols < 2 ^ 63) (hcols : 0 < cols) :
    matvec d b plan qtype weight rows cols x out
      = .ok ((List.range rows).map fun r => rowDot d qtype (rowOf rb r weight) x) := by
  have hle := dataBytes_le hrb
  have hpos := dataBytes_pos hrb hcols
  have hrows := chunks_eq (ε := GarudaError) hpos hw
  rw [matvec, byteSize_of_dataBytes b hrb, Build.fit_of_lt b (by omega), Checked.ok_bind,
    Build.fit_of_lt b (hw ▸ hfit), Checked.ok_bind, if_neg (by simp [hw]),
    if_neg (by simp [hx, hout])]
  cases hk : hasInt8Kernel qtype with
  | true =>
    obtain ⟨elems, bytes, hlayout, -, hbytes⟩ := dataBytes_eq_some.mp hrb
    rw [if_pos rfl, matvecInt8]
    simp only [hlayout]
    rw [Nat.mul_comm, hbytes, hrows, Checked.ok_bind,
      single_eq (f := fun row => rowDot d qtype row x)
      (fun _ => True) trivial (fun _ _ _ _ _ => ⟨(), by rw [rowDot, if_pos hk], trivial⟩)
      (by simp [hout]), List.map_map]
    rfl
  | false =>
    rw [if_neg (by decide), hrows, Checked.ok_bind]
    dsimp only
    rw [single_eq (f := fun row => rowDot d qtype row x) (fun buf => buf.length = cols)
      List.length_replicate (fun buf _ row hbuf hrow => ?_) (by simp [hout]), List.map_map]
    · rfl
    · obtain ⟨r, hr, rfl⟩ := List.mem_map.mp hrow
      have hlen := length_rowOf (hw ▸ row_le (w := rb) (List.mem_range.mp hr))
      obtain ⟨hrun, hnew⟩ := dequantInto_row (K := K) (b := b) hrb hlen hbuf hmem
      refine ⟨_, ?_, hnew⟩
      rw [hrun, rowDot, hk]
      rfl

/-- **The results of all vectors stand where each has its own.** -/
theorem matmul_eq (hrb : dataBytes qtype cols = some rb) (hw : weight.length = rows * rb)
    (hxs : xs.length = n * cols) (hout : out.length = n * rows) (hfit : weight.length < 2 ^ 64)
    (hxmem : 4 * xs.length < 2 ^ 63) (homem : 4 * out.length < 2 ^ 63) (hn : 0 < n)
    (hcols : 0 < cols) :
    matmul d b plan qtype weight rows cols xs n out
      = .ok ((List.range n).flatMap fun t => (List.range rows).map fun r =>
          rowDot d qtype (rowOf rb r weight) (rowOf cols t xs)) := by
  have hle := dataBytes_le hrb
  have hmem : cols ≤ n * cols := Nat.le_mul_of_pos_left cols hn
  rw [matmul]
  rcases eq_or_ne n 1 with rfl | hmany
  · rw [if_pos rfl, matvec_eq hrb hw (by omega) (by omega) hfit (by omega) hcols]
    simp [rowOf_zero_one hxs]
  have hrows := chunks_eq (ε := GarudaError) (dataBytes_pos hrb hcols) hw
  have hzeros : (zeros (rows * n) : Checked GarudaError (List K))
      = .ok (List.replicate (rows * n) (ofInt 0)) := if_pos (by rw [Nat.mul_comm rows]; omega)
  rw [if_neg hmany, byteSize_of_dataBytes b hrb, Build.fit_of_lt b (by omega), Checked.ok_bind,
    Build.fit_of_lt b (hw ▸ hfit), Checked.ok_bind, if_neg (by simp [hw]),
    Build.fit_of_lt b (by omega), Checked.ok_bind, Build.fit_of_lt b (by omega), Checked.ok_bind,
    if_neg (by simp [hxs, hout]), Build.fit_of_lt b (by rw [Nat.mul_comm rows]; omega),
    Checked.ok_bind, hzeros, Checked.ok_bind]
  cases hk : hasInt8Kernel qtype with
  | true =>
    obtain ⟨-, hwidths⟩ := int8_widths hk hrb
    have hcodes : ∀ t, t < n → (quantizeActivation (rowOf cols t xs)).1.length = cols :=
      fun t ht => (length_codes hxs ht).1
    have hscales : ∀ t, t < n → (quantizeActivation (rowOf cols t xs)).2.length = cols / qk :=
      fun t ht => (length_codes hxs ht).2
    rw [if_pos rfl, quantizeActivations_eq hxs, Checked.ok_bind]
    dsimp only
    rw [hrows, Checked.ok_bind]
    refine batched_eq (g := fun row t => rowDot d qtype row (rowOf cols t xs)) (fun _ => True)
      trivial (fun _ dst r _ hdst _ => ⟨(), ?_, trivial⟩) hn List.length_replicate hout _
    rw [hdst, Checked.mapM_eq_ok fun t ht => ?_]
    · rfl
    · have ht := List.mem_range.mp ht
      rw [rowAt_eq (length_flatMap_range hcodes) ht, Checked.ok_bind, rowOf_flatMap hcodes ht,
        rowAt_eq (length_flatMap_range hscales) ht, Checked.ok_bind, rowOf_flatMap hscales ht,
        sumsAt_eq hwidths hcodes ht, Checked.ok_bind, rowDot, if_pos hk]
  | false =>
    rw [if_neg (by decide), hrows, Checked.ok_bind]
    dsimp only
    refine batched_eq (g := fun row t => rowDot d qtype row (rowOf cols t xs))
      (fun buf => buf.length = cols) List.length_replicate (fun buf dst r hbuf hdst hr => ?_) hn
      List.length_replicate hout _
    have hlen := length_rowOf (hw ▸ row_le (w := rb) hr)
    obtain ⟨hrun, hnew⟩ := dequantInto_row (K := K) (b := b) hrb hlen hbuf (by omega)
    refine ⟨_, ?_, hnew⟩
    rw [hrun, Checked.ok_bind, hdst, Checked.mapM_eq_ok fun t ht => by
      rw [rowAt_eq hxs (List.mem_range.mp ht)]
      rfl]
    simp only [rowDot, hk]
    rfl

/-- Rows of no entries cannot be told apart. -/
theorem matvec_zero (hrb : dataBytes qtype 0 = some rb) (hw : weight.length = rows * rb)
    (hx : x.length = 0) (hout : out.length = rows) :
    matvec d b plan qtype weight rows 0 x out = .panic := by
  obtain ⟨elems, bytes, hlayout, -, hbytes⟩ := dataBytes_eq_some.mp hrb
  rw [Nat.zero_div, Nat.zero_mul] at hbytes
  subst hbytes
  rw [matvec, byteSize_of_dataBytes b hrb, Build.fit_of_lt b (by decide), Checked.ok_bind,
    Build.fit_of_lt b (by simp), Checked.ok_bind, if_neg (by simp [hw]),
    if_neg (by simp [hx, hout])]
  split
  · rw [matvecInt8]
    simp only [hlayout]
    rw [Nat.zero_div, Nat.mul_zero, chunks_zero, Checked.panic_bind]
  · rw [chunks_zero, Checked.panic_bind]

theorem matmul_zero (hrb : dataBytes qtype 0 = some rb) (hw : weight.length = rows * rb)
    (hxs : xs.length = n * 0) (hout : out.length = n * rows) (homem : 4 * out.length < 2 ^ 63) :
    matmul d b plan qtype weight rows 0 xs n out = .panic := by
  rw [matmul]
  rcases eq_or_ne n 1 with rfl | hmany
  · rw [if_pos rfl, matvec_zero hrb hw (by omega) (by omega)]
  obtain ⟨elems, bytes, hlayout, -, hbytes⟩ := dataBytes_eq_some.mp hrb
  rw [Nat.zero_div, Nat.zero_mul] at hbytes
  subst hbytes
  have hzeros : (zeros (rows * n) : Checked GarudaError (List K))
      = .ok (List.replicate (rows * n) (ofInt 0)) := if_pos (by rw [Nat.mul_comm rows]; omega)
  rw [if_neg hmany, byteSize_of_dataBytes b hrb, Build.fit_of_lt b (by decide), Checked.ok_bind,
    Build.fit_of_lt b (by simp), Checked.ok_bind, if_neg (by simp [hw]),
    Build.fit_of_lt b (by simp), Checked.ok_bind, Build.fit_of_lt b (by omega), Checked.ok_bind,
    if_neg (by simp [hxs, hout]), Build.fit_of_lt b (by rw [Nat.mul_comm rows]; omega),
    Checked.ok_bind, hzeros, Checked.ok_bind]
  split
  · rw [quantizeActivations_eq hxs, Checked.ok_bind]
    dsimp only
    rw [chunks_zero]
    rfl
  · rw [chunks_zero, Checked.panic_bind]

end Products

/-! ## Columns -/

section Columns

variable [Rounds K]

/-- A packed batch is its columns, also where there is no answer. -/
theorem packed_columns (d : RowDots K) (b : Build) (plan : Split) (plans : Nat → Split)
    {qtype : UInt32} {weight : Bytes} {rows cols n : Nat} {xs out : List K} (hn : 0 < n)
    (hw : ∀ rb, dataBytes qtype cols = some rb → weight.length = rows * rb)
    (hxs : xs.length = n * cols) (hout : out.length = n * rows) (hwmem : weight.length < 2 ^ 63)
    (hxmem : 4 * xs.length < 2 ^ 63) (homem : 4 * out.length < 2 ^ 63) (res : List K) :
    matmul d b plan qtype weight rows cols xs n out = .ok res ↔
      res.length = n * rows ∧ ∀ t, t < n →
        matvec d b (plans t) qtype weight rows cols (rowOf cols t xs) (rowOf rows t out)
          = .ok (rowOf rows t res) := by
  have hcols : cols ≤ n * cols := Nat.le_mul_of_pos_left cols hn
  have hx : ∀ t, t < n → (rowOf cols t xs).length = cols := fun t ht =>
    length_rowOf (hxs ▸ row_le ht)
  have ho : ∀ t, t < n → (rowOf rows t out).length = rows := fun t ht =>
    length_rowOf (hout ▸ row_le ht)
  cases hrb : dataBytes qtype cols with
  | none =>
    obtain ⟨e, he⟩ := byteSize_of_none hrb
    have hvec : ∀ x y, matvec d b (plans 0) qtype weight rows cols x y = .err e := fun x y => by
      rw [matvec, he b, Checked.err_bind]
    refine columns_refused hn (fun res h => ?_) (fun res h => ?_) res
    · rw [matmul, he b, Checked.err_bind, matvec, he b, Checked.err_bind, ite_self] at h
      cases h
    · rw [hvec] at h
      cases h
  | some rb =>
    have hweight := hw rb hrb
    rcases Nat.eq_zero_or_pos cols with rfl | hpos
    · refine columns_refused hn (fun res h => ?_) (fun res h => ?_) res
      · rw [matmul_zero hrb hweight hxs hout homem] at h
        cases h
      · rw [matvec_zero hrb hweight (hx 0 hn) (ho 0 hn)] at h
        cases h
    · exact columns_iff (by simp)
        (matmul_eq hrb hweight hxs hout (by omega) hxmem homem hn hpos)
        (fun t ht => matvec_eq hrb hweight (hx t ht) (ho t ht) (by omega) (by omega) hpos) res

omit [Rounds K] in
/-- The same of a plain matrix. -/
theorem full_columns [Zero K] (dot : List K → List K → K) (b : Build) (plan : Split)
    (plans : Nat → Split) {m : List K} {rows cols n : Nat} {xs out : List K} (hn : 0 < n)
    (hm : m.length = rows * cols) (hxs : xs.length = n * cols) (hout : out.length = n * rows)
    (hmmem : 4 * m.length < 2 ^ 63) (hxmem : 4 * xs.length < 2 ^ 63)
    (homem : 4 * out.length < 2 ^ 63) (res : List K) :
    (Simd.matmul dot b plan m rows cols xs n out : Checked GarudaError (List K)) = .ok res ↔
      res.length = n * rows ∧ ∀ t, t < n →
        (Simd.matvec dot b (plans t) m rows cols (rowOf cols t xs) (rowOf rows t out) :
          Checked GarudaError (List K)) = .ok (rowOf rows t res) := by
  have hx : ∀ t, t < n → (rowOf cols t xs).length = cols := fun t ht =>
    length_rowOf (hxs ▸ row_le ht)
  have ho : ∀ t, t < n → (rowOf rows t out).length = rows := fun t ht =>
    length_rowOf (hout ▸ row_le ht)
  rcases Nat.eq_zero_or_pos cols with rfl | hpos
  · refine columns_refused hn (fun res h => ?_) (fun res h => ?_) res
    · rw [Simd.matmul_zero hm hxs hout (by omega)] at h
      cases h
    · rw [Simd.matvec_zero hm (hx 0 hn) (ho 0 hn)] at h
      cases h
  · exact columns_iff (by simp)
      (Simd.matmul_eq hm hxs hout (by omega) (by omega) (by omega) hn hpos)
      (fun t ht => Simd.matvec_eq hm (hx t ht) (ho t ht) (by omega) hpos) res

/--
**A batched product is the products of its columns.**

Input `t` comes with its own codes, scales and sums, and its results are written where they belong,
however either product divides its rows among workers.
-/
theorem matmul_columns [Zero K] (d : RowDots K) (b : Build) (plan : Split) (plans : Nat → Split)
    {qtype : UInt32} {weight : Bytes} {m : List K} {rows cols n : Nat} {xs out : List K}
    (hn : 0 < n) (hw : ∀ rb, dataBytes qtype cols = some rb → weight.length = rows * rb)
    (hm : m.length = rows * cols) (hxs : xs.length = n * cols) (hout : out.length = n * rows)
    (hwmem : weight.length < 2 ^ 63) (hmmem : 4 * m.length < 2 ^ 63)
    (hxmem : 4 * xs.length < 2 ^ 63) (homem : 4 * out.length < 2 ^ 63) :
    (∀ res, matmul d b plan qtype weight rows cols xs n out = .ok res ↔
      res.length = n * rows ∧ ∀ t, t < n →
        matvec d b (plans t) qtype weight rows cols (rowOf cols t xs) (rowOf rows t out)
          = .ok (rowOf rows t res)) ∧
    (∀ rb, dataBytes qtype cols = some rb → 0 < cols →
      ∃ res, matmul d b plan qtype weight rows cols xs n out = .ok res ∧
        ∀ t r, t < n → r < rows →
          res[t * rows + r]? = some (rowDot d qtype (rowOf rb r weight) (rowOf cols t xs))) ∧
    ∀ res, (Simd.matmul d.dot b plan m rows cols xs n out : Checked GarudaError (List K)) = .ok res ↔
      res.length = n * rows ∧ ∀ t, t < n →
        (Simd.matvec d.dot b (plans t) m rows cols (rowOf cols t xs) (rowOf rows t out) :
          Checked GarudaError (List K)) = .ok (rowOf rows t res) := by
  refine ⟨packed_columns d b plan plans hn hw hxs hout hwmem hxmem homem, fun rb hrb hcols => ?_,
    full_columns d.dot b plan plans hn hm hxs hout hmmem hxmem homem⟩
  refine ⟨_, matmul_eq hrb (hw rb hrb) hxs hout (by omega) hxmem homem hn hcols,
    fun t r ht hr => ?_⟩
  rw [← getElem?_rowOf _ hr, rowOf_flatMap (by simp) ht, List.getElem?_map, List.getElem?_range hr]
  rfl

/-- The inner products of rows of one block of 32 codes. -/
def blockDots : RowDots ℚ where
  dot row x := (List.zipWith (· * ·) row x).sum
  int8Dot _ row xq xs _ :=
    f16ToF32 (halfWord row 0) * xs.getD 0 0
      * (List.zipWith (fun q xq => q.toInt8.toInt * xq.toInt) (row.drop 2) xq).sum

/-- Two vectors against three rows of 32 codes. -/
theorem matmul_columns_pair :
    (∀ res, matmul blockDots .debug (.cut 1 .whole .whole) q8_0 (List.replicate 102 1) 3 32
        (List.replicate 64 1) 2 (List.replicate 6 0) = .ok res ↔
      res.length = 2 * 3 ∧ ∀ t, t < 2 →
        matvec blockDots .debug .whole q8_0 (List.replicate 102 1) 3 32
          (rowOf 32 t (List.replicate 64 1)) (rowOf 3 t (List.replicate 6 0))
          = .ok (rowOf 3 t res)) ∧
    (∀ rb, dataBytes q8_0 32 = some rb → 0 < 32 →
      ∃ res, matmul blockDots .debug (.cut 1 .whole .whole) q8_0 (List.replicate 102 1) 3 32
          (List.replicate 64 1) 2 (List.replicate 6 0) = .ok res ∧
        ∀ t r, t < 2 → r < 3 → res[t * 3 + r]? = some (rowDot blockDots q8_0
          (rowOf rb r (List.replicate 102 1)) (rowOf 32 t (List.replicate 64 1)))) ∧
    ∀ res, (Simd.matmul blockDots.dot .debug (.cut 1 .whole .whole) (List.replicate 96 1) 3 32
        (List.replicate 64 1) 2 (List.replicate 6 0) : Checked GarudaError (List ℚ)) = .ok res ↔
      res.length = 2 * 3 ∧ ∀ t, t < 2 →
        (Simd.matvec blockDots.dot .debug .whole (List.replicate 96 1) 3 32
          (rowOf 32 t (List.replicate 64 1)) (rowOf 3 t (List.replicate 6 0)) :
            Checked GarudaError (List ℚ)) = .ok (rowOf 3 t res) := by
  have hw : ∀ rb, dataBytes q8_0 32 = some rb → (List.replicate 102 (1 : UInt8)).length = 3 * rb :=
    fun rb hrb => by
      cases hrb
      decide
  exact matmul_columns blockDots .debug (.cut 1 .whole .whole) (fun _ => .whole)
    (by decide) hw (by decide) (by decide) (by decide) (by decide) (by decide) (by decide)
    (by decide)

end Columns

end Quant

end Garuda
