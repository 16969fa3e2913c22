import Garuda.Quant.Layout

/-!
# Dequantisation

Blocks of packed integers back into numbers.

* `Floats K` is what the decoders ask of `f32`; the numbers are a parameter.
* `q4_0Block`, …, `q6_KBlock` decode one block each; `blockDecoder` picks one by type.
* `dequantInto` decodes over a buffer, and `dequantize` into a fresh one of finite values.
* `decoded` is what whole blocks stand for, and `dequantInto_eq` says that it is what they become.
-/

namespace Garuda

open Infra

/-- `f32`, as the decoders use it. -/
class Floats (K : Type) extends Add K, Sub K, Mul K, Div K, Neg K where
  /-- `f32::from_le_bytes`, from the word. -/
  ofBits : UInt32 → K
  /-- `as f32`. -/
  ofInt : Int → K
  /-- `2f32.powi`. -/
  powi : Int → K
  infinity : K
  nan : K
  isFinite : K → Bool

/-- Exact arithmetic on the finite patterns; the others have no value there. -/
instance : Floats ℚ where
  ofBits w :=
    let exponent : Nat := w.toNat / 2 ^ 23 % 2 ^ 8
    let fraction : Nat := w.toNat % 2 ^ 23
    let magnitude : ℚ :=
      if exponent = 255 then 0
      else if exponent = 0 then fraction * 2 ^ (-149 : Int)
      else ((2 ^ 23 + fraction : Nat) : ℚ) * 2 ^ ((exponent : Int) - 150)
    if w.toNat / 2 ^ 31 = 1 then -magnitude else magnitude
  ofInt n := n
  powi n := 2 ^ n
  infinity := 0
  nan := 0
  isFinite _ := true

namespace Quant

/-! ## Slices -/

def slice (bs : Bytes) (start len : Nat) : Bytes := (bs.drop start).take len

theorem length_slice {bs : Bytes} {start len : Nat} (h : start + len ≤ bs.length) :
    (slice bs start len).length = len := by
  rw [slice, List.length_take, List.length_drop]
  omega

theorem slice_slice {bs : Bytes} {start len i k : Nat} (h : i + k ≤ len) :
    slice (slice bs start len) i k = slice bs (start + i) k := by
  simp only [slice, List.drop_take, List.take_take, List.drop_drop]
  rw [Nat.min_eq_left (by omega)]

/-- `bs[i]`, of a slice whose length is known. -/
def nth (bs : Bytes) (i : Nat) : UInt8 := bs.getD i 0

/-- `chunks_exact`. -/
def chunksExact (n : Nat) (bs : Bytes) : List Bytes :=
  (List.range (bs.length / n)).map fun i => slice bs (i * n) n

@[simp] theorem length_chunksExact (n : Nat) (bs : Bytes) :
    (chunksExact n bs).length = bs.length / n := by
  simp [chunksExact]

theorem length_of_mem_chunksExact {n : Nat} {bs c : Bytes} (h : c ∈ chunksExact n bs) :
    c.length = n := by
  simp only [chunksExact, List.mem_map, List.mem_range] at h
  obtain ⟨i, hi, rfl⟩ := h
  refine length_slice ?_
  calc i * n + n = (i + 1) * n := (Nat.succ_mul i n).symm
    _ ≤ bs.length / n * n := Nat.mul_le_mul_right n hi
    _ ≤ bs.length := Nat.div_mul_le_self _ _

theorem length_flatMap_const {α β : Type} {l : List α} {f : α → List β} {k : Nat}
    (h : ∀ a ∈ l, (f a).length = k) : (l.flatMap f).length = l.length * k := by
  rw [List.length_flatMap, List.map_congr_left h, List.map_const', List.sum_replicate_nat]

/-- The little-endian half word at `i`. -/
def halfWord (bs : Bytes) (i : Nat) : UInt16 := UInt16.ofNat (ofLE (slice bs i 2))

def lowNibble (q : UInt8) : UInt8 := q &&& 0x0F

def highNibble (q : UInt8) : UInt8 := q >>> 4

/-- `(q >> shift) & 3`. -/
def twoBits (q shift : UInt8) : UInt8 := (q >>> shift) &&& 3

/-! ## Scales -/

variable {K : Type} [Floats K]

open Floats

/-- IEEE-754 half to single precision. -/
def f16ToF32 (h : UInt16) : K :=
  let sign := (h >>> 15) &&& 1
  let exp := (h >>> 10) &&& 0x1f
  let mant := h &&& 0x3ff
  let val : K :=
    if exp = 0 ∧ mant = 0 then ofInt 0
    else if exp = 0 then ofInt mant.toNat * powi (-24)
    else if exp = 0x1f ∧ mant = 0 then infinity
    else if exp = 0x1f then nan
    else (ofInt 1 + ofInt mant.toNat / ofInt 1024) * powi ((exp.toNat : Int) - 15)
  if sign = 1 then -val else val

/-- One 6-bit sub-scale and sub-min of the `scales[12]` of a `block_q4_K`. -/
def getScaleMinK4 (j : Nat) (s : Bytes) : UInt8 × UInt8 :=
  if j < 4 then (nth s j &&& 63, nth s (j + 4) &&& 63)
  else
    let d := lowNibble (nth s (j + 4)) ||| ((nth s (j - 4) >>> 6) <<< 4)
    let m := highNibble (nth s (j + 4)) ||| ((nth s j >>> 6) <<< 4)
    (d, m)

/-- The sixteen 6-bit signed scales of a `block_q3_K`, from their 12 packed bytes. -/
def unpackQ3KScales (scaleBytes : Bytes) : List Int8 :=
  let kmask1 : UInt32 := 0x03030303
  let kmask2 : UInt32 := 0x0f0f0f0f
  let aux (k : Nat) : UInt32 := UInt32.ofNat (ofLE (slice scaleBytes (k * 4) 4))
  let tmp := aux 2
  let words : List UInt32 :=
    [(aux 0 &&& kmask2) ||| ((tmp &&& kmask1) <<< 4),
     (aux 1 &&& kmask2) ||| (((tmp >>> 2) &&& kmask1) <<< 4),
     ((aux 0 >>> 4) &&& kmask2) ||| (((tmp >>> 4) &&& kmask1) <<< 4),
     ((aux 1 >>> 4) &&& kmask2) ||| (((tmp >>> 6) &&& kmask1) <<< 4)]
  words.flatMap fun a => (toLE 4 a.toNat).map UInt8.toInt8

/-! ## One block -/

def f32Block (block : Bytes) : List K := [ofBits (UInt32.ofNat (ofLE block))]

def f16Block (block : Bytes) : List K := [f16ToF32 (halfWord block 0)]

/-- `[ f16 scale | i8 q[32] ]`. -/
def q8_0Block (block : Bytes) : List K :=
  let scale : K := f16ToF32 (halfWord block 0)
  (block.drop 2).map fun q => scale * ofInt q.toInt8.toInt

/-- `[ f16 scale | u8 q[16] ]`: the low nibbles, then the high ones. -/
def q4_0Block (block : Bytes) : List K :=
  let scale : K := f16ToF32 (halfWord block 0)
  let qs := block.drop 2
  qs.map (fun byte => scale * ofInt (((lowNibble byte).toNat : Int) - 8))
    ++ qs.map fun byte => scale * ofInt (((highNibble byte).toNat : Int) - 8)

/-- `[ f16 d | f16 dmin | u8 scales[12] | u8 qs[128] ]`. -/
def q4_KBlock (block : Bytes) : List K :=
  let d : K := f16ToF32 (halfWord block 0)
  let dmin : K := f16ToF32 (halfWord block 2)
  let scales := slice block 4 12
  let qs := slice block 16 128
  (List.range 4).flatMap fun group =>
    let chunk := slice qs (group * 32) 32
    let (sc1, m1) := getScaleMinK4 (2 * group) scales
    let (sc2, m2) := getScaleMinK4 (2 * group + 1) scales
    let d1 := d * ofInt sc1.toNat
    let mn1 := dmin * ofInt m1.toNat
    let d2 := d * ofInt sc2.toNat
    let mn2 := dmin * ofInt m2.toNat
    chunk.map (fun q => d1 * ofInt (lowNibble q).toNat - mn1)
      ++ chunk.map fun q => d2 * ofInt (highNibble q).toNat - mn2

/-- `[ u8 ql[128] | u8 qh[64] | i8 scales[16] | f16 d ]`, in two halves of four runs of 32. -/
def q6_KBlock (block : Bytes) : List K :=
  let d : K := f16ToF32 (halfWord block 208)
  (List.range 2).flatMap fun half =>
    let ql := slice block (half * 64) 64
    let qh := slice block (128 + half * 32) 32
    let sc := slice block (192 + half * 8) 8
    let y (is : Nat) (q : UInt8) : K :=
      d * ofInt (nth sc is).toInt8.toInt * ofInt ((q.toNat : Int) - 32)
    (List.range 32).map (fun l =>
        y (l / 16) (lowNibble (nth ql l) ||| (twoBits (nth qh l) 0 <<< 4)))
      ++ (List.range 32).map (fun l =>
        y (l / 16 + 2) (lowNibble (nth ql (l + 32)) ||| (twoBits (nth qh l) 2 <<< 4)))
      ++ (List.range 32).map (fun l =>
        y (l / 16 + 4) (highNibble (nth ql l) ||| (twoBits (nth qh l) 4 <<< 4)))
      ++ (List.range 32).map fun l =>
        y (l / 16 + 6) (highNibble (nth ql (l + 32)) ||| (twoBits (nth qh l) 6 <<< 4))

/-- `[ f16 d | f16 dmin | u8 scales[12] | u8 qh[32] | u8 qs[128] ]`. -/
def q5_KBlock (block : Bytes) : List K :=
  let d : K := f16ToF32 (halfWord block 0)
  let dmin : K := f16ToF32 (halfWord block 2)
  let scales := slice block 4 12
  let qh := slice block 16 32
  let qs := slice block 48 128
  (List.range 4).flatMap fun group =>
    let ql := slice qs (group * 32) 32
    let (sc1, m1) := getScaleMinK4 (2 * group) scales
    let (sc2, m2) := getScaleMinK4 (2 * group + 1) scales
    let d1 := d * ofInt sc1.toNat
    let mn1 := dmin * ofInt m1.toNat
    let d2 := d * ofInt sc2.toNat
    let mn2 := dmin * ofInt m2.toNat
    -- the fifth bit of a quant is that of its group in `qh`
    let hi (u : Nat) (l : Nat) : Int := if (nth qh l).toNat.testBit u then 16 else 0
    (List.range 32).map (fun l =>
        d1 * ofInt ((lowNibble (nth ql l)).toNat + hi (2 * group) l) - mn1)
      ++ (List.range 32).map fun l =>
        d2 * ofInt ((highNibble (nth ql l)).toNat + hi (2 * group + 1) l) - mn2

/-- `[ u8 scales[16] | u8 qs[64] | f16 d | f16 dmin ]`. -/
def q2_KBlock (block : Bytes) : List K :=
  let scales := slice block 0 16
  let qs := slice block 16 64
  let d : K := f16ToF32 (halfWord block 80)
  let dmin : K := f16ToF32 (halfWord block 82)
  (List.range 2).flatMap fun half =>
    let q := slice qs (half * 32) 32
    (List.range 4).flatMap fun j =>
      -- two runs of 16, each with a scale of its own, at one shift
      (List.range 2).flatMap fun run =>
        let sc := nth scales (half * 8 + j * 2 + run)
        let dl := d * ofInt (lowNibble sc).toNat
        let ml := dmin * ofInt (highNibble sc).toNat
        (slice q (run * 16) 16).map fun qv =>
          dl * ofInt (twoBits qv (UInt8.ofNat (2 * j))).toNat - ml

/-- `[ u8 hmask[32] | u8 qs[64] | u8 scales[12] | f16 d ]`. -/
def q3_KBlock (block : Bytes) : List K :=
  let hmask := slice block 0 32
  let qs := slice block 32 64
  let dAll : K := f16ToF32 (halfWord block 108)
  let scales := unpackQ3KScales (slice block 96 12)
  (List.range 2).flatMap fun half =>
    let q := slice qs (half * 32) 32
    (List.range 4).flatMap fun j =>
      (List.range 2).flatMap fun run =>
        let dl := dAll * ofInt ((scales.getD (half * 8 + j * 2 + run) 0).toInt - 32)
        (List.range 16).map fun l =>
          -- a set bit of the mask means that nothing is taken off
          let hbit : Int := if (nth hmask (run * 16 + l)).toNat.testBit (half * 4 + j) then 0 else 4
          dl * ofInt ((twoBits (nth q (run * 16 + l)) (UInt8.ofNat (2 * j))).toNat - hbit)

theorem length_f32Block (block : Bytes) : (f32Block block : List K).length = 1 := rfl

theorem length_f16Block (block : Bytes) : (f16Block block : List K).length = 1 := rfl

theorem length_q8_0Block {block : Bytes} (h : block.length = 34) :
    (q8_0Block block : List K).length = 32 := by
  rw [q8_0Block, List.length_map, List.length_drop, h]

theorem length_q4_0Block {block : Bytes} (h : block.length = 18) :
    (q4_0Block block : List K).length = 32 := by
  rw [q4_0Block, List.length_append, List.length_map, List.length_map, List.length_drop, h]

theorem length_q4_KBlock {block : Bytes} (h : block.length = 144) :
    (q4_KBlock block : List K).length = 256 := by
  have hqs : (slice block 16 128).length = 128 := length_slice (by omega)
  refine length_flatMap_const (k := 64) fun group hgroup => ?_
  have hchunk : (slice (slice block 16 128) (group * 32) 32).length = 32 :=
    length_slice (by rw [hqs]; have := List.mem_range.mp hgroup; omega)
  simp only [List.length_append, List.length_map, hchunk]

theorem length_q6_KBlock (block : Bytes) : (q6_KBlock block : List K).length = 256 := by
  refine length_flatMap_const (k := 128) fun half _ => ?_
  simp only [List.length_append, List.length_map, List.length_range]

theorem length_q5_KBlock (block : Bytes) : (q5_KBlock block : List K).length = 256 := by
  refine length_flatMap_const (k := 64) fun group _ => ?_
  simp only [List.length_append, List.length_map, List.length_range]

theorem length_q2_KBlock {block : Bytes} (h : block.length = 84) :
    (q2_KBlock block : List K).length = 256 := by
  have hqs : (slice block 16 64).length = 64 := length_slice (by omega)
  refine length_flatMap_const (k := 128) fun half hhalf => ?_
  have hq : (slice (slice block 16 64) (half * 32) 32).length = 32 :=
    length_slice (by rw [hqs]; have := List.mem_range.mp hhalf; omega)
  refine length_flatMap_const (k := 32) fun j _ => ?_
  refine length_flatMap_const (k := 16) fun run hrun => ?_
  rw [List.length_map]
  exact length_slice (by rw [hq]; have := List.mem_range.mp hrun; omega)

theorem length_q3_KBlock (block : Bytes) : (q3_KBlock block : List K).length = 256 := by
  refine length_flatMap_const (k := 128) fun half _ => ?_
  refine length_flatMap_const (k := 32) fun j _ => ?_
  refine length_flatMap_const (k := 16) fun run _ => ?_
  rw [List.length_map, List.length_range]

/-- The decoder of a type, for one of its blocks. -/
def blockDecoder (ggmlType : UInt32) : Bytes → List K :=
  if ggmlType = f32 then f32Block
  else if ggmlType = f16 then f16Block
  else if ggmlType = q8_0 then q8_0Block
  else if ggmlType = q4_0 then q4_0Block
  else if ggmlType = q2_K then q2_KBlock
  else if ggmlType = q3_K then q3_KBlock
  else if ggmlType = q4_K then q4_KBlock
  else if ggmlType = q5_K then q5_KBlock
  else if ggmlType = q6_K then q6_KBlock
  else fun _ => []

theorem length_blockDecoder {ggmlType : UInt32} {elems bytes : Nat} {block : Bytes}
    (hl : blockLayout ggmlType = some (elems, bytes)) (h : block.length = bytes) :
    (blockDecoder ggmlType block : List K).length = elems := by
  unfold blockLayout at hl
  split at hl
  · cases hl; subst_vars; exact length_f32Block block
  split at hl
  · cases hl; subst_vars; exact length_f16Block block
  split at hl
  · cases hl; subst_vars; exact length_q4_0Block h
  split at hl
  · cases hl; subst_vars; exact length_q8_0Block h
  split at hl
  · cases hl; subst_vars; exact length_q2_KBlock h
  split at hl
  · cases hl; subst_vars; exact length_q3_KBlock block
  split at hl
  · cases hl; subst_vars; exact length_q4_KBlock h
  split at hl
  · cases hl; subst_vars; exact length_q5_KBlock block
  split at hl
  · cases hl; subst_vars; exact length_q6_KBlock block
  · cases hl

/-! ## Whole tensors -/

/-- What whole blocks of a type stand for. -/
def decoded (ggmlType : UInt32) (raw : Bytes) : List K :=
  match blockLayout ggmlType with
  | none => []
  | some (_, bytes) => (chunksExact bytes raw).flatMap (blockDecoder ggmlType)

theorem length_decoded {ggmlType : UInt32} {n : Nat} {raw : Bytes}
    (h : dataBytes ggmlType n = some raw.length) : (decoded ggmlType raw : List K).length = n := by
  unfold dataBytes at h
  unfold decoded
  cases hl : blockLayout ggmlType with
  | none =>
    rw [hl] at h
    cases h
  | some l =>
    obtain ⟨elems, bytes⟩ := l
    rw [hl] at h
    simp only [Option.ite_none_right_eq_some, Option.some.injEq] at h
    obtain ⟨hn, hraw⟩ := h
    have hbytes := (blockLayout_pos hl).2
    have hblocks : raw.length / bytes = n / elems := by
      rw [← hraw, Nat.mul_div_cancel _ hbytes]
    rw [length_flatMap_const fun c hc => length_blockDecoder hl (length_of_mem_chunksExact hc),
      length_chunksExact, hblocks]
    exact Nat.div_mul_cancel (Nat.dvd_of_mod_eq_zero hn)

/-- Writes `vals` over the front of `out`, whose length is the bound of every index. -/
def overwrite (vals out : List K) : Checked GarudaError (List K) :=
  if vals.length ≤ out.length then .ok (vals ++ out.drop vals.length) else .panic

def wrongLength (ggmlType : UInt32) (expected n got : Nat) : GarudaError :=
  .model (s!"{typeName ggmlType} tensor: expected {expected} bytes for {n} elements, "
    ++ s!"got {got}")

/-- Decode into `out`, with no finiteness check. -/
def dequantInto (b : Build) (ggmlType : UInt32) (raw : Bytes) (out : List K) :
    Checked GarudaError (List K) := do
  let expected ← byteSize b ggmlType out.length
  if raw.length ≠ expected then .err (wrongLength ggmlType expected out.length raw.length)
  else overwrite (decoded ggmlType raw) out

def nonFinite (ggmlType : UInt32) (i : Nat) : GarudaError :=
  .model s!"{typeName ggmlType} tensor produced a non-finite value at index {i}"

/-- `vec![0.0f32; n]`: an allocation is at most `isize::MAX` bytes. -/
def zeros (n : Nat) : Checked GarudaError (List K) :=
  if 4 * n < 2 ^ 63 then .ok (List.replicate n (ofInt 0)) else .panic

/-- Decode `n` elements into a fresh vector of finite values. -/
def dequantize (b : Build) (ggmlType : UInt32) (raw : Bytes) (n : Nat) :
    Checked GarudaError (List K) := do
  let zeroed ← zeros n
  let out ← dequantInto b ggmlType raw zeroed
  match out.findIdx? fun v => !isFinite v with
  | some i => .err (nonFinite ggmlType i)
  | none => .ok out

/-- **Bytes of the right number become what they stand for.** -/
theorem dequantInto_eq {b : Build} {ggmlType : UInt32} {raw : Bytes} {out : List K}
    (h : dataBytes ggmlType out.length = some raw.length) (hraw : raw.length < 2 ^ 64) :
    dequantInto b ggmlType raw out = .ok (decoded ggmlType raw) := by
  have hlen : (decoded ggmlType raw : List K).length = out.length := length_decoded h
  rw [dequantInto, byteSize_of_dataBytes b h, Build.fit_of_lt b hraw, Checked.ok_bind]
  simp [overwrite, hlen]

theorem dequantize_eq {b : Build} {ggmlType : UInt32} {raw : Bytes} {n : Nat}
    (h : dataBytes ggmlType n = some raw.length) (hraw : raw.length < 2 ^ 64)
    (hn : 4 * n < 2 ^ 63) :
    (dequantize b ggmlType raw n : Checked GarudaError (List K)) =
      match (decoded ggmlType raw : List K).findIdx? fun v => !isFinite v with
      | some i => .err (nonFinite ggmlType i)
      | none => .ok (decoded ggmlType raw) := by
  rw [dequantize, zeros, if_pos hn, Checked.ok_bind,
    dequantInto_eq (by rwa [List.length_replicate]) hraw, Checked.ok_bind]

theorem dequantize_large {b : Build} {ggmlType : UInt32} {raw : Bytes} {n : Nat}
    (hn : 2 ^ 63 ≤ 4 * n) :
    (dequantize b ggmlType raw n : Checked GarudaError (List K)) = .panic := by
  rw [dequantize, zeros, if_neg (by omega), Checked.panic_bind]

end Quant

end Garuda
