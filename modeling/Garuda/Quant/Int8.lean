import Garuda.Infra.Windows
import Garuda.Quant.Matmul

/-!
# Integer kernels

A packed row dotted against an activation's int8 codes, without becoming numbers first.

* `SubBlock` is a run of a block's codes under one scale, with what a kernel adds for it.
* `q8_0SubBlocks`, …, `q4_KSubBlocks` unpack one block each, in the order of their kernel.
* `q8_0Dot`, …, `q4_KDot` are the kernels, and `int8Dot` picks one by type.
* `Unpacks` says that sub-blocks stand for what a decoder gives; runs put behind each other do, if
  each of them does.

`int8Dot_eq` says that a kernel's result is that of decoding the row and dotting it with the numbers
that the codes stand for. The arithmetic is exact there.
-/

namespace Garuda

open Infra

namespace Simd

/-- `dot_i8`: the exact integer sum. -/
def dotI8 (a b : List Int8) : Int := (List.zipWith (fun x y => x.toInt * y.toInt) a b).sum

theorem dotI8_eq : ∀ a b : List Int8, dotI8 a b = innerInt (a.map Int8.toInt) (b.map Int8.toInt)
  | [], _ => rfl
  | _ :: _, [] => rfl
  | x :: a, y :: b => by
    have ih := dotI8_eq a b
    rw [List.map_cons, List.map_cons, innerInt_cons, ← ih, dotI8, List.zipWith_cons_cons,
      List.sum_cons, dotI8]

end Simd

namespace Quant

open Floats

/-- What the codes of weights are kept in. -/
class Code (I : Type) extends Sub I where
  /-- `as i8`, of a byte. -/
  ofByte : UInt8 → I
  /-- What is an `i8` as it stands. -/
  ofInt8 : Int8 → I

/-- The kernels' own: a byte past 127 wraps, and so does a difference out of range. -/
instance : Code Int8 where
  ofByte := UInt8.toInt8
  ofInt8 := id

/-- Nothing wraps. -/
instance : Code Int where
  ofByte b := b.toNat
  ofInt8 := Int8.toInt

/-- A run of a block's codes under one scale. -/
structure SubBlock (I K : Type) where
  codes : List I
  /-- What is added for the run, given the activation's scale, the inner product of the codes and
  the sum of the activation's codes. -/
  term : K → K → K → K

def SubBlock.map {I J K : Type} (f : I → J) (s : SubBlock I K) : SubBlock J K where
  codes := s.codes.map f
  term := s.term

/-! ## One block -/

section Blocks

variable {I K : Type} [Code I] [Floats K]

def q8_0SubBlocks (block : Bytes) : List (SubBlock I K) :=
  let ws : K := f16ToF32 (halfWord block 0)
  [{ codes := (slice block 2 qk).map fun q => Code.ofInt8 q.toInt8
     term := fun x dot _ => ws * x * dot }]

/-- All 256 codes of a block, in two halves of four runs of 32. -/
def q6_KCodes (block : Bytes) : List I :=
  let centred (q : UInt8) : I := Code.ofByte q - Code.ofInt8 32
  (List.range 2).flatMap fun half =>
    let ql := slice block (half * 64) 64
    let qh := slice block (128 + half * 32) 32
    (List.range 32).map (fun l =>
        centred (lowNibble (nth ql l) ||| (twoBits (nth qh l) 0 <<< 4)))
      ++ (List.range 32).map (fun l =>
        centred (lowNibble (nth ql (l + 32)) ||| (twoBits (nth qh l) 2 <<< 4)))
      ++ (List.range 32).map (fun l =>
        centred (highNibble (nth ql l) ||| (twoBits (nth qh l) 4 <<< 4)))
      ++ (List.range 32).map fun l =>
        centred (highNibble (nth ql (l + 32)) ||| (twoBits (nth qh l) 6 <<< 4))

def q6_KSubBlocks (block : Bytes) : List (SubBlock I K) :=
  let d : K := f16ToF32 (halfWord block 208)
  let sc := slice block 192 16
  (List.range 16).map fun s =>
    { codes := rowOf 16 s (q6_KCodes block)
      term := fun x dot _ => x * d * ofInt (nth sc s).toInt8.toInt * dot }

def q5_KSubBlocks (block : Bytes) : List (SubBlock I K) :=
  let d : K := f16ToF32 (halfWord block 0)
  let dmin : K := f16ToF32 (halfWord block 2)
  let scales := slice block 4 12
  let qh := slice block 16 32
  let qs := slice block 48 128
  (List.range 4).flatMap fun group =>
    let ql := slice qs (group * 32) 32
    let (sc1, m1) := getScaleMinK4 (2 * group) scales
    let (sc2, m2) := getScaleMinK4 (2 * group + 1) scales
    let hi (u l : Nat) : UInt8 := if (nth qh l).toNat.testBit u then 16 else 0
    [{ codes := (List.range 32).map fun l =>
         Code.ofByte (lowNibble (nth ql l) ||| hi (2 * group) l)
       term := fun x dot sum => x * (d * ofInt sc1.toNat * dot - dmin * ofInt m1.toNat * sum) },
     { codes := (List.range 32).map fun l =>
         Code.ofByte (highNibble (nth ql l) ||| hi (2 * group + 1) l)
       term := fun x dot sum => x * (d * ofInt sc2.toNat * dot - dmin * ofInt m2.toNat * sum) }]

def q3_KSubBlocks (block : Bytes) : List (SubBlock I K) :=
  let hmask := slice block 0 32
  let qs := slice block 32 64
  let dAll : K := f16ToF32 (halfWord block 108)
  let scales := unpackQ3KScales (slice block 96 12)
  (List.range 2).flatMap fun half =>
    let qh := slice qs (half * 32) 32
    (List.range 4).flatMap fun j =>
      (List.range 2).map fun run =>
        let dl := dAll * ofInt ((scales.getD (half * 8 + j * 2 + run) 0).toInt - 32)
        { codes := (List.range 16).map fun l =>
            let hbit : Int8 :=
              if (nth hmask (l + run * 16)).toNat.testBit (half * 4 + j) then 0 else 4
            Code.ofByte (twoBits (nth qh (l + run * 16)) (UInt8.ofNat (2 * j))) - Code.ofInt8 hbit
          term := fun x dot _ => x * dl * dot }

def q2_KSubBlocks (block : Bytes) : List (SubBlock I K) :=
  let scales := slice block 0 16
  let qs := slice block 16 64
  let d : K := f16ToF32 (halfWord block 80)
  let dmin : K := f16ToF32 (halfWord block 82)
  (List.range 2).flatMap fun half =>
    let qb := slice qs (half * 32) 32
    (List.range 4).flatMap fun j =>
      (List.range 2).map fun run =>
        let sc := nth scales (half * 8 + j * 2 + run)
        let dl := d * ofInt (lowNibble sc).toNat
        let ml := dmin * ofInt (highNibble sc).toNat
        { codes := (List.range 16).map fun l =>
            Code.ofByte (twoBits (nth qb (l + run * 16)) (UInt8.ofNat (2 * j)))
          term := fun x dot sum => x * (dl * dot - ml * sum) }

def q4_KSubBlocks (block : Bytes) : List (SubBlock I K) :=
  let d : K := f16ToF32 (halfWord block 0)
  let dmin : K := f16ToF32 (halfWord block 2)
  let scales := slice block 4 12
  let qs := slice block 16 128
  (List.range 4).flatMap fun group =>
    let chunk := slice qs (group * 32) 32
    let (sc1, m1) := getScaleMinK4 (2 * group) scales
    let (sc2, m2) := getScaleMinK4 (2 * group + 1) scales
    [{ codes := chunk.map fun byte => Code.ofByte (lowNibble byte)
       term := fun x dot sum => x * (d * ofInt sc1.toNat * dot - dmin * ofInt m1.toNat * sum) },
     { codes := chunk.map fun byte => Code.ofByte (highNibble byte)
       term := fun x dot sum => x * (d * ofInt sc2.toNat * dot - dmin * ofInt m2.toNat * sum) }]

/-- The sub-blocks of a block of a type, as its kernel walks them. -/
def subBlocks (qtype : UInt32) : Bytes → List (SubBlock I K) :=
  if qtype = q8_0 then q8_0SubBlocks
  else if qtype = q2_K then q2_KSubBlocks
  else if qtype = q3_K then q3_KSubBlocks
  else if qtype = q4_K then q4_KSubBlocks
  else if qtype = q5_K then q5_KSubBlocks
  else if qtype = q6_K then q6_KSubBlocks
  else fun _ => []

end Blocks

/-! ## The kernels -/

section Kernels

variable {K : Type} [Floats K]

/-- `s[i]`, which panics behind the end. -/
def entryAt {α : Type} (s : List α) (i : Nat) : Checked GarudaError α :=
  match s[i]? with
  | some v => .ok v
  | none => .panic

/-- The sum that a minimum is multiplied with. -/
def sumAt (sums : Option (List Int)) (sb : Nat) : Checked GarudaError Int :=
  match sums with
  | none => .ok 0
  | some s => entryAt s sb

/-- What sub-block `sb` of a row adds. -/
def subBlockStep (width : Nat) (xq : List Int8) (xs : List K) (sums : Option (List Int)) (acc : K) :
    SubBlock Int8 K × Nat → Checked GarudaError K
  | (s, sb) => do
    let off := sb * width
    let codes ← rowAt width sb xq
    let x ← entryAt xs (off / qk)
    let sum ← sumAt sums sb
    .ok (acc + s.term x (ofInt (Simd.dotI8 s.codes codes)) (ofInt sum))

/-- A row of blocks of so many `bytes`, each `perBlock` sub-blocks of `width` codes. -/
def rowKernel (bytes perBlock width : Nat) (subBlocks : Bytes → List (SubBlock Int8 K))
    (row : Bytes) (xq : List Int8) (xs : List K) (sums : Option (List Int)) :
    Checked GarudaError K :=
  (chunksExact bytes row).zipIdx.foldlM (fun acc (block, bi) =>
    ((subBlocks block).zipIdx (bi * perBlock)).foldlM (subBlockStep width xq xs sums) acc) (ofInt 0)

def q8_0Dot (row : Bytes) (xq : List Int8) (xs : List K) : Checked GarudaError K :=
  rowKernel (2 + qk) 1 qk q8_0SubBlocks row xq xs none

def q6_KDot (row : Bytes) (xq : List Int8) (xs : List K) : Checked GarudaError K :=
  rowKernel 210 16 16 q6_KSubBlocks row xq xs none

def q5_KDot (row : Bytes) (xq : List Int8) (xs : List K) (sums : List Int) :
    Checked GarudaError K :=
  rowKernel 176 8 qk q5_KSubBlocks row xq xs (some sums)

def q3_KDot (row : Bytes) (xq : List Int8) (xs : List K) : Checked GarudaError K :=
  rowKernel 110 16 16 q3_KSubBlocks row xq xs none

def q2_KDot (row : Bytes) (xq : List Int8) (xs : List K) (sums16 : List Int) :
    Checked GarudaError K :=
  rowKernel 84 16 16 q2_KSubBlocks row xq xs (some sums16)

def q4_KDot (row : Bytes) (xq : List Int8) (xs : List K) (sums : List Int) :
    Checked GarudaError K :=
  rowKernel 144 8 qk q4_KSubBlocks row xq xs (some sums)

/-- `expect`, of the sums. -/
def needed (sums : Option (List Int)) : Checked GarudaError (List Int) :=
  match sums with
  | none => .panic
  | some s => .ok s

/-- One packed row dotted against one int8-quantised activation vector. -/
def int8Dot (qtype : UInt32) (row : Bytes) (xq : List Int8) (xs : List K)
    (sums : Option (List Int)) : Checked GarudaError K :=
  if qtype = q8_0 then q8_0Dot row xq xs
  else if qtype = q2_K then do
    let s ← needed sums
    q2_KDot row xq xs s
  else if qtype = q3_K then q3_KDot row xq xs
  else if qtype = q4_K then do
    let s ← needed sums
    q4_KDot row xq xs s
  else if qtype = q5_K then do
    let s ← needed sums
    q5_KDot row xq xs s
  else if qtype = q6_K then q6_KDot row xq xs
  else .panic

end Kernels

/-! ## No code wraps -/

theorem toInt_ofByte {b : UInt8} (h : b.toNat < 128) :
    (Code.ofByte b : Int8).toInt = Code.ofByte b :=
  BitVec.toInt_eq_toNat_of_lt (show 2 * b.toNat < 256 by omega)

theorem toInt_centred {b : UInt8} {n : Int8} (hb : b.toNat < 128) (hn : 0 ≤ n.toInt) :
    (Code.ofByte b - Code.ofInt8 n : Int8).toInt = Code.ofByte b - Code.ofInt8 n := by
  have hbyte : b.toInt8.toInt = b.toNat := toInt_ofByte hb
  have hn' : n.toInt < 128 := Int8.toInt_lt n
  show (b.toInt8 - n).toInt = b.toNat - n.toInt
  rw [Int8.toInt_sub, hbyte]
  exact Int.bmod_eq_of_le (by omega) (by omega)

theorem lowNibble_toNat (b : UInt8) : (lowNibble b).toNat = b.toNat % 16 := by
  rw [lowNibble, UInt8.toNat_and]
  exact Nat.and_two_pow_sub_one_eq_mod b.toNat 4

theorem highNibble_toNat (b : UInt8) : (highNibble b).toNat = b.toNat / 16 := by
  rw [highNibble, UInt8.toNat_shiftRight, Nat.shiftRight_eq_div_pow]
  rfl

theorem lowNibble_lt (q : UInt8) : (lowNibble q).toNat < 16 := by
  rw [lowNibble_toNat]
  exact Nat.mod_lt _ (by decide)

theorem highNibble_lt (q : UInt8) : (highNibble q).toNat < 16 := by
  have hq := UInt8.toNat_lt q
  rw [highNibble_toNat]
  omega

theorem twoBits_lt (q shift : UInt8) : (twoBits q shift).toNat < 4 := by
  rw [twoBits, UInt8.toNat_and]
  exact Nat.lt_succ_of_le Nat.and_le_right

/-- Four bits and two more. -/
theorem toNat_sixBits {low high : UInt8} (hl : low.toNat < 16) (hh : high.toNat < 4) :
    (low ||| (high <<< 4)).toNat = low.toNat + 16 * high.toNat := by
  have hshift : (high <<< 4).toNat = 2 ^ 4 * high.toNat := by
    rw [UInt8.toNat_shiftLeft, Nat.shiftLeft_eq]
    show high.toNat * 16 % 256 = 16 * high.toNat
    omega
  rw [UInt8.toNat_or, hshift, Nat.or_comm, ← Nat.two_pow_add_eq_or_of_lt hl, Nat.add_comm]

theorem sixBits_lt {low high : UInt8} (hl : low.toNat < 16) (hh : high.toNat < 4) :
    (low ||| (high <<< 4)).toNat < 64 := by
  rw [toNat_sixBits hl hh]
  omega

/-- Four bits and a fifth. -/
theorem ofByte_fiveBits {low : UInt8} (hl : low.toNat < 16) (bit : Bool) :
    (Code.ofByte (low ||| if bit then 16 else 0) : Int) = low.toNat + if bit then 16 else 0 := by
  cases bit with
  | false =>
    rw [if_neg (by decide), if_neg (by decide), UInt8.or_zero, Int.add_zero]
    rfl
  | true =>
    have h := Nat.shiftLeft_add_eq_or_of_lt (i := 4) (b := low.toNat) hl 1
    have hor : (low ||| 16).toNat = low.toNat + 16 := by
      rw [UInt8.toNat_or, Nat.or_comm, Nat.add_comm]
      exact h.symm
    rw [if_pos rfl, if_pos rfl]
    exact congrArg Nat.cast hor

theorem fiveBits_lt {low : UInt8} (hl : low.toNat < 16) (bit : Bool) :
    (low ||| if bit then 16 else 0).toNat < 32 := by
  have hbit : (if bit then (16 : UInt8) else 0).toNat < 2 ^ 5 := by cases bit <;> decide
  rw [UInt8.toNat_or]
  exact Nat.or_lt_two_pow (by omega) hbit

/-- Two bits, less four where the third is not set. -/
theorem ofByte_threeBits (b : UInt8) (bit : Bool) :
    (Code.ofByte b - Code.ofInt8 (if bit then 0 else 4) : Int)
      = b.toNat - if bit then 0 else 4 := by
  cases bit <;> rfl

/-! ## What sub-blocks stand for -/

/-- The numbers that a run of codes stands for: what each of them adds at a scale of one. -/
def SubBlock.values (s : SubBlock Int ℚ) : List ℚ := s.codes.map fun q : Int => s.term 1 q 1

/-- A run adds its scale times the inner product, less its minimum times the sum. -/
structure SubBlock.Affine (width : Nat) (hasMin : Bool) (s : SubBlock Int ℚ) : Prop where
  length : s.codes.length = width
  term : ∃ a m : ℚ, (hasMin = false → m = 0) ∧
    ∀ x dot sum, s.term x dot sum = x * (a * dot - m * sum)

/-- The sub-blocks of a block, whose codes did not wrap, stand for what a decoder gives. -/
structure Unpacks (perBlock width : Nat) (hasMin : Bool) (wrapping : List (SubBlock Int8 ℚ))
    (exact : List (SubBlock Int ℚ)) (decoded : List ℚ) : Prop where
  count : exact.length = perBlock
  affine : ∀ s ∈ exact, s.Affine width hasMin
  values : exact.flatMap SubBlock.values = decoded
  noWrap : wrapping.map (SubBlock.map Int8.toInt) = exact

theorem ofInt_rat (n : Int) : (ofInt n : ℚ) = n := rfl

namespace Unpacks

variable {α : Type} {width : Nat} {hasMin : Bool}

theorem single {s : SubBlock Int8 ℚ} {s' : SubBlock Int ℚ} {v : List ℚ}
    (haffine : s'.Affine width hasMin) (hvalues : s'.values = v) (hmap : s.map Int8.toInt = s') :
    Unpacks 1 width hasMin [s] [s'] v where
  count := rfl
  affine t ht := List.mem_singleton.mp ht ▸ haffine
  values := by rw [List.flatMap_singleton, hvalues]
  noWrap := by rw [List.map_singleton, hmap]

theorem pair {s₁ s₂ : SubBlock Int8 ℚ} {t₁ t₂ : SubBlock Int ℚ} {v₁ v₂ : List ℚ}
    (h₁ : Unpacks 1 width hasMin [s₁] [t₁] v₁) (h₂ : Unpacks 1 width hasMin [s₂] [t₂] v₂) :
    Unpacks 2 width hasMin [s₁, s₂] [t₁, t₂] (v₁ ++ v₂) where
  count := rfl
  affine t ht := by
    rcases List.mem_cons.mp ht with rfl | ht
    · exact h₁.affine t List.mem_cons_self
    · exact h₂.affine t ht
  values := by rw [← h₁.values, ← h₂.values, ← List.flatMap_append, List.singleton_append]
  noWrap := congrArg₂ (· ++ ·) h₁.noWrap h₂.noWrap

/-- Runs of sub-blocks, one behind the other. -/
theorem flatMap (n perBlock : Nat) {f : Nat → List (SubBlock Int8 ℚ)}
    {g : Nat → List (SubBlock Int ℚ)} {v : Nat → List ℚ}
    (h : ∀ i, i < n → Unpacks perBlock width hasMin (f i) (g i) (v i)) :
    Unpacks (n * perBlock) width hasMin ((List.range n).flatMap f) ((List.range n).flatMap g)
      ((List.range n).flatMap v) where
  count := length_flatMap_range fun i hi => (h i hi).count
  affine s hs := by
    obtain ⟨i, hi, hs⟩ := List.mem_flatMap.mp hs
    exact (h i (List.mem_range.mp hi)).affine s hs
  values := by
    rw [List.flatMap_assoc]
    exact List.flatMap_congr fun i hi => (h i (List.mem_range.mp hi)).values
  noWrap := by
    rw [List.map_flatMap]
    exact List.flatMap_congr fun i hi => (h i (List.mem_range.mp hi)).noWrap

theorem map (n : Nat) {f : Nat → SubBlock Int8 ℚ} {g : Nat → SubBlock Int ℚ} {v : Nat → List ℚ}
    (h : ∀ i, i < n → Unpacks 1 width hasMin [f i] [g i] (v i)) :
    Unpacks n width hasMin ((List.range n).map f) ((List.range n).map g)
      ((List.range n).flatMap v) := by
  have hall := flatMap n 1 h
  rwa [Nat.mul_one, ← List.map_eq_flatMap, ← List.map_eq_flatMap] at hall

variable {l : List α} {f : α → Int8} {g : α → Int} {v : α → ℚ} {term : ℚ → ℚ → ℚ → ℚ}

/-- A run whose numbers are affine in the codes that it is unpacked to. -/
theorem ofAffine (a m : ℚ) (hm : hasMin = false → m = 0) (hlen : l.length = width)
    (hterm : ∀ x dot sum, term x dot sum = x * (a * dot - m * sum))
    (hv : ∀ e ∈ l, v e = a * ofInt (g e) - m) (hwrap : ∀ e ∈ l, (f e).toInt = g e) :
    Unpacks 1 width hasMin [{ codes := l.map f, term := term }]
      [{ codes := l.map g, term := term }] (l.map v) := by
  refine single ⟨by rw [List.length_map, hlen], a, m, hm, hterm⟩ ?_ ?_
  · rw [SubBlock.values, List.map_map]
    refine List.map_congr_left fun e he => ?_
    show term 1 (g e) 1 = v e
    rw [hv e he, hterm, one_mul, mul_one, ofInt_rat]
  · rw [SubBlock.map, List.map_map]
    exact congrArg (SubBlock.mk · term) (List.map_congr_left hwrap)

theorem ofMin (a m : ℚ) (hlen : l.length = width)
    (hterm : ∀ x dot sum, term x dot sum = x * (a * dot - m * sum))
    (hv : ∀ e ∈ l, v e = a * ofInt (g e) - m) (hwrap : ∀ e ∈ l, (f e).toInt = g e) :
    Unpacks 1 width true [{ codes := l.map f, term := term }]
      [{ codes := l.map g, term := term }] (l.map v) :=
  ofAffine a m (by simp) hlen hterm hv hwrap

/-- A type without minimums adds its scale times the inner product. -/
theorem ofScale (a : ℚ) (hlen : l.length = width)
    (hterm : ∀ x dot sum, term x dot sum = x * (a * dot)) (hv : ∀ e ∈ l, v e = a * ofInt (g e))
    (hwrap : ∀ e ∈ l, (f e).toInt = g e) :
    Unpacks 1 width false [{ codes := l.map f, term := term }]
      [{ codes := l.map g, term := term }] (l.map v) :=
  ofAffine a 0 (fun _ => rfl) hlen (fun x dot sum => by rw [hterm, zero_mul, sub_zero])
    (fun e he => by rw [hv e he, sub_zero]) hwrap

end Unpacks

section Types

variable {block : Bytes}

theorem q8_0_unpacks (h : block.length = 34) :
    Unpacks 1 32 false (q8_0SubBlocks block) (q8_0SubBlocks block) (q8_0Block block) := by
  have hqs : block.drop 2 = slice block 2 qk :=
    (List.take_of_length_le (by rw [List.length_drop, h, qk])).symm
  rw [q8_0Block, hqs]
  refine Unpacks.ofScale (f16ToF32 (halfWord block 0)) (length_slice (by rw [qk]; omega))
    (fun x dot sum => ?_) (fun _ _ => rfl) fun _ _ => rfl
  rw [mul_comm (f16ToF32 _) x, mul_assoc]

theorem q4_K_unpacks (h : block.length = 144) :
    Unpacks 8 32 true (q4_KSubBlocks block) (q4_KSubBlocks block) (q4_KBlock block) := by
  refine Unpacks.flatMap 4 2 fun group hgroup => ?_
  have hchunk : (slice (slice block 16 128) (group * 32) 32).length = 32 :=
    length_slice (by rw [length_slice (by omega)]; omega)
  refine .pair ?_ ?_
  · exact .ofMin _ _ hchunk (fun _ _ _ => rfl) (fun _ _ => rfl) fun q _ =>
      toInt_ofByte ((lowNibble_lt q).trans (by decide))
  · exact .ofMin _ _ hchunk (fun _ _ _ => rfl) (fun _ _ => rfl) fun q _ =>
      toInt_ofByte ((highNibble_lt q).trans (by decide))

theorem q5_K_unpacks :
    Unpacks 8 32 true (q5_KSubBlocks block) (q5_KSubBlocks block) (q5_KBlock block) := by
  refine Unpacks.flatMap 4 2 fun group _ => .pair ?_ ?_
  · refine .ofMin _ _ List.length_range (fun _ _ _ => rfl) (fun l _ => ?_) fun l _ =>
      toInt_ofByte ((fiveBits_lt (lowNibble_lt _) _).trans (by decide))
    rw [ofByte_fiveBits (lowNibble_lt _)]
  · refine .ofMin _ _ List.length_range (fun _ _ _ => rfl) (fun l _ => ?_) fun l _ =>
      toInt_ofByte ((fiveBits_lt (highNibble_lt _) _).trans (by decide))
    rw [ofByte_fiveBits (highNibble_lt _)]

theorem map_slice {bs : Bytes} {start len : Nat} {α : Type} (f : UInt8 → α)
    (h : start + len ≤ bs.length) :
    (slice bs start len).map f = (List.range len).map fun l => f (nth bs (l + start)) := by
  refine List.ext_getElem (by rw [List.length_map, length_slice h, List.length_map,
    List.length_range]) fun l hl _ => ?_
  rw [List.length_map, length_slice h] at hl
  rw [List.getElem_map, List.getElem_map, List.getElem_range, nth, Nat.add_comm l,
    List.getD_eq_getElem _ _ (by omega)]
  simp only [slice, List.getElem_take, List.getElem_drop]

theorem nth_slice {bs : Bytes} {start len i : Nat} (h : i < len) :
    nth (slice bs start len) i = nth bs (start + i) := by
  rw [nth, nth, slice, List.getD_eq_getElem?_getD, List.getD_eq_getElem?_getD,
    List.getElem?_take_of_lt h, List.getElem?_drop]

theorem q2_K_unpacks (h : block.length = 84) :
    Unpacks 16 16 true (q2_KSubBlocks block) (q2_KSubBlocks block) (q2_KBlock block) := by
  refine Unpacks.flatMap 2 8 fun half hhalf => ?_
  have hq : (slice (slice block 16 64) (half * 32) 32).length = 32 :=
    length_slice (by rw [length_slice (by omega)]; omega)
  refine Unpacks.flatMap 4 2 fun j _ => Unpacks.map 2 fun run hrun => ?_
  rw [map_slice _ (by rw [hq]; omega)]
  exact .ofMin _ _ List.length_range (fun _ _ _ => rfl) (fun _ _ => rfl) fun l _ =>
    toInt_ofByte ((twoBits_lt _ _).trans (by decide))

theorem q3_K_unpacks :
    Unpacks 16 16 false (q3_KSubBlocks block) (q3_KSubBlocks block) (q3_KBlock block) := by
  refine Unpacks.flatMap 2 8 fun half _ => ?_
  refine Unpacks.flatMap 4 2 fun j _ => Unpacks.map 2 fun run _ => ?_
  refine .ofScale _ List.length_range (fun x dot _ => mul_assoc x _ dot) (fun l _ => ?_)
    fun l _ => toInt_centred ((twoBits_lt _ _).trans (by decide)) (by split <;> decide)
  rw [Nat.add_comm l]
  exact congrArg (_ * ofInt ·) (ofByte_threeBits _ _).symm

theorem length_q6_KCodes (I : Type) [Code I] : (q6_KCodes block : List I).length = 2 * 128 :=
  length_flatMap_range fun half _ => by
    simp only [List.length_append, List.length_map, List.length_range]

/-- The scale of an entry of a half. -/
theorem q6_K_scale {half i : Nat} (hhalf : half < 2) (hi : i < 128) :
    nth (slice block 192 16) ((half * 128 + i) / 16)
      = nth (slice block (192 + half * 8) 8) (i / 16) := by
  rw [nth_slice (by omega), nth_slice (by omega)]
  congr 1
  omega

/-- The decoder's halves, walked in the kernel's runs of 16. -/
theorem q6_KBlock_eq :
    (q6_KBlock block : List ℚ) = (List.range 16).flatMap fun r =>
      (rowOf 16 r (q6_KCodes block)).map fun q : Int =>
        f16ToF32 (halfWord block 208) * ofInt (nth (slice block 192 16) r).toInt8.toInt
          * ofInt q := by
  have hlen : (q6_KCodes block : List Int).length = 16 * 16 := length_q6_KCodes Int
  rw [flatMap_map_rowOf hlen, q6_KCodes, mapIdx_flatMap_range (w := 128) (fun half _ => by
    simp only [List.length_append, List.length_map, List.length_range])]
  refine List.flatMap_congr fun half hhalf => ?_
  -- one entry of run `k`
  have hvalue : ∀ (k : Nat) (b : UInt8) (l : Nat), k < 4 → l ∈ List.range 32 →
      f16ToF32 (halfWord block 208)
          * ofInt (nth (slice block (192 + half * 8) 8) (l / 16 + 2 * k)).toInt8.toInt
          * ofInt ((b.toNat : Int) - 32)
        = f16ToF32 (halfWord block 208)
          * ofInt (nth (slice block 192 16) ((half * 128 + (l + 32 * k)) / 16)).toInt8.toInt
          * (ofInt (Code.ofByte b - Code.ofInt8 32) : ℚ) := fun k b l hk hl => by
    have hl' := List.mem_range.mp hl
    rw [q6_K_scale (List.mem_range.mp hhalf) (by omega),
      show (l + 32 * k) / 16 = l / 16 + 2 * k by omega]
    rfl
  simp only [List.mapIdx_append, mapIdx_map_range, List.length_append, List.length_map,
    List.length_range]
  refine congrArg₂ (· ++ ·) (congrArg₂ (· ++ ·) (congrArg₂ (· ++ ·) ?_ ?_) ?_) ?_
  · exact List.map_congr_left fun l hl => hvalue 0 _ l (by decide) hl
  · exact List.map_congr_left fun l hl => hvalue 1 _ l (by decide) hl
  · exact List.map_congr_left fun l hl => hvalue 2 _ l (by decide) hl
  · exact List.map_congr_left fun l hl => hvalue 3 _ l (by decide) hl

theorem q6_KCodes_noWrap : (q6_KCodes block : List Int8).map Int8.toInt = q6_KCodes block := by
  have hlow (q high shift : UInt8) := toInt_centred (n := 32)
    ((sixBits_lt (lowNibble_lt q) (twoBits_lt high shift)).trans (by decide)) (by decide)
  have hhigh (q high shift : UInt8) := toInt_centred (n := 32)
    ((sixBits_lt (highNibble_lt q) (twoBits_lt high shift)).trans (by decide)) (by decide)
  rw [q6_KCodes, q6_KCodes, List.map_flatMap]
  refine List.flatMap_congr fun half _ => ?_
  simp only [List.map_append, List.map_map, Function.comp_def, hlow, hhigh]

theorem q6_K_unpacks :
    Unpacks 16 16 false (q6_KSubBlocks block) (q6_KSubBlocks block) (q6_KBlock block) := by
  rw [q6_KBlock_eq, q6_KSubBlocks, q6_KSubBlocks]
  refine Unpacks.map 16 fun r hr => ?_
  have hlen : (rowOf 16 r (q6_KCodes block : List Int)).length = 16 :=
    length_rowOf (by rw [length_q6_KCodes]; omega)
  have hcodes : (rowOf 16 r (q6_KCodes block : List Int8)).map Int8.toInt
      = rowOf 16 r (q6_KCodes block) := by
    rw [← q6_KCodes_noWrap, rowOf, rowOf, List.map_take, List.map_drop]
  refine .single ⟨hlen,
    f16ToF32 (halfWord block 208) * ofInt (nth (slice block 192 16) r).toInt8.toInt, 0,
    fun _ => rfl, fun x dot sum => ?_⟩ (List.map_congr_left fun q _ => ?_)
    (congrArg (SubBlock.mk · _) hcodes)
  · rw [zero_mul, sub_zero, ← mul_assoc, ← mul_assoc]
  · show 1 * f16ToF32 (halfWord block 208)
      * ofInt (nth (slice block 192 16) r).toInt8.toInt * (q : ℚ) = _
    rw [one_mul, ofInt_rat q]

end Types

/-! ## Whole rows -/

theorem entryAt_eq {α : Type} {s : List α} {i : Nat} (z : α) (h : i < s.length) :
    entryAt s i = .ok (s.getD i z) := by
  rw [entryAt, List.getElem?_eq_getElem h, List.getD_eq_getElem _ _ h]

/-- The number that code `i` of an activation stands for. -/
def activationAt (xq : List Int8) (xs : List ℚ) (i : Nat) : ℚ :=
  ((xq.getD i 0).toInt : ℚ) * xs.getD (i / qk) 0

/-- What a kernel is given besides its row. -/
structure Operands (width : Nat) (hasMin : Bool) (xq : List Int8) (xs : List ℚ)
    (sums : Option (List Int)) : Prop where
  dvd : width ∣ qk
  whole : qk ∣ xq.length
  scales : xs.length = xq.length / qk
  sums : sums = if hasMin then some (blockSums width xq) else none

section Rows

variable {xq : List Int8} {xs : List ℚ} {sums : Option (List Int)} {width : Nat} {hasMin : Bool}

theorem Operands.width_pos (ho : Operands width hasMin xq xs sums) : 0 < width :=
  Nat.pos_of_dvd_of_pos ho.dvd (by decide)

/-- The codes of a sub-block share one scale of the activation. -/
theorem Operands.scale_eq (ho : Operands width hasMin xq xs sums) {j : Nat} (sb : Nat)
    (hj : j < width) : (sb * width + j) / qk = sb * width / qk := by
  obtain ⟨p, hp⟩ := ho.dvd
  rw [hp, ← Nat.div_div_eq_div_mul, ← Nat.div_div_eq_div_mul, Nat.mul_div_cancel _ ho.width_pos,
    Nat.mul_comm, Nat.mul_add_div ho.width_pos, Nat.div_eq_of_lt hj, Nat.add_zero]

theorem Operands.entryAt_scale (ho : Operands width hasMin xq xs sums) {sb : Nat}
    (h : (sb + 1) * width ≤ xq.length) :
    entryAt xs (sb * width / qk) = .ok (xs.getD (sb * width / qk) 0) := by
  obtain ⟨k, hk⟩ := ho.whole
  have hw := ho.width_pos
  have hsucc := Nat.add_one_mul sb width
  refine entryAt_eq 0 ?_
  rw [ho.scales, hk, Nat.mul_div_cancel_left k (by decide)]
  exact Nat.div_lt_of_lt_mul (by omega)

/-- The numbers of a sub-block's window are its codes at that scale. -/
theorem Operands.activationAt_eq (ho : Operands width hasMin xq xs sums) {sb j : Nat}
    (h : (sb + 1) * width ≤ xq.length) (hj : j < ((rowOf width sb xq).map Int8.toInt).length) :
    activationAt xq xs (sb * width + j)
      = (((rowOf width sb xq).map Int8.toInt).getD j 0 : ℚ) * xs.getD (sb * width / qk) 0 := by
  rw [List.length_map, length_rowOf h] at hj
  rw [activationAt, ho.scale_eq sb hj]
  congr 2
  rw [List.getD_eq_getElem?_getD, List.getD_eq_getElem?_getD, List.getElem?_map,
    getElem?_rowOf _ hj]
  cases xq[sb * width + j]? <;> rfl

/-- The sum is there where a minimum is multiplied with it. -/
theorem Operands.sumAt_eq (ho : Operands width hasMin xq xs sums) {sb : Nat}
    (h : (sb + 1) * width ≤ xq.length) {m : ℚ} (hm : hasMin = false → m = 0) :
    ∃ sum : Int, sumAt sums sb = .ok sum ∧
      m * (sum : ℚ) = m * (((rowOf width sb xq).map Int8.toInt).sum : Int) := by
  cases hasMin with
  | false =>
    obtain rfl : sums = none := ho.sums
    exact ⟨0, rfl, by rw [hm rfl, zero_mul, zero_mul]⟩
  | true =>
    obtain rfl : sums = some (blockSums width xq) := ho.sums
    have hsb : sb < xq.length / width := (Nat.le_div_iff_mul_le ho.width_pos).mpr h
    refine ⟨_, ?_, rfl⟩
    rw [sumAt, entryAt, blockSums, rowsOf, List.getElem?_map, List.getElem?_map,
      List.getElem?_range hsb]
    rfl

/-- **What one sub-block adds is its numbers dotted with those of the activation.** -/
theorem subBlockStep_eq (ho : Operands width hasMin xq xs sums) {s : SubBlock Int8 ℚ}
    (hs : (s.map Int8.toInt).Affine width hasMin) {sb : Nat} (h : (sb + 1) * width ≤ xq.length)
    (acc : ℚ) :
    subBlockStep width xq xs sums acc (s, sb)
      = .ok (acc + weighted (activationAt xq xs) (sb * width) (s.map Int8.toInt).values) := by
  obtain ⟨a, m, hm, hterm⟩ := hs.term
  obtain ⟨sum, hsum, hmin⟩ := ho.sumAt_eq h hm
  have hcodes : (s.codes.map Int8.toInt).length = ((rowOf width sb xq).map Int8.toInt).length := by
    rw [List.length_map, List.length_map, length_rowOf h, ← hs.length, SubBlock.map,
      List.length_map]
  have hvalues : (s.map Int8.toInt).values
      = (s.codes.map Int8.toInt).map fun q : Int => a * (q : ℚ) - m :=
    List.map_congr_left fun q _ => by rw [hterm, one_mul, mul_one]
  have hwindow := weighted_affine a m (sb * width) hcodes fun j hj => ho.activationAt_eq h hj
  have hadded := hterm (xs.getD (sb * width / qk) 0) (Simd.dotI8 s.codes (rowOf width sb xq)) sum
  rw [subBlockStep, rowAt, if_pos h, Checked.ok_bind, ho.entryAt_scale h, Checked.ok_bind, hsum,
    Checked.ok_bind, hvalues, hwindow, ← hmin, ← Simd.dotI8_eq]
  exact congrArg (fun t => Checked.ok (acc + t)) hadded

namespace Unpacks

variable {perBlock : Nat} {wrapping : List (SubBlock Int8 ℚ)} {exact : List (SubBlock Int ℚ)}
  {decoded : List ℚ}

theorem affine_map (h : Unpacks perBlock width hasMin wrapping exact decoded) {s : SubBlock Int8 ℚ}
    (hs : s ∈ wrapping) : (s.map Int8.toInt).Affine width hasMin :=
  h.affine _ (h.noWrap ▸ List.mem_map_of_mem hs)

theorem length_wrapping (h : Unpacks perBlock width hasMin wrapping exact decoded) :
    wrapping.length = perBlock := by
  rw [← h.count, ← h.noWrap, List.length_map]

theorem length_decoded (h : Unpacks perBlock width hasMin wrapping exact decoded) :
    decoded.length = perBlock * width := by
  rw [← h.values, length_flatMap_const fun s hs => by
    rw [SubBlock.values, List.length_map, (h.affine s hs).length], h.count]

theorem flatMap_values (h : Unpacks perBlock width hasMin wrapping exact decoded) :
    (wrapping.flatMap fun s => (s.map Int8.toInt).values) = decoded := by
  rw [← h.values, ← h.noWrap, List.flatMap_map]

end Unpacks

/-- **A kernel whose blocks unpack weighs the activation with what the blocks stand for.** The
windows are the blocks, and within a block its sub-blocks. -/
theorem rowKernel_eq {bytes perBlock : Nat} {subBlocks : Bytes → List (SubBlock Int8 ℚ)}
    {exact : Bytes → List (SubBlock Int ℚ)} {decoder : Bytes → List ℚ} {row : Bytes}
    (ho : Operands width hasMin xq xs sums)
    (hblocks : ∀ block, block.length = bytes →
      Unpacks perBlock width hasMin (subBlocks block) (exact block) (decoder block))
    (hlen : xq.length = row.length / bytes * (perBlock * width)) :
    rowKernel bytes perBlock width subBlocks row xq xs sums
      = .ok (weighted (activationAt xq xs) 0 ((chunksExact bytes row).flatMap decoder)) := by
  have hunpacks (block : Bytes) (hblock : block ∈ chunksExact bytes row) :=
    hblocks block (length_of_mem_chunksExact hblock)
  have hblock : ∀ acc block bi, block ∈ chunksExact bytes row →
      bi < 0 + (chunksExact bytes row).length →
      ((subBlocks block).zipIdx (bi * perBlock)).foldlM (subBlockStep width xq xs sums) acc
        = .ok (acc + weighted (activationAt xq xs) (bi * (perBlock * width)) (decoder block)) := by
    intro acc block bi hmem hbi
    have hu := hunpacks block hmem
    rw [length_chunksExact, Nat.zero_add] at hbi
    have hstep : ∀ acc s sb, s ∈ subBlocks block → sb < bi * perBlock + (subBlocks block).length →
        subBlockStep width xq xs sums acc (s, sb) = .ok (acc
          + weighted (activationAt xq xs) (sb * width) (s.map Int8.toInt).values) := by
      intro acc s sb hs hsb
      refine subBlockStep_eq ho (hu.affine_map hs) ?_ acc
      rw [hu.length_wrapping, ← Nat.add_one_mul] at hsb
      calc (sb + 1) * width ≤ (bi + 1) * perBlock * width := Nat.mul_le_mul_right width hsb
        _ ≤ row.length / bytes * perBlock * width :=
          Nat.mul_le_mul_right width (Nat.mul_le_mul_right perBlock hbi)
        _ = xq.length := by rw [hlen, Nat.mul_assoc]
    rw [foldlM_windows _ (fun s hs => by
      rw [SubBlock.values, List.length_map, (hu.affine_map hs).length]) hstep, Nat.mul_assoc,
      hu.flatMap_values]
  rw [rowKernel, foldlM_windows 0 (fun block hmem => (hunpacks block hmem).length_decoded) hblock,
    Nat.zero_mul, ofInt_rat, Int.cast_zero, zero_add]

end Rows

/-! ## Every kernel -/

/-- A type with an integer kernel has one of the common shape, and its blocks unpack. -/
theorem int8_kernel {qtype : UInt32} {elems bytes : Nat} (hk : hasInt8Kernel qtype = true)
    (hl : blockLayout qtype = some (elems, bytes)) :
    ∃ (perBlock width : Nat) (hasMin : Bool), elems = perBlock * width ∧ width ∣ qk ∧
      sumWidth qtype = (if hasMin then some width else none) ∧
      (∀ block, block.length = bytes → Unpacks perBlock width hasMin (subBlocks qtype block)
        (subBlocks qtype block) (blockDecoder qtype block)) ∧
      ∀ (row : Bytes) (xq : List Int8) (xs : List ℚ) (sums : List Int),
        int8Dot qtype row xq xs (if hasMin then some sums else none)
          = rowKernel bytes perBlock width (subBlocks qtype) row xq xs
            (if hasMin then some sums else none) := by
  rcases of_decide_eq_true hk with rfl | rfl | rfl | rfl | rfl | rfl <;> cases hl
  · exact ⟨1, 32, false, rfl, by decide, rfl, fun _ h => q8_0_unpacks h, fun _ _ _ _ => rfl⟩
  · exact ⟨16, 16, true, rfl, by decide, rfl, fun _ h => q2_K_unpacks h, fun _ _ _ _ => rfl⟩
  · exact ⟨16, 16, false, rfl, by decide, rfl, fun _ _ => q3_K_unpacks, fun _ _ _ _ => rfl⟩
  · exact ⟨8, 32, true, rfl, by decide, rfl, fun _ h => q4_K_unpacks h, fun _ _ _ _ => rfl⟩
  · exact ⟨8, 32, true, rfl, by decide, rfl, fun _ _ => q5_K_unpacks, fun _ _ _ _ => rfl⟩
  · exact ⟨16, 16, false, rfl, by decide, rfl, fun _ _ => q6_K_unpacks, fun _ _ _ _ => rfl⟩

section Every

variable {qtype : UInt32} {cols rb : Nat} {row : Bytes} {xq : List Int8} {xs : List ℚ}

theorem int8Dot_decoded (hk : hasInt8Kernel qtype = true) (hrb : dataBytes qtype cols = some rb)
    (hrow : row.length = rb) (hxq : xq.length = cols) (hxs : xs.length = cols / qk) :
    int8Dot qtype row xq xs ((sumWidth qtype).map fun w => blockSums w xq)
      = .ok (∑ i ∈ Finset.range cols, (decoded qtype row).getD i 0 * activationAt xq xs i) := by
  obtain ⟨elems, bytes, hl, hcols, hbytes⟩ := dataBytes_eq_some.mp hrb
  obtain ⟨perBlock, width, hasMin, hshape, hdvd, hsum, hunpacks, hkernel⟩ := int8_kernel hk hl
  have hsums : ((sumWidth qtype).map fun w => blockSums w xq)
      = if hasMin then some (blockSums width xq) else none := by
    rw [hsum]
    cases hasMin <;> rfl
  have hblocks : row.length / bytes = cols / elems := by
    rw [hrow, ← hbytes, Nat.mul_div_cancel _ (blockLayout_pos hl).2]
  have hwhole : xq.length = row.length / bytes * (perBlock * width) := by
    rw [hblocks, ← hshape, hxq, Nat.div_mul_cancel (Nat.dvd_of_mod_eq_zero hcols)]
  have ho : Operands width hasMin xq xs (if hasMin then some (blockSums width xq) else none) :=
    ⟨hdvd, hxq ▸ (int8_widths hk hrb).1, hxq ▸ hxs, rfl⟩
  have hdecoded : (chunksExact bytes row).flatMap (blockDecoder qtype)
      = (decoded qtype row : List ℚ) := by
    rw [decoded, hl]
  have hlen : (decoded qtype row : List ℚ).length = cols := length_decoded (by rw [hrow, hrb])
  rw [hsums, hkernel, rowKernel_eq ho hunpacks hwhole, hdecoded, weighted_eq_sum, hlen]
  simp only [Nat.zero_add]

/--
**Every integer kernel is decoding and then dotting.**

Whatever the bytes of the row are, the result is the sum of its numbers times those of the
activation, and no conversion of a code to `i8` wraps.
-/
theorem int8Dot_eq (hk : hasInt8Kernel qtype = true) (hrb : dataBytes qtype cols = some rb)
    (hrow : row.length = rb) (hxq : xq.length = cols) (hxs : xs.length = cols / qk) :
    int8Dot qtype row xq xs ((sumWidth qtype).map fun w => blockSums w xq)
        = .ok (∑ i ∈ Finset.range cols,
          (decoded qtype row).getD i 0 * ((xq.getD i 0).toInt : ℚ) * xs.getD (i / qk) 0) ∧
      ∀ elems bytes, blockLayout qtype = some (elems, bytes) → ∀ block ∈ chunksExact bytes row,
        (subBlocks qtype block : List (SubBlock Int8 ℚ)).map (SubBlock.map Int8.toInt)
          = subBlocks qtype block := by
  constructor
  · rw [int8Dot_decoded hk hrb hrow hxq hxs]
    congr 1
    exact Finset.sum_congr rfl fun i _ => (mul_assoc _ _ _).symm
  · intro elems bytes hl block hblock
    obtain ⟨perBlock, width, hasMin, -, -, -, hunpacks, -⟩ := int8_kernel hk hl
    exact (hunpacks block (length_of_mem_chunksExact hblock)).noWrap

/-- One block of `Q4_K`, every byte of it 60. -/
theorem int8Dot_eq_q4_K :
    (int8Dot q4_K (List.replicate 144 60) (List.replicate 256 (-3)) (List.replicate 8 (1 / 2))
        ((sumWidth q4_K).map fun w => blockSums w (List.replicate 256 (-3))) :
      Checked GarudaError ℚ)
      = .ok (∑ i ∈ Finset.range 256, (decoded q4_K (List.replicate 144 60)).getD i 0
        * (((List.replicate 256 (-3 : Int8)).getD i 0).toInt : ℚ)
        * (List.replicate 8 (1 / 2)).getD (i / qk) 0) :=
  (int8Dot_eq (by decide) (by decide : dataBytes q4_K 256 = some 144) List.length_replicate
    List.length_replicate List.length_replicate).1

end Every

/-! ## Products -/

/-- The inner products, of which only that of numbers is left open. -/
def rowDots {K : Type} [Floats K] (dot : List K → List K → K) : RowDots K where
  dot := dot
  int8Dot qtype row xq xs sums :=
    match int8Dot qtype row xq xs sums with
    | .ok v => v
    -- no row of whole blocks comes to this
    | _ => ofInt 0

/-- What a product writes for a packed row is the row's numbers dotted with those that the vector's
codes stand for. -/
theorem rowDot_rowDots {dot : List ℚ → List ℚ → ℚ} {qtype : UInt32} {rb : Nat} {row : Bytes}
    {x : List ℚ} (hk : hasInt8Kernel qtype = true) (hrb : dataBytes qtype x.length = some rb)
    (hrow : row.length = rb) :
    rowDot (rowDots dot) qtype row x
      = ∑ i ∈ Finset.range x.length, (decoded qtype row).getD i 0
        * activationAt (quantizeActivation x).1 (quantizeActivation x).2 i := by
  have hlen := length_quantizeActivation x
  rw [rowDot, if_pos hk]
  simp only [rowDots, int8Dot_decoded hk hrb hrow hlen.1 hlen.2]

end Quant

end Garuda
