import Garuda.Quant.Matmul
import Mathlib.Tactic.Linarith
import Mathlib.Tactic.FieldSimp

/-!
# How close quantised activations are

In exact arithmetic, a code times its block's scale is the number it stands for, to half a scale.

* `roundAway` is rounding with halves away from zero, and `roundI8_toInt` says that neither the
  clamp nor the narrowing of `roundI8` changes it in range.
* `quantizeBlock_close` is the bound for one block, whatever its largest number is.
* `quantizeActivations_whole` says that a batch is quantised as if it were one vector.
* `sumI32` adds codes up as 32-bit integers.

`quantizeActivation_close` puts them together.
-/

namespace Garuda.Quant

open Infra Floats

/-! ## Rounding -/

/-- `round`: to the nearest, halves away from zero. -/
def roundAway (q : ℚ) : Int := if q < 0 then -⌊-q + 1 / 2⌋ else ⌊q + 1 / 2⌋

theorem roundAway_close (q : ℚ) : |q - roundAway q| ≤ 1 / 2 := by
  rw [roundAway]
  split
  · have hlo := Int.floor_le (-q + 1 / 2)
    have hhi := Int.lt_floor_add_one (-q + 1 / 2)
    push_cast
    exact abs_le.mpr ⟨by linarith, by linarith⟩
  · have hlo := Int.floor_le (q + 1 / 2)
    have hhi := Int.lt_floor_add_one (q + 1 / 2)
    exact abs_le.mpr ⟨by linarith, by linarith⟩

theorem abs_roundAway_le {q : ℚ} {n : Int} (h : |q| ≤ n) : |roundAway q| ≤ n := by
  have hclose := abs_le.mp (roundAway_close q)
  have hq := abs_le.mp h
  have hlo : (-n - 1 : ℚ) < roundAway q := by linarith [hclose.2, hq.1]
  have hhi : (roundAway q : ℚ) < n + 1 := by linarith [hclose.1, hq.2]
  have hlo' : -n - 1 < roundAway q := by exact_mod_cast hlo
  have hhi' : roundAway q < n + 1 := by exact_mod_cast hhi
  exact abs_le.mpr ⟨by omega, by omega⟩

/-- A code is at most 127 either way. -/
theorem abs_roundI8_le (q : ℚ) : |(Rounds.roundI8 q).toInt| ≤ 127 := by
  have hround : Rounds.roundI8 q = Int8.ofInt (max (-127) (min 127 (roundAway q))) := rfl
  have hclamp : -127 ≤ max (-127) (min 127 (roundAway q)) ∧
      max (-127) (min 127 (roundAway q)) ≤ 127 := by omega
  rw [hround, Int8.toInt_ofInt, Int.bmod_eq_of_le (by rw [Int8.size]; omega)
    (by rw [Int8.size]; omega)]
  exact abs_le.mpr hclamp

/-- In range, neither the clamp nor the narrowing does anything. -/
theorem roundI8_toInt {q : ℚ} (h : |q| ≤ 127) : (Rounds.roundI8 q).toInt = roundAway q := by
  have hround : Rounds.roundI8 q = Int8.ofInt (max (-127) (min 127 (roundAway q))) := rfl
  have hrange := abs_le.mp (abs_roundAway_le (n := 127) (by exact_mod_cast h))
  have hclamp : max (-127) (min 127 (roundAway q)) = roundAway q := by omega
  rw [hround, hclamp, Int8.toInt_ofInt, Int.bmod_eq_of_le (by rw [Int8.size]; omega)
    (by rw [Int8.size]; omega)]

/-! ## One block -/

/-- The largest of a block is no less than any of it. -/
theorem le_foldl_max {blk : List ℚ} {m : ℚ} :
    m ≤ blk.foldl (fun m v => Rounds.max m (Rounds.abs v)) m ∧
      ∀ v ∈ blk, |v| ≤ blk.foldl (fun m v => Rounds.max m (Rounds.abs v)) m := by
  induction blk generalizing m with
  | nil => exact ⟨le_rfl, fun v hv => by cases hv⟩
  | cons v blk ih =>
    have hmax : max m |v| ≤ blk.foldl (fun m v => Rounds.max m (Rounds.abs v)) (max m |v|) := ih.1
    refine ⟨(le_max_left m |v|).trans hmax, fun u hu => ?_⟩
    rcases List.mem_cons.mp hu with rfl | hu
    · exact (le_max_right m |u|).trans hmax
    · exact ih.2 u hu

theorem scale_nonneg (blk : List ℚ) : 0 ≤ (quantizeBlock blk).2 := by
  have hmax : (0 : ℚ) ≤ blk.foldl (fun m v => Rounds.max m (Rounds.abs v)) 0 := le_foldl_max.1
  exact div_nonneg hmax (by norm_num : (0 : ℚ) ≤ ((127 : Int) : ℚ))

theorem abs_le_scale {blk : List ℚ} {v : ℚ} (hv : v ∈ blk) : |v| ≤ 127 * (quantizeBlock blk).2 := by
  have hmax : |v| ≤ blk.foldl (fun m v => Rounds.max m (Rounds.abs v)) 0 := le_foldl_max.2 v hv
  have hscale : (quantizeBlock blk).2
      = blk.foldl (fun m v => Rounds.max m (Rounds.abs v)) 0 / ((127 : Int) : ℚ) := rfl
  rw [hscale]
  push_cast
  linarith

theorem code_of_pos {blk : List ℚ} {j : Nat} (hj : j < blk.length)
    (hpos : 0 < (quantizeBlock blk).2) :
    (quantizeBlock blk).1.getD j 0
      = Rounds.roundI8 (blk.getD j 0 / (quantizeBlock blk).2) := by
  have hisPos : Rounds.isPos (quantizeBlock blk).2 = true := decide_eq_true hpos
  have hinv : (if Rounds.isPos (quantizeBlock blk).2 then ((1 : Int) : ℚ) / (quantizeBlock blk).2
      else ((0 : Int) : ℚ)) = 1 / (quantizeBlock blk).2 := by
    rw [if_pos hisPos, Int.cast_one]
  have hcodes : (quantizeBlock blk).1 = blk.map fun v => Rounds.roundI8 (v *
      if Rounds.isPos (quantizeBlock blk).2 then ((1 : Int) : ℚ) / (quantizeBlock blk).2
      else ((0 : Int) : ℚ)) := rfl
  rw [hcodes, hinv, List.getD_eq_getElem _ _ (by rwa [List.length_map]), List.getElem_map,
    List.getD_eq_getElem _ _ hj, mul_one_div]

/-- **A block's numbers are its codes times its scale, to half a scale.** -/
theorem quantizeBlock_close {blk : List ℚ} {j : Nat} (hj : j < blk.length) :
    |blk.getD j 0 - ((quantizeBlock blk).1.getD j 0).toInt * (quantizeBlock blk).2|
      ≤ (quantizeBlock blk).2 / 2 := by
  have hmem : blk.getD j 0 ∈ blk := by
    rw [List.getD_eq_getElem _ _ hj]
    exact List.getElem_mem hj
  have hle := abs_le_scale hmem
  rcases (scale_nonneg blk).eq_or_lt with hzero | hpos
  · -- a block of zeros has a scale of zero
    rw [← hzero, mul_zero] at hle
    rw [← hzero, abs_nonpos_iff.mp hle]
    norm_num
  · have hrange : |blk.getD j 0 / (quantizeBlock blk).2| ≤ 127 := by
      rw [abs_div, abs_of_pos hpos, div_le_iff₀ hpos]
      exact hle
    have hclose := roundAway_close (blk.getD j 0 / (quantizeBlock blk).2)
    rw [code_of_pos hj hpos, roundI8_toInt hrange]
    calc |blk.getD j 0 - roundAway (blk.getD j 0 / (quantizeBlock blk).2) * (quantizeBlock blk).2|
        = |blk.getD j 0 / (quantizeBlock blk).2
            - roundAway (blk.getD j 0 / (quantizeBlock blk).2)| * (quantizeBlock blk).2 := by
          rw [← abs_of_pos hpos, ← abs_mul, abs_of_pos hpos, sub_mul, div_mul_cancel₀ _ hpos.ne']
      _ ≤ 1 / 2 * (quantizeBlock blk).2 := mul_le_mul_of_nonneg_right hclose hpos.le
      _ = (quantizeBlock blk).2 / 2 := by ring

/-! ## Whole vectors -/

section Vectors

variable {x : List ℚ}

theorem length_codesAt (h : qk ∣ x.length) {b : Nat} (hb : b < x.length / qk) :
    (quantizeBlock (rowOf qk b x)).1.length = qk := by
  have hle : (b + 1) * qk ≤ x.length := (row_le hb).trans_eq (Nat.div_mul_cancel h)
  rw [quantizeBlock, List.length_map, length_rowOf hle]

/-- Nothing is behind the last whole block. -/
theorem quantizeActivation_rows (h : qk ∣ x.length) :
    quantizeActivation x
      = ((rowsOf qk x).flatMap fun blk => (quantizeBlock blk).1,
        (rowsOf qk x).map fun blk => (quantizeBlock blk).2) := by
  have hlen : ((rowsOf qk x).flatMap fun blk => (quantizeBlock blk).1).length = x.length := by
    rw [rowsOf, List.flatMap_map, length_flatMap_range fun b hb => length_codesAt h hb,
      Nat.div_mul_cancel h]
  rw [quantizeActivation, List.flatMap_map, List.map_map, hlen, Nat.sub_self,
    List.replicate_zero, List.append_nil]
  rfl

theorem quantizeActivation_eq (h : qk ∣ x.length) :
    quantizeActivation x
      = ((List.range (x.length / qk)).flatMap fun b => (quantizeBlock (rowOf qk b x)).1,
        (List.range (x.length / qk)).map fun b => (quantizeBlock (rowOf qk b x)).2) := by
  rw [quantizeActivation_rows h, rowsOf, List.flatMap_map, List.map_map]
  rfl

/-- **Every number of a vector is its code times its block's scale, to half a scale.** -/
theorem code_close (h : qk ∣ x.length) {j : Nat} (hj : j < x.length) :
    |x.getD j 0 - ((quantizeActivation x).1.getD j 0).toInt
        * (quantizeActivation x).2.getD (j / qk) 0|
      ≤ (quantizeActivation x).2.getD (j / qk) 0 / 2 := by
  have hb : j / qk < x.length / qk := Nat.div_lt_div_of_lt_of_dvd h hj
  have hi : j % qk < qk := Nat.mod_lt j (by decide)
  have hsplit : j / qk * qk + j % qk = j := Nat.div_add_mod' j qk
  have hrow : (j / qk + 1) * qk ≤ x.length := (row_le hb).trans_eq (Nat.div_mul_cancel h)
  have hcode : ((List.range (x.length / qk)).flatMap fun b =>
      (quantizeBlock (rowOf qk b x)).1).getD j 0
      = (quantizeBlock (rowOf qk (j / qk) x)).1.getD (j % qk) 0 := by
    rw [← rowOf_flatMap (fun b hb => length_codesAt h hb) hb, List.getD_eq_getElem?_getD,
      List.getD_eq_getElem?_getD, getElem?_rowOf _ hi, hsplit]
  have hnumber : x.getD j 0 = (rowOf qk (j / qk) x).getD (j % qk) 0 := by
    rw [List.getD_eq_getElem?_getD, List.getD_eq_getElem?_getD, getElem?_rowOf _ hi, hsplit]
  have hscale : ((List.range (x.length / qk)).map fun b =>
      (quantizeBlock (rowOf qk b x)).2).getD (j / qk) 0
      = (quantizeBlock (rowOf qk (j / qk) x)).2 := by
    rw [List.getD_eq_getElem?_getD, List.getElem?_map, List.getElem?_range hb]
    rfl
  rw [quantizeActivation_eq h]
  dsimp only
  rw [hcode, hnumber, hscale]
  exact quantizeBlock_close (by rwa [length_rowOf hrow])

theorem abs_code_le {q : Int8} (h : qk ∣ x.length) (hq : q ∈ (quantizeActivation x).1) :
    |q.toInt| ≤ 127 := by
  rw [quantizeActivation_eq h] at hq
  obtain ⟨b, -, hq⟩ := List.mem_flatMap.mp hq
  obtain ⟨v, -, rfl⟩ := List.mem_map.mp hq
  exact abs_roundI8_le _

/-- **A batch is quantised as if it were one vector.** -/
theorem quantizeActivations_whole {n cols : Nat} (hx : x.length = n * cols) (hcols : qk ∣ cols) :
    quantizeActivations x n cols = .ok (quantizeActivation x) := by
  have hlen : ∀ t, t < n → (rowOf cols t x).length = cols := fun t ht =>
    length_rowOf (hx ▸ row_le ht)
  have hrows : x = (List.range n).flatMap fun t => rowOf cols t x :=
    (eq_flatMap_iff hlen).mpr ⟨hx, fun _ _ => rfl⟩
  have hblocks : rowsOf qk x = (List.range n).flatMap fun t => rowsOf qk (rowOf cols t x) := by
    conv_lhs => rw [hrows]
    exact rowsOf_flatMap (by decide) hcols hlen
  have hrow : ∀ t ∈ List.range n, quantizeActivation (rowOf cols t x)
      = ((rowsOf qk (rowOf cols t x)).flatMap fun blk => (quantizeBlock blk).1,
        (rowsOf qk (rowOf cols t x)).map fun blk => (quantizeBlock blk).2) := fun t ht =>
    quantizeActivation_rows (by rwa [hlen t (List.mem_range.mp ht)])
  rw [quantizeActivations_eq hx, quantizeActivation_rows (hx ▸ Dvd.dvd.mul_left hcols n), hblocks,
    List.flatMap_assoc, List.map_flatMap,
    List.flatMap_congr fun t ht => congrArg Prod.fst (hrow t ht),
    List.flatMap_congr fun t ht => congrArg Prod.snd (hrow t ht)]

/-! ## Sums -/

/-- `.map(|&v| v as i32).sum()` -/
def sumI32 (b : Build) (blk : List Int8) : Checked GarudaError Int :=
  blk.foldlM (fun acc v => b.fitI32 (acc + v.toInt)) 0

/-- Codes of 127 at most do not overflow while they are added up. The induction is on the codes that
are left, with what there is of the sum. -/
theorem foldlM_fitI32 (b : Build) {blk : List Int8} (hcodes : ∀ q ∈ blk, |q.toInt| ≤ 127)
    {acc : Int} (hacc : |acc| + 127 * blk.length < 2 ^ 31) :
    blk.foldlM (fun acc v => (b.fitI32 (acc + v.toInt) : Checked GarudaError Int)) acc
      = .ok (acc + (blk.map Int8.toInt).sum) := by
  induction blk generalizing acc with
  | nil =>
    rw [List.map_nil, List.sum_nil, Int.add_zero]
    rfl
  | cons q blk ih =>
    rw [List.length_cons] at hacc
    push_cast at hacc
    have habs : |acc + q.toInt| ≤ |acc| + 127 := (abs_add_le _ _).trans (by
      have := hcodes q List.mem_cons_self
      omega)
    have hlt : |acc + q.toInt| < 2 ^ 31 := by omega
    have hfit : (b.fitI32 (acc + q.toInt) : Checked GarudaError Int) = .ok (acc + q.toInt) :=
      if_pos (.inl (by rw [Int.abs_eq_natAbs] at hlt; omega))
    rw [List.foldlM_cons, hfit, Checked.ok_bind,
      ih (fun q' hq' => hcodes q' (List.mem_cons_of_mem q hq')) (by omega), List.map_cons,
      List.sum_cons, Int.add_assoc]

theorem abs_sum_le {blk : List Int8} (hcodes : ∀ q ∈ blk, |q.toInt| ≤ 127) :
    |(blk.map Int8.toInt).sum| ≤ 127 * blk.length := by
  induction blk with
  | nil => exact le_rfl
  | cons q blk ih =>
    have hq := hcodes q List.mem_cons_self
    have hrest := ih fun q' hq' => hcodes q' (List.mem_cons_of_mem q hq')
    rw [List.map_cons, List.sum_cons, List.length_cons]
    push_cast
    exact (abs_add_le _ _).trans (by omega)

/-- `block_sums`, added up as 32-bit integers. -/
def blockSumsI32 (b : Build) (width : Nat) (xq : List Int8) : Checked GarudaError (List Int) :=
  (rowsOf width xq).mapM (sumI32 b)

theorem sumWidth_eq_some {qtype : UInt32} {w : Nat} (h : sumWidth qtype = some w) :
    w = 16 ∨ w = 32 := by
  rw [sumWidth] at h
  split at h
  · cases h
    exact .inr rfl
  · split at h
    · cases h
      exact .inl rfl
    · cases h

section Sums

variable {w : Nat} {xq : List Int8}

theorem codes_of_mem_rowsOf (hcodes : ∀ q ∈ xq, |q.toInt| ≤ 127) {blk : List Int8}
    (hblk : blk ∈ rowsOf w xq) : ∀ q ∈ blk, |q.toInt| ≤ 127 := fun q hq => by
  obtain ⟨r, -, rfl⟩ := List.mem_map.mp hblk
  exact hcodes q (List.mem_of_mem_drop (List.mem_of_mem_take hq))

theorem blockSumsI32_eq (b : Build) (hw : 127 * w < 2 ^ 31) (hcodes : ∀ q ∈ xq, |q.toInt| ≤ 127) :
    blockSumsI32 b w xq = .ok (blockSums w xq) := by
  refine Checked.mapM_eq_ok fun blk hblk => ?_
  have hlen := length_of_mem_rowsOf hblk
  rw [sumI32, foldlM_fitI32 b (codes_of_mem_rowsOf hcodes hblk) (by rw [hlen, abs_zero]; omega),
    Int.zero_add]

theorem blockSums_getElem? {k : Nat} (hk : k < xq.length / w) :
    (blockSums w xq)[k]?
      = some ((List.range w).map fun i => (xq.getD (k * w + i) 0).toInt).sum := by
  have hle := (row_le (w := w) hk).trans (Nat.div_mul_le_self _ _)
  have hrow : rowOf w k xq = (List.range w).map fun i => xq.getD (k * w + i) 0 := by
    refine List.ext_getElem? fun i => ?_
    rcases Nat.lt_or_ge i w with hi | hi
    · rw [Nat.add_one_mul] at hle
      rw [getElem?_rowOf _ hi, List.getElem?_map, List.getElem?_range hi, Option.map_some,
        List.getElem?_eq_getElem (by omega), List.getD_eq_getElem _ _ (by omega)]
    · rw [List.getElem?_eq_none (by rwa [length_rowOf hle]),
        List.getElem?_eq_none (by simpa using hi)]
  rw [blockSums, rowsOf, List.getElem?_map, List.getElem?_map, List.getElem?_range hk,
    Option.map_some, Option.map_some, hrow, List.map_map]
  rfl

theorem abs_blockSum_le (hcodes : ∀ q ∈ xq, |q.toInt| ≤ 127) {s : Int} (hs : s ∈ blockSums w xq) :
    |s| ≤ 127 * w := by
  obtain ⟨blk, hblk, rfl⟩ := List.mem_map.mp hs
  have hle := abs_sum_le (codes_of_mem_rowsOf hcodes hblk)
  rwa [length_of_mem_rowsOf hblk] at hle

end Sums

/--
**Quantising an activation is exact to half a step.**

Of a vector of whole blocks, every code is at most 127, a code times its scale is within half a
scale of its number, and the sums over the runs of a type are those of its codes and overflow
nowhere. A batch of vectors has the codes and scales of one.
-/
theorem quantizeActivation_close (b : Build) (x : List ℚ) (h : qk ∣ x.length) :
    (∀ q ∈ (quantizeActivation x).1, |q.toInt| ≤ 127) ∧
    (∀ j < x.length,
      |x.getD j 0 - ((quantizeActivation x).1.getD j 0).toInt
          * (quantizeActivation x).2.getD (j / qk) 0|
        ≤ (quantizeActivation x).2.getD (j / qk) 0 / 2) ∧
    (∀ qtype w, sumWidth qtype = some w →
      blockSumsI32 b w (quantizeActivation x).1 = .ok (blockSums w (quantizeActivation x).1) ∧
      (∀ s ∈ blockSums w (quantizeActivation x).1, |s| < 2 ^ 31) ∧
      ∀ k < x.length / w, (blockSums w (quantizeActivation x).1)[k]?
        = some ((List.range w).map fun i =>
            ((quantizeActivation x).1.getD (k * w + i) 0).toInt).sum) ∧
    ∀ n cols, x.length = n * cols → qk ∣ cols →
      quantizeActivations x n cols = .ok (quantizeActivation x) := by
  have hcodes := fun q hq => abs_code_le (q := q) h hq
  refine ⟨hcodes, fun j hj => code_close h hj, fun qtype w hw => ?_,
    fun n cols hx hcols => quantizeActivations_whole hx hcols⟩
  have hwidth : w ≤ 32 := by
    rcases sumWidth_eq_some hw with rfl | rfl <;> decide
  refine ⟨blockSumsI32_eq b (by omega) hcodes, fun s hs => ?_, fun k hk => ?_⟩
  · have hle := abs_blockSum_le hcodes hs
    omega
  · exact blockSums_getElem? (by rwa [(length_quantizeActivation x).1])

/-- A block of zeros, and one with numbers at either end of its range and between two codes. -/
def twoBlocks : List ℚ :=
  List.replicate 32 0 ++ [127, -127, 1 / 2] ++ List.replicate 29 (-5 / 2)

theorem quantizeActivation_close_two :
    (∀ q ∈ (quantizeActivation twoBlocks).1, |q.toInt| ≤ 127) ∧
    ∀ j < twoBlocks.length, |twoBlocks.getD j 0 - ((quantizeActivation twoBlocks).1.getD j 0).toInt
          * (quantizeActivation twoBlocks).2.getD (j / qk) 0|
        ≤ (quantizeActivation twoBlocks).2.getD (j / qk) 0 / 2 :=
  have hclose := quantizeActivation_close .debug twoBlocks (by decide)
  ⟨hclose.1, hclose.2.1⟩

end Vectors

end Garuda.Quant
