import Garuda.Dense.Kernels

/-!
# The gated delta rule

One head's update for one token, in place, against the recurrence of matrices that it stands for:

`S' = a S + b k (v - (a S)ᵀ k)ᵀ`, of which `S'ᵀ (c q)` is read.

* `deltaStep` is the code: decay, predict, correct, read, row by row, without the zero rows.
* `readRows_entry` and `writeRows_entry` say what the two kinds of loop do to an entry.

`deltaStep_eq` is the recurrence, and what was written at a key of length one is read back there.
-/

namespace Garuda.Qwen35

open Infra Simd

/-- One token's scalars for one head. -/
structure DeltaGates (K : Type) where
  decay : K
  beta : K
  qScale : K

section Code

variable {K : Type} [Zero K] [Add K] [Sub K] [Mul K] [DecidableEq K]

/-- Add the rows of `s`, each with its weight, to `out`; a row of weight zero is skipped. -/
def readRows (vh : Nat) (s weights out : List K) : List K :=
  weights.zipIdx.foldl (fun out (x, r) =>
    if x ≠ 0 then addScaled out (rowOf vh r s) x else out) out

/-- Add `delta` with its weight to every row of `s`; a row of weight zero is skipped. -/
def writeRows (vh : Nat) (delta weights s : List K) : List K :=
  weights.zipIdx.foldl (fun s (x, r) =>
    if x ≠ 0 then setRow vh r (addScaled (rowOf vh r s) delta x) s else s) s

/-- What is to be written along `k`. -/
def correction (s k v : List K) (beta : K) : List K :=
  -- what the state currently predicts for this key
  let mem := readRows v.length s k (List.replicate v.length 0)
  List.zipWith (fun vj mj => (vj - mj) * beta) v mem

/-- The state that the step leaves, and the output it has added to. -/
def deltaStep (s q k v : List K) (g : DeltaGates K) (out : List K) : List K × List K :=
  let s := s.map (· * g.decay)
  let s := writeRows v.length (correction s k v g.beta) k s
  (s, readRows v.length s (q.map (· * g.qScale)) out)

end Code

variable {K : Type} [CommRing K] [DecidableEq K] {vh kh : Nat}

/-! ## The two loops -/

omit [DecidableEq K] in
theorem getD_map_mul (c : K) (l : List K) (i : Nat) :
    (l.map (· * c)).getD i 0 = l.getD i 0 * c := by
  rw [List.getD_eq_getElem?_getD, List.getD_eq_getElem?_getD, List.getElem?_map]
  cases l[i]? with
  | none => exact (zero_mul c).symm
  | some x => rfl

theorem readRows_concat (s weights out : List K) (x : K) :
    readRows vh s (weights ++ [x]) out
      = if x ≠ 0 then addScaled (readRows vh s weights out) (rowOf vh weights.length s) x
        else readRows vh s weights out := by
  simp only [readRows, List.zipIdx_append, List.foldl_append, Nat.zero_add]
  rfl

theorem length_readRows (s weights out : List K) :
    (readRows vh s weights out).length = out.length := by
  induction weights using List.reverseRecOn with
  | nil => rfl
  | append_singleton weights x ih =>
    rw [readRows_concat]
    split
    · rw [length_addScaled, ih]
    · exact ih

/-- **Reading adds the weighted column.** The induction is on the rows read so far. -/
theorem readRows_entry (s weights : List K) {out : List K} {j : Nat} (hs : weights.length * vh ≤ s.length)
    (hout : out.length = vh) (hj : j < vh) :
    (readRows vh s weights out).getD j 0
      = out.getD j 0 + ∑ r ∈ Finset.range weights.length, entry vh s r j * weights.getD r 0 := by
  induction weights using List.reverseRecOn with
  | nil => simp [readRows]
  | append_singleton weights x ih =>
    rw [List.length_append, List.length_singleton] at hs ⊢
    have hrow : (rowOf vh weights.length s).length = vh := length_rowOf hs
    have hread := ih ((Nat.mul_le_mul_right vh (Nat.le_succ _)).trans hs)
    have hsum : ∑ r ∈ Finset.range weights.length, entry vh s r j * (weights ++ [x]).getD r 0
        = ∑ r ∈ Finset.range weights.length, entry vh s r j * weights.getD r 0 :=
      Finset.sum_congr rfl fun r hr => by
        rw [List.getD_append _ _ _ _ (Finset.mem_range.mp hr)]
    have hlast : (weights ++ [x]).getD weights.length 0 = x := by
      simp [List.getD_eq_getElem?_getD]
    rw [Finset.sum_range_succ, hsum, hlast, ← add_assoc, ← hread, readRows_concat]
    by_cases hx : x = 0
    · rw [if_neg (not_not.mpr hx), hx, mul_zero, add_zero]
    · rw [if_pos hx, getD_addScaled _ (by rw [length_readRows, hout]; exact hj)
        (by rw [hrow]; exact hj), getD_rowOf s hj]

theorem writeRows_concat (delta weights s : List K) (x : K) :
    writeRows vh delta (weights ++ [x]) s
      = if x ≠ 0 then setRow vh weights.length (addScaled (rowOf vh weights.length
          (writeRows vh delta weights s)) delta x) (writeRows vh delta weights s)
        else writeRows vh delta weights s := by
  simp only [writeRows, List.zipIdx_append, List.foldl_append, Nat.zero_add]
  rfl

theorem length_writeRows {delta weights s : List K} (hs : weights.length * vh ≤ s.length) :
    (writeRows vh delta weights s).length = s.length := by
  induction weights using List.reverseRecOn with
  | nil => rfl
  | append_singleton weights x ih =>
    rw [List.length_append, List.length_singleton] at hs
    have hlen := ih ((Nat.mul_le_mul_right vh (Nat.le_succ _)).trans hs)
    rw [writeRows_concat]
    split
    · rw [length_setRow _ (by rw [hlen]; exact hs), hlen]
      rw [length_addScaled, length_rowOf (by rw [hlen]; exact hs)]
    · exact hlen

/-- **Writing adds the weighted delta to each row**, and leaves the rows without a weight. -/
theorem writeRows_entry {delta weights s : List K} {i j : Nat}
    (hs : weights.length * vh ≤ s.length) (hdelta : delta.length = vh) (hj : j < vh) :
    entry vh (writeRows vh delta weights s) i j
      = entry vh s i j + if i < weights.length then delta.getD j 0 * weights.getD i 0 else 0 := by
  induction weights using List.reverseRecOn with
  | nil => simp [writeRows]
  | append_singleton weights x ih =>
    rw [List.length_append, List.length_singleton] at hs ⊢
    have hbefore := (Nat.mul_le_mul_right vh (Nat.le_succ weights.length)).trans hs
    have hlen : (writeRows vh delta weights s).length = s.length := length_writeRows hbefore
    have hle : (weights.length + 1) * vh ≤ (writeRows vh delta weights s).length := by
      rw [hlen]
      exact hs
    have hrow := length_rowOf hle
    have hentry := ih hbefore
    rw [writeRows_concat]
    rcases Nat.lt_trichotomy i weights.length with hlt | rfl | hgt
    · -- a row written before
      rw [if_pos hlt] at hentry
      rw [if_pos (Nat.lt_succ_of_lt hlt), List.getD_append _ _ _ _ hlt, ← hentry]
      split
      · rw [entry_setRow_ne (by rw [length_addScaled, hrow]) hle hj (Nat.ne_of_lt hlt)]
      · rfl
    · rw [if_neg (lt_irrefl _), add_zero] at hentry
      have hlast : (weights ++ [x]).getD weights.length 0 = x := by
        simp [List.getD_eq_getElem?_getD]
      rw [if_pos (Nat.lt_succ_self _), hlast]
      by_cases hx : x = 0
      · rw [if_neg (not_not.mpr hx), hentry, hx, mul_zero, add_zero]
      · rw [if_pos hx, entry_setRow_self (by rw [length_addScaled, hrow]) hle hj,
          getD_addScaled _ (by rw [hrow]; exact hj) (by rw [hdelta]; exact hj), getD_rowOf _ hj,
          hentry]
    · -- a row not reached
      rw [if_neg (by omega), add_zero] at hentry
      rw [if_neg (show ¬ i < weights.length + 1 by omega), add_zero, ← hentry]
      split
      · rw [entry_setRow_ne (by rw [length_addScaled, hrow]) hle hj (Nat.ne_of_gt hgt)]
      · rfl

/-! ## As matrices -/

section Matrices

open Matrix

omit [DecidableEq K] in
theorem matOf_decay (a : K) (s : List K) :
    matOf kh vh (s.map (· * a)) = a • matOf kh vh s := by
  ext r j
  show (s.map (· * a)).getD _ 0 = a * entry vh s r j
  rw [getD_map_mul, mul_comm]
  rfl

omit [DecidableEq K] in
theorem vecOf_scale (c : K) (q : List K) : vecOf kh (q.map (· * c)) = c • vecOf kh q := by
  ext i
  show (q.map (· * c)).getD _ 0 = c * q.getD i 0
  rw [getD_map_mul, mul_comm]

theorem vecOf_readRows {s weights out : List K} (hs : s.length = kh * vh)
    (hw : weights.length = kh) (hout : out.length = vh) :
    vecOf vh (readRows vh s weights out)
      = vecOf vh out + (matOf kh vh s)ᵀ *ᵥ vecOf kh weights := by
  ext j
  have hread := readRows_entry s weights (by rw [hw, hs]) hout j.isLt
  rw [hw, Finset.sum_range] at hread
  exact hread

theorem matOf_writeRows {s weights delta : List K} (hs : s.length = kh * vh)
    (hw : weights.length = kh) (hdelta : delta.length = vh) :
    matOf kh vh (writeRows vh delta weights s)
      = matOf kh vh s + vecMulVec (vecOf kh weights) (vecOf vh delta) := by
  ext r j
  have hwrite := writeRows_entry (i := r) (s := s) (by rw [hw, hs]) hdelta j.isLt
  rw [hw, if_pos r.isLt, mul_comm] at hwrite
  exact hwrite

theorem length_correction (s k v : List K) (b : K) : (correction s k v b).length = v.length := by
  rw [correction, List.length_zipWith, length_readRows, List.length_replicate, Nat.min_self]

theorem vecOf_correction {s k v : List K} (b : K) (hs : s.length = kh * vh) (hk : k.length = kh)
    (hv : v.length = vh) : vecOf vh (correction s k v b)
      = b • (vecOf vh v - (matOf kh vh s)ᵀ *ᵥ vecOf kh k) := by
  subst hv
  have hzeros : (List.replicate v.length (0 : K)).length = v.length := List.length_replicate
  have hmem := vecOf_readRows hs hk hzeros
  have hzero : vecOf v.length (List.replicate v.length (0 : K)) = 0 := by
    ext j
    simp [vecOf, List.getD_eq_getElem?_getD]
  rw [hzero, zero_add] at hmem
  rw [← hmem]
  ext j
  have hj : (j : Nat) < (readRows v.length s k (List.replicate v.length 0)).length := by
    rw [length_readRows, hzeros]
    exact j.isLt
  simp [vecOf, correction, List.getD_eq_getElem?_getD, hj, mul_comm]

/-! ## The recurrence -/

/-- `a S + b k (v - (a S)ᵀ k)ᵀ` -/
def recurrence (S : Matrix (Fin kh) (Fin vh) K) (k : Fin kh → K) (v : Fin vh → K) (a b : K) :
    Matrix (Fin kh) (Fin vh) K :=
  a • S + b • vecMulVec k (v - (a • S)ᵀ *ᵥ k)

omit [DecidableEq K] in
/-- **What is written in full at a key of length one is read back there.** -/
theorem recurrence_mulVec (S : Matrix (Fin kh) (Fin vh) K) {k : Fin kh → K} (v : Fin vh → K)
    (a : K) (hk : k ⬝ᵥ k = 1) : (recurrence S k v a 1)ᵀ *ᵥ k = v := by
  have hwrite : (vecMulVec k (v - (a • S)ᵀ *ᵥ k))ᵀ *ᵥ k = v - (a • S)ᵀ *ᵥ k := by
    rw [transpose_vecMulVec, vecMulVec_mulVec, hk, MulOpposite.op_one, one_smul]
  rw [recurrence, one_smul, transpose_add, add_mulVec, hwrite, add_sub_cancel]

/-- **The step leaves the recurrence's state, and adds what is read of it to the output**, zero rows
or not. -/
theorem deltaStep_eq {s q k v out : List K} (g : DeltaGates K) (hs : s.length = kh * vh)
    (hq : q.length = kh) (hk : k.length = kh) (hv : v.length = vh) (hout : out.length = vh) :
    (deltaStep s q k v g out).1.length = kh * vh ∧ (deltaStep s q k v g out).2.length = vh ∧
    matOf kh vh (deltaStep s q k v g out).1
      = recurrence (matOf kh vh s) (vecOf kh k) (vecOf vh v) g.decay g.beta ∧
    vecOf vh (deltaStep s q k v g out).2
      = vecOf vh out + (matOf kh vh (deltaStep s q k v g out).1)ᵀ *ᵥ (g.qScale • vecOf kh q) ∧
    (g.beta = 1 → vecOf kh k ⬝ᵥ vecOf kh k = 1 →
      (matOf kh vh (deltaStep s q k v g out).1)ᵀ *ᵥ vecOf kh k = vecOf vh v) := by
  have hdecayed : (s.map (· * g.decay)).length = kh * vh := by rw [List.length_map, hs]
  have hcorrection := (length_correction (s.map (· * g.decay)) k v g.beta).trans hv
  have hleft : (deltaStep s q k v g out).1.length = kh * vh := by
    rw [deltaStep]
    rw [length_writeRows (by rw [hk, hv, hdecayed]), hdecayed]
  have hstate : matOf kh vh (deltaStep s q k v g out).1
      = recurrence (matOf kh vh s) (vecOf kh k) (vecOf vh v) g.decay g.beta := by
    rw [deltaStep]
    simp only [hv]
    rw [matOf_writeRows hdecayed hk hcorrection, vecOf_correction g.beta hdecayed hk hv,
      matOf_decay, vecMulVec_smul, recurrence]
  refine ⟨hleft, ?_, hstate, ?_, fun hb hunit => ?_⟩
  · exact (length_readRows _ _ _).trans hout
  · have hq' : (q.map (· * g.qScale)).length = kh := by rw [List.length_map, hq]
    rw [← vecOf_scale, ← vecOf_readRows hleft hq' hout]
    simp only [deltaStep, hv]
  · rw [hstate, hb]
    exact recurrence_mulVec _ _ _ hunit

/-- Two rows of three are skipped, and the written value is read back at its key. -/
theorem deltaStep_eq_unit :
    deltaStep (K := ℚ) [1, 2, 3, 4, 5, 6] [0, 1, 0] [0, 1, 0] [7, 8] ⟨1 / 2, 1, 1⟩ [0, 0]
      = ([1 / 2, 1, 7, 8, 5 / 2, 3], [7, 8]) ∧
    (matOf 3 2 (deltaStep (K := ℚ) [1, 2, 3, 4, 5, 6] [0, 1, 0] [0, 1, 0] [7, 8] ⟨1 / 2, 1, 1⟩
      [0, 0]).1)ᵀ *ᵥ vecOf 3 [0, 1, 0] = vecOf 2 [7, 8] := by
  refine ⟨by decide +kernel, ?_⟩
  obtain ⟨-, -, -, -, hback⟩ := @deltaStep_eq ℚ _ _ 2 3 [1, 2, 3, 4, 5, 6] [0, 1, 0] [0, 1, 0]
    [7, 8] [0, 0] ⟨1 / 2, 1, 1⟩ rfl rfl rfl rfl rfl
  exact hback rfl (by decide +kernel)

end Matrices

end Garuda.Qwen35
