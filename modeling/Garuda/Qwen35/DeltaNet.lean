import Garuda.Dense.Layers
import Garuda.Qwen35.Convolution
import Garuda.Qwen35.DeltaRule
import Garuda.Qwen35.Load

/-!
# One token of a gated delta net

What a recurrent block does with one token, given the token's row of each of its projections: the
convolution moves the window on, every value head updates its matrix, and the heads' outputs are
normed and gated.

* `deltaStepWith` is `deltaStep` with the numbers' own comparison with zero.
* `recur` is the code, which slices and may go out of bounds; `recurred` is what it comes to.

`recur_eq` says so, for state and parameters of the configured sizes. The window and the matrices
keep their sizes, so the next token finds them as it needs them.
-/

namespace Garuda

open Infra Simd Floats

namespace Qwen35

/-! ## Kernels -/

section Kernels

variable {K : Type}

section

variable [Add K] [Mul K]

/-- As `readRows`; `x != 0.0` is given. -/
def readRowsWith (nonzero : K → Bool) (vh : Nat) (s weights out : List K) : List K :=
  weights.zipIdx.foldl (fun out (x, r) =>
    if nonzero x then addScaled out (rowOf vh r s) x else out) out

/-- As `writeRows`. -/
def writeRowsWith (nonzero : K → Bool) (vh : Nat) (delta weights s : List K) : List K :=
  weights.zipIdx.foldl (fun s (x, r) =>
    if nonzero x then setRow vh r (addScaled (rowOf vh r s) delta x) s else s) s

/-- As `deltaStep`. -/
def deltaStepWith [Zero K] [Sub K] (nonzero : K → Bool) (s q k v : List K) (g : DeltaGates K)
    (out : List K) : List K × List K :=
  let s := s.map (· * g.decay)
  -- what the state currently predicts for this key
  let mem := readRowsWith nonzero v.length s k (List.replicate v.length 0)
  let delta := List.zipWith (fun vj mj => (vj - mj) * g.beta) v mem
  let s := writeRowsWith nonzero v.length delta k s
  (s, readRowsWith nonzero v.length s (q.map (· * g.qScale)) out)

theorem deltaStep_eq_with [Zero K] [Sub K] [DecidableEq K] (s q k v : List K) (g : DeltaGates K)
    (out : List K) :
    deltaStep s q k v g out = deltaStepWith (fun x => decide (x ≠ 0)) s q k v g out := by
  simp only [deltaStep, deltaStepWith, correction, readRows, writeRows, readRowsWith, writeRowsWith,
    decide_eq_true_eq]

variable {nonzero : K → Bool} {vh : Nat}

theorem length_readRowsWith (s weights out : List K) :
    (readRowsWith nonzero vh s weights out).length = out.length := by
  rw [readRowsWith]
  generalize weights.zipIdx = ps
  induction ps generalizing out with
  | nil => rfl
  | cons p ps ih =>
    rw [List.foldl_cons, ih]
    show (if nonzero p.1 then addScaled out (rowOf vh p.2 s) p.1 else out).length = out.length
    split
    · exact length_addScaled _ _ _
    · rfl

theorem length_writeRowsWith {delta weights s : List K} (hs : weights.length * vh ≤ s.length) :
    (writeRowsWith nonzero vh delta weights s).length = s.length := by
  have hrows : ∀ (ps : List (K × Nat)) (s : List K), (∀ p ∈ ps, (p.2 + 1) * vh ≤ s.length) →
      (ps.foldl (fun s p => if nonzero p.1 then setRow vh p.2
        (addScaled (rowOf vh p.2 s) delta p.1) s else s) s).length = s.length := by
    intro ps
    induction ps with
    | nil => exact fun _ _ => rfl
    | cons p ps ih =>
      intro s hp
      rw [List.forall_mem_cons] at hp
      have hone : (if nonzero p.1 then setRow vh p.2 (addScaled (rowOf vh p.2 s) delta p.1) s
          else s).length = s.length := by
        split
        · exact length_setRow ((length_addScaled _ _ _).trans (length_rowOf hp.1)) hp.1
        · rfl
      rw [List.foldl_cons, ih _ fun p' hp' => hone.symm ▸ hp.2 p' hp', hone]
  refine hrows _ s fun p hp => (Nat.mul_le_mul_right vh ?_).trans hs
  have := List.mem_zipIdx_iff_getElem?.mp hp
  exact (List.getElem?_eq_some_iff.mp this).1

theorem length_deltaStepWith [Zero K] [Sub K] (nonzero : K → Bool) {s k v : List K} (q out : List K)
    (g : DeltaGates K) (hs : s.length = k.length * v.length) :
    (deltaStepWith nonzero s q k v g out).1.length = s.length ∧
      (deltaStepWith nonzero s q k v g out).2.length = out.length := by
  refine ⟨?_, length_readRowsWith ..⟩
  rw [deltaStepWith, length_writeRowsWith (by rw [List.length_map, hs]), List.length_map]

end

variable [Analytic K]

/-- `1 / (1 + e⁻ˣ)` -/
def sigmoid (x : K) : K := ofInt 1 / (ofInt 1 + Analytic.num.exp (-x))

/-- `ln(1 + eˣ)` -/
def softplus (x : K) : K := if ofInt 20 < x then x else Analytic.ln1p (Analytic.num.exp x)

/-- `x / sqrt(sum(x²) + 1e-6)` -/
def l2Normalize (x : List K) : List K :=
  let inv := ofInt 1 / Analytic.sqrt (Analytic.sum (x.map fun v => v * v) + ofBits 0x358637bd)
  x.map (· * inv)

@[simp] theorem length_l2Normalize (x : List K) : (l2Normalize x).length = x.length :=
  List.length_map _

/-- Rotary embedding of the first `nRot` numbers of a head, which are paired half a turn apart. -/
def ropePartial (pos : Nat) (theta : K) (nRot : Nat) (head : List K) : List K :=
  let rot := min nRot head.length / 2 * 2
  let half := rot / 2
  (List.range half).foldl (fun head (i : Nat) =>
    let freq := ofInt 1 / Analytic.powf theta (ofInt 2 * ofInt i / ofInt rot)
    let sin := Analytic.sin (ofInt pos * freq)
    let cos := Analytic.cos (ofInt pos * freq)
    let a := head.getD i 0
    let b := head.getD (i + half) 0
    (head.set i (a * cos - b * sin)).set (i + half) (b * cos + a * sin)) head

@[simp] theorem length_ropePartial (pos : Nat) (theta : K) (nRot : Nat) (head : List K) :
    (ropePartial pos theta nRot head).length = head.length := by
  rw [ropePartial]
  generalize List.range _ = is
  generalize min nRot head.length / 2 * 2 = rot
  induction is generalizing head with
  | nil => rfl
  | cons i is ih => rw [List.foldl_cons, ih, List.length_set, List.length_set]

end Kernels

end Qwen35

/-! ## Sizes -/

namespace Qwen35Config

variable (cfg : Qwen35Config)

/-- `kv_dim`, `attn_dim`, `key_dim`, `value_dim` and `conv_dim`, of sizes that have been checked. -/
def kvWidth : Nat := cfg.nKvHeads * cfg.headDim

def attnWidth : Nat := cfg.nHeads * cfg.headDim

def keyWidth : Nat := cfg.nKHeads * cfg.keyHeadDim

def valueWidth : Nat := cfg.nVHeads * cfg.valueHeadDim

def convWidth : Nat := 2 * cfg.keyWidth + cfg.valueWidth

/-- `linear_state_shape`: the convolution's window, and the matrices. -/
def windowLen : Nat := cfg.convWidth * (cfg.convKernel - 1)

def stateLen : Nat := cfg.nVHeads * (cfg.keyHeadDim * cfg.valueHeadDim)

/-- The width of what a layer stores for a position: a recurrent one stores nothing. -/
def kvWidthOf (l : Nat) : Nat := if cfg.recurrent.getD l false then 0 else cfg.kvWidth

end Qwen35Config

namespace Qwen35

/-- Which key head a value head reads. -/
def keyHeadOf (hv nKHeads : Nat) : Nat := hv % nKHeads

/-- `xs[i]` -/
def cell {ε α : Type} (i : Nat) (xs : List α) : Checked ε α :=
  match xs[i]? with
  | some x => .ok x
  | none => .panic

/-! ## A token -/

/-- The small tensors of a recurrent block. -/
structure DeltaParams where
  conv : List F32
  dtBias : List F32
  a : List F32
  norm : List F32

/-- A token's row of each of the projections. -/
structure DeltaRows where
  qkv : List F32
  z : List F32
  beta : List F32
  alpha : List F32

section Token

variable [Analytic F32] (cfg : Qwen35Config) (eps : F32) (p : DeltaParams)

/-- The convolution of every channel. -/
def convolveAt {ε : Type} (kernel : Nat) (conv window raw : List F32) : Checked ε (List F32) :=
  raw.zipIdx.mapM fun (now, c) => do
    let taps ← rowAt kernel c conv
    let hist ← rowAt (kernel - 1) c window
    .ok (tapSum kernel taps hist now)

/-- Every head normed by its length. -/
def normHeads (x : List F32) : List F32 :=
  (List.range cfg.nKHeads).flatMap fun h => l2Normalize (rowOf cfg.keyHeadDim h x)

/-- `x != 0.0` -/
def nonzero (x : F32) : Bool := x != 0

/-- One value head: what its matrix becomes, and what is added to its output. -/
def headStep {ε : Type} (rows : DeltaRows) (q k v : List F32) (hv : Nat) (s out : List F32) :
    Checked ε (List F32 × List F32) := do
  let hk := keyHeadOf hv cfg.nKHeads
  let qh ← rowAt cfg.keyHeadDim hk q
  let kh ← rowAt cfg.keyHeadDim hk k
  let vh ← rowAt cfg.valueHeadDim hv v
  let a ← cell hv p.a
  let alpha ← cell hv rows.alpha
  let dt ← cell hv p.dtBias
  let beta ← cell hv rows.beta
  let gates : DeltaGates F32 :=
    { decay := Analytic.num.exp (a * softplus (alpha + dt))
      beta := sigmoid beta
      qScale := ofInt 1 / Analytic.sqrt (ofInt cfg.keyHeadDim) }
  .ok (deltaStepWith nonzero s qh kh vh gates out)

/-- A head's output: normed, scaled, and gated by `silu(z)`. -/
def gatedHead {ε : Type} (z : List F32) (hv : Nat) (out : List F32) : Checked ε (List F32) := do
  let gate ← rowAt cfg.valueHeadDim hv z
  .ok (mulAssign (mulAssign (rmsnorm eps out) p.norm) (gate.map silu))

/-- A token's turn: the new window, the new matrices, and what goes on to the output projection. -/
def recur {ε : Type} (window state : List F32) (rows : DeltaRows) :
    Checked ε (List F32 × List F32 × List F32) := do
  let y ← convolveAt cfg.convKernel p.conv window rows.qkv
  let y := y.map silu
  let window := shift cfg.convKernel window rows.qkv
  let q := normHeads cfg (y.take cfg.keyWidth)
  let k := normHeads cfg ((y.drop cfg.keyWidth).take cfg.keyWidth)
  let v := (y.drop cfg.keyWidth).drop cfg.keyWidth
  let out ← updateBoth (cfg.keyHeadDim * cfg.valueHeadDim) cfg.valueHeadDim cfg.nVHeads
    (headStep cfg p rows q k v) state (List.replicate cfg.valueWidth 0)
  let mixed ← updateRows cfg.valueHeadDim cfg.nVHeads (gatedHead cfg eps p rows.z) out.2
  .ok (window, out.1, mixed)

/-! ## What it comes to -/

/-- One value head, of what is there. -/
def headOf (rows : DeltaRows) (q k v state : List F32) (hv : Nat) : List F32 × List F32 :=
  let hk := keyHeadOf hv cfg.nKHeads
  let gates : DeltaGates F32 :=
    { decay := Analytic.num.exp (p.a.getD hv 0 * softplus (rows.alpha.getD hv 0 + p.dtBias.getD hv 0))
      beta := sigmoid (rows.beta.getD hv 0)
      qScale := ofInt 1 / Analytic.sqrt (ofInt cfg.keyHeadDim) }
  deltaStepWith nonzero (rowOf (cfg.keyHeadDim * cfg.valueHeadDim) hv state)
    (rowOf cfg.keyHeadDim hk q) (rowOf cfg.keyHeadDim hk k) (rowOf cfg.valueHeadDim hv v) gates
    (List.replicate cfg.valueHeadDim 0)

/-- The state after a token, and what goes on. -/
def recurred (s : List F32 × List F32) (rows : DeltaRows) : (List F32 × List F32) × List F32 :=
  let y := (convolve cfg.convKernel p.conv s.1 rows.qkv).map silu
  let q := normHeads cfg (y.take cfg.keyWidth)
  let k := normHeads cfg ((y.drop cfg.keyWidth).take cfg.keyWidth)
  let v := (y.drop cfg.keyWidth).drop cfg.keyWidth
  let head := headOf cfg p rows q k v s.2
  ((shift cfg.convKernel s.1 rows.qkv, (List.range cfg.nVHeads).flatMap fun hv => (head hv).1),
    (List.range cfg.nVHeads).flatMap fun hv => mulAssign (mulAssign (rmsnorm eps (head hv).2) p.norm)
      ((rowOf cfg.valueHeadDim hv rows.z).map silu))

/-! ## Sizes -/

/-- Parameters of the configured sizes. -/
structure DeltaParams.Fits (p : DeltaParams) : Prop where
  conv : p.conv.length = cfg.convWidth * cfg.convKernel
  dtBias : p.dtBias.length = cfg.nVHeads
  a : p.a.length = cfg.nVHeads

structure DeltaRows.Fits (rows : DeltaRows) : Prop where
  qkv : rows.qkv.length = cfg.convWidth
  z : rows.z.length = cfg.valueWidth
  beta : rows.beta.length = cfg.nVHeads
  alpha : rows.alpha.length = cfg.nVHeads

/-- A window and matrices of the configured sizes. -/
structure StateFits (s : List F32 × List F32) : Prop where
  window : s.1.length = cfg.windowLen
  state : s.2.length = cfg.stateLen

variable {cfg eps p} {s : List F32 × List F32} {rows : DeltaRows}

omit [Analytic F32] in
theorem cell_eq {ε α : Type} {i : Nat} {xs : List α} (z : α) (hi : i < xs.length) :
    (cell i xs : Checked ε α) = .ok (xs.getD i z) := by
  rw [cell, List.getElem?_eq_getElem hi, List.getD_eq_getElem _ _ hi]

theorem length_normHeads {x : List F32} (hx : x.length = cfg.keyWidth) :
    (normHeads cfg x).length = cfg.keyWidth :=
  length_flatMap_range fun h hlt => by rw [length_l2Normalize, length_rowOf (hx ▸ row_le hlt)]

theorem convolveAt_eq {ε : Type} {kernel : Nat} {conv window raw : List F32}
    (hconv : conv.length = raw.length * kernel) (hwindow : window.length = raw.length * (kernel - 1)) :
    (convolveAt kernel conv window raw : Checked ε _) = .ok (convolve kernel conv window raw) := by
  refine Checked.mapM_eq_ok ?_
  rintro ⟨now, c⟩ hx
  have hlt : c < raw.length :=
    (List.getElem?_eq_some_iff.mp (List.mem_zipIdx_iff_getElem?.mp hx)).1
  dsimp only
  rw [rowAt_eq hconv hlt, Checked.ok_bind, rowAt_eq hwindow hlt, Checked.ok_bind]

omit [Analytic F32] in
/-- What the convolution is cut into. -/
theorem length_parts {y : List F32} (hy : y.length = cfg.convWidth) :
    (y.take cfg.keyWidth).length = cfg.keyWidth ∧
      ((y.drop cfg.keyWidth).take cfg.keyWidth).length = cfg.keyWidth ∧
      ((y.drop cfg.keyWidth).drop cfg.keyWidth).length = cfg.valueWidth := by
  rw [Qwen35Config.convWidth] at hy
  simp only [List.length_take, List.length_drop]
  omega

section Heads

variable {q k v state : List F32} {hv : Nat} (hk : k.length = cfg.keyWidth)
  (hvl : v.length = cfg.valueWidth) (hkh : 0 < cfg.nKHeads) (hlt : hv < cfg.nVHeads)
include hk hvl hkh hlt

theorem length_headOf (hstate : state.length = cfg.stateLen) : (headOf cfg p rows q k v state hv).1.length
      = cfg.keyHeadDim * cfg.valueHeadDim ∧
    (headOf cfg p rows q k v state hv).2.length = cfg.valueHeadDim := by
  have hread : keyHeadOf hv cfg.nKHeads < cfg.nKHeads := Nat.mod_lt _ hkh
  have hrow := length_rowOf (hstate.symm ▸ row_le (w := cfg.keyHeadDim * cfg.valueHeadDim) hlt :
    (hv + 1) * (cfg.keyHeadDim * cfg.valueHeadDim) ≤ state.length)
  have hkrow := length_rowOf (hk.symm ▸ row_le (w := cfg.keyHeadDim) hread :
    (keyHeadOf hv cfg.nKHeads + 1) * cfg.keyHeadDim ≤ k.length)
  have hvrow := length_rowOf (hvl.symm ▸ row_le (w := cfg.valueHeadDim) hlt :
    (hv + 1) * cfg.valueHeadDim ≤ v.length)
  obtain ⟨hone, htwo⟩ := length_deltaStepWith nonzero
    (rowOf cfg.keyHeadDim (keyHeadOf hv cfg.nKHeads) q) (List.replicate cfg.valueHeadDim 0)
    { decay := Analytic.num.exp
        (p.a.getD hv 0 * softplus (rows.alpha.getD hv 0 + p.dtBias.getD hv 0))
      beta := sigmoid (rows.beta.getD hv 0)
      qScale := ofInt 1 / Analytic.sqrt (ofInt cfg.keyHeadDim) }
    (show (rowOf (cfg.keyHeadDim * cfg.valueHeadDim) hv state).length
      = (rowOf cfg.keyHeadDim (keyHeadOf hv cfg.nKHeads) k).length
        * (rowOf cfg.valueHeadDim hv v).length by rw [hrow, hkrow, hvrow])
  exact ⟨hone.trans hrow, htwo.trans List.length_replicate⟩

theorem headStep_eq {ε : Type} (hq : q.length = cfg.keyWidth) (hp : p.Fits cfg) (hr : rows.Fits cfg) :
    (headStep cfg p rows q k v hv (rowOf (cfg.keyHeadDim * cfg.valueHeadDim) hv state)
        (List.replicate cfg.valueHeadDim 0) : Checked ε _)
      = .ok (headOf cfg p rows q k v state hv) := by
  have hread : keyHeadOf hv cfg.nKHeads < cfg.nKHeads := Nat.mod_lt _ hkh
  rw [headStep, rowAt_eq hq hread, Checked.ok_bind, rowAt_eq hk hread, Checked.ok_bind,
    rowAt_eq hvl hlt, Checked.ok_bind, cell_eq 0 (hp.a ▸ hlt), Checked.ok_bind,
    cell_eq 0 (hr.alpha ▸ hlt), Checked.ok_bind, cell_eq 0 (hp.dtBias ▸ hlt), Checked.ok_bind,
    cell_eq 0 (hr.beta ▸ hlt), Checked.ok_bind]
  rfl

end Heads

/-- **A token's turn**, with state and parameters of the configured sizes. The state keeps them. -/
theorem recur_eq {ε : Type} (hp : p.Fits cfg) (hkh : 0 < cfg.nKHeads) (hr : rows.Fits cfg)
    (hs : StateFits cfg s) :
    (recur cfg eps p s.1 s.2 rows : Checked ε _)
        = .ok ((recurred cfg eps p s rows).1.1, (recurred cfg eps p s rows).1.2,
          (recurred cfg eps p s rows).2) ∧
      StateFits cfg (recurred cfg eps p s rows).1 ∧
      (recurred cfg eps p s rows).2.length = cfg.valueWidth := by
  have hwindow : s.1.length = rows.qkv.length * (cfg.convKernel - 1) := by
    rw [hs.window, hr.qkv]
    rfl
  have hy : ((convolve cfg.convKernel p.conv s.1 rows.qkv).map silu).length = cfg.convWidth := by
    rw [List.length_map, convolve, List.length_map, List.length_zipIdx, hr.qkv]
  obtain ⟨hq, hk, hvl⟩ := length_parts hy
  replace hq := length_normHeads hq
  replace hk := length_normHeads hk
  rw [recur, convolveAt_eq (by rw [hp.conv, hr.qkv]) hwindow, Checked.ok_bind]
  simp only [recurred]
  generalize (convolve cfg.convKernel p.conv s.1 rows.qkv).map silu = y at *
  generalize normHeads cfg (y.take cfg.keyWidth) = q at *
  generalize normHeads cfg ((y.drop cfg.keyWidth).take cfg.keyWidth) = k at *
  generalize (y.drop cfg.keyWidth).drop cfg.keyWidth = v at *
  have hlen : ∀ hv, hv < cfg.nVHeads → (headOf cfg p rows q k v s.2 hv).1.length
        = cfg.keyHeadDim * cfg.valueHeadDim ∧
      (headOf cfg p rows q k v s.2 hv).2.length = cfg.valueHeadDim :=
    fun hv hlt => length_headOf hk hvl hkh hlt hs.state
  have hzero : ∀ hv, hv < cfg.nVHeads →
      rowOf cfg.valueHeadDim hv (List.replicate cfg.valueWidth (0 : F32))
        = List.replicate cfg.valueHeadDim 0 := fun hv hlt => by
    have hle := row_le (w := cfg.valueHeadDim) hlt
    rw [Nat.add_one_mul] at hle
    rw [rowOf, List.drop_replicate, List.take_replicate, Qwen35Config.valueWidth,
      Nat.min_eq_left (by omega)]
  rw [updateBoth_eq (t := List.replicate cfg.valueWidth 0) (g := headOf cfg p rows q k v s.2) hs.state
    List.length_replicate
    (fun hv hlt => by rw [hzero hv hlt, headStep_eq hk hvl hkh hlt hq hp hr])
    hlen, Checked.ok_bind]
  dsimp only
  have hrow : ∀ hv, hv < cfg.nVHeads → rowOf cfg.valueHeadDim hv ((List.range cfg.nVHeads).flatMap
      fun hv => (headOf cfg p rows q k v s.2 hv).2) = (headOf cfg p rows q k v s.2 hv).2 :=
    fun hv hlt => rowOf_flatMap (fun hv hlt => (hlen hv hlt).2) hlt
  have hgated : ∀ hv, hv < cfg.nVHeads → (mulAssign (mulAssign (rmsnorm eps
      (headOf cfg p rows q k v s.2 hv).2) p.norm) ((rowOf cfg.valueHeadDim hv rows.z).map
        silu)).length = cfg.valueHeadDim := fun hv hlt => by
    rw [length_mulAssign, length_mulAssign, length_rmsnorm, (hlen hv hlt).2]
  rw [updateRows_eq (g := fun hv out => mulAssign (mulAssign (rmsnorm eps out) p.norm)
      ((rowOf cfg.valueHeadDim hv rows.z).map silu))
    (length_flatMap_range fun hv hlt => (hlen hv hlt).2)
    (fun hv hlt => by rw [gatedHead, rowAt_eq hr.z hlt, Checked.ok_bind])
    (fun hv hlt => by rw [hrow hv hlt]; exact hgated hv hlt), Checked.ok_bind]
  refine ⟨?_, ⟨?_, length_flatMap_range fun hv hlt => (hlen hv hlt).1⟩,
    length_flatMap_range hgated⟩
  · congr 3
    exact List.flatMap_congr fun hv hmem => by rw [hrow hv (List.mem_range.mp hmem)]
  · exact (shift_rows hwindow.ge).1.trans hs.window

end Token

end Qwen35

end Garuda
