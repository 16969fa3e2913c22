import Garuda.Infra.RowMajor

/-!
# The rolling convolution

A recurrent layer convolves each channel with its last inputs, of which it keeps all but the
newest: a window per channel, oldest first, zeroed on first use.

* `runTokens` and `runBatches` are the code, token by token and batch by batch.
* `fullConv` is the causal convolution of a whole sequence with zeros in front.

`runBatches_eq` says that any split into batches computes it, and what window is left behind.
-/

namespace Garuda.Qwen35

open Infra

variable {K : Type}

section Code

variable [Zero K] [Add K] [Mul K]

/-- One channel: the newest input first, then the window from its oldest on. -/
def tapSum (kernel : Nat) (taps hist : List K) (now : K) : K :=
  (taps.zip hist).foldl (fun acc (tap, h) => acc + tap * h) (taps.getD (kernel - 1) 0 * now)

/-- Every channel of one token. -/
def convolve (kernel : Nat) (conv window raw : List K) : List K :=
  raw.zipIdx.map fun (now, c) =>
    tapSum kernel (rowOf kernel c conv) (rowOf (kernel - 1) c window) now

/-- The oldest input makes way for the newest: `rotate_left(1)`, and the last place is written. -/
def push (kernel : Nat) (hist : List K) (now : K) : List K := (hist.rotate 1).set (kernel - 2) now

def shift (kernel : Nat) (window raw : List K) : List K :=
  raw.zipIdx.foldl (fun window (now, c) =>
    setRow (kernel - 1) c (push kernel (rowOf (kernel - 1) c window) now) window) window

/-- `SeqState::linear`, of which the window is looked at: zeroed on first use, and an error if it
has another shape. -/
def windowAt (convLen : Nat) : Option (List K) → Option (List K)
  | none => some (List.replicate convLen 0)
  | some window => if window.length ≠ convLen then none else some window

/-- The tokens of one batch: their outputs, and what the layer holds afterwards. -/
def runTokens (kernel cDim : Nat) (conv : List K) (silu : K → K) :
    Option (List K) → List (List K) → Option (List (List K) × Option (List K))
  | slot, [] => some ([], slot)
  | slot, raw :: rest => do
    let window ← windowAt (cDim * (kernel - 1)) slot
    let y := (convolve kernel conv window raw).map silu
    let (ys, slot) ← runTokens kernel cDim conv silu (some (shift kernel window raw)) rest
    some (y :: ys, slot)

def runBatches (kernel cDim : Nat) (conv : List K) (silu : K → K) :
    Option (List K) → List (List (List K)) → Option (List (List K) × Option (List K))
  | slot, [] => some ([], slot)
  | slot, batch :: rest => do
    let (ys, slot) ← runTokens kernel cDim conv silu slot batch
    let (more, slot) ← runBatches kernel cDim conv silu slot rest
    some (ys ++ more, slot)

end Code

/-! ## Batches -/

section Batches

variable [Zero K] [Add K] [Mul K] {kernel cDim : Nat} {conv : List K} {silu : K → K}

theorem runTokens_append (xs ys : List (List K)) (slot : Option (List K)) :
    runTokens kernel cDim conv silu slot (xs ++ ys) = (do
      let (out, slot) ← runTokens kernel cDim conv silu slot xs
      let (more, slot) ← runTokens kernel cDim conv silu slot ys
      some (out ++ more, slot)) := by
  induction xs generalizing slot with
  | nil =>
    rw [List.nil_append, runTokens]
    simp
  | cons raw xs ih =>
    rw [List.cons_append, runTokens, runTokens]
    cases windowAt (cDim * (kernel - 1)) slot with
    | none => rfl
    | some window => simp [ih, Option.bind_assoc]

/-- How the tokens are split into batches makes no difference. -/
theorem runBatches_flatten (batches : List (List (List K))) (slot : Option (List K)) :
    runBatches kernel cDim conv silu slot batches
      = runTokens kernel cDim conv silu slot batches.flatten := by
  induction batches generalizing slot with
  | nil => rfl
  | cons batch batches ih =>
    rw [runBatches, List.flatten_cons, runTokens_append]
    simp only [ih]

end Batches

/-! ## The window -/

/-- The sequence behind `kernel - 1` zero vectors. -/
def padded [Zero K] (kernel cDim : Nat) (xs : List (List K)) : List (List K) :=
  List.replicate (kernel - 1) (List.replicate cDim 0) ++ xs

/-- The inputs of channel `c`. -/
def channel [Zero K] (c : Nat) (xs : List (List K)) : List K := xs.map fun x => x.getD c 0

/-- The window holds the last `kernel - 1` vectors of the padded sequence. -/
structure Window [Zero K] (kernel cDim : Nat) (xs : List (List K)) (window : List K) : Prop where
  length : window.length = cDim * (kernel - 1)
  rows : ∀ c, c < cDim →
    rowOf (kernel - 1) c window = channel c ((padded kernel cDim xs).drop xs.length)

section Shift

variable {kernel cDim : Nat}

theorem push_eq {hist : List K} (hk : 2 ≤ kernel) (h : hist.length = kernel - 1) (now : K) :
    push kernel hist now = hist.drop 1 ++ [now] := by
  cases hist with
  | nil =>
    rw [List.length_nil] at h
    omega
  | cons a hist =>
    rw [List.length_cons] at h
    have hlen : kernel - 2 = hist.length := by omega
    rw [push, List.rotate_cons_succ, List.rotate_zero, hlen,
      List.set_append_right _ _ (Nat.le_refl _)]
    simp

theorem length_push {hist : List K} (h : hist.length = kernel - 1) (now : K) :
    (push kernel hist now).length = kernel - 1 := by
  rw [push, List.length_set, List.length_rotate, h]

theorem shift_concat (window raw : List K) (now : K) :
    shift kernel window (raw ++ [now])
      = setRow (kernel - 1) raw.length
          (push kernel (rowOf (kernel - 1) raw.length (shift kernel window raw)) now)
          (shift kernel window raw) := by
  simp only [shift, List.zipIdx_append, List.foldl_append, Nat.zero_add]
  rfl

variable [Zero K]

/-- What a shift does to the row of a channel. The induction is on the channels shifted so far. -/
theorem shift_rows {kernel : Nat} {window raw : List K}
    (hlen : raw.length * (kernel - 1) ≤ window.length) :
    (shift kernel window raw).length = window.length ∧ ∀ c,
      rowOf (kernel - 1) c (shift kernel window raw)
        = if c < raw.length then push kernel (rowOf (kernel - 1) c window) (raw.getD c 0)
          else rowOf (kernel - 1) c window := by
  induction raw using List.reverseRecOn with
  | nil => exact ⟨rfl, fun c => rfl⟩
  | append_singleton raw now ih =>
    rw [List.length_append, List.length_singleton] at hlen
    obtain ⟨hsame, hrows⟩ := ih ((Nat.mul_le_mul_right _ (Nat.le_succ _)).trans hlen)
    have hle : (raw.length + 1) * (kernel - 1) ≤ (shift kernel window raw).length := by
      rw [hsame]
      exact hlen
    have hpush := length_push (length_rowOf hle) now
    rw [shift_concat]
    refine ⟨(length_setRow hpush hle).trans hsame, fun c => ?_⟩
    rw [List.length_append, List.length_singleton]
    rcases Nat.lt_trichotomy c raw.length with hlt | rfl | hgt
    · rw [rowOf_setRow_ne hpush hle (Nat.ne_of_lt hlt), hrows, if_pos hlt,
        if_pos (Nat.lt_succ_of_lt hlt), List.getD_append _ _ _ _ hlt]
    · rw [rowOf_setRow_self hpush hle, hrows, if_neg (lt_irrefl _), if_pos (Nat.lt_succ_self _)]
      simp [List.getD_eq_getElem?_getD]
    · rw [rowOf_setRow_ne hpush hle (Nat.ne_of_gt hgt), hrows, if_neg (by omega),
        if_neg (by omega)]

theorem length_padded (kernel cDim : Nat) (xs : List (List K)) :
    (padded kernel cDim xs).length = kernel - 1 + xs.length := by
  rw [padded, List.length_append, List.length_replicate]

theorem padded_concat (kernel cDim : Nat) (xs : List (List K)) (x : List K) :
    padded kernel cDim (xs ++ [x]) = padded kernel cDim xs ++ [x] := by
  rw [padded, padded, List.append_assoc]

theorem window_zeros (kernel cDim : Nat) :
    Window kernel cDim [] (List.replicate (cDim * (kernel - 1)) (0 : K)) := by
  refine ⟨List.length_replicate, fun c hc => ?_⟩
  have hle := row_le (w := kernel - 1) hc
  have hlen : (rowOf (kernel - 1) c (List.replicate (cDim * (kernel - 1)) (0 : K))).length
      = kernel - 1 := length_rowOf (by rw [List.length_replicate]; exact hle)
  have hrow : rowOf (kernel - 1) c (List.replicate (cDim * (kernel - 1)) (0 : K))
      = List.replicate (kernel - 1) 0 := by
    rw [List.eq_replicate_iff]
    refine ⟨hlen, fun x hx => ?_⟩
    exact List.eq_of_mem_replicate (List.mem_of_mem_drop (List.mem_of_mem_take hx))
  rw [hrow, List.length_nil, List.drop_zero, padded, List.append_nil, channel, List.map_replicate]
  congr 1
  simp [List.getD_eq_getElem?_getD, hc]

/-- **One more token moves the window on by one.** -/
theorem Window.shift {xs : List (List K)} {window x : List K} (h : Window kernel cDim xs window)
    (hk : 2 ≤ kernel) (hx : x.length = cDim) :
    Window kernel cDim (xs ++ [x]) (Qwen35.shift kernel window x) := by
  have hfit : x.length * (kernel - 1) ≤ window.length := by rw [h.length, hx]
  obtain ⟨hlen, hrows⟩ := shift_rows hfit
  refine ⟨hlen.trans h.length, fun c hc => ?_⟩
  have hrow : (rowOf (kernel - 1) c window).length = kernel - 1 :=
    length_rowOf (by rw [h.length]; exact row_le hc)
  have hdrop : ((padded kernel cDim xs).drop xs.length).length = kernel - 1 := by
    rw [List.length_drop, length_padded]
    omega
  rw [hrows, if_pos (by rw [hx]; exact hc), push_eq hk hrow, h.rows c hc, padded_concat,
    List.length_append, List.length_singleton, ← List.drop_drop, List.drop_append_of_le_length
    (by rw [length_padded]; omega), List.drop_append_of_le_length (by rw [hdrop]; omega)]
  simp [channel]

end Shift

/-! ## The outputs -/

section Outputs

variable [NonUnitalNonAssocSemiring K] {kernel cDim : Nat} {conv : List K} {silu : K → K}

/-- The causal convolution of channel `c` at position `t`, where `p` is the padded sequence. -/
def convAt (kernel : Nat) (conv : List K) (p : List (List K)) (t c : Nat) : K :=
  ∑ i ∈ Finset.range kernel, entry kernel conv c i * (p.getD (t + i) []).getD c 0

/-- The causal depthwise convolution of the whole sequence. -/
def fullConv (kernel cDim : Nat) (conv : List K) (xs : List (List K)) : List (List K) :=
  (List.range xs.length).map fun t =>
    (List.range cDim).map (convAt kernel conv (padded kernel cDim xs) t)

theorem foldl_zip (a b : List K) (init : K) (h : b.length ≤ a.length) :
    (a.zip b).foldl (fun acc (x, y) => acc + x * y) init
      = init + ∑ i ∈ Finset.range b.length, a.getD i 0 * b.getD i 0 := by
  induction b generalizing a init with
  | nil => simp
  | cons y b ih =>
    cases a with
    | nil =>
      rw [List.length_nil, List.length_cons] at h
      omega
    | cons x a =>
      rw [List.zip_cons_cons, List.foldl_cons, ih a _ (Nat.le_of_succ_le_succ h), List.length_cons,
        Finset.sum_range_succ', add_assoc, add_comm (∑ i ∈ Finset.range b.length, _)]
      rfl

/-- A channel's taps run over the window and the newest input. -/
theorem tapSum_eq {taps hist : List K} (hk : 1 ≤ kernel) (htaps : taps.length = kernel)
    (hhist : hist.length = kernel - 1) (now : K) : tapSum kernel taps hist now
      = ∑ i ∈ Finset.range kernel, taps.getD i 0 * (hist ++ [now]).getD i 0 := by
  obtain ⟨n, rfl⟩ := Nat.exists_eq_add_of_le' hk
  rw [Nat.add_sub_cancel] at hhist
  have hlast : (hist ++ [now]).getD n 0 = now := by
    simp [List.getD_eq_getElem?_getD, ← hhist]
  have hsum : ∑ i ∈ Finset.range n, taps.getD i 0 * (hist ++ [now]).getD i 0
      = ∑ i ∈ Finset.range n, taps.getD i 0 * hist.getD i 0 :=
    Finset.sum_congr rfl fun i hi => by
      rw [List.getD_append _ _ _ _ (by rw [hhist]; exact Finset.mem_range.mp hi)]
  rw [tapSum, foldl_zip _ _ _ (by omega), hhist, Finset.sum_range_succ, hsum, hlast, add_comm,
    Nat.add_sub_cancel]

theorem getD_channel {c j : Nat} {xs : List (List K)} (hj : j < xs.length) :
    (channel c xs).getD j 0 = (xs.getD j []).getD c 0 := by
  simp [channel, List.getD_eq_getElem?_getD, hj]

/-- **A token's output is the convolution at its position.** -/
theorem convolve_eq {xs : List (List K)} {window x : List K} (h : Window kernel cDim xs window)
    (hk : 2 ≤ kernel) (hconv : conv.length = cDim * kernel) (hx : x.length = cDim) :
    convolve kernel conv window x
      = (List.range cDim).map (convAt kernel conv (padded kernel cDim (xs ++ [x])) xs.length) := by
  refine List.ext_getElem? fun c => ?_
  by_cases hc : c < cDim
  · have hrow : (rowOf (kernel - 1) c window).length = kernel - 1 :=
      length_rowOf (by rw [h.length]; exact row_le hc)
    have htaps : (rowOf kernel c conv).length = kernel :=
      length_rowOf (by rw [hconv]; exact row_le hc)
    have hinputs : rowOf (kernel - 1) c window ++ [x.getD c 0]
        = channel c ((padded kernel cDim (xs ++ [x])).drop xs.length) := by
      rw [h.rows c hc, padded_concat,
        List.drop_append_of_le_length (by rw [length_padded]; omega), channel, channel,
        List.map_append]
      rfl
    have hlen : ((padded kernel cDim (xs ++ [x])).drop xs.length).length = kernel := by
      rw [List.length_drop, length_padded, List.length_append, List.length_singleton]
      omega
    have hnow : x[c]? = some (x.getD c 0) := by
      rw [List.getD_eq_getElem?_getD, List.getElem?_eq_getElem (by rw [hx]; exact hc)]
      rfl
    rw [convolve, List.getElem?_map, List.getElem?_zipIdx, hnow, List.getElem?_map,
      List.getElem?_range hc]
    simp only [Option.map_some, Nat.zero_add]
    rw [tapSum_eq (by omega) htaps hrow, hinputs, convAt]
    refine congrArg some (Finset.sum_congr rfl fun i hi => ?_)
    have hi' := Finset.mem_range.mp hi
    rw [getD_rowOf _ hi', getD_channel (by rw [hlen]; exact hi')]
    congr 2
    simp [List.getD_eq_getElem?_getD]
  · rw [List.getElem?_eq_none, List.getElem?_eq_none]
    · simpa using hc
    · simpa [convolve, hx] using hc

/-- A later token changes no earlier output. -/
theorem fullConv_concat (xs : List (List K)) (x : List K) :
    fullConv kernel cDim conv (xs ++ [x]) = fullConv kernel cDim conv xs ++
      [(List.range cDim).map (convAt kernel conv (padded kernel cDim (xs ++ [x])) xs.length)] := by
  rw [fullConv, List.length_append, List.length_singleton, List.range_succ, List.map_append,
    List.map_singleton, fullConv]
  congr 1
  refine List.map_congr_left fun t ht => List.map_congr_left fun c _ => ?_
  refine Finset.sum_congr rfl fun i hi => ?_
  have hlt : t + i < (padded kernel cDim xs).length := by
    rw [length_padded]
    have ht' := List.mem_range.mp ht
    have hi' := Finset.mem_range.mp hi
    omega
  rw [padded_concat, List.getD_append _ _ _ _ hlt]

/-- What the layer holds, allocated or not, is the window behind `xs`. -/
def Holds (kernel cDim : Nat) (xs : List (List K)) (slot : Option (List K)) : Prop :=
  ∃ window, windowAt (cDim * (kernel - 1)) slot = some window ∧ Window kernel cDim xs window

theorem holds_some {xs : List (List K)} {window : List K} (h : Window kernel cDim xs window) :
    Holds kernel cDim xs (some window) :=
  ⟨window, by rw [windowAt, if_neg (not_not.mpr h.length)], h⟩

/-- **A run over the tokens computes the full convolution**, and leaves the window behind them. The
induction is on the tokens read so far. -/
theorem runTokens_eq (hk : 2 ≤ kernel) (hconv : conv.length = cDim * kernel)
    (xs : List (List K)) (hxs : ∀ x ∈ xs, x.length = cDim) :
    ∃ slot, runTokens kernel cDim conv silu none xs
        = some ((fullConv kernel cDim conv xs).map (List.map silu), slot) ∧
      Holds kernel cDim xs slot := by
  induction xs using List.reverseRecOn with
  | nil => exact ⟨none, rfl, _, rfl, window_zeros kernel cDim⟩
  | append_singleton xs x ih =>
    obtain ⟨slot, hrun, window, hwindow, hholds⟩ :=
      ih fun y hy => hxs y (List.mem_append_left _ hy)
    have hx := hxs x (List.mem_append_right _ (List.mem_singleton_self x))
    refine ⟨some (shift kernel window x), ?_, holds_some (hholds.shift hk hx)⟩
    rw [runTokens_append, hrun]
    simp only [Option.bind_eq_bind, Option.bind_some, runTokens, hwindow,
      convolve_eq hholds hk hconv hx, fullConv_concat, List.map_append, List.map_singleton]

/-- **The incremental convolution is the full one**, however the tokens are split into batches. -/
theorem runBatches_eq (hk : 2 ≤ kernel) (hconv : conv.length = cDim * kernel)
    (batches : List (List (List K))) (hxs : ∀ batch ∈ batches, ∀ x ∈ batch, x.length = cDim) :
    ∃ slot, runBatches kernel cDim conv silu none batches
        = some ((fullConv kernel cDim conv batches.flatten).map (List.map silu), slot) ∧
      Holds kernel cDim batches.flatten slot := by
  rw [runBatches_flatten]
  refine runTokens_eq hk hconv batches.flatten fun x hx => ?_
  obtain ⟨batch, hbatch, hx⟩ := List.mem_flatten.mp hx
  exact hxs batch hbatch x hx

/-- Two channels, three taps each, and a sequence shorter than the kernel. -/
theorem runBatches_eq_short : ∃ slot,
    runBatches 3 2 [1, 2, 3, 4, 5, 6] (fun y => y) none [[], [[(1 : ℚ), 10]], [[2, 20]]]
      = some ((fullConv 3 2 [1, 2, 3, 4, 5, 6] [[1, 10], [2, 20]]).map (List.map fun y => y), slot) ∧
    Holds 3 2 [[(1 : ℚ), 10], [2, 20]] slot :=
  runBatches_eq (by decide) rfl [[], [[1, 10]], [[2, 20]]] (by decide)

example : fullConv 3 2 [(1 : ℚ), 2, 3, 4, 5, 6] [[1, 10], [2, 20]] = [[3, 60], [8, 170]] := by
  decide +kernel

end Outputs

end Garuda.Qwen35
