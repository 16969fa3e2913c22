import Garuda.Quant.Matmul
import Garuda.Runtime.Sampling

/-!
# Elementwise kernels

The rest of the dense kernels: what a layer does to a vector besides multiplying it. They are
defined over any `Analytic` numbers, so nothing is assumed of rounding.

Every one of them keeps the length of the vector it works on.
-/

namespace Garuda

open Infra Floats

/-- What the layers ask of `f32`. -/
class Analytic (K : Type) extends Rounds K, Weight K where
  num : Numerics K
  sqrt : K → K
  sin : K → K
  cos : K → K
  powf : K → K → K
  /-- `ln_1p` -/
  ln1p : K → K
  totalCmp : K → K → Ordering
  /-- `Iterator::sum` -/
  sum : List K → K

namespace Simd

variable {K : Type}

/-- `op(&mut a[i], b[i])`, as far as both go. -/
def assign (op : K → K → K) : List K → List K → List K
  | x :: a, y :: b => op x y :: assign op a b
  | a, _ => a

@[simp] theorem length_assign (op : K → K → K) : ∀ a b : List K,
    (assign op a b).length = a.length
  | _ :: a, _ :: b => congrArg (· + 1) (length_assign op a b)
  | [], _ => rfl
  | _ :: _, [] => rfl

section

variable [Analytic K]

/-- `a += b` -/
def addAssign (a b : List K) : List K := assign (· + ·) a b

/-- `a *= b`, elementwise -/
def mulAssign (a b : List K) : List K := assign (· * ·) a b

/-- Numerically stable softmax; the one the sampler uses. -/
def softmax (x : List K) : List K := Garuda.softmax Analytic.num x

/-- `x * sigmoid(x)` -/
def silu (v : K) : K := v / (ofInt 1 + Analytic.num.exp (-v))

/-- Root-mean-square norm. -/
def rmsnorm (eps : K) (x : List K) : List K :=
  if x.isEmpty then x
  else
    let meanSq := Analytic.sum (x.map fun v => v * v) / ofInt x.length
    let scale := ofInt 1 / Analytic.sqrt (meanSq + eps)
    x.map (· * scale)

/-- The pairs of a vector of `headDim` numbers, turned from the `i`-th on. -/
def ropeFrom (headDim pos : Nat) (theta : K) : Nat → List K → List K
  | i, a :: b :: rest =>
    let freq := ofInt 1 / Analytic.powf theta (ofInt 2 * ofInt i / ofInt headDim)
    let angle := ofInt pos * freq
    let sin := Analytic.sin angle
    let cos := Analytic.cos angle
    (a * cos - b * sin) :: (a * sin + b * cos) :: ropeFrom headDim pos theta (i + 1) rest
  | _, rest => rest

/-- Rotary position embedding of one head's vector. -/
def rope (pos : Nat) (theta : K) (v : List K) : List K := ropeFrom v.length pos theta 0 v

/-- `x += row`, for each of the vectors, of `d` numbers. -/
def addRows {ε : Type} (d : Nat) (sums : List K) (xs : List (List K)) :
    Checked ε (List (List K)) :=
  xs.zipIdx.mapM fun (x, i) => do
    let row ← rowAt d i sums
    .ok (addAssign x row)

/-! ## Lengths -/

@[simp] theorem length_addAssign (a b : List K) : (addAssign a b).length = a.length :=
  length_assign _ a b

@[simp] theorem length_mulAssign (a b : List K) : (mulAssign a b).length = a.length :=
  length_assign _ a b

@[simp] theorem length_softmax (x : List K) : (softmax x).length = x.length :=
  Garuda.length_softmax _ x

@[simp] theorem length_rmsnorm (eps : K) (x : List K) : (rmsnorm eps x).length = x.length := by
  rw [rmsnorm]
  split
  · rfl
  · rw [List.length_map]

theorem length_ropeFrom (headDim pos : Nat) (theta : K) : ∀ (i : Nat) (v : List K),
    (ropeFrom headDim pos theta i v).length = v.length
  | i, a :: b :: rest => by
    rw [ropeFrom, List.length_cons, List.length_cons, length_ropeFrom headDim pos theta (i + 1) rest]
    rfl
  | _, [] => rfl
  | _, [_] => rfl

@[simp] theorem length_rope (pos : Nat) (theta : K) (v : List K) :
    (rope pos theta v).length = v.length := length_ropeFrom ..

/-! ## Rows -/

omit [Analytic K] in
theorem assign_append (op : K → K → K) : ∀ {a b : List K} (a' b' : List K), a.length = b.length →
    assign op (a ++ a') (b ++ b') = assign op a b ++ assign op a' b'
  | x :: a, y :: b, a', b', h => by
    rw [List.cons_append, List.cons_append, assign, assign_append op a' b' (by simpa using h)]
    rfl
  | [], [], _, _, _ => rfl

omit [Analytic K] in
/-- Row by row. -/
theorem assign_each {α : Type} (op : K → K → K) {l : List α} {f g : α → List K}
    (h : ∀ x ∈ l, (f x).length = (g x).length) :
    assign op (l.flatMap f) (l.flatMap g) = l.flatMap fun x => assign op (f x) (g x) := by
  induction l with
  | nil => rfl
  | cons x l ih =>
    rw [List.forall_mem_cons] at h
    rw [List.flatMap_cons, List.flatMap_cons, List.flatMap_cons, assign_append op _ _ h.1, ih h.2]

theorem addRows_eq {ε α : Type} {d : Nat} {l : List α} {x f : α → List K}
    (hf : ∀ a ∈ l, (f a).length = d) :
    (addRows d (l.flatMap f) (l.map x) : Checked ε _)
      = .ok (l.map fun a => addAssign (x a) (f a)) := by
  have hget : ∀ p ∈ (l.map x).zipIdx, (rowAt d p.2 (l.flatMap f) >>= fun row =>
      .ok (addAssign p.1 row) : Checked ε (List K))
      = .ok (addAssign p.1 ((l[p.2]?).elim [] f)) := by
    rintro ⟨y, i⟩ hp
    have hi := List.mem_zipIdx_iff_getElem?.mp hp
    dsimp only at hi ⊢
    rw [List.getElem?_map, Option.map_eq_some_iff] at hi
    obtain ⟨a, ha, rfl⟩ := hi
    rw [rowAt_each hf ha, Checked.ok_bind, ha]
    rfl
  rw [addRows, Checked.mapM_eq_ok hget]
  congr 1
  refine List.ext_getElem? fun i => ?_
  rw [List.getElem?_map, List.getElem?_map, List.getElem?_zipIdx, List.getElem?_map]
  cases ha : l[i]? with
  | none => rfl
  | some a => simp [ha]

end

end Simd

end Garuda
