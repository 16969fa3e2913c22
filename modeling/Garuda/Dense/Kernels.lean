import Garuda.Infra.Build
import Garuda.Infra.RowMajor
import Garuda.Infra.Workers

/-!
# Dense kernels

The loops over slices that the layers are made of. The numbers are a parameter, and so is the dot
product of two slices.

* `addScaled` is `a += b * k`.
* `matvec` and `matmul` are products with a matrix stored row by row, of one vector and of many.

`matvec_eq` and `matmul_eq` say what they write, however the rows are divided among the workers.
-/

namespace Garuda.Simd

open Infra

variable {K : Type}

/-- `a += b * k` -/
def addScaled [Add K] [Mul K] : List K → List K → K → List K
  | x :: a, y :: b, k => (x + y * k) :: addScaled a b k
  | a, _, _ => a

theorem length_addScaled [Add K] [Mul K] (k : K) : ∀ a b : List K,
    (addScaled a b k).length = a.length
  | _ :: a, _ :: b => congrArg (· + 1) (length_addScaled k a b)
  | [], _ => rfl
  | _ :: _, [] => rfl

theorem getD_addScaled [NonUnitalNonAssocSemiring K] (k : K) : ∀ {a b : List K} {j : Nat},
    j < a.length → j < b.length → (addScaled a b k).getD j 0 = a.getD j 0 + b.getD j 0 * k
  | _ :: _, _ :: _, 0, _, _ => rfl
  | x :: a, y :: b, j + 1, ha, hb => by
    show (addScaled a b k).getD j 0 = a.getD j 0 + b.getD j 0 * k
    exact getD_addScaled k (Nat.lt_of_succ_lt_succ ha) (Nat.lt_of_succ_lt_succ hb)

/-! ## Products -/

section Products

variable {ε : Type}

/-- Fewer rows than this are not worth handing to other threads. -/
def parRowThreshold : Nat := 64

/-- `out[r] = dot(m[r], x)`; lengths that disagree are a bug in the caller. -/
def matvec (dot : List K → List K → K) (b : Build) (plan : Split) (m : List K) (rows cols : Nat)
    (x out : List K) : Checked ε (List K) := do
  let cells ← b.fit (rows * cols)
  if m.length ≠ cells ∨ x.length ≠ cols ∨ out.length ≠ rows then .panic
  else do
    let mrows ← chunks cols m
    let plan := if parRowThreshold ≤ rows then plan else .whole
    single (fun () (_, row) => .ok (dot row x, ())) () plan mrows out

/-- `out[b * rows + r] = dot(m[r], xs[b])` for `n` vectors at once. -/
def matmul [Zero K] (dot : List K → List K → K) (b : Build) (plan : Split) (m : List K)
    (rows cols : Nat) (xs : List K) (n : Nat) (out : List K) : Checked ε (List K) := do
  let cells ← b.fit (rows * cols)
  let inLen ← b.fit (n * cols)
  let outLen ← b.fit (n * rows)
  if m.length ≠ cells ∨ xs.length ≠ inLen ∨ out.length ≠ outLen then .panic
  else if n = 1 then matvec dot b plan m rows cols xs out
  else do
    -- as many as `out` has places, so that there is memory for them
    let places ← b.fit (rows * n)
    let mrows ← chunks cols m
    let plan := if parRowThreshold ≤ rows then plan else .whole
    let compute := fun () (dst, row) => do
      let dst ← (List.range dst.length).mapM fun b => do
        let x ← rowAt cols b xs
        .ok (dot row x)
      .ok (dst, ())
    batched compute () plan mrows n (List.replicate places 0) out

variable {dot : List K → List K → K} {b : Build} {plan : Split} {m x xs out : List K}
  {rows cols n : Nat}

theorem matvec_eq (hm : m.length = rows * cols) (hx : x.length = cols) (hout : out.length = rows)
    (hfit : m.length < 2 ^ 64) (hcols : 0 < cols) :
    (matvec dot b plan m rows cols x out : Checked ε (List K))
      = .ok ((List.range rows).map fun r => dot (rowOf cols r m) x) := by
  rw [matvec, Build.fit_of_lt b (hm ▸ hfit), Checked.ok_bind,
    if_neg (by simp [hm, hx, hout]), chunks_eq hcols hm, Checked.ok_bind]
  dsimp only
  rw [single_eq (f := fun row => dot row x) (fun _ => True) trivial
    (fun _ _ _ _ _ => ⟨(), rfl, trivial⟩) (by simp [hout]), List.map_map]
  rfl

/-- Rows of no entries cannot be told apart. -/
theorem matvec_zero (hm : m.length = rows * 0) (hx : x.length = 0) (hout : out.length = rows) :
    (matvec dot b plan m rows 0 x out : Checked ε (List K)) = .panic := by
  rw [matvec, Build.fit_of_lt b (by omega), Checked.ok_bind, if_neg (by simp [hm, hx, hout]),
    chunks_zero, Checked.panic_bind]

/-- **A row's results for all vectors come to stand where each vector has its own.** -/
theorem matmul_eq [Zero K] (hm : m.length = rows * cols) (hxs : xs.length = n * cols)
    (hout : out.length = n * rows) (hfit : m.length < 2 ^ 64) (hxfit : xs.length < 2 ^ 64)
    (hofit : out.length < 2 ^ 64) (hn : 0 < n) (hcols : 0 < cols) :
    (matmul dot b plan m rows cols xs n out : Checked ε (List K))
      = .ok ((List.range n).flatMap fun t => (List.range rows).map fun r =>
          dot (rowOf cols r m) (rowOf cols t xs)) := by
  rw [matmul, Build.fit_of_lt b (hm ▸ hfit), Checked.ok_bind, Build.fit_of_lt b (hxs ▸ hxfit),
    Checked.ok_bind, Build.fit_of_lt b (hout ▸ hofit), Checked.ok_bind,
    if_neg (by simp [hm, hxs, hout])]
  rcases eq_or_ne n 1 with rfl | hmany
  · rw [if_pos rfl, matvec_eq hm (by omega) (by omega) hfit hcols]
    simp [rowOf_zero_one hxs]
  · rw [if_neg hmany, Build.fit_of_lt b (Nat.mul_comm n rows ▸ hout ▸ hofit), Checked.ok_bind,
      chunks_eq hcols hm, Checked.ok_bind]
    dsimp only
    refine batched_eq (g := fun row t => dot row (rowOf cols t xs)) (fun _ => True) trivial
      (fun _ dst r _ hdst _ => ⟨(), ?_, trivial⟩) hn List.length_replicate hout _
    rw [hdst, Checked.mapM_eq_ok fun t ht => by rw [rowAt_eq hxs (List.mem_range.mp ht)]; rfl]
    rfl

theorem matmul_zero [Zero K] (hm : m.length = rows * 0) (hxs : xs.length = n * 0)
    (hout : out.length = n * rows) (hofit : out.length < 2 ^ 64) :
    (matmul dot b plan m rows 0 xs n out : Checked ε (List K)) = .panic := by
  rw [matmul, Build.fit_of_lt b (by omega), Checked.ok_bind, Build.fit_of_lt b (by omega),
    Checked.ok_bind, Build.fit_of_lt b (hout ▸ hofit), Checked.ok_bind,
    if_neg (by simp [hm, hxs, hout])]
  rcases eq_or_ne n 1 with rfl | hmany
  · rw [if_pos rfl, matvec_zero hm (by omega) (by omega)]
  · rw [if_neg hmany, Build.fit_of_lt b (Nat.mul_comm n rows ▸ hout ▸ hofit), Checked.ok_bind,
      chunks_zero, Checked.panic_bind]

end Products

end Garuda.Simd
