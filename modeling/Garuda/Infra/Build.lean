import Garuda.Infra.Parser

/-!
# Unsigned arithmetic in two builds

A sum or a product of machine words that does not fit panics in a build with overflow checks, and
wraps in one without. A computation that panics in neither has wrapped nowhere.

* `Build.fit` is what either build makes of an unbounded result.
* `Safe f P` says that `f` panics in neither build, and that what it answers satisfies `P`.
-/

namespace Infra

/-- With overflow checks, or without. -/
inductive Build where
  | debug
  | release
  deriving DecidableEq, Repr

namespace Build

variable {ε : Type}

/-- A sum or a product of 64-bit words, from its unbounded value. -/
def fit (b : Build) (n : Nat) : Checked ε Nat :=
  if n < 2 ^ 64 then .ok n
  else
    match b with
    | debug => .panic
    | release => .ok (n % 2 ^ 64)

@[simp] theorem fit_of_lt (b : Build) {n : Nat} (h : n < 2 ^ 64) :
    (b.fit n : Checked ε Nat) = .ok n := if_pos h

@[simp] theorem debug_fit {n : Nat} (h : 2 ^ 64 ≤ n) : (debug.fit n : Checked ε Nat) = .panic :=
  if_neg (by omega)

@[simp] theorem release_fit (n : Nat) : (release.fit n : Checked ε Nat) = .ok (n % 2 ^ 64) := by
  by_cases h : n < 2 ^ 64
  · rw [fit_of_lt _ h, Nat.mod_eq_of_lt h]
  · exact if_neg h

theorem fit_eq_ok {b : Build} {n m : Nat} (h : (b.fit n : Checked ε Nat) = .ok m) :
    m = n % 2 ^ 64 := by
  by_cases hn : n < 2 ^ 64
  · rw [fit_of_lt b hn] at h
    cases h
    exact (Nat.mod_eq_of_lt hn).symm
  · cases b with
    | debug =>
      rw [debug_fit (Nat.not_lt.mp hn)] at h
      cases h
    | release =>
      rw [release_fit] at h
      cases h
      rfl

/-- A difference of 64-bit words. -/
def sub (b : Build) (x y : Nat) : Checked ε Nat :=
  if y ≤ x then .ok (x - y)
  else
    match b with
    | debug => .panic
    | release => .ok (2 ^ 64 + x - y)

@[simp] theorem sub_of_le (b : Build) {x y : Nat} (h : y ≤ x) :
    (b.sub x y : Checked ε Nat) = .ok (x - y) := if_pos h

/-- `as i32`. -/
def asI32 (n : Nat) : Int :=
  if n % 2 ^ 32 < 2 ^ 31 then (n % 2 ^ 32 : Nat) else ((n % 2 ^ 32 : Nat) : Int) - 2 ^ 32

/-- A sum or a difference of `i32`s, from its unbounded value. -/
def fitI32 (b : Build) (n : Int) : Checked ε Int :=
  if n.natAbs < 2 ^ 31 ∨ n = -2 ^ 31 then .ok n
  else
    match b with
    | debug => .panic
    | release => .ok (asI32 (n % 2 ^ 32).toNat)

theorem asI32_of_lt {n : Nat} (h : n < 2 ^ 31) : asI32 n = n := by
  have hr : n % 2 ^ 32 = n := by omega
  rw [asI32, hr]
  exact if_pos h

@[simp] theorem fitI32_of_lt (b : Build) {n : Int} (hlo : -1 ≤ n) (h : n < 2 ^ 31) :
    (b.fitI32 n : Checked ε Int) = .ok n := if_pos (by omega)

theorem debug_fitI32 {n : Int} (h : 2 ^ 31 ≤ n) : (debug.fitI32 n : Checked ε Int) = .panic :=
  if_neg (by omega)

/-- A sum, a difference or a product of `i64`s, from its unbounded value. -/
def fitI64 (b : Build) (n : Int) : Checked ε Int :=
  if -2 ^ 63 ≤ n ∧ n < 2 ^ 63 then .ok n
  else
    match b with
    | debug => .panic
    | release => .ok (n.bmod (2 ^ 64))

/-- What is a natural and fits is itself. -/
theorem fitI64_natCast (b : Build) {n : Int} (m : Nat) (h : n = m) (hm : m < 2 ^ 63) :
    (b.fitI64 n : Checked ε Int) = .ok (m : Int) := by
  subst h
  exact if_pos (by omega)

/-- A line whose result is a natural that fits goes on with it. -/
theorem fitI64_bind {α : Type} (b : Build) {n : Int} (m : Nat) (h : n = m) (hm : m < 2 ^ 63)
    (f : Int → Checked ε α) : (b.fitI64 n >>= f) = f m := by
  rw [fitI64_natCast b m h hm, Checked.ok_bind]

/-- `checked_add`, with the error that stands for `None`. -/
def checkedAdd (x y : Nat) (e : ε) : Checked ε Nat :=
  if x + y < 2 ^ 64 then .ok (x + y) else .err e

end Build

/-- No step panics or wraps, and the answer, if there is one, satisfies `P`. -/
structure Safe {ε α : Type} (f : Build → Checked ε α) (P : α → Prop) : Prop where
  total : ∀ b, f b ≠ .panic
  ok : ∀ b a, f b = .ok a → P a

namespace Safe

variable {ε α β : Type} {f : Build → Checked ε α} {P : α → Prop}

theorem of_eq {x : Checked ε α} (h : ∀ b, f b = x) (hx : x ≠ .panic) (hP : ∀ a, x = .ok a → P a) :
    Safe f P where
  total b := h b ▸ hx
  ok b a hb := hP a (h b ▸ hb)

theorem of_err {e : ε} (h : ∀ b, f b = .err e) : Safe f P :=
  of_eq h nofun nofun

theorem not_of_panic {b : Build} (h : f b = .panic) : ¬ Safe f P := fun hf => hf.total b h

end Safe

end Infra
