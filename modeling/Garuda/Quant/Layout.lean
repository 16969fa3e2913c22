import Garuda.Core.Types
import Garuda.Infra.Build

/-!
# Block layouts

GGUF stores a quantised tensor in blocks of a fixed number of elements and bytes.

* `blockLayout` gives both for a supported type.
* `byteSize` is how many bytes a number of elements takes, as either build computes it.
* `dataBytes` is the same in unbounded arithmetic.
-/

namespace Garuda

open Infra

/-- An error as it prints. -/
def GarudaError.show : GarudaError → String
  | .io msg => s!"i/o error: {msg}"
  | .storage msg => s!"storage error: {msg}"
  | .inference msg => s!"inference error: {msg}"
  | .scheduler msg => s!"scheduler error: {msg}"
  | .cache msg => s!"cache error: {msg}"
  | .model msg => s!"model error: {msg}"
  | .invalidToken t => s!"token id {t.toNat} is outside the vocabulary"
  | .config msg => s!"configuration error: {msg}"
  | .timeout => "request timed out"
  | .cancelled => "request cancelled"
  | .busy => "server is at capacity, retry later"
  | .rateLimit => "too many concurrent requests for this user"

namespace Quant

/-! ## Types -/

def f32 : UInt32 := 0
def f16 : UInt32 := 1
def q4_0 : UInt32 := 2
def q8_0 : UInt32 := 8
def q2_K : UInt32 := 10
def q3_K : UInt32 := 11
def q4_K : UInt32 := 12
def q5_K : UInt32 := 13
def q6_K : UInt32 := 14

/-- Elements per block for the legacy linear quants. -/
def qk : Nat := 32

/-- Elements per super-block for the k-quants. -/
def qkK : Nat := 256

/-- Elements and bytes per block of a supported type. -/
def blockLayout (ggmlType : UInt32) : Option (Nat × Nat) :=
  if ggmlType = f32 then some (1, 4)
  else if ggmlType = f16 then some (1, 2)
  else if ggmlType = q4_0 then some (qk, 2 + qk / 2)
  else if ggmlType = q8_0 then some (qk, 2 + qk)
  else if ggmlType = q2_K then some (qkK, qkK / 16 + qkK / 4 + 2 + 2)
  else if ggmlType = q3_K then some (qkK, qkK / 8 + qkK / 4 + 12 + 2)
  else if ggmlType = q4_K then some (qkK, 2 + 2 + 12 + qkK / 2)
  else if ggmlType = q5_K then some (qkK, 2 + 2 + 12 + qkK / 8 + qkK / 2)
  else if ggmlType = q6_K then some (qkK, qkK / 2 + qkK / 4 + qkK / 16 + 2)
  else none

/-- Human name for a ggml type, for error messages. -/
def typeName (ggmlType : UInt32) : String :=
  match ggmlType with
  | 0 => "F32"
  | 1 => "F16"
  | 2 => "Q4_0"
  | 3 => "Q4_1"
  | 6 => "Q5_0"
  | 7 => "Q5_1"
  | 8 => "Q8_0"
  | 10 => "Q2_K"
  | 11 => "Q3_K"
  | 12 => "Q4_K"
  | 13 => "Q5_K"
  | 14 => "Q6_K"
  | _ => "unknown"

def unsupported (ggmlType : UInt32) : GarudaError :=
  .model (s!"tensor type {typeName ggmlType} ({ggmlType.toNat}) is not supported; F32, F16, "
    ++ "Q4_0/Q8_0 and the k-quants Q2_K/Q3_K/Q4_K/Q5_K/Q6_K decode today (the *_1 linear quants "
    ++ "and the IQ imatrix quants need their own decoders)")

theorem blockLayout_pos {ggmlType : UInt32} {elems bytes : Nat}
    (h : blockLayout ggmlType = some (elems, bytes)) : 0 < elems ∧ 0 < bytes := by
  simp only [blockLayout, qk, qkK] at h
  repeat' split at h
  all_goals first
    | (simp only [Option.some.injEq, Prod.mk.injEq] at h; omega)
    | cases h

/-! ## Lengths -/

def notWhole (ggmlType : UInt32) (n elems : Nat) : GarudaError :=
  .model s!"{typeName ggmlType} tensor has {n} elements, not a multiple of the block size {elems}"

/-- The number of bytes that `n` elements of `ggmlType` occupy on disk. -/
def byteSize (b : Build) (ggmlType : UInt32) (n : Nat) : Checked GarudaError Nat :=
  match blockLayout ggmlType with
  | none => .err (unsupported ggmlType)
  | some (elems, bytes) =>
    if n % elems ≠ 0 then .err (notWhole ggmlType n elems)
    else b.fit (n / elems * bytes)

/-- The bytes of `n` elements without a bound; `none` for an unsupported type or a broken block. -/
def dataBytes (ggmlType : UInt32) (n : Nat) : Option Nat :=
  match blockLayout ggmlType with
  | none => none
  | some (elems, bytes) => if n % elems = 0 then some (n / elems * bytes) else none

theorem dataBytes_eq_some {ggmlType : UInt32} {n m : Nat} :
    dataBytes ggmlType n = some m ↔ ∃ elems bytes, blockLayout ggmlType = some (elems, bytes) ∧
      n % elems = 0 ∧ n / elems * bytes = m := by
  unfold dataBytes
  cases blockLayout ggmlType with
  | none => simp
  | some l =>
    obtain ⟨elems, bytes⟩ := l
    simp [and_assoc]

theorem byteSize_of_dataBytes {ggmlType : UInt32} {n m : Nat} (b : Build)
    (h : dataBytes ggmlType n = some m) : byteSize b ggmlType n = b.fit m := by
  obtain ⟨elems, bytes, hlayout, hn, rfl⟩ := dataBytes_eq_some.mp h
  simp [byteSize, hlayout, hn]

/-- A matrix of whole rows takes its rows' bytes. -/
theorem dataBytes_mul {ggmlType : UInt32} {rows cols m : Nat}
    (h : dataBytes ggmlType cols = some m) : dataBytes ggmlType (rows * cols) = some (rows * m) := by
  obtain ⟨elems, bytes, hlayout, hcols, rfl⟩ := dataBytes_eq_some.mp h
  have hdvd : elems ∣ cols := Nat.dvd_of_mod_eq_zero hcols
  have hrows : rows * cols % elems = 0 :=
    Nat.mod_eq_zero_of_dvd (Nat.dvd_mul_left_of_dvd hdvd rows)
  refine dataBytes_eq_some.mpr ⟨elems, bytes, hlayout, hrows, ?_⟩
  rw [Nat.mul_div_assoc rows hdvd, Nat.mul_assoc]

/-- More elements take no fewer bytes. -/
theorem dataBytes_mono {ggmlType : UInt32} {k n j m : Nat} (hk : dataBytes ggmlType k = some j)
    (hn : dataBytes ggmlType n = some m) (h : k ≤ n) : j ≤ m := by
  obtain ⟨elems, bytes, hlayout, -, rfl⟩ := dataBytes_eq_some.mp hk
  obtain ⟨elems', bytes', hlayout', -, rfl⟩ := dataBytes_eq_some.mp hn
  obtain ⟨rfl, rfl⟩ : elems = elems' ∧ bytes = bytes' := by
    simpa using hlayout.symm.trans hlayout'
  exact Nat.mul_le_mul_right _ (Nat.div_le_div_right h)

/-- More whole blocks are more bytes. -/
theorem dataBytes_strictMono {ggmlType : UInt32} {k n j m : Nat}
    (hk : dataBytes ggmlType k = some j) (hn : dataBytes ggmlType n = some m) (h : k < n) :
    j < m := by
  obtain ⟨elems, bytes, hlayout, hkm, rfl⟩ := dataBytes_eq_some.mp hk
  obtain ⟨elems', bytes', hlayout', hnm, rfl⟩ := dataBytes_eq_some.mp hn
  obtain ⟨rfl, rfl⟩ : elems = elems' ∧ bytes = bytes' := by
    simpa using hlayout.symm.trans hlayout'
  refine Nat.mul_lt_mul_of_pos_right ?_ (blockLayout_pos hlayout).2
  exact Nat.div_lt_div_of_lt_of_dvd (Nat.dvd_of_mod_eq_zero hnm) h

theorem dataBytes_pos {ggmlType : UInt32} {n m : Nat} (h : dataBytes ggmlType n = some m)
    (hn : 0 < n) : 0 < m := by
  obtain ⟨elems, bytes, hlayout, hmod, rfl⟩ := dataBytes_eq_some.mp h
  obtain ⟨helems, hbytes⟩ := blockLayout_pos hlayout
  exact Nat.mul_pos (Nat.div_pos (Nat.le_of_dvd hn (Nat.dvd_of_mod_eq_zero hmod)) helems) hbytes

theorem byteSize_eq_ok {b : Build} {ggmlType : UInt32} {n len : Nat}
    (h : byteSize b ggmlType n = .ok len) :
    ∃ m, dataBytes ggmlType n = some m ∧ len = m % 2 ^ 64 := by
  unfold byteSize at h
  cases hl : blockLayout ggmlType with
  | none =>
    rw [hl] at h
    cases h
  | some l =>
    obtain ⟨elems, bytes⟩ := l
    rw [hl] at h
    by_cases hn : n % elems = 0
    · simp only [hn, ne_eq, not_true_eq_false, if_false] at h
      exact ⟨_, dataBytes_eq_some.mpr ⟨elems, bytes, hl, hn, rfl⟩, Build.fit_eq_ok h⟩
    · simp only [ne_eq, hn, not_false_eq_true, if_true] at h
      cases h

theorem byteSize_of_none {ggmlType : UInt32} {n : Nat} (h : dataBytes ggmlType n = none) :
    ∃ e, ∀ b, byteSize b ggmlType n = .err e := by
  unfold dataBytes at h
  unfold byteSize
  cases hl : blockLayout ggmlType with
  | none => exact ⟨_, fun _ => rfl⟩
  | some l =>
    obtain ⟨elems, bytes⟩ := l
    rw [hl] at h
    simp only [ite_eq_right_iff, reduceCtorEq, imp_false] at h
    exact ⟨_, fun _ => if_pos h⟩

end Quant

end Garuda
