import Garuda.Gguf.Parse
import Garuda.Quant.Dequant

/-!
# Tensors out of a file

`Gguf::tensor_f32` on a descriptor that may claim anything.

* `TensorInfo.product` multiplies the dimensions as the machine does; `elements` is unbounded.
* `Gguf.tensorF32` is the reader, in either build.
* `TensorInfo.InRange` is when none of its numbers leaves its range.
* `tensorF32_safe_iff` says that it is right just then; `tensorF32_hostile` is a file that is not.
-/

namespace Garuda

open Infra Quant

namespace TensorInfo

/-! ## The number of elements -/

/-- `iter().product()`, from `acc` on. -/
def product (b : Build) (acc : Nat) : List UInt64 → Checked GarudaError Nat
  | [] => .ok acc
  | d :: ds => do
    let n ← b.fit (acc * d.toNat)
    product b n ds

def nElements (t : TensorInfo) (b : Build) : Checked GarudaError Nat := product b 1 t.dims

/-- The product of the dimensions, without a bound. -/
def elements (t : TensorInfo) : Nat := (t.dims.map UInt64.toNat).prod

theorem product_eq (b : Build) {acc : Nat} {ds : List UInt64} (hacc : acc < 2 ^ 64)
    (h : ∀ ps, ps <+: ds → acc * (ps.map UInt64.toNat).prod < 2 ^ 64) :
    product b acc ds = .ok (acc * (ds.map UInt64.toNat).prod) := by
  induction ds generalizing acc with
  | nil => simp [product]
  | cons d ds ih =>
    have hd : acc * d.toNat < 2 ^ 64 := by
      have := h [d] ⟨ds, rfl⟩
      simpa using this
    rw [product, Build.fit_of_lt b hd, Checked.ok_bind, ih hd, List.map_cons, List.prod_cons,
      Nat.mul_assoc]
    intro ps hps
    have := h (d :: ps) (List.cons_prefix_cons.mpr ⟨rfl, hps⟩)
    rwa [List.map_cons, List.prod_cons, ← Nat.mul_assoc] at this

theorem product_panic {acc : Nat} {ds ps : List UInt64} (hacc : acc < 2 ^ 64) (hps : ps <+: ds)
    (h : 2 ^ 64 ≤ acc * (ps.map UInt64.toNat).prod) : product .debug acc ds = .panic := by
  induction ds generalizing acc ps with
  | nil =>
    rw [List.prefix_nil.mp hps, List.map_nil, List.prod_nil, Nat.mul_one] at h
    omega
  | cons d ds ih =>
    rw [product]
    by_cases hd : acc * d.toNat < 2 ^ 64
    · rw [Build.fit_of_lt .debug hd, Checked.ok_bind]
      cases ps with
      | nil =>
        rw [List.map_nil, List.prod_nil, Nat.mul_one] at h
        omega
      | cons p ps =>
        obtain ⟨rfl, hrest⟩ := List.cons_prefix_cons.mp hps
        rw [List.map_cons, List.prod_cons, ← Nat.mul_assoc] at h
        exact ih hd hrest h
    · rw [Build.debug_fit (by omega), Checked.panic_bind]

theorem nElements_of_products {t : TensorInfo}
    (h : ∀ ps, ps <+: t.dims → (ps.map UInt64.toNat).prod < 2 ^ 64) (b : Build) :
    t.nElements b = .ok t.elements := by
  have hds : ∀ ps, ps <+: t.dims → 1 * (ps.map UInt64.toNat).prod < 2 ^ 64 := by
    simpa using h
  rw [nElements, product_eq b (by decide) hds, Nat.one_mul, elements]

theorem product_release (acc : Nat) (ds : List UInt64) :
    product .release (acc % 2 ^ 64) ds = .ok (acc * (ds.map UInt64.toNat).prod % 2 ^ 64) := by
  induction ds generalizing acc with
  | nil => simp [product]
  | cons d ds ih =>
    rw [product, Build.release_fit, Checked.ok_bind, Nat.mod_mul_mod, ih, List.map_cons,
      List.prod_cons, Nat.mul_assoc]

theorem nElements_release (t : TensorInfo) : t.nElements .release = .ok (t.elements % 2 ^ 64) := by
  have := product_release 1 t.dims
  rwa [Nat.one_mul] at this

/-- Whichever build counts the elements counts them up to `2^64`. -/
theorem nElements_eq_ok {t : TensorInfo} {b : Build} {n : Nat} (h : t.nElements b = .ok n) :
    n = t.elements % 2 ^ 64 := by
  cases b with
  | release =>
    rw [nElements_release] at h
    cases h
    rfl
  | debug =>
    by_cases hp : ∀ ps, ps <+: t.dims → (ps.map UInt64.toNat).prod < 2 ^ 64
    · rw [nElements_of_products hp] at h
      cases h
      exact (Nat.mod_eq_of_lt (hp t.dims List.prefix_rfl)).symm
    · push Not at hp
      obtain ⟨ps, hps, hbig⟩ := hp
      rw [nElements, product_panic (by decide) hps (by rwa [Nat.one_mul])] at h
      cases h

/-- The number of bytes, without a bound. -/
def bytes (t : TensorInfo) : Option Nat := dataBytes t.ggmlType t.elements

/--
No product of the leading dimensions, no length in bytes, and no allocation for a tensor that the
file does hold, is past what the machine can count.
-/
structure InRange (t : TensorInfo) (dataOffset fileLen : Nat) : Prop where
  products : ∀ ps, ps <+: t.dims → (ps.map UInt64.toNat).prod < 2 ^ 64
  length : ∀ m, t.bytes = some m → m < 2 ^ 64
  capacity : ∀ m, t.bytes = some m → dataOffset + t.offset.toNat + m ≤ fileLen →
    4 * t.elements < 2 ^ 63

theorem inRange_iff {t : TensorInfo} {dataOffset fileLen : Nat} :
    t.InRange dataOffset fileLen ↔
      (∀ ps ∈ t.dims.inits, (ps.map UInt64.toNat).prod < 2 ^ 64) ∧
      (∀ m ∈ t.bytes, m < 2 ^ 64) ∧
      ∀ m ∈ t.bytes, dataOffset + t.offset.toNat + m ≤ fileLen → 4 * t.elements < 2 ^ 63 := by
  constructor
  · intro h
    exact ⟨fun ps hps => h.products ps ((List.mem_inits ps t.dims).mp hps), h.length, h.capacity⟩
  · rintro ⟨hp, hl, hc⟩
    exact ⟨fun ps hps => hp ps ((List.mem_inits ps t.dims).mpr hps), hl, hc⟩

instance (t : TensorInfo) (dataOffset fileLen : Nat) : Decidable (t.InRange dataOffset fileLen) :=
  decidable_of_iff _ inRange_iff.symm

theorem nElements_eq {t : TensorInfo} {dataOffset fileLen : Nat} (h : t.InRange dataOffset fileLen)
    (b : Build) : t.nElements b = .ok t.elements :=
  nElements_of_products h.products b

end TensorInfo

namespace Gguf

variable {K : Type} [Floats K]

/-! ## The reader -/

/-- An error about a tensor, with the tensor's name. -/
def inTensor (name : String) (e : GarudaError) : GarudaError := bad s!"tensor '{name}': {e.show}"

/-- What `tensor_f32` does once the element count and the length in bytes are known. -/
def readAt (g : Gguf) (b : Build) (file : Bytes) (name : String) (t : TensorInfo)
    (n nbytes : Nat) : Checked GarudaError (List K) := do
  let start ← Build.checkedAdd g.dataOffset t.offset.toNat (bad "tensor offset overflow")
  let stop ← Build.checkedAdd start nbytes (bad "tensor length overflow")
  if stop ≤ file.length then
    (dequantize b t.ggmlType (slice file start nbytes) n).mapErr (inTensor name)
  else .err (bad s!"tensor '{name}' runs past the end of the file")

/-- A tensor's contents, dequantised. -/
def tensorF32 (g : Gguf) (b : Build) (file : Bytes) (name : String) :
    Checked GarudaError (List K) :=
  match g.tensor name with
  | none => .err (bad s!"tensor '{name}' not found")
  | some t => do
    let n ← t.nElements b
    let nbytes ← (byteSize b t.ggmlType n).mapErr (inTensor name)
    g.readAt b file name t n nbytes

/-- As many numbers as the dimensions say, off a range that lies in the file. -/
def Reads (g : Gguf) (file : Bytes) (name : String) (vs : List K) : Prop :=
  ∃ t m, g.tensor name = some t ∧ t.bytes = some m ∧ vs.length = t.elements ∧
    g.dataOffset + t.offset.toNat + m ≤ file.length ∧
    vs = decoded t.ggmlType (slice file (g.dataOffset + t.offset.toNat) m)

variable {g : Gguf} {file : Bytes} {name : String} {t : TensorInfo} {n m : Nat}

theorem tensorF32_of_some (ht : g.tensor name = some t) (b : Build) :
    (g.tensorF32 b file name : Checked GarudaError (List K)) = t.nElements b >>= fun n =>
      (byteSize b t.ggmlType n).mapErr (inTensor name) >>= fun nbytes =>
        g.readAt b file name t n nbytes := by
  rw [tensorF32, ht]

theorem readAt_outside (K : Type) [Floats K] (name : String) (n : Nat)
    (h : file.length < g.dataOffset + t.offset.toNat + m) :
    ∃ e, ∀ b, (g.readAt b file name t n m : Checked GarudaError (List K)) = .err e := by
  unfold readAt Build.checkedAdd
  by_cases hs : g.dataOffset + t.offset.toNat < 2 ^ 64
  · by_cases he : g.dataOffset + t.offset.toNat + m < 2 ^ 64
    · simp only [if_pos hs, if_pos he, Checked.ok_bind, if_neg (Nat.not_le.mpr h)]
      exact ⟨_, fun _ => rfl⟩
    · simp only [if_pos hs, if_neg he, Checked.ok_bind, Checked.err_bind]
      exact ⟨_, fun _ => rfl⟩
  · simp only [if_neg hs, Checked.err_bind]
    exact ⟨_, fun _ => rfl⟩

theorem readAt_inside (hfile : file.length < 2 ^ 63)
    (h : g.dataOffset + t.offset.toNat + m ≤ file.length) (b : Build) :
    (g.readAt b file name t n m : Checked GarudaError (List K))
      = (dequantize b t.ggmlType (slice file (g.dataOffset + t.offset.toNat) m) n).mapErr
          (inTensor name) := by
  unfold readAt Build.checkedAdd
  simp only [if_pos (show g.dataOffset + t.offset.toNat < 2 ^ 64 by omega), Checked.ok_bind,
    if_pos (show g.dataOffset + t.offset.toNat + m < 2 ^ 64 by omega), if_pos h]

/-- In range, a tensor that the file holds is decoded whole. -/
theorem readAt_safe (hfile : file.length < 2 ^ 63) (ht : g.tensor name = some t)
    (hin : t.InRange g.dataOffset file.length) (hm : t.bytes = some m) :
    Safe (fun b => g.readAt (K := K) b file name t t.elements m) (Reads g file name) := by
  by_cases hlen : g.dataOffset + t.offset.toNat + m ≤ file.length
  · have hraw : (slice file (g.dataOffset + t.offset.toNat) m).length = m := length_slice hlen
    have hread : ∀ b, (g.readAt b file name t t.elements m : Checked GarudaError (List K)) = _ :=
      fun b => (readAt_inside hfile hlen b).trans (congrArg _
        (dequantize_eq (by rwa [hraw]) (by rw [hraw]; exact hin.length m hm)
          (hin.capacity m hm hlen)))
    refine Safe.of_eq hread ?_ fun vs hvs => ?_
    · split <;> exact nofun
    · split at hvs
      · cases hvs
      · cases hvs
        exact ⟨t, m, ht, hm, length_decoded (by rwa [hraw]), hlen, rfl⟩
  · obtain ⟨e, he⟩ := readAt_outside K name t.elements (Nat.not_le.mp hlen)
    exact Safe.of_err he

/-- What is read is the tensor, where no length wraps. -/
theorem reads_of_ok {b : Build} {vs : List K} (hfile : file.length < 2 ^ 63)
    (ht : g.tensor name = some t)
    (hproducts : ∀ ps, ps <+: t.dims → (ps.map UInt64.toNat).prod < 2 ^ 64)
    (hlength : ∀ m, t.bytes = some m → m < 2 ^ 64) (h : g.tensorF32 b file name = .ok vs) :
    Reads g file name vs := by
  rw [tensorF32_of_some ht, TensorInfo.nElements_of_products hproducts b, Checked.ok_bind] at h
  cases hm : t.bytes with
  | none =>
    obtain ⟨e, he⟩ := byteSize_of_none hm
    rw [he b] at h
    cases h
  | some m =>
    rw [byteSize_of_dataBytes b hm, Build.fit_of_lt b (hlength m hm), Checked.mapErr,
      Checked.ok_bind] at h
    have hcapacity : ∀ m', t.bytes = some m' →
        g.dataOffset + t.offset.toNat + m' ≤ file.length → 4 * t.elements < 2 ^ 63 := by
      intro m' hm' hin
      rw [hm] at hm'
      cases hm'
      by_contra hbig
      rw [readAt_inside hfile hin, dequantize_large (Nat.not_lt.mp hbig)] at h
      cases h
    exact (readAt_safe hfile ht ⟨hproducts, hlength, hcapacity⟩ hm).ok b vs h

/-- Out of range, one of the steps panics under overflow checks. -/
theorem tensorF32_panic (hfile : file.length < 2 ^ 63) (ht : g.tensor name = some t)
    (hin : ¬ t.InRange g.dataOffset file.length) :
    (g.tensorF32 .debug file name : Checked GarudaError (List K)) = .panic := by
  rw [tensorF32_of_some ht]
  by_cases hp : ∀ ps, ps <+: t.dims → (ps.map UInt64.toNat).prod < 2 ^ 64
  · have hn : t.nElements .debug = .ok t.elements := by
      exact TensorInfo.nElements_of_products hp .debug
    rw [hn, Checked.ok_bind]
    by_cases hl : ∀ m, t.bytes = some m → m < 2 ^ 64
    · -- then it is the allocation, which is asked for within the file alone
      have hc : ∃ m, t.bytes = some m ∧ g.dataOffset + t.offset.toNat + m ≤ file.length ∧
          2 ^ 63 ≤ 4 * t.elements := by
        by_contra hno
        push Not at hno
        exact hin ⟨hp, hl, hno⟩
      obtain ⟨m, hm, hlen, hbig⟩ := hc
      rw [byteSize_of_dataBytes .debug hm, Build.fit_of_lt .debug (hl m hm), Checked.mapErr,
        Checked.ok_bind, readAt_inside hfile hlen, dequantize_large hbig, Checked.mapErr]
    · push Not at hl
      obtain ⟨m, hm, hbig⟩ := hl
      rw [byteSize_of_dataBytes .debug hm, Build.debug_fit hbig, Checked.mapErr,
        Checked.panic_bind]
  · push Not at hp
    obtain ⟨ps, hps, hbig⟩ := hp
    have hn : t.nElements .debug = .panic :=
      TensorInfo.product_panic (by decide) hps (by rwa [Nat.one_mul])
    rw [hn, Checked.panic_bind]

/--
**A descriptor in range is read or refused, and no other is.**

A build with overflow checks panics where one without wraps, so what panics in neither wraps
nowhere.
-/
theorem tensorF32_safe_iff (g : Gguf) (file : Bytes) (name : String)
    (hfile : file.length < 2 ^ 63) :
    Safe (fun b => g.tensorF32 (K := K) b file name) (Reads g file name) ↔
    ∀ t, g.tensor name = some t → t.InRange g.dataOffset file.length := by
  constructor
  · intro hsafe t ht
    by_contra hin
    exact Safe.not_of_panic (tensorF32_panic hfile ht hin) hsafe
  · intro hin
    cases ht : g.tensor name with
    | none =>
      refine Safe.of_err (e := bad s!"tensor '{name}' not found") fun b => ?_
      rw [tensorF32, ht]
    | some t =>
      have hr := hin t ht
      simp only [tensorF32_of_some ht, TensorInfo.nElements_eq hr, Checked.ok_bind]
      cases hm : t.bytes with
      | none =>
        obtain ⟨e, he⟩ := byteSize_of_none hm
        simp only [he, Checked.mapErr, Checked.err_bind]
        exact Safe.of_err (e := inTensor name e) fun _ => rfl
      | some m =>
        simp only [byteSize_of_dataBytes _ hm, Build.fit_of_lt _ (hr.length m hm),
          Checked.mapErr, Checked.ok_bind]
        exact readAt_safe hfile ht hr hm

/-! ## Two files -/

/-- A file of one two-dimensional `F32` tensor `w`, whose data section begins at byte 96. -/
def oneTensor (dims : List Nat) (offset : Nat) (data : Bytes) : Bytes :=
  let header := magic ++ toLE 4 3 ++ toLE 8 1 ++ toLE 8 0 ++ (toLE 8 1 ++ [0x77])
    ++ toLE 4 dims.length ++ dims.flatMap (toLE 8) ++ toLE 4 0 ++ toLE 8 offset
  header ++ List.replicate (96 - header.length) 0 ++ data

theorem tensorF32_safe_iff_pair :
    ∃ g, parse (oneTensor [2, 1] 0 (toLE 8 1)) = .ok g ∧
      Safe (fun b => g.tensorF32 (K := ℚ) b (oneTensor [2, 1] 0 (toLE 8 1)) "w")
        (Reads g (oneTensor [2, 1] 0 (toLE 8 1)) "w") := by
  have hok : (match parse (oneTensor [2, 1] 0 (toLE 8 1)) with
      | .ok g => decide (g.tensor "w" = some ⟨"w", [2, 1], 0, 0⟩ ∧ g.dataOffset = 96)
      | _ => false) = true := by decide +kernel
  split at hok
  case h_2 => cases hok
  case h_1 g hg =>
    obtain ⟨htensor, hoffset⟩ := of_decide_eq_true hok
    refine ⟨g, hg, (tensorF32_safe_iff g _ "w" (by decide +kernel)).mpr fun t ht => ?_⟩
    rw [htensor] at ht
    cases ht
    rw [hoffset]
    decide +kernel

/-- `2^32` times `2^32` elements come back as none at all, or as a panic. -/
theorem tensorF32_hostile :
    ∃ g t, parse (oneTensor [2 ^ 32, 2 ^ 32] 0 []) = .ok g ∧ g.tensor "w" = some t ∧
      t.elements = 2 ^ 64 ∧
      g.tensorF32 .release (oneTensor [2 ^ 32, 2 ^ 32] 0 []) "w" = .ok ([] : List ℚ) ∧
      ¬ Safe (fun b => g.tensorF32 (K := ℚ) b (oneTensor [2 ^ 32, 2 ^ 32] 0 []) "w")
        (Reads g (oneTensor [2 ^ 32, 2 ^ 32] 0 []) "w") := by
  have hok : (match parse (oneTensor [2 ^ 32, 2 ^ 32] 0 []) with
      | .ok g =>
        decide (g.tensor "w" = some ⟨"w", [2 ^ 32, 2 ^ 32], 0, 0⟩) &&
        (match g.tensorF32 (K := ℚ) .release (oneTensor [2 ^ 32, 2 ^ 32] 0 []) "w" with
          | .ok vs => vs.isEmpty
          | _ => false)
      | _ => false) = true := by decide +kernel
  split at hok
  case h_2 => cases hok
  case h_1 g hg =>
    obtain ⟨htensor, hread⟩ := Bool.and_eq_true_iff.mp hok
    replace htensor := of_decide_eq_true htensor
    split at hread
    case h_2 => cases hread
    case h_1 vs hvs =>
      rw [List.isEmpty_iff] at hread
      subst hread
      refine ⟨g, _, hg, htensor, by decide, hvs, fun hsafe => ?_⟩
      obtain ⟨t, m, ht, -, hlen, -⟩ := hsafe.ok .release [] hvs
      rw [htensor] at ht
      cases ht
      revert hlen
      decide

end Gguf

end Garuda
