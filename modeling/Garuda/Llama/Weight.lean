import Garuda.Gguf.Tensor

/-!
# Weights

A weight matrix, expanded or still packed in a buffer, and where its rows are read from.

* `pinnedWeight` and `loadWeight` place a matrix of the file in a buffer; their sums and products
  are the machine's, in either build.
* `rowsBytes` is the slice that a product over some rows of a packed matrix is given.
* `Placed` is a packed weight whose place, without bounds, lies in its buffer.
* `Unwrapped` is when no number of the loader's outgrows a word, and `loaded_inBounds_iff` says that
  every weight that is returned is well placed then, and, of a tensor that some buffer is returned
  for, only then.
-/

namespace Garuda

open Infra Quant

namespace Llama

variable {K : Type}

/-! ## Loading -/

/-- Where packed bytes are: in the map of the file, or in memory of this process. -/
inductive Buffer where
  | mapped (m : Bytes)
  | owned (v : Bytes)

/-- `as_slice`. -/
def Buffer.bytes : Buffer → Bytes
  | mapped m => m
  | owned v => v

inductive Weight (K : Type) where
  | full (data : List K) (cols : Nat)
  | packed (qtype : UInt32) (cols : Nat) (src : Buffer) (start : Nat)

def notFound (name : String) : GarudaError := .model s!"tensor '{name}' not found"

/-- The tensor of that name, if it has `rows * cols` elements. -/
def shaped (b : Build) (g : Gguf) (name : String) (rows cols : Nat) :
    Checked GarudaError TensorInfo :=
  match g.tensor name with
  | none => .err (notFound name)
  | some t => do
    let n ← t.nElements b
    let expected ← b.fit (rows * cols)
    if n ≠ expected then
      .err (.model s!"tensor '{name}' has {n} elements, expected {expected}")
    else .ok t

/-- A packed matrix inside `src`, which holds the file's bytes from `base` onwards. -/
def pinnedWeight (b : Build) (g : Gguf) (src : Buffer) (base : Nat) (name : String)
    (rows cols : Nat) : Checked GarudaError (Weight K) := do
  let t ← shaped b g name rows cols
  let n ← b.fit (rows * cols)
  let len ← byteSize b t.ggmlType n
  let position ← b.fit (g.dataOffset + t.offset.toNat)
  if position < base then .err (.model s!"tensor '{name}' starts before its buffer")
  else do
    let stop ← b.fit (position - base + len)
    if src.bytes.length < stop then
      .err (.model s!"tensor '{name}' runs past the end of its buffer")
    else .ok (.packed t.ggmlType cols src (position - base))

/-- A matrix of the file: packed in the map if there is one, expanded if not. -/
def loadWeight [Floats K] (b : Build) (g : Gguf) (bytes : Bytes) (mmap : Option Bytes) (name : String)
    (rows cols : Nat) : Checked GarudaError (Weight K) := do
  let _ ← shaped b g name rows cols
  match mmap with
  | some m => pinnedWeight b g (.mapped m) 0 name rows cols
  | none => do
    let data ← g.tensorF32 b bytes name
    .ok (.full data cols)

/-- A small tensor, expanded whatever the file holds. -/
def loadNorm [Floats K] (b : Build) (g : Gguf) (bytes : Bytes) (name : String) (n : Nat) :
    Checked GarudaError (List K) := do
  let data ← g.tensorF32 b bytes name
  if data.length ≠ n then
    .err (.model s!"tensor '{name}' has {data.length} values, expected {n}")
  else .ok data

/-! ## Reading rows -/

/-- Where a packed weight's bytes are: in the block streamed for it, or where it was loaded. -/
def located (src : Buffer) (start : Nat) (block : Option (Bytes × Nat)) : Bytes × Nat :=
  match block with
  | some (bytes, base) => if base ≤ start then (bytes, start - base) else (src.bytes, start)
  | none => (src.bytes, start)

/-- `&bytes[start..stop]`. -/
def index (bytes : Bytes) (start stop : Nat) : Checked GarudaError Bytes :=
  if start ≤ stop ∧ stop ≤ bytes.length then .ok (slice bytes start (stop - start)) else .panic

/-- The bytes of `n` rows from `rowStart` on, as `matvec_rows_in` and `matmul_rows_in` cut them. -/
def rowsBytes (b : Build) (qtype : UInt32) (cols : Nat) (src : Buffer) (start : Nat)
    (block : Option (Bytes × Nat)) (rowStart n : Nat) : Checked GarudaError Bytes := do
  let (bytes, origin) := located src start block
  let rowBytes ← byteSize b qtype cols
  let skipped ← b.fit (rowStart * rowBytes)
  let off ← b.fit (origin + skipped)
  let len ← b.fit (n * rowBytes)
  let stop ← b.fit (off + len)
  index bytes off stop

/-- Rows within a matrix that lies in its buffer are cut right there, if one row can be counted. -/
theorem rowsBytes_within {qtype : UInt32} {cols rows rb rowStart n : Nat} {src : Buffer}
    {bytes : Bytes} {start origin : Nat} {block : Option (Bytes × Nat)} (b : Build)
    (hloc : located src start block = (bytes, origin)) (hbytes : bytes.length < 2 ^ 63)
    (hrb : dataBytes qtype cols = some rb) (hfit : rb < 2 ^ 64)
    (hin : origin + rows * rb ≤ bytes.length) (hrows : rowStart + n ≤ rows) :
    rowsBytes b qtype cols src start block rowStart n
      = .ok (slice bytes (origin + rowStart * rb) (n * rb)) := by
  have hall : rowStart * rb + n * rb ≤ rows * rb := by
    rw [← Nat.add_mul]
    exact Nat.mul_le_mul_right rb hrows
  rw [rowsBytes, hloc]
  simp only [byteSize_of_dataBytes b hrb, Build.fit_of_lt b hfit,
    Checked.ok_bind, Build.fit_of_lt b (show rowStart * rb < 2 ^ 64 by omega),
    Build.fit_of_lt b (show origin + rowStart * rb < 2 ^ 64 by omega),
    Build.fit_of_lt b (show n * rb < 2 ^ 64 by omega),
    Build.fit_of_lt b (show origin + rowStart * rb + n * rb < 2 ^ 64 by omega)]
  rw [index, if_pos (by omega), Nat.add_sub_cancel_left]

theorem rowsBytes_eq {qtype : UInt32} {cols rows rb rowStart n : Nat} {src : Buffer} {bytes : Bytes}
    {start origin : Nat} {block : Option (Bytes × Nat)} (b : Build)
    (hloc : located src start block = (bytes, origin)) (hbytes : bytes.length < 2 ^ 63)
    (hrb : dataBytes qtype cols = some rb) (hin : origin + rows * rb ≤ bytes.length)
    (hpos : 0 < rows) (hrows : rowStart + n ≤ rows) :
    rowsBytes b qtype cols src start block rowStart n
      = .ok (slice bytes (origin + rowStart * rb) (n * rb)) := by
  have hone : rb ≤ rows * rb := Nat.le_mul_of_pos_left rb hpos
  exact rowsBytes_within b hloc hbytes hrb (by omega) hin hrows

/-- Columns that are no whole blocks are refused, whatever the rows. -/
theorem rowsBytes_of_none {qtype : UInt32} {cols : Nat} (src : Buffer) (start : Nat)
    (block : Option (Bytes × Nat)) (h : dataBytes qtype cols = none) :
    ∃ e, ∀ b rowStart n, rowsBytes b qtype cols src start block rowStart n = .err e := by
  obtain ⟨e, he⟩ := byteSize_of_none h
  refine ⟨e, fun b rowStart n => ?_⟩
  rw [rowsBytes, he b]
  rfl

/-! ## Where a weight is -/

/-- A packed weight that is the tensor's, at its place, with every row inside the buffer. -/
structure Placed (g : Gguf) (t : TensorInfo) (base rows : Nat) (qtype : UInt32) (cols : Nat)
    (src : Buffer) (start : Nat) : Prop where
  qtype_eq : qtype = t.ggmlType
  start_eq : start + base = g.dataOffset + t.offset.toNat
  extent : ∀ rb, dataBytes qtype cols = some rb → start + rows * rb ≤ src.bytes.length
  total : ∀ b rowStart n, 0 < n → rowStart + n ≤ rows →
    rowsBytes b qtype cols src start none rowStart n ≠ .panic
  reads : ∀ b rowStart n raw, 0 < n → rowStart + n ≤ rows →
    rowsBytes b qtype cols src start none rowStart n = .ok raw →
    ∃ rb, dataBytes qtype cols = some rb ∧ raw = slice src.bytes (start + rowStart * rb) (n * rb)

/-- A weight that is expanded, or else is well placed. -/
def Weight.InBounds (g : Gguf) (name : String) (base rows : Nat) : Weight K → Prop
  | .full _ _ => True
  | .packed qtype cols src start =>
    ∃ t, g.tensor name = some t ∧ Placed g t base rows qtype cols src start

/-- The comparisons of `pinned_weight`, on numbers that have wrapped. -/
structure Passes (g : Gguf) (t : TensorInfo) (base srcLen rows cols : Nat) : Prop where
  elements : t.elements % 2 ^ 64 = rows * cols % 2 ^ 64
  position : base ≤ (g.dataOffset + t.offset.toNat) % 2 ^ 64
  extent : ∃ m, dataBytes t.ggmlType (rows * cols % 2 ^ 64) = some m ∧
    ((g.dataOffset + t.offset.toNat) % 2 ^ 64 - base + m % 2 ^ 64) % 2 ^ 64 ≤ srcLen

/-- The position fits a word, and the rows reach no further than the buffer does. -/
structure Lies (g : Gguf) (t : TensorInfo) (base srcLen rows cols : Nat) : Prop where
  position : g.dataOffset + t.offset.toNat < 2 ^ 64
  extent : ∀ rb, dataBytes t.ggmlType cols = some rb →
    g.dataOffset + t.offset.toNat + rows * rb ≤ base + srcLen

/-- Nothing that the loader adds or multiplies outgrows a word: the tensor's position, the matrix's
elements, and the end of its rows in a buffer that starts at `base`. -/
def Unwrapped (g : Gguf) (name : String) (base rows cols : Nat) : Prop :=
  ∀ t, g.tensor name = some t → g.dataOffset + t.offset.toNat < 2 ^ 64 ∧
    ∀ rb, dataBytes t.ggmlType cols = some rb →
      rows * cols < 2 ^ 64 ∧ g.dataOffset + t.offset.toNat + rows * rb < base + 2 ^ 64

/-- Where nothing wraps, what passes lies in the buffer. -/
theorem Passes.lies {g : Gguf} {t : TensorInfo} {name : String} {base srcLen rows cols : Nat}
    (hp : Passes g t base srcLen rows cols) (ht : g.tensor name = some t)
    (h : Unwrapped g name base rows cols) : Lies g t base srcLen rows cols := by
  obtain ⟨hpos, hrows⟩ := h t ht
  refine ⟨hpos, fun rb hrb => ?_⟩
  obtain ⟨hcells, hend⟩ := hrows rb hrb
  obtain ⟨m, hm, hext⟩ := hp.extent
  have hbase := hp.position
  rw [Nat.mod_eq_of_lt hcells, dataBytes_mul hrb] at hm
  cases hm
  rw [Nat.mod_eq_of_lt hpos] at hext hbase
  rw [Nat.mod_eq_of_lt (show rows * rb < 2 ^ 64 by omega), Nat.mod_eq_of_lt (by omega)] at hext
  omega

/-- What passes with a buffer, passes with the shortest that the comparison of the ends allows; if
it lies in that one too, nothing has wrapped. -/
theorem Passes.unwrapped {g : Gguf} {t : TensorInfo} {name : String} {base srcLen rows cols : Nat}
    (hp : Passes g t base srcLen rows cols) (ht : g.tensor name = some t)
    (h : ∀ len ≤ srcLen, Passes g t base len rows cols → Lies g t base len rows cols) :
    Unwrapped g name base rows cols := by
  obtain ⟨m, hm, hext⟩ := hp.extent
  have hlies := h _ hext ⟨hp.elements, hp.position, m, hm, Nat.le_refl _⟩
  have hbase := hp.position
  rw [Nat.mod_eq_of_lt hlies.position] at hbase
  intro t' ht'
  rw [ht] at ht'
  cases ht'
  refine ⟨hlies.position, fun rb hrb => ?_⟩
  have hend := hlies.extent rb hrb
  have hword := Nat.mod_lt (g.dataOffset + t.offset.toNat - base + m % 2 ^ 64)
    (show 0 < 2 ^ 64 by decide)
  rw [Nat.mod_eq_of_lt hlies.position] at hend
  refine ⟨?_, by omega⟩
  -- fewer elements than the matrix has would take fewer bytes than it does
  by_contra hcells
  have hless : rows * cols % 2 ^ 64 < rows * cols := by
    have := Nat.mod_lt (rows * cols) (show 0 < 2 ^ 64 by decide)
    omega
  have hbytes := dataBytes_strictMono hm (dataBytes_mul hrb) hless
  have hle := Nat.mod_le (g.dataOffset + t.offset.toNat - base + m % 2 ^ 64) (2 ^ 64)
  have hmle := Nat.mod_le m (2 ^ 64)
  omega

/-! ## What the loaders answer -/

theorem shaped_eq_ok {b : Build} {g : Gguf} {name : String} {rows cols : Nat} {t : TensorInfo}
    (h : shaped b g name rows cols = .ok t) :
    g.tensor name = some t ∧ t.elements % 2 ^ 64 = rows * cols % 2 ^ 64 := by
  unfold shaped at h
  cases ht : g.tensor name with
  | none =>
    rw [ht] at h
    cases h
  | some t' =>
    rw [ht] at h
    obtain ⟨n, hn, h⟩ := Checked.bind_eq_ok h
    obtain ⟨expected, he, h⟩ := Checked.bind_eq_ok h
    split at h
    · cases h
    · next hne =>
      cases h
      rw [← TensorInfo.nElements_eq_ok hn, ← Build.fit_eq_ok he]
      exact ⟨rfl, not_not.mp hne⟩

theorem shaped_release {g : Gguf} {name : String} {rows cols : Nat} {t : TensorInfo}
    (ht : g.tensor name = some t) (h : t.elements % 2 ^ 64 = rows * cols % 2 ^ 64) :
    shaped .release g name rows cols = .ok t := by
  simp only [shaped, ht, TensorInfo.nElements_release, Build.release_fit, Checked.ok_bind, h,
    ne_eq, not_true_eq_false, if_false]

theorem pinnedWeight_eq_ok {b : Build} {g : Gguf} {src : Buffer} {base : Nat} {name : String}
    {rows cols : Nat} {w : Weight K} (h : pinnedWeight b g src base name rows cols = .ok w) :
    ∃ t, g.tensor name = some t ∧ Passes g t base src.bytes.length rows cols ∧
      w = .packed t.ggmlType cols src ((g.dataOffset + t.offset.toNat) % 2 ^ 64 - base) := by
  obtain ⟨t, ht, h⟩ := Checked.bind_eq_ok h
  obtain ⟨n, hn, h⟩ := Checked.bind_eq_ok h
  obtain ⟨len, hlen, h⟩ := Checked.bind_eq_ok h
  obtain ⟨position, hpos, h⟩ := Checked.bind_eq_ok h
  obtain ⟨htensor, helems⟩ := shaped_eq_ok ht
  replace hn := Build.fit_eq_ok hn
  replace hpos := Build.fit_eq_ok hpos
  obtain ⟨m, hm, rfl⟩ := byteSize_eq_ok hlen
  subst hn hpos
  split at h
  · cases h
  next hbase =>
    obtain ⟨stop, hstop, h⟩ := Checked.bind_eq_ok h
    replace hstop := Build.fit_eq_ok hstop
    subst hstop
    split at h
    · cases h
    next hin =>
      cases h
      exact ⟨t, htensor, ⟨helems, Nat.not_lt.mp hbase, m, hm, Nat.not_lt.mp hin⟩, rfl⟩

theorem pinnedWeight_release {g : Gguf} {src : Buffer} {base : Nat} {name : String}
    {rows cols : Nat} {t : TensorInfo} (ht : g.tensor name = some t)
    (h : Passes g t base src.bytes.length rows cols) :
    (pinnedWeight .release g src base name rows cols : Checked GarudaError (Weight K))
      = .ok (.packed t.ggmlType cols src ((g.dataOffset + t.offset.toNat) % 2 ^ 64 - base)) := by
  obtain ⟨m, hm, hext⟩ := h.extent
  rw [pinnedWeight, shaped_release ht h.elements]
  simp only [Checked.ok_bind, Build.release_fit, byteSize_of_dataBytes _ hm,
    if_neg (Nat.not_lt.mpr h.position), if_neg (Nat.not_lt.mpr hext)]

/-- The rows of a weight that lies in its buffer are read from there. -/
theorem placed_of_lies {g : Gguf} {t : TensorInfo} {base rows cols : Nat} {src : Buffer}
    (hsrc : src.bytes.length < 2 ^ 63) (hbase : base ≤ (g.dataOffset + t.offset.toNat) % 2 ^ 64)
    (h : Lies g t base src.bytes.length rows cols) :
    Placed g t base rows t.ggmlType cols src
      ((g.dataOffset + t.offset.toNat) % 2 ^ 64 - base) := by
  rw [Nat.mod_eq_of_lt h.position] at hbase ⊢
  have hloc : located src (g.dataOffset + t.offset.toNat - base) none
      = (src.bytes, g.dataOffset + t.offset.toNat - base) := rfl
  have hin : ∀ rb, dataBytes t.ggmlType cols = some rb →
      g.dataOffset + t.offset.toNat - base + rows * rb ≤ src.bytes.length := fun rb hrb => by
    have := h.extent rb hrb
    omega
  refine ⟨rfl, by omega, hin, fun b rowStart n hn hrows => ?_,
    fun b rowStart n raw hn hrows hraw => ?_⟩
  · cases hrb : dataBytes t.ggmlType cols with
    | none =>
      obtain ⟨e, he⟩ := rowsBytes_of_none src _ none hrb
      rw [he b]
      exact nofun
    | some rb =>
      rw [rowsBytes_eq b hloc hsrc hrb (hin rb hrb) (by omega) hrows]
      exact nofun
  · cases hrb : dataBytes t.ggmlType cols with
    | none =>
      obtain ⟨e, he⟩ := rowsBytes_of_none src _ none hrb
      rw [he b] at hraw
      cases hraw
    | some rb =>
      rw [rowsBytes_eq b hloc hsrc hrb (hin rb hrb) (by omega) hrows] at hraw
      cases hraw
      exact ⟨rb, rfl, rfl⟩

theorem lies_of_placed {g : Gguf} {t : TensorInfo} {base rows cols : Nat} {src : Buffer}
    (hbase : base ≤ (g.dataOffset + t.offset.toNat) % 2 ^ 64)
    (h : Placed g t base rows t.ggmlType cols src
      ((g.dataOffset + t.offset.toNat) % 2 ^ 64 - base)) :
    Lies g t base src.bytes.length rows cols := by
  have hmod := Nat.mod_lt (g.dataOffset + t.offset.toNat) (show 0 < 2 ^ 64 by decide)
  have hstart := h.start_eq
  refine ⟨by omega, fun rb hrb => ?_⟩
  have := h.extent rb hrb
  omega

theorem pinnedWeight_inBounds {g : Gguf} {name : String} {base rows cols : Nat}
    (h : Unwrapped g name base rows cols) {b : Build} {src : Buffer} {w : Weight K}
    (hsrc : src.bytes.length < 2 ^ 63)
    (hw : pinnedWeight b g src base name rows cols = .ok w) : w.InBounds g name base rows := by
  obtain ⟨t, ht, hp, rfl⟩ := pinnedWeight_eq_ok hw
  exact ⟨t, ht, placed_of_lies hsrc hp.position (hp.lies ht h)⟩

/-- A buffer of any length. -/
theorem exists_buffer (n : Nat) : ∃ m : Bytes, m.length = n :=
  ⟨List.replicate n 0, List.length_replicate⟩

theorem unwrapped_of_pinned {g : Gguf} {name : String} {base rows cols : Nat} {b : Build}
    {src : Buffer} {w : Weight K} (hsrc : src.bytes.length < 2 ^ 63)
    (hw : pinnedWeight b g src base name rows cols = .ok w)
    (h : ∀ (m : Bytes) (w : Weight K), m.length < 2 ^ 63 →
      pinnedWeight .release g (.mapped m) base name rows cols = .ok w →
      w.InBounds g name base rows) : Unwrapped g name base rows cols := by
  obtain ⟨t, ht, hp, -⟩ := pinnedWeight_eq_ok hw
  refine hp.unwrapped ht fun len hlen hpasses => ?_
  obtain ⟨m, rfl⟩ := exists_buffer len
  have hload : (pinnedWeight .release g (.mapped m) base name rows cols : Checked GarudaError
      (Weight K)) = _ := pinnedWeight_release ht hpasses
  obtain ⟨t', ht', hplaced⟩ := h m _ (by omega) hload
  rw [ht] at ht'
  cases ht'
  exact lies_of_placed hpasses.position hplaced

/-- With a map, `load_weight` is `pinned_weight` from its start. -/
theorem loadWeight_some [Floats K] (b : Build) (g : Gguf) (bytes m : Bytes) (name : String)
    (rows cols : Nat) (w : Weight K) :
    loadWeight b g bytes (some m) name rows cols = .ok w ↔
      pinnedWeight b g (.mapped m) 0 name rows cols = .ok w := by
  constructor
  · intro hw
    obtain ⟨t, -, hw⟩ := Checked.bind_eq_ok hw
    exact hw
  · intro hw
    obtain ⟨t, ht, -⟩ := Checked.bind_eq_ok hw
    rw [loadWeight, ht]
    exact hw

/--
**A weight that is returned is well placed, if nothing wraps.**

Of a tensor that is returned for some buffer, only if nothing wraps: whatever the file says of it,
there is a buffer then that passes for its own and is not.
-/
theorem loaded_inBounds_iff [Floats K] (g : Gguf) (bytes : Bytes) (name : String)
    (rows cols : Nat) :
    (∀ base, Unwrapped g name base rows cols → ∀ b src (w : Weight K), src.bytes.length < 2 ^ 63 →
      pinnedWeight b g src base name rows cols = .ok w → w.InBounds g name base rows) ∧
    (Unwrapped g name 0 rows cols → ∀ b m (w : Weight K), m.length < 2 ^ 63 →
      loadWeight b g bytes (some m) name rows cols = .ok w → w.InBounds g name 0 rows) ∧
    (∀ b (w : Weight K), loadWeight b g bytes none name rows cols = .ok w →
      ∃ data, w = .full data cols) ∧
    (∀ base, (∃ b src, ∃ w : Weight K, src.bytes.length < 2 ^ 63 ∧
        pinnedWeight b g src base name rows cols = .ok w) →
      (∀ b src (w : Weight K), src.bytes.length < 2 ^ 63 →
        pinnedWeight b g src base name rows cols = .ok w → w.InBounds g name base rows) →
      Unwrapped g name base rows cols) ∧
    ((∃ b m, ∃ w : Weight K, m.length < 2 ^ 63 ∧
        loadWeight b g bytes (some m) name rows cols = .ok w) →
      (∀ b m (w : Weight K), m.length < 2 ^ 63 →
        loadWeight b g bytes (some m) name rows cols = .ok w → w.InBounds g name 0 rows) →
      Unwrapped g name 0 rows cols) := by
  refine ⟨fun base h b src w hsrc hw => pinnedWeight_inBounds h hsrc hw, ?_, ?_, ?_, ?_⟩
  · intro h b m w hm hw
    exact pinnedWeight_inBounds h (show (Buffer.mapped m).bytes.length < 2 ^ 63 from hm)
      ((loadWeight_some b g bytes m name rows cols w).mp hw)
  · intro b w hw
    obtain ⟨t, -, hw⟩ := Checked.bind_eq_ok hw
    obtain ⟨data, -, hw⟩ := Checked.bind_eq_ok hw
    cases hw
    exact ⟨data, rfl⟩
  · rintro base ⟨b, src, w, hsrc, hw⟩ h
    exact unwrapped_of_pinned hsrc hw fun m => h .release (.mapped m)
  · rintro ⟨b, m, w, hm, hw⟩ h
    refine unwrapped_of_pinned (show (Buffer.mapped m).bytes.length < 2 ^ 63 from hm)
      ((loadWeight_some b g bytes m name rows cols w).mp hw) fun n v hn hv => ?_
    exact h .release n v hn ((loadWeight_some .release g bytes n name rows cols v).mpr hv)

/-! ## Two files -/

theorem loaded_inBounds_iff_pair :
    ∃ g, Gguf.parse (Gguf.oneTensor [2, 1] 0 (toLE 8 1)) = .ok g ∧
      ∀ b (w : Weight ℚ), loadWeight b g [] (some (Gguf.oneTensor [2, 1] 0 (toLE 8 1))) "w" 1 2
        = .ok w → w.InBounds g "w" 0 1 := by
  have hok : (match Gguf.parse (Gguf.oneTensor [2, 1] 0 (toLE 8 1)) with
      | .ok g => decide (g.tensor "w" = some ⟨"w", [2, 1], 0, 0⟩ ∧ g.dataOffset = 96)
      | _ => false) = true := by decide +kernel
  split at hok
  case h_2 => cases hok
  case h_1 g hg =>
    obtain ⟨htensor, hoffset⟩ := of_decide_eq_true hok
    have hlen : (Gguf.oneTensor [2, 1] 0 (toLE 8 1)).length < 2 ^ 63 := by decide +kernel
    refine ⟨g, hg, fun b w hw =>
      (loaded_inBounds_iff (K := ℚ) g [] "w" 1 2).2.1 ?_ b _ w hlen hw⟩
    intro t ht
    rw [htensor] at ht
    cases ht
    rw [hoffset]
    refine ⟨by decide, fun rb hrb => ?_⟩
    cases hrb
    decide

/-- An offset that wraps round to the header is taken for a tensor there. -/
theorem loadWeight_wraps :
    ∃ g, Gguf.parse (Gguf.oneTensor [1, 1] (2 ^ 64 - 96) []) = .ok g ∧
      loadWeight .release g [] (some (Gguf.oneTensor [1, 1] (2 ^ 64 - 96) [])) "w" 1 1
        = .ok (.packed f32 1 (.mapped (Gguf.oneTensor [1, 1] (2 ^ 64 - 96) [])) 0 : Weight ℚ) ∧
      ¬ ∀ b (w : Weight ℚ),
        loadWeight b g [] (some (Gguf.oneTensor [1, 1] (2 ^ 64 - 96) [])) "w" 1 1 = .ok w →
        w.InBounds g "w" 0 1 := by
  have hok : (match Gguf.parse (Gguf.oneTensor [1, 1] (2 ^ 64 - 96) []) with
      | .ok g => decide
        (g.tensor "w" = some ⟨"w", [1, 1], 0, 18446744073709551520⟩ ∧ g.dataOffset = 96)
      | _ => false) = true := by decide +kernel
  split at hok
  case h_2 => cases hok
  case h_1 g hg =>
    obtain ⟨htensor, hoffset⟩ := of_decide_eq_true hok
    have hshaped : shaped .release g "w" 1 1 = .ok ⟨"w", [1, 1], 0, 18446744073709551520⟩ :=
      shaped_release htensor (by decide)
    have hpasses : Passes g ⟨"w", [1, 1], 0, 18446744073709551520⟩ 0
        (Buffer.mapped (Gguf.oneTensor [1, 1] (2 ^ 64 - 96) [])).bytes.length 1 1 := by
      refine ⟨by decide, Nat.zero_le _, 4, by decide, ?_⟩
      rw [hoffset]
      decide +kernel
    have hload : loadWeight .release g [] (some (Gguf.oneTensor [1, 1] (2 ^ 64 - 96) [])) "w" 1 1
        = .ok (.packed f32 1 (.mapped (Gguf.oneTensor [1, 1] (2 ^ 64 - 96) [])) 0 : Weight ℚ) := by
      rw [loadWeight, hshaped, Checked.ok_bind]
      show pinnedWeight .release g _ 0 "w" 1 1 = _
      rw [pinnedWeight_release htensor hpasses, hoffset]
      rfl
    refine ⟨g, hg, hload, fun h => ?_⟩
    obtain ⟨t, ht, hplaced⟩ := h .release _ hload
    rw [htensor] at ht
    cases ht
    have := hplaced.start_eq
    rw [hoffset] at this
    revert this
    decide

end Llama

end Garuda
