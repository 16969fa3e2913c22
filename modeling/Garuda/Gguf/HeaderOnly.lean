import Garuda.Gguf.Parse

/-!
# Parsing reads exactly its header

Every read of the parser is `Exact`: it never panics, it takes at least as many bytes as the
parser counts on when it checks a number of entries, and it looks at nothing past what it took.

`parse_exact` puts this together for a whole file.
-/

namespace Garuda

open Infra

namespace Gguf

/-! ## The cursor's reads -/

theorem take_eq_ok {n : Nat} {c c' : Cursor} {s : Bytes} (h : take n c = .ok (s, c')) :
    c.pos + n ≤ c.buf.length ∧ s = (c.buf.drop c.pos).take n ∧
      c' = { c with pos := c.pos + n } := by
  unfold take at h
  split at h
  · cases h
  · split at h
    next hn =>
      cases h
      exact ⟨hn, rfl, rfl⟩
    · cases h

theorem length_of_take {n : Nat} {c c' : Cursor} {s : Bytes} (h : take n c = .ok (s, c')) :
    s.length = n := by
  obtain ⟨hn, rfl, -⟩ := take_eq_ok h
  rw [List.length_take, List.length_drop]
  omega

theorem exact_take (n : Nat) : Exact (take n) n where
  total c _ := by
    unfold take
    split
    · exact nofun
    · split <;> exact nofun
  takes c s c' _ h := by
    obtain ⟨hn, -, rfl⟩ := take_eq_ok h
    exact ⟨rfl, Nat.le_refl _, hn⟩
  locally c s c' buf _ h hlen hpos heq := by
    obtain ⟨hn, rfl, rfl⟩ := take_eq_ok h
    replace hpos : c.pos + n ≤ buf.length := hpos
    replace heq : buf.take (c.pos + n) = c.buf.take (c.pos + n) := heq
    have hsame : (buf.drop c.pos).take n = (c.buf.drop c.pos).take n := by
      have := congrArg (List.drop c.pos) heq
      rwa [List.drop_take, List.drop_take, Nat.add_sub_cancel_left] at this
    rw [take, if_neg (by show ¬ 2 ^ 64 ≤ c.pos + n; omega), if_pos hpos]
    simp only [hsame]

theorem exact_word (w : Nat) : Exact (word w) w := by
  refine (exact_take w).bind_of (k := 0) (fun c s c' h => length_of_take h) fun s hs => ?_
  rw [if_pos hs]
  exact Exact.pure _

theorem exact_readU8 : Exact readU8 1 := by
  refine (exact_take 1).bind_of (k := 0) (fun c s c' h => length_of_take h) fun s hs => ?_
  cases s with
  | nil => cases hs
  | cons b rest => exact Exact.pure _

theorem exact_readU16 : Exact readU16 2 := (exact_word 2).map _

theorem exact_readU32 : Exact readU32 4 := (exact_word 4).map _

theorem exact_readU64 : Exact readU64 8 := (exact_word 8).map _

theorem exact_stringBytes (len : Nat) : Exact (stringBytes len) len := by
  refine (exact_take len).bind (k := 0) fun bytes => ?_
  split
  · exact Exact.pure _
  · exact Exact.fail _ _

theorem left_of_min {ε : Type} (c : Cursor) (hc : c.Fits) :
    (usizeSub c.buf.length (min c.pos c.buf.length) : Checked ε Nat)
      = .ok (c.buf.length - c.pos) := by
  rw [Nat.min_eq_left hc.1, usizeSub, if_pos hc.1]

theorem left_of_pos {ε : Type} (c : Cursor) (hc : c.Fits) :
    (usizeSub c.buf.length c.pos : Checked ε Nat) = .ok (c.buf.length - c.pos) := by
  rw [usizeSub, if_pos hc.1]

theorem exact_string : Exact string 8 := by
  refine exact_readU64.bind (k := 0) fun len => Exact.weaken ?_ (Nat.zero_le len.toNat)
  exact (exact_stringBytes len.toNat).guard left_of_min (P := fun r => r < len.toNat)
    (fun r hr => by omega) _

/-! ## Values -/

theorem minValueBytes_pos (typeId : UInt32) : 1 ≤ minValueBytes typeId := by
  unfold minValueBytes
  split <;> omega

theorem usizeDiv_min {ε : Type} (r : Nat) (typeId : UInt32) :
    (usizeDiv r (max (minValueBytes typeId) 1) : Checked ε Nat)
      = .ok (r / minValueBytes typeId) := by
  have h := minValueBytes_pos typeId
  rw [Nat.max_eq_left h, usizeDiv, if_neg (by omega)]

/-- An array takes at least what its elements cannot do without. -/
theorem exact_array {n : Nat} {elemType : UInt32} {p : Parse GarudaError Value}
    (hp : Exact p (minValueBytes elemType)) (e : Cursor → GarudaError) :
    Exact (Parse.cursor >>= fun c => Parse.lift (.ok (c.buf.length - c.pos)) >>= fun remaining =>
      Parse.lift (usizeDiv remaining (max (minValueBytes elemType) 1)) >>= fun most =>
        if most < n then Parse.fail (e c)
        else Parse.times n p >>= fun items => pure (Value.array items)) 0 := by
  simp only [usizeDiv_min]
  refine Exact.weaken ?_ (Nat.zero_le (n * minValueBytes elemType))
  have hpos := minValueBytes_pos elemType
  refine ((hp.times n).map Value.array).guard (fun c _ => rfl)
    (P := fun r => r / minValueBytes elemType < n) (fun r hr => ?_) (fun c _ => e c)
  rw [Nat.not_lt, Nat.le_div_iff_mul_le hpos]
  exact hr

theorem exact_value (typeId : UInt32) (depth : Nat) :
    Exact (value typeId depth) (minValueBytes typeId) := by
  induction hk : 9 - depth generalizing typeId depth with
  | zero =>
    rw [value.eq_def, dif_pos (by omega)]
    exact Exact.fail _ _
  | succ k ih =>
    rw [value.eq_def, dif_neg (by omega)]
    split
    · exact exact_readU8.map _
    · exact exact_readU8.map _
    · exact exact_readU16.map _
    · exact exact_readU16.map _
    · exact exact_readU32.map _
    · exact exact_readU32.map _
    · exact exact_readU32.map _
    · exact exact_readU8.map _
    · exact exact_string.map _
    · refine exact_readU32.bind (k := 8) fun elemType => exact_readU64.bind (k := 0) fun n => ?_
      exact exact_array (ih elemType (depth + 1) (by omega)) _
    · exact exact_readU64.map _
    · exact exact_readU64.map _
    · exact exact_readU64.map _
    · exact Exact.fail _ _

/-! ## The document -/

theorem exact_entry : Exact entry 13 := by
  refine exact_string.bind (k := 5) fun key => exact_readU32.bind (k := 1) fun typeId => ?_
  exact ((exact_value typeId 0).weaken (minValueBytes_pos typeId)).map _

theorem exact_tensorInfo : Exact tensorInfo 24 := by
  refine exact_string.bind (k := 16) fun name => exact_readU32.bind (k := 12) fun nDims => ?_
  split
  · exact Exact.fail _ _
  · refine ((exact_readU64.times nDims.toNat).weaken (Nat.zero_le _)).bind (k := 12) fun dims => ?_
    exact exact_readU32.bind (k := 8) fun ggmlType => exact_readU64.map _

theorem isPowerOfTwo_le {n : Nat} (h : isPowerOfTwo n = true) (hn : n < 2 ^ 64) : n ≤ 2 ^ 63 := by
  simp only [isPowerOfTwo, Bool.and_eq_true, bne_iff_ne, beq_iff_eq] at h
  rw [← h.2] at hn ⊢
  have hlog : Nat.log2 n < 64 := (Nat.pow_lt_pow_iff_right (by omega)).mp hn
  exact Nat.pow_le_pow_right (by omega) (by omega)

theorem nextMultipleOf_ok {ε : Type} {n a : Nat} (hn : n < 2 ^ 63) (ha : a ≠ 0) (ha' : a ≤ 2 ^ 63) :
    (nextMultipleOf n a : Checked ε Nat) = .ok ((n + a - 1) / a * a) := by
  have hle : (n + a - 1) / a * a ≤ n + a - 1 := Nat.div_mul_le_self _ _
  rw [nextMultipleOf, if_neg ha]
  simp only
  rw [if_pos (by omega)]

theorem exact_finishDocument (version : UInt32) (entries : List (String × Value))
    (tensors : List TensorInfo) : Exact (finishDocument version entries tensors) 0 := by
  rw [finishDocument]
  simp only
  split
  · exact Exact.fail _ _
  next ha =>
    generalize alignmentOf _ = a at ha ⊢
    rw [not_or, Bool.not_eq_false] at ha
    have hle := isPowerOfTwo_le ha.2 a.toNat_lt
    exact Exact.position (fun n hn => ⟨_, nextMultipleOf_ok hn ha.1 hle⟩) _

theorem exact_body (version : UInt32) (tensorCount kvCount : Nat) :
    Exact (body version tensorCount kvCount) (kvCount * 13 + tensorCount * 24) := by
  refine (exact_entry.times kvCount).bind fun entries => ?_
  exact (exact_tensorInfo.times tensorCount).bind (k := 0) fun tensors =>
    exact_finishDocument version entries tensors

theorem exact_document : Exact document 0 := by
  refine Exact.weaken (m := 4) ?_ (Nat.zero_le _)
  refine (exact_take 4).bind (k := 0) fun m => ?_
  split
  · exact Exact.fail _ _
  refine (exact_readU32.weaken (Nat.zero_le _)).bind (k := 0) fun version => ?_
  split
  · exact Exact.fail _ _
  refine (exact_readU64.weaken (Nat.zero_le _)).bind (k := 0) fun tensorCount => ?_
  refine (exact_readU64.weaken (Nat.zero_le _)).bind (k := 0) fun kvCount => ?_
  refine Exact.weaken ?_ (Nat.zero_le (kvCount.toNat * 13 + tensorCount.toNat * 24))
  refine (exact_body version tensorCount.toNat kvCount.toNat).guard left_of_pos
    (P := fun r => r / minTensorBytes < tensorCount.toNat ∨ r / minKvBytes < kvCount.toNat)
    (fun r hr => ?_) _
  simp only [minTensorBytes, minKvBytes]
  omega

/-! ## A whole file -/

theorem parse_eq_ok {data : Bytes} {g : Gguf} (h : parse data = .ok g) :
    ∃ c, document { buf := data, pos := 0 } = .ok (g, c) := by
  obtain ⟨⟨g', c⟩, hdoc, hg⟩ := Checked.bind_eq_ok h
  cases hg
  exact ⟨c, hdoc⟩

theorem parse_of_document {data : Bytes} {r : Checked GarudaError (Gguf × Cursor)}
    (h : document { buf := data, pos := 0 } = r) : parse data = r >>= fun (g, _) => .ok g := by
  rw [← h]
  rfl

/-- **Parsing reads exactly its header.** It never panics; where it accepts a file, with the
descriptors ending at `p`, it refuses every prefix shorter than `p` and gives the same document
for every file with the same first `p` bytes. -/
theorem parse_exact (data : Bytes) (hdata : data.length < 2 ^ 63) :
    parse data ≠ .panic ∧
    ∀ g, parse data = .ok g → ∃ p,
      document { buf := data, pos := 0 } = .ok (g, { buf := data, pos := p }) ∧
      p ≤ data.length ∧
      (∀ k, k < p → ∃ e, parse (data.take k) = .err e) ∧
      (∀ data', data'.length < 2 ^ 63 → data'.take p = data.take p → parse data' = .ok g) := by
  have hfits : Cursor.Fits { buf := data, pos := 0 } := ⟨Nat.zero_le _, hdata⟩
  constructor
  · cases h : document { buf := data, pos := 0 } with
    | ok r => rw [parse_of_document h]; exact nofun
    | err e => rw [parse_of_document h]; exact nofun
    | panic => exact absurd h (exact_document.total _ hfits)
  · intro g hg
    obtain ⟨c, hdoc⟩ := parse_eq_ok hg
    obtain ⟨hpos, hcut, hmore⟩ := exact_document.prefix_iff hdata hdoc
    have hbuf : c.buf = data := (exact_document.takes _ g c hfits hdoc).1
    have hc : c = { buf := data, pos := c.pos } := by rw [← hbuf]
    refine ⟨c.pos, by rw [← hc]; exact hdoc, hpos, ?_, ?_⟩
    · intro k hk
      obtain ⟨e, he⟩ := hcut k hk
      exact ⟨e, parse_of_document he⟩
    · intro data' hlen heq
      exact parse_of_document (hmore data' hlen heq)

/-- A file of a header alone, with no metadata and no tensor. -/
def headerOnly : Bytes := magic ++ toLE 4 3 ++ toLE 8 0 ++ toLE 8 0

theorem parse_exact_headerOnly :
    ∃ g p, parse headerOnly = .ok g ∧ g.dataOffset = 32 ∧ p ≤ 24 ∧
      (∀ k, k < p → ∃ e, parse (headerOnly.take k) = .err e) ∧
      parse (headerOnly ++ [1, 2, 3]) = .ok g := by
  have hlen : headerOnly.length < 2 ^ 63 := by decide
  obtain ⟨-, hexact⟩ := parse_exact headerOnly hlen
  have hok : (match parse headerOnly with
      | .ok g => decide (g.dataOffset = 32)
      | _ => false) = true := by decide +kernel
  cases hg : parse headerOnly with
  | ok g =>
    rw [hg] at hok
    obtain ⟨p, -, hp, hcut, hmore⟩ := hexact g hg
    have hp : p ≤ 24 := hp
    refine ⟨g, p, rfl, of_decide_eq_true hok, hp, hcut, hmore _ (by decide) ?_⟩
    exact List.take_append_of_le_length hp
  | err e => rw [hg] at hok; cases hok
  | panic => rw [hg] at hok; cases hok

end Gguf

end Garuda
