import Garuda.Qwen35.Load

/-!
# Block spans

In a file that holds all its tensors, the span of a block holds all tensors of the block.

* `WellFormed` is such a file; nothing that the loader computes from it wraps.
* `Covers` says of spans that each holds the tensors of its block, and `blockSpans_covers` that
  those of `block_spans` do.
-/

namespace Garuda

open Infra Quant Llama

/-- Where a tensor starts in the file. -/
def Gguf.place (g : Gguf) (t : TensorInfo) : Nat := g.dataOffset + t.offset.toNat

/-- Its length in bytes; none is known for a type that has no layout. -/
def TensorInfo.extent (t : TensorInfo) : Nat := t.bytes.getD 0

/-- A model at least one wide, with every tensor inside the file. -/
structure WellFormed (g : Gguf) (file : Bytes) : Prop where
  size : file.length < 2 ^ 63
  products : ∀ t ∈ g.tensors, ∀ ps, ps <+: t.dims → (ps.map UInt64.toNat).prod < 2 ^ 64
  within : ∀ t ∈ g.tensors, g.place t + t.extent ≤ file.length
  width : g.archU64 "embedding_length" ≠ some 0

/-! ## Names -/

theorem parseUsize_repr {n : Nat} (h : n < 2 ^ 64) : parseUsize n.repr.toList = some n := by
  have hdigits : ∀ c ∈ n.repr.toList, c.isDigit = true := fun c hc =>
    Nat.isDigit_of_mem_toDigits (by decide) (by decide) (Nat.toList_repr ▸ hc)
  have hne : n.repr.toList ≠ [] := by
    rw [Nat.toList_repr]
    exact Nat.toDigits_ne_nil
  have hsign : dropSign n.repr.toList = n.repr.toList := by
    unfold dropSign
    split
    next rest heq =>
      exact absurd (hdigits '+' (heq ▸ List.mem_cons_self)) (by decide)
    next => rfl
  have hall : n.repr.toList.all Char.isDigit = true := List.all_eq_true.mpr hdigits
  have hval : Nat.ofDigitChars 10 n.repr.toList 0 = n := by
    rw [Nat.toList_repr, Nat.ofDigitChars_ten_toDigits]
  simp only [parseUsize, hsign, hne, hall, hval, h, Bool.true_eq_false, or_self, if_false, if_true]

/-- A tensor that is named after a block is in that block. -/
theorem blockIndex_blockTensor {l : Nat} (suffix : String) (h : l < 2 ^ 64) :
    blockIndex (blockTensor l suffix) = some l := by
  have hlist : (blockTensor l suffix).toList
      = 'b' :: 'l' :: 'k' :: '.' :: (l.repr.toList ++ '.' :: suffix.toList) := by
    simp [blockTensor, toString, String.toList_append]
  have hdot : '.' ∈ l.repr.toList ++ '.' :: suffix.toList := by simp
  have htake : (l.repr.toList ++ '.' :: suffix.toList).takeWhile (· != '.') = l.repr.toList := by
    rw [List.takeWhile_append_of_pos, List.takeWhile_cons_of_neg (by simp), List.append_nil]
    intro c hc
    have := Nat.isDigit_of_mem_toDigits (by decide) (by decide) (Nat.toList_repr ▸ hc)
    rw [bne_iff_ne]
    rintro rfl
    exact absurd this (by decide)
  simp only [blockIndex, hlist, hdot, if_true, htake, parseUsize_repr h]

/-! ## Nothing wraps -/

section

variable {g : Gguf} {file : Bytes} {t : TensorInfo}

theorem WellFormed.elements_lt (hwf : WellFormed g file) (ht : t ∈ g.tensors) :
    t.elements < 2 ^ 64 := hwf.products t ht t.dims List.prefix_rfl

theorem WellFormed.bytes_le (hwf : WellFormed g file) (ht : t ∈ g.tensors) {m : Nat}
    (hm : t.bytes = some m) : g.place t + m ≤ file.length := by
  have := hwf.within t ht
  rwa [TensorInfo.extent, hm] at this

/-- The length of a tensor, as `block_spans` counts it. -/
theorem WellFormed.lengthOrZero_eq (hwf : WellFormed g file) (ht : t ∈ g.tensors) (b : Build) :
    lengthOrZero (byteSize b t.ggmlType t.elements) = .ok t.extent := by
  cases hm : t.bytes with
  | none =>
    obtain ⟨e, he⟩ := byteSize_of_none hm
    rw [he b, TensorInfo.extent, hm]
    rfl
  | some m =>
    have := hwf.bytes_le ht hm
    have := hwf.size
    rw [byteSize_of_dataBytes b hm, Build.fit_of_lt b (by omega), TensorInfo.extent, hm]
    rfl

/-! ## Widening -/

/-- What `spanStep` makes of the spans. -/
def widen (g : Gguf) (spans : List (Nat × Nat)) (t : TensorInfo) : List (Nat × Nat) :=
  match blockIndex t.name with
  | none => spans
  | some l => spans.modify l fun span => (min span.1 (g.place t), max span.2 (g.place t + t.extent))

theorem spanStep_eq (hwf : WellFormed g file) (ht : t ∈ g.tensors) (b : Build)
    (spans : List (Nat × Nat)) : spanStep b g spans t = .ok (widen g spans t) := by
  have hwithin := hwf.within t ht
  have hsize := hwf.size
  unfold spanStep widen
  cases blockIndex t.name with
  | none => rfl
  | some l =>
    simp only
    split
    · next hl => rw [List.modify_eq_self hl]
    · have hplace : g.dataOffset + t.offset.toNat < 2 ^ 64 := by
        show g.place t < 2 ^ 64
        omega
      have hstop : g.dataOffset + t.offset.toNat + t.extent < 2 ^ 64 := by
        show g.place t + t.extent < 2 ^ 64
        omega
      rw [Build.fit_of_lt b hplace, Checked.ok_bind,
        TensorInfo.nElements_of_products (hwf.products t ht) b, Checked.ok_bind,
        hwf.lengthOrZero_eq ht b, Checked.ok_bind, Build.fit_of_lt b hstop, Checked.ok_bind]
      rfl

/--
Each span, as first and last byte, holds the tensors of its block among `ts` and lies in the file;
one that holds nothing is still as it began.
-/
structure Widened (g : Gguf) (file : Bytes) (ts : List TensorInfo) (spans : List (Nat × Nat)) :
    Prop where
  holds : ∀ (l : Nat) (span : Nat × Nat), spans[l]? = some span →
    ∀ t ∈ ts, blockIndex t.name = some l →
    span.1 ≤ g.place t ∧ g.place t + t.extent ≤ span.2
  inside : ∀ (l : Nat) (span : Nat × Nat), spans[l]? = some span → span.2 ≤ file.length
  ordered : ∀ (l : Nat) (span : Nat × Nat), spans[l]? = some span →
    span.1 = usizeMax ∨ span.1 ≤ span.2

theorem widened_nil (n : Nat) : Widened g file [] (List.replicate n (usizeMax, 0)) := by
  have hall : ∀ (l : Nat) (span : Nat × Nat),
      (List.replicate n (usizeMax, 0))[l]? = some span → span = (usizeMax, 0) := by
    intro l span h
    exact List.eq_of_mem_replicate (List.mem_of_getElem? h)
  refine ⟨fun _ _ _ t ht => absurd ht List.not_mem_nil, fun l span h => ?_, fun l span h => ?_⟩
  · rw [hall l span h]
    exact Nat.zero_le _
  · rw [hall l span h]
    exact .inl rfl

theorem widened_step (hwf : WellFormed g file) (ht : t ∈ g.tensors) {ts : List TensorInfo}
    {spans : List (Nat × Nat)} (h : Widened g file ts spans) :
    Widened g file (ts ++ [t]) (widen g spans t) := by
  have hwithin := hwf.within t ht
  unfold widen
  cases hl : blockIndex t.name with
  | none =>
    refine ⟨fun l span hspan t' ht' hidx => ?_, h.inside, h.ordered⟩
    rcases List.mem_append.mp ht' with ht' | ht'
    · exact h.holds l span hspan t' ht' hidx
    · rw [List.mem_singleton.mp ht', hl] at hidx
      cases hidx
  | some k =>
    simp only
    -- a span is an old one, or that of `t`'s block widened
    have hcases : ∀ (l : Nat) (span : Nat × Nat), (spans.modify k fun span =>
        (min span.1 (g.place t), max span.2 (g.place t + t.extent)))[l]? = some span →
        ∃ old, spans[l]? = some old ∧ (k ≠ l ∧ span = old ∨
          k = l ∧ span = (min old.1 (g.place t), max old.2 (g.place t + t.extent))) := by
      intro l span hspan
      rw [List.getElem?_modify] at hspan
      obtain ⟨old, hold, rfl⟩ := Option.map_eq_some_iff.mp hspan
      by_cases hk : k = l
      · exact ⟨old, hold, .inr ⟨hk, if_pos hk⟩⟩
      · exact ⟨old, hold, .inl ⟨hk, if_neg hk⟩⟩
    refine ⟨fun l span hspan t' ht' hidx => ?_, fun l span hspan => ?_, fun l span hspan => ?_⟩
    · obtain ⟨old, hold, ⟨hk, rfl⟩ | ⟨rfl, rfl⟩⟩ := hcases l span hspan
      · rcases List.mem_append.mp ht' with ht' | ht'
        · exact h.holds l span hold t' ht' hidx
        · rw [List.mem_singleton.mp ht', hl] at hidx
          exact absurd (Option.some.inj hidx) hk
      · simp only
        rcases List.mem_append.mp ht' with ht' | ht'
        · have := h.holds k old hold t' ht' hidx
          omega
        · rw [List.mem_singleton.mp ht']
          omega
    · obtain ⟨old, hold, ⟨-, rfl⟩ | ⟨rfl, rfl⟩⟩ := hcases l span hspan
      · exact h.inside l span hold
      · have := h.inside k old hold
        simp only
        omega
    · obtain ⟨old, hold, ⟨-, rfl⟩ | ⟨rfl, rfl⟩⟩ := hcases l span hspan
      · exact h.ordered l span hold
      · right
        simp only
        omega

theorem widened_foldl (hwf : WellFormed g file) : ∀ (ts done : List TensorInfo)
    (spans : List (Nat × Nat)), (∀ t ∈ ts, t ∈ g.tensors) → Widened g file done spans →
    Widened g file (done ++ ts) (ts.foldl (widen g) spans) := by
  intro ts
  induction ts with
  | nil =>
    intro done spans _ h
    rwa [List.append_nil]
  | cons t ts ih =>
    intro done spans hmem h
    have := ih (done ++ [t]) (widen g spans t) (fun t' ht' => hmem t' (List.mem_cons_of_mem t ht'))
      (widened_step hwf (hmem t List.mem_cons_self) h)
    rwa [List.append_assoc] at this

/-! ## Spans -/

/-- Each span lies in the file and holds every tensor of its block. -/
structure Covers (g : Gguf) (file : Bytes) (spans : List (Nat × Nat)) : Prop where
  inside : ∀ (l : Nat) (span : Nat × Nat), spans[l]? = some span →
    span.1 + span.2 ≤ file.length
  holds : ∀ (l : Nat) (span : Nat × Nat), spans[l]? = some span →
    ∀ t ∈ g.tensors, blockIndex t.name = some l →
    span.1 ≤ g.place t ∧ g.place t + t.extent ≤ span.1 + span.2

theorem length_foldl_widen (ts : List TensorInfo) (spans : List (Nat × Nat)) :
    (ts.foldl (widen g) spans).length = spans.length := by
  induction ts generalizing spans with
  | nil => rfl
  | cons t ts ih =>
    rw [List.foldl_cons, ih]
    unfold widen
    cases blockIndex t.name with
    | none => rfl
    | some l => exact List.length_modify ..

/-- **A span holds every tensor of its block.** -/
theorem blockSpans_covers (hwf : WellFormed g file) (b : Build) (n : Nat) :
    ∃ spans, blockSpans b g n = .ok spans ∧ spans.length = n ∧ Covers g file spans := by
  have hsteps : g.tensors.foldlM (spanStep b g) (List.replicate n (usizeMax, 0))
      = .ok (g.tensors.foldl (widen g) (List.replicate n (usizeMax, 0))) :=
    Checked.foldlM_eq_ok (fun spans t ht => spanStep_eq hwf ht b spans) _
  have hwide : Widened g file g.tensors
      (g.tensors.foldl (widen g) (List.replicate n (usizeMax, 0))) :=
    widened_foldl hwf g.tensors [] _ (fun _ ht => ht) (widened_nil n)
  have hlen := length_foldl_widen (g := g) g.tensors (List.replicate n (usizeMax, 0))
  rw [List.length_replicate] at hlen
  generalize g.tensors.foldl (widen g) (List.replicate n (usizeMax, 0)) = wide at *
  let close (span : Nat × Nat) : Nat × Nat :=
    if span.1 = usizeMax then (0, 0) else (span.1, span.2 - span.1)
  have hclose : ∀ span ∈ wide, spanOf b span = .ok (close span) := by
    intro span hspan
    obtain ⟨l, hl⟩ := List.getElem?_of_mem hspan
    by_cases hmax : span.1 = usizeMax
    · simp only [spanOf, close, if_pos hmax]
    · have := (hwide.ordered l span hl).resolve_left hmax
      simp only [spanOf, close, if_neg hmax, Build.sub_of_le b this, Checked.ok_bind]
  refine ⟨wide.map close, ?_, by rw [List.length_map, hlen], ?_, ?_⟩
  · rw [blockSpans, hsteps, Checked.ok_bind, Checked.mapM_eq_ok hclose]
  · intro l span hspan
    rw [List.getElem?_map] at hspan
    obtain ⟨old, hold, rfl⟩ := Option.map_eq_some_iff.mp hspan
    have hin := hwide.inside l old hold
    by_cases hmax : old.1 = usizeMax
    · simp only [close, if_pos hmax]
      exact Nat.zero_le _
    · have := (hwide.ordered l old hold).resolve_left hmax
      simp only [close, if_neg hmax]
      omega
  · intro l span hspan t ht hidx
    rw [List.getElem?_map] at hspan
    obtain ⟨old, hold, rfl⟩ := Option.map_eq_some_iff.mp hspan
    obtain ⟨hlo, hhi⟩ := hwide.holds l old hold t ht hidx
    have hin := hwide.inside l old hold
    have hsize := hwf.size
    -- a block with a tensor has been widened
    have hmax : old.1 ≠ usizeMax := by
      unfold usizeMax
      omega
    have := (hwide.ordered l old hold).resolve_left hmax
    simp only [close, if_neg hmax]
    omega

end

end Garuda
