import Garuda.Infra.Runs
import Garuda.Cache.KvList

/-!
# Runs of the paged KV cache

A run is a list of `append` / `ensureResident` / `truncate` calls that all return `Ok`.

* `kv_run_holds` — after a run the cache stands for the list the calls ask for
* `paged_cache_is_a_list` — what that means for the two maps and for the reads
-/

namespace Garuda

open Infra

variable {σ : Type}

/-! ## Calls -/

inductive KvOp where
  | append (key value : List F32)
  | ensureResident (start stop : Nat)
  | truncate (len : Nat)
  deriving DecidableEq

namespace KvOp

def apply : KvOp → KVCacheState σ → σ → KVCacheState.Step σ
  | append key value, kv, st => kv.append key value st
  | ensureResident start stop, kv, st => kv.ensureResident start stop st
  | truncate len, kv, st => kv.truncate len st

/-- What a call does to the list the cache stands for. -/
def onList (vs : List KvPair) : KvOp → List KvPair
  | append key value => vs ++ [(key, value)]
  | ensureResident _ _ => vs
  | truncate len => vs.take len

end KvOp

/-- One call that returns `Ok`. -/
def KVCacheState.call (s : KVCacheState σ × σ) (op : KvOp) : Option (KVCacheState σ × σ) :=
  match op.apply s.1 s.2 with
  | (.ok (), s') => some s'
  | (.error _, _) => none

/-- The list a run of calls asks for. -/
def listOf (ops : List KvOp) : List KvPair := ops.foldl KvOp.onList []

namespace KVCacheState

theorem call_eq_some {s s' : KVCacheState σ × σ} {op : KvOp} :
    call s op = some s' ↔ op.apply s.1 s.2 = (.ok (), s') := by
  unfold call
  split
  · next t h => rw [h]; simp
  · next e t h => rw [h]; simp

theorem call_shape {s s' : KVCacheState σ × σ} {op : KvOp} (h : call s op = some s') :
    SameShape s.1 s'.1 := by
  rw [call_eq_some] at h
  have hs : s' = (op.apply s.1 s.2).2 := by rw [h]
  rw [hs]
  cases op with
  | append k v => exact append_shape k v s.1 s.2
  | ensureResident a b => exact ensureResident_shape a b s.1 s.2
  | truncate m => exact truncate_shape m s.1 s.2

/-- One call does to the cache what it does to the list. -/
theorem call_holds {storage : Option (StorageBackend σ)} (law : ReadsBack storage)
    {s s' : KVCacheState σ × σ} {op : KvOp} {vs : List KvPair} (hs : s.1.storage = storage)
    (h : Holds s.1 (law.content s.2) vs) (hcall : call s op = some s') :
    Holds s'.1 (law.content s'.2) (op.onList vs) := by
  rw [call_eq_some] at hcall
  have hok : (op.apply s.1 s.2).1 = .ok () := by rw [hcall]
  have hs' : s' = (op.apply s.1 s.2).2 := by rw [hcall]
  rw [hs']
  cases op with
  | append k v => exact h.append law hs hok
  | ensureResident a b => exact h.ensureResident law hs a b
  | truncate m => exact h.truncate law hs hok

/-- **After any run the cache stands for the list the calls ask for.** -/
theorem kv_run_holds (cfg : KvConfig σ) (law : ReadsBack cfg.storage) {seqId layer : Nat}
    {ops : List KvOp} {st₀ : σ} {s : KVCacheState σ × σ}
    (hrun : runList call ops (forLayer cfg seqId layer, st₀) = some s) :
    SameShape (forLayer cfg seqId layer) s.1 ∧ Holds s.1 (law.content s.2) (listOf ops) := by
  refine runList_fold
    (P := fun s vs => SameShape (forLayer cfg seqId layer) s.1 ∧ Holds s.1 (law.content s.2) vs)
    KvOp.onList ?_ hrun ⟨SameShape.refl _, holds_forLayer cfg seqId layer _⟩
  rintro s op s' vs hcall ⟨hshape, h⟩
  exact ⟨hshape.trans (call_shape hcall), call_holds law hshape.storage h hcall⟩

/-! ## Reading back -/

theorem reload_ok_spilled {b : Nat} {kv : KVCacheState σ} {st : σ}
    (hok : (kv.reload b st).1 = .ok ()) : (kv.reload b st).2.1.spilled = kv.spilled.erase b := by
  rcases reload_cases b kv st with ⟨⟨e, he⟩, _⟩ | ⟨_, _, _, _, _, _, he⟩
  · rw [he] at hok; simp at hok
  · rw [he]; rfl

/-- A read-back of `bs` takes exactly `bs` off the disk map. -/
theorem reloadAll_ok_spilled_iff : ∀ (bs : List Nat) (kv : KVCacheState σ) (st : σ),
    (reloadAll bs kv st).1 = .ok () →
    ∀ a, a ∈ (reloadAll bs kv st).2.1.spilled ↔ a ∈ kv.spilled ∧ a ∉ bs
  | [], kv, st, _, a => by simp [reloadAll]
  | b :: bs, kv, st, hok, a => by
    rw [reloadAll] at hok ⊢
    cases hr : kv.reload b st with
    | mk res out =>
      rw [hr] at hok
      cases res with
      | error e => simp at hok
      | ok _ =>
        have hsp : (kv.reload b st).2.1.spilled = kv.spilled.erase b :=
          reload_ok_spilled (by rw [hr])
        rw [hr] at hsp
        show a ∈ (reloadAll bs out.1 out.2).2.1.spilled ↔ _
        rw [reloadAll_ok_spilled_iff bs out.1 out.2 hok a, hsp, mem_erase_iff, List.mem_cons,
          not_or]
        exact ⟨fun h => ⟨h.1.2, h.1.1, h.2⟩, fun h => ⟨⟨h.2.1, h.1⟩, h.2.2⟩⟩

/-- No block that overlaps `start..stop` is left on disk. -/
theorem ensureResident_ok_not_spilled {start stop : Nat} {kv : KVCacheState σ} {st : σ}
    (hok : (kv.ensureResident start stop st).1 = .ok ()) {j : Nat} (hlo : start ≤ j)
    (hhi : j < stop) : j / kv.blockSize ∉ (kv.ensureResident start stop st).2.1.spilled := by
  rcases ensureResident_cases start stop kv st with ⟨h, _⟩ | ⟨h, he⟩
  · omega
  · rw [he] at hok ⊢
    intro hmem
    obtain ⟨hs, hnot⟩ := (reloadAll_ok_spilled_iff _ _ _ hok _).mp hmem
    refine hnot ((mem_needed h).mpr ⟨?_, ?_, hs⟩)
    · exact Nat.div_le_div_right hlo
    · exact Nat.div_le_div_right (by omega)

variable {kv : KVCacheState σ} {disk : Path → Option Bytes} {vs : List KvPair}

/-- A position whose block is resident reads as the list's element. -/
theorem Holds.read (h : Holds kv disk vs) {j : Nat} (hj : j < kv.len)
    (hres : j / kv.blockSize ∈ kv.resident) :
    kv.keyAt j = (vs[j]?).map Prod.fst ∧ kv.valueAt j = (vs[j]?).map Prod.snd := by
  obtain ⟨blk, hblk⟩ := exists_getElem? hres
  have hpage := h.resident_eq _ _ hblk
  have hwide : Wide kv.kvDim (page kv.blockSize vs (j / kv.blockSize)) := h.wide.page _
  have hget := getElem?_page h.blockSize_pos vs j
  cases hv : vs[j]? with
  | none =>
    rw [List.getElem?_eq_none_iff, ← h.len_eq] at hv
    omega
  | some v =>
    rw [hv] at hget
    have hkey : flatRow kv.kvDim blk.keys (j % kv.blockSize) = some v.1 := by
      rw [hpage]
      exact flatRow_flatten hwide.keys (by rw [List.getElem?_map, hget, Option.map_some])
    have hvalue : flatRow kv.kvDim blk.values (j % kv.blockSize) = some v.2 := by
      rw [hpage]
      exact flatRow_flatten hwide.values (by rw [List.getElem?_map, hget, Option.map_some])
    have hlt : ¬ kv.len ≤ j := by omega
    constructor
    · simp [keyAt, sliceAt, hlt, hblk, hkey]
    · simp [valueAt, sliceAt, hlt, hblk, hvalue]

/-- **Straight after `ensureResident` every position of the range is readable.** -/
theorem Holds.read_ensured {storage : Option (StorageBackend σ)} (law : ReadsBack storage)
    (hs : kv.storage = storage) {st : σ} (h : Holds kv (law.content st) vs) {start stop : Nat}
    (hok : (kv.ensureResident start stop st).1 = .ok ()) {j : Nat} (hlo : start ≤ j)
    (hhi : j < stop) (hj : j < (kv.ensureResident start stop st).2.1.len) :
    (kv.ensureResident start stop st).2.1.keyAt j = (vs[j]?).map Prod.fst ∧
      (kv.ensureResident start stop st).2.1.valueAt j = (vs[j]?).map Prod.snd := by
  have h' := h.ensureResident law hs start stop
  have hbs := (ensureResident_shape start stop kv st).blockSize
  have hnot := ensureResident_ok_not_spilled hok hlo hhi
  refine h'.read hj ?_
  have hcov := h'.covered (j / kv.blockSize)
  rw [hbs] at hcov ⊢
  have hlt : j / kv.blockSize * kv.blockSize < vs.length := by
    have := Nat.div_mul_le_self j kv.blockSize
    rw [← h'.len_eq]; omega
  exact (hcov.mp hlt).resolve_right hnot

/-! ## What a reader of the cache is promised -/

/-- Block `b`, in RAM or in its spill file, holds `n` positions of full width. -/
def HasBlock (kv : KVCacheState σ) (disk : Path → Option Bytes) (b n : Nat) : Prop :=
  ∃ blk : KvBlock, blk.filled = n ∧ blk.keys.length = n * kv.kvDim ∧
    blk.values.length = n * kv.kvDim ∧
    (kv.resident[b]? = some blk ∨ ∃ p, kv.spilled[b]? = some p ∧ disk p = some blk.toBytes)

/-- The cache as a paged list, in terms of its two maps. -/
structure Paged (kv : KVCacheState σ) (disk : Path → Option Bytes) (vs : List KvPair) : Prop where
  length_eq : vs.length = kv.len
  length_le : kv.len ≤ kv.maxPositions
  one_map : ∀ b, b < pageCount kv.blockSize kv.len → Xor (b ∈ kv.resident) (b ∈ kv.spilled)
  no_map : ∀ b, pageCount kv.blockSize kv.len ≤ b → b ∉ kv.resident ∧ b ∉ kv.spilled
  full : ∀ b, b + 1 < pageCount kv.blockSize kv.len → HasBlock kv disk b kv.blockSize
  partial_resident : kv.len % kv.blockSize ≠ 0 → kv.len / kv.blockSize ∈ kv.resident

theorem Holds.hasBlock (h : Holds kv disk vs) {b : Nat} (hb : b ∈ kv.resident ∨ b ∈ kv.spilled) :
    HasBlock kv disk b (page kv.blockSize vs b).length := by
  have hwide : Wide kv.kvDim (page kv.blockSize vs b) := h.wide.page b
  refine ⟨KvBlock.ofPage (page kv.blockSize vs b), rfl, KvBlock.length_keys hwide,
    KvBlock.length_values hwide, ?_⟩
  rcases hb with hr | hs
  · obtain ⟨blk, hblk⟩ := exists_getElem? hr
    left
    rw [hblk, h.resident_eq b blk hblk]
  · obtain ⟨p, hp⟩ := exists_getElem? hs
    right
    exact ⟨p, hp, by rw [h.spilled_path b p hp]; exact h.spilled_disk b hs⟩

theorem Holds.paged (h : Holds kv disk vs) : Paged kv disk vs where
  length_eq := h.len_eq.symm
  length_le := h.len_le
  one_map := by
    intro b hb
    rw [lt_pageCount h.blockSize_pos, h.len_eq] at hb
    rcases (h.covered b).mp hb with hr | hs
    · exact Or.inl ⟨hr, h.disjoint b hr⟩
    · exact Or.inr ⟨hs, fun hr => h.disjoint b hr hs⟩
  no_map := by
    intro b hb
    rw [← Nat.not_lt, lt_pageCount h.blockSize_pos, h.len_eq, h.covered b, not_or] at hb
    exact hb
  full := by
    intro b hb
    have hlen : (page kv.blockSize vs b).length = kv.blockSize :=
      length_page_full h.blockSize_pos (by rw [← h.len_eq]; exact hb)
    rw [← hlen]
    refine h.hasBlock ((h.covered b).mp ?_)
    rw [← h.len_eq, ← lt_pageCount h.blockSize_pos]
    omega
  partial_resident := h.partial_resident

/--
**The paged KV cache is a plain list.** After any run of successful calls on a fresh cache,
whatever the configuration, the two maps page the list that the calls ask for, and whatever
range is made resident next reads as that list.
-/
theorem paged_cache_is_a_list (cfg : KvConfig σ) (law : ReadsBack cfg.storage)
    (seqId layer : Nat) (ops : List KvOp) (st₀ : σ) (kv : KVCacheState σ) (st : σ)
    (hrun : runList call ops (forLayer cfg seqId layer, st₀) = some (kv, st)) :
    kv.maxPositions = max cfg.maxPositions.toNat 1 ∧
    Paged kv (law.content st) (listOf ops) ∧
    ∀ start stop, (kv.ensureResident start stop st).1 = .ok () →
      ∀ j, start ≤ j → j < stop → j < (kv.ensureResident start stop st).2.1.len →
        (kv.ensureResident start stop st).2.1.keyAt j = ((listOf ops)[j]?).map Prod.fst ∧
        (kv.ensureResident start stop st).2.1.valueAt j = ((listOf ops)[j]?).map Prod.snd := by
  obtain ⟨hshape, h⟩ := kv_run_holds cfg law hrun
  refine ⟨hshape.maxPositions, h.paged, ?_⟩
  intro start stop hok j hlo hhi hj
  exact h.read_ensured law hshape.storage hok hlo hhi hj

end KVCacheState

/-! ## A run that spills -/

/-- A configuration small enough to evaluate: one layer of vectors of width one. -/
def tinyCfg (blockSize maxResidentBlocks : UInt64) (slidingWindow : Option UInt64)
    (storage : StorageBackend σ) : KvConfig σ where
  dims := { vocabSize := 8, blockSize := blockSize }
  kvDim := 1
  nLayers := 1
  kvDims := none
  maxPositions := 64
  maxResidentBlocks := maxResidentBlocks
  slidingWindow := slidingWindow
  storage := some storage

/-- The append of position `n`. -/
def appendOne (n : UInt32) : KvOp := .append [⟨n⟩] [⟨n⟩]

/-- Five positions with room for one block of two, a reload, and a cut inside a block. -/
def spillingOps : List KvOp :=
  [appendOne 0, appendOne 1, appendOne 2, appendOne 3, appendOne 4,
    .ensureResident 2 4, .truncate 3]

theorem paged_cache_is_a_list_spilling :
    ∃ kv st, runList KVCacheState.call spillingOps
        (KVCacheState.forLayer (tinyCfg 2 1 none memoryStorage) 7 0, fun _ => none)
          = some (kv, st) ∧
      kv.len = 3 ∧ kv.hasSpill = true ∧
      KVCacheState.Paged kv st (listOf spillingOps) := by
  have hsome : (runList KVCacheState.call spillingOps
      (KVCacheState.forLayer (tinyCfg 2 1 none memoryStorage) 7 0, fun _ => none)).any
        (fun s => s.1.len == 3 && s.1.hasSpill) = true := by decide +kernel
  obtain ⟨⟨kv, st⟩, hs, hlen⟩ := (Option.any_eq_true _ _).mp hsome
  have hpaged := (KVCacheState.paged_cache_is_a_list (tinyCfg 2 1 none memoryStorage)
    memoryStorage_reliable.toReadsBack 7 0 spillingOps _ kv st hs).2.1
  simp only [Bool.and_eq_true, beq_iff_eq] at hlen
  exact ⟨kv, st, hs, hlen.1, hlen.2, hpaged⟩

end Garuda
