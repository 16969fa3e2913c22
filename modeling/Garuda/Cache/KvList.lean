import Garuda.Cache.KvSteps

/-!
# The paged KV cache is a plain list

`Holds kv disk vs` says that the cache stands for the list `vs` of (key, value) vectors:
block `b` is page `b` of the list, in RAM or in its spill file, never in both.

Every operation is a list operation under this reading:

* `Holds.append` — a push (`Holds.push`, then evictions that change nothing)
* `Holds.ensureResident` — nothing
* `Holds.truncate` — `List.take`

`paged_cache_is_a_list` follows by induction over a run from a fresh cache.
-/

namespace Garuda

open Infra

variable {σ : Type}

/-- A position: its key and its value vector. -/
abbrev KvPair := List F32 × List F32

/-! ## A block is a page -/

/-- The block that stores a page of positions. -/
def KvBlock.ofPage (pg : List KvPair) : KvBlock where
  keys := (pg.map Prod.fst).flatten
  values := (pg.map Prod.snd).flatten
  filled := pg.length

/-- Every vector has width `d`. -/
def Wide (d : Nat) (vs : List KvPair) : Prop :=
  ∀ v ∈ vs, v.1.length = d ∧ v.2.length = d

theorem Wide.page {d n : Nat} {vs : List KvPair} (h : Wide d vs) (b : Nat) :
    Wide d (page n vs b) :=
  fun v hv => h v (List.mem_of_mem_drop (List.mem_of_mem_take hv))

theorem Wide.take {d : Nat} {vs : List KvPair} (h : Wide d vs) (m : Nat) : Wide d (vs.take m) :=
  fun v hv => h v (List.mem_of_mem_take hv)

theorem Wide.keys {d : Nat} {vs : List KvPair} (h : Wide d vs) :
    ∀ r ∈ vs.map Prod.fst, r.length = d := by
  intro r hr
  obtain ⟨v, hv, rfl⟩ := List.mem_map.mp hr
  exact (h v hv).1

theorem Wide.values {d : Nat} {vs : List KvPair} (h : Wide d vs) :
    ∀ r ∈ vs.map Prod.snd, r.length = d := by
  intro r hr
  obtain ⟨v, hv, rfl⟩ := List.mem_map.mp hr
  exact (h v hv).2

namespace KvBlock

theorem ofPage_push (pg : List KvPair) (k v : List F32) :
    ofPage (pg ++ [(k, v)])
      = { keys := (ofPage pg).keys ++ k, values := (ofPage pg).values ++ v,
          filled := (ofPage pg).filled + 1 } := by
  simp [ofPage]

theorem ofPage_take {d m : Nat} {pg : List KvPair} (h : Wide d pg) (hm : m ≤ pg.length) :
    ofPage (pg.take m)
      = { keys := (ofPage pg).keys.take (m * d), values := (ofPage pg).values.take (m * d),
          filled := m } := by
  simp only [ofPage, List.map_take]
  rw [take_flatten_rows h.keys, take_flatten_rows h.values, List.length_take, Nat.min_eq_left hm]

theorem length_keys {d : Nat} {pg : List KvPair} (h : Wide d pg) :
    (ofPage pg).keys.length = pg.length * d := by
  rw [ofPage, length_flatten_rows h.keys, List.length_map]

theorem length_values {d : Nat} {pg : List KvPair} (h : Wide d pg) :
    (ofPage pg).values.length = pg.length * d := by
  rw [ofPage, length_flatten_rows h.values, List.length_map]

/-! ## A spill file is read back -/

theorem length_toBytes {d : Nat} {pg : List KvPair} (h : Wide d pg) :
    (ofPage pg).toBytes.length = 8 + pg.length * d * 2 * 4 := by
  rw [toBytes, List.length_append, length_toLE, length_flatMap_const F32.length_toLeBytes,
    List.length_append, length_keys h, length_values h]
  omega

theorem filled_toBytes {block : KvBlock} (h : block.filled < 2 ^ 64) :
    ofLE (block.toBytes.take 8) = block.filled := by
  rw [toBytes, List.take_left' (length_toLE _ _), ofLE_toLE (by simpa using h)]

theorem vals_toBytes (block : KvBlock) :
    (words 4 (block.toBytes.drop 8)).map F32.fromLeBytes = block.keys ++ block.values := by
  rw [toBytes, List.drop_left' (length_toLE _ _),
    words_flatMap (by decide) F32.length_toLeBytes, List.map_map]
  have : F32.fromLeBytes ∘ F32.toLeBytes = id := funext F32.fromLeBytes_toLeBytes
  rw [this, List.map_id]

end KvBlock

/-! ## What the cache stands for -/

namespace KVCacheState

/-- The cache `kv`, with `disk` behind it, stands for the list `vs`. -/
structure Holds (kv : KVCacheState σ) (disk : Path → Option Bytes) (vs : List KvPair) : Prop where
  blockSize_pos : 0 < kv.blockSize
  blockSize_lt : kv.blockSize < 2 ^ 64
  len_eq : kv.len = vs.length
  len_le : kv.len ≤ kv.maxPositions
  wide : Wide kv.kvDim vs
  resident_eq : ∀ b blk, kv.resident[b]? = some blk →
    blk = KvBlock.ofPage (page kv.blockSize vs b)
  spilled_path : ∀ b p, kv.spilled[b]? = some p → p = spillPath kv.seqId kv.layer b
  spilled_full : ∀ b, b ∈ kv.spilled → b * kv.blockSize + kv.blockSize ≤ vs.length
  spilled_disk : ∀ b, b ∈ kv.spilled →
    disk (spillPath kv.seqId kv.layer b)
      = some (KvBlock.ofPage (page kv.blockSize vs b)).toBytes
  covered : ∀ b, b * kv.blockSize < vs.length ↔ b ∈ kv.resident ∨ b ∈ kv.spilled
  disjoint : ∀ b, b ∈ kv.resident → b ∉ kv.spilled

theorem holds_forLayer (cfg : KvConfig σ) (seqId layer : Nat) (disk : Path → Option Bytes) :
    Holds (forLayer cfg seqId layer) disk [] where
  blockSize_pos := by simp only [forLayer]; omega
  blockSize_lt := by
    have := cfg.dims.blockSize.toNat_lt
    simp only [forLayer]; omega
  len_eq := rfl
  len_le := Nat.zero_le _
  wide := by simp [Wide]
  resident_eq := by intro b blk h; simp [forLayer] at h
  spilled_path := by intro b p h; simp [forLayer] at h
  spilled_full := by intro b h; simp [forLayer] at h
  spilled_disk := by intro b h; simp [forLayer] at h
  covered := by intro b; simp [forLayer]
  disjoint := by intro b h; simp [forLayer] at h

variable {kv : KVCacheState σ} {disk : Path → Option Bytes} {vs : List KvPair}

/-- A partial last block is resident. -/
theorem Holds.partial_resident (h : Holds kv disk vs) (hp : kv.len % kv.blockSize ≠ 0) :
    kv.len / kv.blockSize ∈ kv.resident := by
  have hdm := Nat.div_add_mod' kv.len kv.blockSize
  have hlt : kv.len / kv.blockSize * kv.blockSize < vs.length := by rw [← h.len_eq]; omega
  rcases (h.covered _).mp hlt with hr | hs
  · exact hr
  · have hfull := h.spilled_full _ hs
    have hmod := Nat.mod_lt kv.len h.blockSize_pos
    rw [← h.len_eq] at hfull
    omega

/-- The block the next position goes into, as `append` finds or creates it. -/
theorem Holds.last_block (h : Holds kv disk vs) :
    (kv.resident[kv.len / kv.blockSize]?).getD { keys := [], values := [], filled := 0 }
      = KvBlock.ofPage (page kv.blockSize vs (kv.len / kv.blockSize)) := by
  cases hr : kv.resident[kv.len / kv.blockSize]? with
  | some blk => rw [Option.getD_some, h.resident_eq _ _ hr]
  | none =>
    have hnot : kv.len / kv.blockSize ∉ kv.resident := by
      rw [Std.ExtTreeMap.mem_iff_isSome_getElem?, hr]; simp
    have hz : kv.len % kv.blockSize = 0 := by
      by_contra hne
      exact hnot (h.partial_resident hne)
    have hdm := Nat.div_add_mod' kv.len kv.blockSize
    rw [Option.getD_none, page_eq_nil (by rw [← h.len_eq]; omega)]
    rfl

/-- The block the next position goes into is not on disk. -/
theorem Holds.last_not_spilled (h : Holds kv disk vs) : kv.len / kv.blockSize ∉ kv.spilled := by
  intro hs
  have hfull := h.spilled_full _ hs
  have := Nat.lt_div_mul_add h.blockSize_pos (a := kv.len)
  rw [← h.len_eq] at hfull
  omega

/-- **Storing the vectors is a push.** -/
theorem Holds.push (h : Holds kv disk vs) {k v : List F32} (hk : k.length = kv.kvDim)
    (hv : v.length = kv.kvDim) (hroom : kv.len < kv.maxPositions) :
    Holds (kv.push k v) disk (vs ++ [(k, v)]) := by
  have hidx : kv.len / kv.blockSize = vs.length / kv.blockSize := by rw [h.len_eq]
  have hres : ∀ b, (kv.push k v).resident[b]? =
      if kv.len / kv.blockSize = b then
        some (KvBlock.ofPage (page kv.blockSize (vs ++ [(k, v)]) (kv.len / kv.blockSize)))
      else kv.resident[b]? := by
    intro b
    simp only [KVCacheState.push, h.last_block]
    rw [hidx, page_push_last h.blockSize_pos, KvBlock.ofPage_push]
    simp [Std.ExtTreeMap.getElem?_insert]
  have hmem : ∀ b, b ∈ (kv.push k v).resident ↔ kv.len / kv.blockSize = b ∨ b ∈ kv.resident := by
    intro b
    simp [KVCacheState.push, Std.ExtTreeMap.mem_insert]
  have hne : ∀ b, b ∈ kv.spilled → b ≠ vs.length / kv.blockSize := by
    intro b hb he
    exact h.last_not_spilled (by rw [hidx, ← he]; exact hb)
  refine
    { blockSize_pos := h.blockSize_pos
      blockSize_lt := h.blockSize_lt
      len_eq := by rw [List.length_append]; simp [KVCacheState.push, h.len_eq]
      len_le := hroom
      wide := ?_
      resident_eq := ?_
      spilled_path := h.spilled_path
      spilled_full := ?_
      spilled_disk := ?_
      covered := ?_
      disjoint := ?_ }
  · intro w hw
    rcases List.mem_append.mp hw with hw | hw
    · exact h.wide w hw
    · rw [List.mem_singleton] at hw
      subst hw
      exact ⟨hk, hv⟩
  · intro b blk hb
    rw [hres] at hb
    split at hb
    · next he => rw [← Option.some.inj hb, ← he]; rfl
    · next hne' =>
      rw [h.resident_eq b blk hb]
      congr 1
      exact (page_push_ne h.blockSize_pos (by rw [← hidx]; exact Ne.symm hne')).symm
  · intro b hb
    have := h.spilled_full b hb
    rw [List.length_append]
    exact Nat.le_trans this (Nat.le_add_right _ _)
  · intro b hb
    rw [show (kv.push k v).blockSize = kv.blockSize from rfl,
      page_push_ne h.blockSize_pos (hne b hb)]
    exact h.spilled_disk b hb
  · intro b
    rw [hmem b, List.length_append, List.length_singleton, or_assoc]
    show b * kv.blockSize < vs.length + 1 ↔ _ ∨ b ∈ kv.resident ∨ b ∈ kv.spilled
    rw [← h.covered b, ← h.len_eq]
    have hdm := Nat.div_add_mod' kv.len kv.blockSize
    have hmod := Nat.mod_lt kv.len h.blockSize_pos
    constructor
    · intro hlt
      by_cases he : b * kv.blockSize = kv.len
      · left
        rw [← he, Nat.mul_div_cancel _ h.blockSize_pos]
      · right; omega
    · rintro (he | hlt)
      · rw [← he]; omega
      · omega
  · intro b hb hs
    rcases (hmem b).mp hb with he | hr
    · exact h.last_not_spilled (by rw [he]; exact hs)
    · exact h.disjoint b hr hs

/-! ## Evictions change nothing -/

/-- Only the spill files matter, and only those of blocks on disk. -/
theorem Holds.disk_congr (h : Holds kv disk vs) {disk' : Path → Option Bytes}
    (hd : ∀ b ∈ kv.spilled, disk' (spillPath kv.seqId kv.layer b)
      = disk (spillPath kv.seqId kv.layer b)) : Holds kv disk' vs :=
  { h with spilled_disk := fun b hb => by rw [hd b hb]; exact h.spilled_disk b hb }

/-- Writing a full block out and dropping it. -/
theorem Holds.spillOut (h : Holds kv disk vs) {victim : Nat} {block : KvBlock}
    (hb : kv.resident[victim]? = some block)
    (hfull : victim * kv.blockSize + kv.blockSize ≤ vs.length) {disk' : Path → Option Bytes}
    (hw : disk' (spillPath kv.seqId kv.layer victim) = some block.toBytes)
    (hf : ∀ q, q ≠ spillPath kv.seqId kv.layer victim → disk' q = disk q) :
    Holds (kv.spillOut victim) disk' vs := by
  have hvr : victim ∈ kv.resident := mem_of_getElem? hb
  have hmemR : ∀ b, b ∈ (kv.spillOut victim).resident ↔ victim ≠ b ∧ b ∈ kv.resident := by
    intro b; simp [KVCacheState.spillOut, Std.ExtTreeMap.mem_erase]
  have hmemS : ∀ b, b ∈ (kv.spillOut victim).spilled ↔ victim = b ∨ b ∈ kv.spilled := by
    intro b; simp [KVCacheState.spillOut, Std.ExtTreeMap.mem_insert]
  refine
    { blockSize_pos := h.blockSize_pos
      blockSize_lt := h.blockSize_lt
      len_eq := h.len_eq
      len_le := h.len_le
      wide := h.wide
      resident_eq := ?_
      spilled_path := ?_
      spilled_full := ?_
      spilled_disk := ?_
      covered := ?_
      disjoint := ?_ }
  · intro b blk hget
    simp only [KVCacheState.spillOut, Std.ExtTreeMap.getElem?_erase] at hget
    split at hget
    · simp at hget
    · exact h.resident_eq b blk hget
  · intro b p hget
    simp only [KVCacheState.spillOut, Std.ExtTreeMap.getElem?_insert,
      Std.LawfulEqCmp.compare_eq_iff_eq] at hget
    split at hget
    · next he => rw [← Option.some.inj hget, ← he]; rfl
    · exact h.spilled_path b p hget
  · intro b hs
    rcases (hmemS b).mp hs with he | hs
    · rw [← he]; exact hfull
    · exact h.spilled_full b hs
  · intro b hs
    rcases (hmemS b).mp hs with he | hs
    · subst he
      show disk' (spillPath kv.seqId kv.layer victim)
        = some (KvBlock.ofPage (page kv.blockSize vs victim)).toBytes
      rw [← h.resident_eq victim block hb]
      exact hw
    · have hne : victim ≠ b := fun he => h.disjoint victim hvr (he ▸ hs)
      show disk' (spillPath kv.seqId kv.layer b) = _
      rw [hf _ fun he => hne (spillPath_inj.mp he).2.2.symm]
      exact h.spilled_disk b hs
  · intro b
    rw [hmemR, hmemS]
    show b * kv.blockSize < vs.length ↔ _
    rw [h.covered b]
    by_cases he : victim = b
    · subst he; simp [hvr]
    · simp [he]
  · intro b hr hs
    obtain ⟨hne, hr⟩ := (hmemR b).mp hr
    rcases (hmemS b).mp hs with he | hs
    · exact hne he
    · exact h.disjoint b hr hs

/-- A block other than the last one is full. -/
theorem Holds.full_of_ne_last (h : Holds kv disk vs) (current : Nat) {b : Nat}
    (hb : b ∈ kv.resident) (hlo : current * kv.blockSize < vs.length)
    (hhi : vs.length ≤ current * kv.blockSize + kv.blockSize) (hne : b ≠ current) :
    b * kv.blockSize + kv.blockSize ≤ vs.length := by
  have hlt := (h.covered b).mpr (Or.inl hb)
  have hle : b < current + 1 := by
    refine Nat.lt_of_mul_lt_mul_right (a := kv.blockSize) ?_
    rw [Nat.add_mul, Nat.one_mul]
    omega
  have hmul : (b + 1) * kv.blockSize ≤ current * kv.blockSize :=
    Nat.mul_le_mul_right _ (by omega)
  rw [Nat.add_mul, Nat.one_mul] at hmul
  omega

/-- **Evictions change nothing**, whether their writes succeed or fail. -/
theorem Holds.enforceResidency {storage : Option (StorageBackend σ)} (law : ReadsBack storage)
    (hs : kv.storage = storage) {current : Nat} {st : σ} (h : Holds kv (law.content st) vs)
    (hlo : current * kv.blockSize < vs.length)
    (hhi : vs.length ≤ current * kv.blockSize + kv.blockSize) :
    Holds (kv.enforceResidency current st).2.1
      (law.content (kv.enforceResidency current st).2.2) vs := by
  rcases enforceResidency_cases current kv st with ⟨_, he⟩ | ⟨b, _, hb, he⟩
  · rw [he]; exact h
  · rw [he]
    have hsome : storage = some b := by rw [← hs, hb]
    refine (enforceLoop_rule
      (P := fun kv' st' => SameShape kv kv' ∧ Holds kv' (law.content st') vs) ?_ ?_
      kv.resident.size kv st ⟨SameShape.refl kv, h⟩).2
    · rintro kv' st' victim block hev hw ⟨hshape, h'⟩
      have hfull : victim * kv'.blockSize + kv'.blockSize ≤ vs.length :=
        h'.full_of_ne_last current (mem_of_getElem? hev.isBlock)
          (by rw [hshape.blockSize]; exact hlo) (by rw [hshape.blockSize]; exact hhi) hev.ne
      exact ⟨hshape.trans (spillOut_shape _ _), h'.spillOut hev.isBlock hfull
        (law.write_ok b hsome _ _ _ hw) (fun q hq => law.write_frame b hsome _ _ _ q hq)⟩
    · rintro kv' st' victim block e hev _ ⟨hshape, h'⟩
      refine ⟨hshape, h'.disk_congr ?_⟩
      -- the failed write was at the path of a block that is still in RAM
      intro a ha
      refine law.write_frame b hsome _ _ _ _ ?_
      intro he'
      have hav : a = victim := (spillPath_inj.mp he').2.2
      subst hav
      exact h'.disjoint a (mem_of_getElem? hev.isBlock) ha

/-- A push, and evictions that succeed or fail. -/
theorem Holds.stored {storage : Option (StorageBackend σ)} (law : ReadsBack storage)
    (hs : kv.storage = storage) {st : σ} (h : Holds kv (law.content st) vs) {k v : List F32}
    (hk : k.length = kv.kvDim) (hv : v.length = kv.kvDim) (hroom : kv.len < kv.maxPositions) :
    Holds ((kv.push k v).enforceResidency (kv.len / kv.blockSize) st).2.1
      (law.content ((kv.push k v).enforceResidency (kv.len / kv.blockSize) st).2.2)
      (vs ++ [(k, v)]) := by
  have hdm := Nat.div_add_mod' kv.len kv.blockSize
  have hmod := Nat.mod_lt kv.len h.blockSize_pos
  have hs' : (kv.push k v).storage = storage := hs
  refine Holds.enforceResidency law hs' (h.push hk hv hroom) ?_ ?_
  · rw [List.length_append, List.length_singleton, ← h.len_eq]
    show kv.len / kv.blockSize * kv.blockSize < kv.len + 1
    omega
  · rw [List.length_append, List.length_singleton, ← h.len_eq]
    show kv.len + 1 ≤ kv.len / kv.blockSize * kv.blockSize + kv.blockSize
    omega

/-- **Append is a push.** -/
theorem Holds.append {storage : Option (StorageBackend σ)} (law : ReadsBack storage)
    (hs : kv.storage = storage) {st : σ} (h : Holds kv (law.content st) vs) {k v : List F32}
    (hok : (kv.append k v st).1 = .ok ()) :
    Holds (kv.append k v st).2.1 (law.content (kv.append k v st).2.2) (vs ++ [(k, v)]) := by
  rcases append_cases k v kv st with ⟨⟨e, he⟩, _⟩ | ⟨hk, hv, hroom, he⟩
  · rw [he] at hok; simp at hok
  · rw [he]
    exact h.stored law hs hk hv hroom

/-! ## Reloading changes nothing -/

/-- Loading the page a block stands for. -/
theorem Holds.loadBlock (h : Holds kv disk vs) {b : Nat} (hb : b ∈ kv.spilled) :
    Holds (kv.loadBlock b (KvBlock.ofPage (page kv.blockSize vs b))) disk vs := by
  have hmemR : ∀ a, a ∈ (kv.loadBlock b (KvBlock.ofPage (page kv.blockSize vs b))).resident ↔
      b = a ∨ a ∈ kv.resident := by
    intro a; simp [KVCacheState.loadBlock, Std.ExtTreeMap.mem_insert]
  have hmemS : ∀ a, a ∈ (kv.loadBlock b (KvBlock.ofPage (page kv.blockSize vs b))).spilled ↔
      b ≠ a ∧ a ∈ kv.spilled := by
    intro a; simp [KVCacheState.loadBlock, Std.ExtTreeMap.mem_erase]
  refine
    { blockSize_pos := h.blockSize_pos
      blockSize_lt := h.blockSize_lt
      len_eq := h.len_eq
      len_le := h.len_le
      wide := h.wide
      resident_eq := ?_
      spilled_path := ?_
      spilled_full := fun a ha => h.spilled_full a ((hmemS a).mp ha).2
      spilled_disk := fun a ha => h.spilled_disk a ((hmemS a).mp ha).2
      covered := ?_
      disjoint := ?_ }
  · intro a blk hget
    simp only [KVCacheState.loadBlock, Std.ExtTreeMap.getElem?_insert,
      Std.LawfulEqCmp.compare_eq_iff_eq] at hget
    split at hget
    · next he => rw [← Option.some.inj hget, ← he]; rfl
    · exact h.resident_eq a blk hget
  · intro a p hget
    simp only [KVCacheState.loadBlock, Std.ExtTreeMap.getElem?_erase] at hget
    split at hget
    · simp at hget
    · exact h.spilled_path a p hget
  · intro a
    rw [hmemR, hmemS]
    show a * kv.blockSize < vs.length ↔ _
    rw [h.covered a]
    by_cases he : b = a
    · subst he; simp [hb]
    · simp [he]
  · intro a hr hs
    obtain ⟨hne, hs⟩ := (hmemS a).mp hs
    rcases (hmemR a).mp hr with he | hr
    · exact hne he
    · exact h.disjoint a hr hs

/-- **A reload changes nothing**, whether it succeeds or fails. -/
theorem Holds.reload {storage : Option (StorageBackend σ)} (law : ReadsBack storage)
    (hs : kv.storage = storage) {st : σ} (h : Holds kv (law.content st) vs) (b : Nat) :
    Holds (kv.reload b st).2.1 (law.content (kv.reload b st).2.2) vs := by
  rcases reload_cases b kv st with ⟨_, hkv, hst | ⟨s, path, hsome, _, hst⟩⟩ |
    ⟨s, path, bytes, hsome, hpath, hread, he⟩
  · rw [hkv, hst]; exact h
  · rw [hkv, hst, law.read_frame s (by rw [← hs, hsome])]; exact h
  · have hmem : b ∈ kv.spilled := mem_of_getElem? hpath
    have hbytes : bytes = (KvBlock.ofPage (page kv.blockSize vs b)).toBytes := by
      have hc := law.read_ok s (by rw [← hs, hsome]) path st bytes hread
      rw [h.spilled_path b path hpath, h.spilled_disk b hmem] at hc
      exact (Option.some.inj hc).symm
    have hwide : Wide kv.kvDim (page kv.blockSize vs b) := h.wide.page b
    have hlen : (page kv.blockSize vs b).length < 2 ^ 64 := by
      have := h.blockSize_lt
      rw [length_page]; omega
    have hfilled : ofLE (bytes.take 8) = (page kv.blockSize vs b).length := by
      rw [hbytes, KvBlock.filled_toBytes (by exact hlen)]; rfl
    rw [he, hfilled, hbytes, KvBlock.vals_toBytes, law.read_frame s (by rw [← hs, hsome])]
    rw [← KvBlock.length_keys hwide, List.take_left, List.drop_left]
    exact h.loadBlock hmem

/-- **`ensureResident` changes nothing.** -/
theorem Holds.ensureResident {storage : Option (StorageBackend σ)} (law : ReadsBack storage)
    (hs : kv.storage = storage) {st : σ} (h : Holds kv (law.content st) vs) (start stop : Nat) :
    Holds (kv.ensureResident start stop st).2.1
      (law.content (kv.ensureResident start stop st).2.2) vs := by
  refine (ensureResident_rule
    (P := fun kv' st' => kv'.storage = storage ∧ Holds kv' (law.content st') vs) ?_
    start stop kv st ⟨hs, h⟩).2
  rintro b kv' st' ⟨hs', h'⟩
  exact ⟨(reload_shape b kv' st').storage.trans hs', h'.reload law hs' b⟩

/-! ## Truncating is taking a prefix -/

/-- The blocks that a cut before position `m` leaves anything of. -/
theorem mul_lt_iff_of_cut {n m b : Nat} (hn : 0 < n) :
    b * n < m ↔ b < m / n ∨ (b = m / n ∧ 0 < m % n) := by
  have hdm := Nat.div_add_mod' m n
  have hmod := Nat.mod_lt m hn
  constructor
  · intro hlt
    have hle : b ≤ m / n := (Nat.le_div_iff_mul_le hn).mpr (Nat.le_of_lt hlt)
    rcases Nat.lt_or_eq_of_le hle with h | h
    · exact Or.inl h
    · refine Or.inr ⟨h, ?_⟩
      rw [h] at hlt
      omega
  · rintro (h | ⟨h, hk⟩)
    · have := Nat.mul_le_mul_right n (Nat.succ_le_of_lt h)
      rw [Nat.succ_mul] at this
      omega
    · rw [h]; omega

theorem mem_cutResident {m b : Nat} :
    b ∈ kv.cutResident m ↔
      b ∈ kv.resident ∧ (b < m / kv.blockSize ∨ (b = m / kv.blockSize ∧ 0 < m % kv.blockSize)) := by
  rw [Std.ExtTreeMap.mem_iff_isSome_getElem?, Std.ExtTreeMap.mem_iff_isSome_getElem?,
    cutResident_getElem?]
  by_cases hlt : b < m / kv.blockSize
  · simp [hlt]
  · by_cases heq : b = m / kv.blockSize ∧ 0 < m % kv.blockSize
    · simp [heq.1, heq.2]
    · simp [hlt, heq]

/-- The blocks on disk after a cut are those strictly before it. -/
theorem mem_removeStale {m : Nat} (kv' : KVCacheState σ) (st : σ) (b : Nat)
    (hcut : kv.cutSpilled m = false) (hkv : kv'.spilled = kv.spilled) :
    b ∈ (removeStale (kv.staleBlocks m) kv' st).1.spilled ↔
      b ∈ kv.spilled ∧ b < m / kv.blockSize := by
  rw [Std.ExtTreeMap.mem_iff_isSome_getElem?, removeStale_spilled, hkv]
  have hcut' : 0 < m % kv.blockSize → m / kv.blockSize ∉ kv.spilled := by
    intro hk hs
    simp [cutSpilled, hk, Std.ExtTreeMap.contains_iff_mem.mpr hs] at hcut
  by_cases hs : b ∈ kv.spilled
  · have hsome := Std.ExtTreeMap.mem_iff_isSome_getElem?.mp hs
    by_cases hstale : b ∈ kv.staleBlocks m
    · have hge := (mem_staleBlocks.mp hstale).2
      simp only [if_pos hstale, Option.isSome_none, Bool.false_eq_true, hs, true_and, false_iff]
      omega
    · simp only [if_neg hstale, hsome, hs, true_and, true_iff]
      rw [mem_staleBlocks] at hstale
      by_contra hge
      have hne : b ≠ m / kv.blockSize := by
        intro he
        by_cases hz : m % kv.blockSize = 0
        · exact hstale ⟨hs, Or.inr ⟨he, hz⟩⟩
        · exact hcut' (Nat.pos_of_ne_zero hz) (he ▸ hs)
      exact hstale ⟨hs, Or.inl (by omega)⟩
  · simp [hs]

/-- **Truncate is `List.take`.** -/
theorem Holds.truncate {storage : Option (StorageBackend σ)} (law : ReadsBack storage)
    (hs : kv.storage = storage) {st : σ} (h : Holds kv (law.content st) vs) {m : Nat}
    (hok : (kv.truncate m st).1 = .ok ()) :
    Holds (kv.truncate m st).2.1 (law.content (kv.truncate m st).2.2) (vs.take m) := by
  rcases truncate_cases m kv st with ⟨hle, he⟩ | ⟨_, _, ⟨e, he⟩, _⟩ | ⟨hlt, hcut, he⟩
  · rw [he, List.take_of_length_le (by rw [← h.len_eq]; exact hle)]; exact h
  · rw [he] at hok; simp at hok
  · rw [he]
    obtain ⟨hshape, hres, _⟩ := removeStale_fields (kv.staleBlocks m)
      { kv with resident := kv.cutResident m } st
    have hspilled := removeStale_spilled (kv.staleBlocks m)
      { kv with resident := kv.cutResident m } st
    have hmemS := fun b => mem_removeStale { kv with resident := kv.cutResident m } st b hcut rfl
    have hdisk := fun q => removeStale_disk law (kv.staleBlocks m)
      { kv with resident := kv.cutResident m } st q hs
    generalize removeStale (kv.staleBlocks m) { kv with resident := kv.cutResident m } st
      = out at hshape hres hspilled hmemS hdisk ⊢
    have hbs : out.1.blockSize = kv.blockSize := hshape.blockSize
    have hlen : (vs.take m).length = m := by
      rw [List.length_take, ← h.len_eq]; omega
    have hfits : ∀ b, b < m / kv.blockSize → b * kv.blockSize + kv.blockSize ≤ m := by
      intro b hb
      rw [← Nat.succ_mul]
      exact Nat.le_trans (Nat.mul_le_mul_right _ hb) (Nat.div_mul_le_self _ _)
    refine
      { blockSize_pos := by rw [hbs]; exact h.blockSize_pos
        blockSize_lt := by rw [hbs]; exact h.blockSize_lt
        len_eq := hlen.symm
        len_le := ?_
        wide := by rw [hshape.kvDim]; exact h.wide.take m
        resident_eq := ?_
        spilled_path := ?_
        spilled_full := ?_
        spilled_disk := ?_
        covered := ?_
        disjoint := ?_ }
    · rw [hshape.maxPositions]
      exact Nat.le_trans (Nat.le_of_lt hlt) h.len_le
    · intro b blk hget
      rw [hres, cutResident_getElem?] at hget
      rw [hbs]
      split at hget
      · next hb => rw [page_take_lt (hfits b hb)]; exact h.resident_eq b blk hget
      · split at hget
        · next hb =>
          -- the block the cut lands in
          obtain ⟨old, hold, hblk⟩ := Option.map_eq_some_iff.mp hget
          rw [← hblk, h.resident_eq b old hold, hb.1, page_take_cut h.blockSize_pos]
          refine (KvBlock.ofPage_take (h.wide.page _) ?_).symm
          have hdm := Nat.div_add_mod' m kv.blockSize
          have hmod := Nat.mod_lt m h.blockSize_pos
          rw [length_page, ← h.len_eq]
          omega
        · simp at hget
    · intro b p hget
      rw [hspilled] at hget
      split at hget
      · simp at hget
      · rw [hshape.seqId, hshape.layer]; exact h.spilled_path b p hget
    · intro b hb
      rw [hbs, hlen]
      exact hfits b ((hmemS b).mp hb).2
    · intro b hb
      obtain ⟨hb', hblt⟩ := (hmemS b).mp hb
      rw [hshape.seqId, hshape.layer, hbs, page_take_lt (hfits b hblt), ← h.spilled_disk b hb']
      refine hdisk _ ?_
      intro a ha hget
      have hpath := h.spilled_path a _ hget
      have hba : b = a := (spillPath_inj.mp hpath).2.2
      have hge := (mem_staleBlocks.mp ha).2
      omega
    · intro b
      rw [hbs, hlen, hres, hmemS, mem_cutResident, mul_lt_iff_of_cut h.blockSize_pos]
      have hold := h.covered b
      have hcutlt : m / kv.blockSize * kv.blockSize ≤ m := Nat.div_mul_le_self _ _
      constructor
      · rintro (hb | ⟨hb, hk⟩)
        · have hlt' : b * kv.blockSize < vs.length := by
            have := hfits b hb
            have := h.blockSize_pos
            rw [← h.len_eq]; omega
          rcases hold.mp hlt' with hr | hs'
          · exact Or.inl ⟨hr, Or.inl hb⟩
          · exact Or.inr ⟨hs', hb⟩
        · have hlt' : b * kv.blockSize < vs.length := by rw [hb, ← h.len_eq]; omega
          rcases hold.mp hlt' with hr | hs'
          · exact Or.inl ⟨hr, Or.inr ⟨hb, hk⟩⟩
          · have hcut' : kv.cutSpilled m = true := by
              simp only [cutSpilled, hk, decide_true, Bool.true_and]
              rw [← hb]
              exact Std.ExtTreeMap.contains_iff_mem.mpr hs'
            rw [hcut'] at hcut
            simp at hcut
      · rintro (⟨_, hb⟩ | ⟨_, hb⟩)
        · exact hb
        · exact Or.inl hb
    · intro b hr hs'
      rw [hres] at hr
      exact h.disjoint b (mem_cutResident.mp hr).1 ((hmemS b).mp hs').1

/-! ## Rekey -/

theorem hasSpill_false_iff {kv : KVCacheState σ} : kv.hasSpill = false ↔ kv.spilled = ∅ := by
  simp [hasSpill]

/-- What a layer stands for does not depend on its identity while nothing is on disk. -/
theorem Holds.rekey {kv : KVCacheState σ} {disk : Path → Option Bytes} {vs : List KvPair}
    (h : Holds kv disk vs) (hs : kv.hasSpill = false) (seqId : Nat)
    (disk' : Path → Option Bytes) : Holds { kv with seqId := seqId } disk' vs := by
  have hempty := hasSpill_false_iff.mp hs
  exact
    { h with
      spilled_path := by intro b p hget; simp [hempty] at hget
      spilled_disk := by intro b hb; simp [hempty] at hb }

end KVCacheState

end Garuda
