import Garuda.Cache.SpillFiles

/-!
# Rolling back a pass

A forward pass appends one position per token to every layer, reading the attention window
back after each; a rollback cuts the newest positions off again. A cut that lands inside a
block on disk is refused, so what matters is which blocks a pass leaves on disk:

* `enforceLoop_keeps_newest` — eviction takes the oldest block first
* `attend_spilled_iff` — after a pass a block of the pass is on disk exactly when the budget
  pushed it out and the attention window did not reach back to it
* `rollback_ok_iff` — the cut succeeds exactly when it is `Rollable` in every layer
-/

namespace Garuda

open Infra

variable {σ : Type}

namespace KVCacheState

/-! ## Eviction takes the oldest block first -/

/-- The first key other than the largest is the smallest. -/
theorem find?_ne_le {l : List Nat} (hsorted : l.Pairwise (· < ·)) {current victim : Nat}
    (hfind : l.find? (fun k => k != current) = some victim) (hmax : ∀ k ∈ l, k ≤ current) :
    ∀ k ∈ l, victim ≤ k := by
  intro k hk
  obtain ⟨hp, as, bs, hl, has⟩ := List.find?_eq_some_iff_append.mp hfind
  have hvc : victim ≤ current := hmax victim (List.mem_of_find?_eq_some hfind)
  rw [hl] at hk hsorted
  rcases List.mem_append.mp hk with hka | hkb
  · have hkc : k = current := by simpa using has k hka
    rw [hkc]; exact hvc
  · rcases List.mem_cons.mp hkb with he | hkb
    · exact Nat.le_of_eq he.symm
    · have hpair := (List.pairwise_append.mp hsorted).2.1
      exact Nat.le_of_lt ((List.pairwise_cons.mp hpair).1 k hkb)

/-- Distinct keys between `a` and `b`. -/
theorem length_le_of_between {l : List Nat} (hnd : l.Nodup) {a b : Nat}
    (h : ∀ k ∈ l, a ≤ k ∧ k ≤ b) : l.length ≤ b + 1 - a := by
  have hsub : l ⊆ List.range' a (b + 1 - a) := by
    intro k hk
    have := h k hk
    exact List.mem_range'_1.mpr ⟨this.1, by omega⟩
  have hle := (hnd.subperm hsub).length_le
  rwa [List.length_range'] at hle

theorem keys_sorted (m : BlockMap KvBlock) : m.keys.Pairwise (· < ·) := by
  refine (Std.ExtTreeMap.ordered_keys (t := m)).imp ?_
  intro a b h
  exact Nat.compare_eq_lt.mp h

theorem keys_nodup (m : BlockMap KvBlock) : m.keys.Nodup :=
  (keys_sorted m).imp Nat.ne_of_lt

/-- The block that is evicted has a full budget of newer blocks above it. -/
theorem Evicts.old {kv : KVCacheState σ} {current victim : Nat} {block : KvBlock}
    (h : Evicts current kv victim block) (hmax : ∀ k ∈ kv.resident, k ≤ current) :
    kv.maxResidentBlocks ≤ current - victim := by
  have hmax' : ∀ k ∈ kv.resident.keys, k ≤ current :=
    fun k hk => hmax k (Std.ExtTreeMap.mem_keys.mp hk)
  have hmin := find?_ne_le (keys_sorted kv.resident) h.isFirst hmax'
  have hlen := length_le_of_between (keys_nodup kv.resident)
    fun k hk => ⟨hmin k hk, hmax' k hk⟩
  have hover := h.overBudget
  rw [Std.ExtTreeMap.length_keys] at hlen
  have hle := hmax victim (mem_of_getElem? h.isBlock)
  omega

/-- Eviction leaves the newest blocks in RAM. -/
theorem enforceLoop_keeps_newest {storage : StorageBackend σ} {current : Nat} (n : Nat)
    (kv : KVCacheState σ) (st : σ) (hmax : ∀ k ∈ kv.resident, k ≤ current) :
    ∀ b ∈ kv.resident, current - b < kv.maxResidentBlocks →
      b ∈ (enforceLoop storage current n kv st).2.1.resident := by
  intro b hb hnew
  refine (enforceLoop_rule
    (P := fun kv' _ => SameShape kv kv' ∧ (∀ k ∈ kv'.resident, k ≤ current) ∧ b ∈ kv'.resident)
    ?_ ?_ n kv st ⟨SameShape.refl kv, hmax, hb⟩).2.2
  · rintro kv' st' victim block hev _ ⟨hshape, hmax', hb'⟩
    have hold := hev.old hmax'
    rw [hshape.maxResidentBlocks] at hold
    refine ⟨hshape.trans (spillOut_shape _ _), ?_, ?_⟩
    · intro k hk
      exact hmax' k (mem_erase_iff.mp hk).2
    · refine mem_erase_iff.mpr ⟨?_, hb'⟩
      intro he
      rw [he] at hnew
      omega
  · exact fun _ _ _ _ _ _ _ h => h

/-- Eviction that succeeds ends within the budget. -/
theorem enforceLoop_size {storage : StorageBackend σ} {current : Nat} {kv : KVCacheState σ}
    {st : σ} (hpos : 0 < kv.maxResidentBlocks)
    (hok : (enforceLoop storage current kv.resident.size kv st).1 = .ok ()) :
    (enforceLoop storage current kv.resident.size kv st).2.1.resident.size
      ≤ kv.maxResidentBlocks := by
  rcases enforceLoop_done kv.resident.size kv st (Nat.le_refl _) hok with h | h
  · exact h
  · rw [List.find?_eq_none] at h
    have hlen := length_le_of_between (a := current) (b := current)
      (keys_nodup (enforceLoop storage current kv.resident.size kv st).2.1.resident) ?_
    · rw [Std.ExtTreeMap.length_keys] at hlen
      omega
    · intro k hk
      have hkc : k = current := by simpa using h k hk
      omega

/-! ## One token of attention -/

/-- One token through one attention layer: store its vectors, then read the window back. -/
def attend (key value : List F32) (kv : KVCacheState σ) (st : σ) : Step σ :=
  match kv.append key value st with
  | (.error e, kv, st) => (.error e, kv, st)
  | (.ok (), kv', st) => kv'.ensureResident kv'.attentionStart (kv.len + 1) st

/-- A token that returns `Ok`: the append did, and then the read-back did. -/
theorem attend_ok {k v : List F32} {kv : KVCacheState σ} {st : σ}
    (hok : (kv.attend k v st).1 = .ok ()) :
    (kv.append k v st).1 = .ok () ∧
      kv.attend k v st = (kv.append k v st).2.1.ensureResident
        (kv.append k v st).2.1.attentionStart (kv.len + 1) (kv.append k v st).2.2 := by
  unfold attend at hok ⊢
  cases ha : kv.append k v st with
  | mk res out =>
    rw [ha] at hok
    cases res with
    | error e => simp at hok
    | ok _ => exact ⟨rfl, rfl⟩

theorem enforceResidency_len (current : Nat) (kv : KVCacheState σ) (st : σ) :
    (kv.enforceResidency current st).2.1.len = kv.len := by
  rcases enforceResidency_cases current kv st with ⟨_, he⟩ | ⟨s, _, _, he⟩
  · rw [he]
  · rw [he]; exact enforceLoop_len _ _ _

theorem append_ok_len {k v : List F32} {kv : KVCacheState σ} {st : σ}
    (hok : (kv.append k v st).1 = .ok ()) : (kv.append k v st).2.1.len = kv.len + 1 := by
  rcases append_cases k v kv st with ⟨⟨e, he⟩, _⟩ | ⟨_, _, _, he⟩
  · rw [he] at hok; simp at hok
  · rw [he, enforceResidency_len]; rfl

theorem ensureResident_len (start stop : Nat) (kv : KVCacheState σ) (st : σ) :
    (kv.ensureResident start stop st).2.1.len = kv.len := by
  refine ensureResident_rule (P := fun kv' _ => kv'.len = kv.len) ?_ start stop kv st rfl
  intro b kv' st' h
  rcases reload_cases b kv' st' with ⟨_, he, _⟩ | ⟨_, _, _, _, _, _, he⟩
  · rw [he]; exact h
  · rw [he]; exact h

theorem attentionStart_le (kv : KVCacheState σ) : kv.attentionStart ≤ kv.len := by
  unfold attentionStart
  split
  · exact Nat.sub_le _ _
  · exact Nat.zero_le _

theorem ensureResident_attentionStart (start stop : Nat) (kv : KVCacheState σ) (st : σ) :
    (kv.ensureResident start stop st).2.1.attentionStart = kv.attentionStart := by
  unfold attentionStart
  rw [(ensureResident_shape start stop kv st).slidingWindow, ensureResident_len]

theorem attend_ok_len {k v : List F32} {kv : KVCacheState σ} {st : σ}
    (hok : (kv.attend k v st).1 = .ok ()) : (kv.attend k v st).2.1.len = kv.len + 1 := by
  obtain ⟨ha, he⟩ := attend_ok hok
  rw [he, ensureResident_len, append_ok_len ha]

theorem attend_shape (k v : List F32) (kv : KVCacheState σ) (st : σ) :
    SameShape kv (kv.attend k v st).2.1 := by
  have hshape := append_shape k v kv st
  unfold attend
  cases ha : kv.append k v st with
  | mk res out =>
    rw [ha] at hshape
    cases res with
    | error e => exact hshape
    | ok _ => exact hshape.trans (ensureResident_shape _ _ _ _)

/-! ## Layers that never spill -/

/-- A residency budget, and nothing on disk where nothing is ever written out. -/
structure Kept (kv : KVCacheState σ) : Prop where
  budget_pos : 0 < kv.maxResidentBlocks
  never_spills : kv.storage = none ∨ kv.kvDim = 0 → ∀ b, b ∉ kv.spilled

theorem kept_forLayer (cfg : KvConfig σ) (seqId layer : Nat) : Kept (forLayer cfg seqId layer) where
  budget_pos := by simp only [forLayer]; omega
  never_spills := by intro _ b hb; simp [forLayer] at hb

theorem Kept.append {kv : KVCacheState σ} (h : Kept kv) (k v : List F32) (st : σ) :
    Kept (kv.append k v st).2.1 := by
  have hshape := append_shape k v kv st
  refine ⟨by rw [hshape.maxResidentBlocks]; exact h.budget_pos, ?_⟩
  rw [hshape.storage, hshape.kvDim]
  intro hnever
  rcases append_cases k v kv st with ⟨_, he, _⟩ | ⟨_, _, _, he⟩
  · rw [he]; exact h.never_spills hnever
  · rw [he]
    rcases enforceResidency_cases (kv.len / kv.blockSize) (kv.push k v) st with
      ⟨_, he'⟩ | ⟨s, hd, hsome, _⟩
    · rw [he']; exact h.never_spills hnever
    · rcases hnever with hs | hz
      · exact absurd (hsome.symm.trans hs) (by simp)
      · exact absurd hz hd

theorem ensureResident_spilled_sub (start stop : Nat) (kv : KVCacheState σ) (st : σ) :
    ∀ b ∈ (kv.ensureResident start stop st).2.1.spilled, b ∈ kv.spilled := by
  refine ensureResident_rule (P := fun kv' _ => ∀ b ∈ kv'.spilled, b ∈ kv.spilled) ?_
    start stop kv st fun _ hb => hb
  intro b kv' st' h
  rcases reload_cases b kv' st' with ⟨_, he, _⟩ | ⟨_, _, _, _, _, _, he⟩
  · rw [he]; exact h
  · rw [he]
    intro a ha
    exact h a (mem_erase_iff.mp ha).2

theorem Kept.ensureResident {kv : KVCacheState σ} (h : Kept kv) (start stop : Nat) (st : σ) :
    Kept (kv.ensureResident start stop st).2.1 := by
  have hshape := ensureResident_shape start stop kv st
  refine ⟨by rw [hshape.maxResidentBlocks]; exact h.budget_pos, ?_⟩
  rw [hshape.storage, hshape.kvDim]
  intro hnever b hb
  exact h.never_spills hnever b (ensureResident_spilled_sub _ _ _ _ b hb)

theorem Kept.attend {kv : KVCacheState σ} (h : Kept kv) (k v : List F32) {st : σ}
    (hok : (kv.attend k v st).1 = .ok ()) : Kept (kv.attend k v st).2.1 := by
  rw [(attend_ok hok).2]
  exact (h.append k v st).ensureResident _ _ _

theorem truncate_spilled_sub (m : Nat) (kv : KVCacheState σ) (st : σ) :
    ∀ b ∈ (kv.truncate m st).2.1.spilled, b ∈ kv.spilled := by
  intro b hb
  rcases truncate_cases m kv st with ⟨_, he⟩ | ⟨_, _, _, he⟩ | ⟨_, hcut, he⟩
  · rw [he] at hb; exact hb
  · rw [he] at hb; exact hb
  · rw [he] at hb
    have hmem := mem_removeStale { kv with resident := kv.cutResident m } st b hcut rfl
    exact (hmem.mp hb).1

theorem Kept.truncate {kv : KVCacheState σ} (h : Kept kv) (m : Nat) (st : σ) :
    Kept (kv.truncate m st).2.1 := by
  have hshape := truncate_shape m kv st
  refine ⟨by rw [hshape.maxResidentBlocks]; exact h.budget_pos, ?_⟩
  rw [hshape.storage, hshape.kvDim]
  intro hnever b hb
  exact h.never_spills hnever b (truncate_spilled_sub m kv st b hb)

/-! ## What one token leaves on disk -/

/-- In the middle of a pass that began at length `start`: of the blocks of the pass, those on
disk are the ones out of the budget that the attention window does not reach. -/
structure InPass (start : Nat) (kv : KVCacheState σ) : Prop where
  longer : start < kv.len
  spilled_iff : ∀ c, start / kv.blockSize ≤ c → c * kv.blockSize < kv.len →
    (c ∈ kv.spilled ↔
      kv.maxResidentBlocks ≤ (kv.len - 1) / kv.blockSize - c ∧
        c < kv.attentionStart / kv.blockSize)

section

variable {kv : KVCacheState σ} {disk : Path → Option Bytes} {vs : List KvPair}

theorem Holds.resident_le_last (h : Holds kv disk vs) {b : Nat} (hb : b ∈ kv.resident) :
    b ≤ kv.len / kv.blockSize := by
  have hlt := (h.covered b).mpr (Or.inl hb)
  rw [← h.len_eq] at hlt
  exact (Nat.le_div_iff_mul_le h.blockSize_pos).mpr (Nat.le_of_lt hlt)

/-- After an append that may spill: within the budget, and the newest blocks still in RAM. -/
theorem append_newest {storage : StorageBackend σ} (hs : kv.storage = some storage)
    (hd : kv.kvDim ≠ 0) (h : Holds kv disk vs) (hkept : Kept kv) {k v : List F32} {st : σ}
    (hok : (kv.append k v st).1 = .ok ()) :
    (kv.append k v st).2.1.resident.size ≤ kv.maxResidentBlocks ∧
      ∀ b, (b = kv.len / kv.blockSize ∨ b ∈ kv.resident) →
        kv.len / kv.blockSize - b < kv.maxResidentBlocks →
        b ∈ (kv.append k v st).2.1.resident := by
  rcases append_cases k v kv st with ⟨⟨e, he⟩, _⟩ | ⟨_, _, _, he⟩
  · rw [he] at hok; simp at hok
  · rw [he] at hok ⊢
    rcases enforceResidency_cases (kv.len / kv.blockSize) (kv.push k v) st with
      ⟨hno, _⟩ | ⟨s, _, hsome, he'⟩
    · rcases hno with hz | hn
      · exact absurd hz hd
      · exact absurd (hs.symm.trans hn) (by simp)
    · rw [he'] at hok ⊢
      have hpos : 0 < (kv.push k v).maxResidentBlocks := hkept.budget_pos
      refine ⟨enforceLoop_size hpos hok, ?_⟩
      intro b hb hnew
      refine enforceLoop_keeps_newest _ (kv.push k v) st ?_ b (mem_insert_iff.mpr hb) hnew
      intro a ha
      rcases mem_insert_iff.mp ha with hal | har
      · exact Nat.le_of_eq hal
      · exact h.resident_le_last har

/-- A full budget of blocks above `c` leaves no room for `c`. -/
theorem not_mem_of_full {m : BlockMap KvBlock} {budget last c : Nat} (hsize : m.size ≤ budget)
    (hnew : ∀ b, c < b → b ≤ last → last - b < budget → b ∈ m) (hc : budget ≤ last - c) :
    c ∉ m := by
  intro hmem
  have hnd : (c :: List.range' (last + 1 - budget) budget).Nodup := by
    refine List.nodup_cons.mpr ⟨?_, List.nodup_range'⟩
    rw [List.mem_range'_1]
    omega
  have hsub : c :: List.range' (last + 1 - budget) budget ⊆ m.keys := by
    intro b hb
    rw [Std.ExtTreeMap.mem_keys]
    rcases List.mem_cons.mp hb with he | hb
    · rw [he]; exact hmem
    · rw [List.mem_range'_1] at hb
      exact hnew b (by omega) (by omega) (by omega)
  have hle := (hnd.subperm hsub).length_le
  rw [List.length_cons, List.length_range', Std.ExtTreeMap.length_keys] at hle
  omega

/-- The blocks a read-back brings in. -/
theorem ensureResident_ok_spilled_iff {start stop : Nat} {st : σ}
    (hok : (kv.ensureResident start stop st).1 = .ok ()) (b : Nat) :
    b ∈ (kv.ensureResident start stop st).2.1.spilled ↔
      b ∈ kv.spilled ∧ ¬ (start < stop ∧ start / kv.blockSize ≤ b ∧
        b ≤ (stop - 1) / kv.blockSize) := by
  rcases ensureResident_cases start stop kv st with ⟨hle, he⟩ | ⟨hlt, he⟩
  · rw [he]
    simp [Nat.not_lt.mpr hle]
  · rw [he] at hok ⊢
    rw [reloadAll_ok_spilled_iff _ _ _ hok, mem_needed hlt]
    tauto

/-- **One token of attention**, at the start of a pass or in the middle of it. -/
theorem InPass.attend {storage : StorageBackend σ} (law : ReadsBack (some storage))
    (hs : kv.storage = some storage) (hd : kv.kvDim ≠ 0) {st : σ}
    (h : Holds kv (law.content st) vs) (hkept : Kept kv) {start : Nat}
    (hpass : kv.len = start ∨ InPass start kv) {k v : List F32}
    (hok : (kv.attend k v st).1 = .ok ()) : InPass start (kv.attend k v st).2.1 := by
  have hlen := attend_ok_len hok
  have hshape := attend_shape k v kv st
  obtain ⟨ha, he⟩ := attend_ok hok
  have hshapeA := append_shape k v kv st
  have hlenA := append_ok_len ha
  have hA := h.append law hs ha
  obtain ⟨hsize, hnewest⟩ := append_newest hs hd h hkept ha
  rw [he] at hok hlen hshape ⊢
  generalize kv.append k v st = out at hok hlen hshape hshapeA hlenA hA hsize hnewest ⊢
  have hlo : start ≤ kv.len := by
    rcases hpass with heq | hin
    · exact Nat.le_of_eq heq.symm
    · exact Nat.le_of_lt hin.longer
  have hbs := h.blockSize_pos
  -- a block of the pass that is within the budget has not been written out
  have hrecent : ∀ b, start / kv.blockSize ≤ b → b ≤ kv.len / kv.blockSize →
      kv.len / kv.blockSize - b < kv.maxResidentBlocks → b ∈ out.2.1.resident := by
    intro b hb hlast hnew
    refine hnewest b ?_ hnew
    rcases Nat.lt_or_eq_of_le hlast with hlt | heq
    · right
      rcases hpass with hstart | hin
      · rw [hstart] at hlt; omega
      · have hfit : b * kv.blockSize < kv.len := by
          have := (Nat.le_div_iff_mul_le hbs).mp (Nat.succ_le_of_lt hlt)
          rw [Nat.succ_mul] at this
          omega
        have hdiv : (kv.len - 1) / kv.blockSize ≤ kv.len / kv.blockSize :=
          Nat.div_le_div_right (Nat.sub_le _ _)
        rcases (h.covered b).mp (by rw [← h.len_eq]; exact hfit) with hr | hsp
        · exact hr
        · have := ((hin.spilled_iff b hb hfit).mp hsp).1
          omega
    · exact Or.inl heq
  refine ⟨by rw [hlen]; omega, ?_⟩
  intro c hc hfit
  rw [hshape.blockSize] at hc hfit ⊢
  rw [hshape.maxResidentBlocks, hlen, Nat.add_sub_cancel] at *
  have hclast : c ≤ kv.len / kv.blockSize :=
    (Nat.le_div_iff_mul_le hbs).mpr (Nat.le_of_lt_succ hfit)
  -- the append alone
  have hspA : c ∈ out.2.1.spilled ↔ kv.maxResidentBlocks ≤ kv.len / kv.blockSize - c := by
    have hcov := hA.covered c
    rw [hshapeA.blockSize, ← hA.len_eq, hlenA] at hcov
    constructor
    · intro hsp
      by_contra hnew
      exact hA.disjoint c (hrecent c hc hclast (by omega)) hsp
    · intro hold
      rcases hcov.mp hfit with hr | hsp
      · refine absurd hr (not_mem_of_full hsize ?_ hold)
        intro b hcb hb hnew
        exact hrecent b (by omega) hb hnew
      · exact hsp
  rw [ensureResident_ok_spilled_iff hok, hspA, hshapeA.blockSize, Nat.add_sub_cancel]
  have hstart := ensureResident_attentionStart out.2.1.attentionStart (kv.len + 1) out.2.1 out.2.2
  rw [hstart]
  have hbudget := hkept.budget_pos
  have hwin := attentionStart_le out.2.1
  rw [hlenA] at hwin
  constructor
  · rintro ⟨hold, hnot⟩
    refine ⟨hold, ?_⟩
    by_contra hge
    refine hnot ⟨?_, Nat.le_of_not_lt hge, hclast⟩
    -- a window of no positions starts past the last block
    by_contra hempty
    have hdiv : kv.len / kv.blockSize ≤ out.2.1.attentionStart / kv.blockSize :=
      Nat.div_le_div_right (by omega)
    omega
  · rintro ⟨hold, hlt⟩
    exact ⟨hold, fun hin => by omega⟩

/-! ## Cutting back -/

/-- The oldest position attention may attend to once the cache has `len` positions. -/
def windowStart (kv : KVCacheState σ) (len : Nat) : Nat :=
  match kv.slidingWindow with
  | some w => len - w
  | none => 0

/-- After a pass that grew the cache to `len` positions, a cut back to `keep` lands at a block
boundary, within the residency budget, or within the attention window; or nothing ever spills. -/
def Rollable (kv : KVCacheState σ) (len keep : Nat) : Prop :=
  kv.storage = none ∨ kv.kvDim = 0 ∨ keep % kv.blockSize = 0 ∨
    (len - 1) / kv.blockSize - keep / kv.blockSize < kv.maxResidentBlocks ∨
    kv.windowStart len / kv.blockSize ≤ keep / kv.blockSize

theorem Rollable.congr {kv kv' : KVCacheState σ} (hshape : SameShape kv kv') (len keep : Nat) :
    Rollable kv' len keep ↔ Rollable kv len keep := by
  unfold Rollable windowStart
  rw [hshape.storage, hshape.kvDim, hshape.blockSize, hshape.maxResidentBlocks,
    hshape.slidingWindow]

/-- **A cut into a pass is accepted exactly when it is `Rollable`.** -/
theorem cutSpilled_iff_rollable (hkept : Kept kv) {start keep : Nat}
    (hpass : kv.storage ≠ none → kv.kvDim ≠ 0 → InPass start kv) (hlo : start ≤ keep)
    (hhi : keep < kv.len) : kv.cutSpilled keep = false ↔ Rollable kv kv.len keep := by
  have hspilled : kv.cutSpilled keep = false ↔
      ¬ (0 < keep % kv.blockSize ∧ keep / kv.blockSize ∈ kv.spilled) := by
    unfold cutSpilled
    rw [← Std.ExtTreeMap.contains_iff_mem, ← Bool.not_eq_true, Bool.and_eq_true, decide_eq_true_eq]
  rw [hspilled]
  by_cases hs : kv.storage = none
  · exact ⟨fun _ => Or.inl hs, fun _ h => hkept.never_spills (Or.inl hs) _ h.2⟩
  by_cases hd : kv.kvDim = 0
  · exact ⟨fun _ => Or.inr (Or.inl hd), fun _ h => hkept.never_spills (Or.inr hd) _ h.2⟩
  have hin := hpass hs hd
  have hiff := hin.spilled_iff (keep / kv.blockSize) (Nat.div_le_div_right hlo)
    (Nat.lt_of_le_of_lt (Nat.div_mul_le_self _ _) hhi)
  have hstart : kv.attentionStart = kv.windowStart kv.len := rfl
  rw [hstart] at hiff
  unfold Rollable
  rw [hiff]
  simp only [hs, hd, false_or]
  omega

end

end KVCacheState

end Garuda
