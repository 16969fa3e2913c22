import Garuda.Cache.KvCache

/-!
# What one cache step can do

One spec lemma for each operation of `Garuda/Cache/KvCache.lean`, so that no later proof
unfolds an operation:

* `enforceLoop_rule`, `reloadAll_rule`, `removeStale_rule` — the loops keep what one
  iteration keeps
* `append_cases`, `reload_cases`, `truncate_cases` — every outcome of the operation
* `SameShape` — sizes, storage and identity never change
-/

namespace Garuda

open Infra

variable {σ : Type}

namespace KVCacheState

/-! ## What every operation leaves alone -/

/-- The fields that only construction (and `rekey`) sets. -/
structure SameShape (kv kv' : KVCacheState σ) : Prop where
  kvDim : kv'.kvDim = kv.kvDim
  blockSize : kv'.blockSize = kv.blockSize
  maxPositions : kv'.maxPositions = kv.maxPositions
  maxResidentBlocks : kv'.maxResidentBlocks = kv.maxResidentBlocks
  slidingWindow : kv'.slidingWindow = kv.slidingWindow
  storage : kv'.storage = kv.storage
  seqId : kv'.seqId = kv.seqId
  layer : kv'.layer = kv.layer

theorem SameShape.refl (kv : KVCacheState σ) : SameShape kv kv :=
  ⟨rfl, rfl, rfl, rfl, rfl, rfl, rfl, rfl⟩

theorem SameShape.trans {a b c : KVCacheState σ} (h₁ : SameShape a b) (h₂ : SameShape b c) :
    SameShape a c where
  kvDim := h₂.kvDim.trans h₁.kvDim
  blockSize := h₂.blockSize.trans h₁.blockSize
  maxPositions := h₂.maxPositions.trans h₁.maxPositions
  maxResidentBlocks := h₂.maxResidentBlocks.trans h₁.maxResidentBlocks
  slidingWindow := h₂.slidingWindow.trans h₁.slidingWindow
  storage := h₂.storage.trans h₁.storage
  seqId := h₂.seqId.trans h₁.seqId
  layer := h₂.layer.trans h₁.layer

theorem spillOut_shape (kv : KVCacheState σ) (b : Nat) : SameShape kv (kv.spillOut b) :=
  ⟨rfl, rfl, rfl, rfl, rfl, rfl, rfl, rfl⟩

theorem loadBlock_shape (kv : KVCacheState σ) (b : Nat) (blk : KvBlock) :
    SameShape kv (kv.loadBlock b blk) := ⟨rfl, rfl, rfl, rfl, rfl, rfl, rfl, rfl⟩

theorem forget_shape (kv : KVCacheState σ) (b : Nat) : SameShape kv (kv.forget b) :=
  ⟨rfl, rfl, rfl, rfl, rfl, rfl, rfl, rfl⟩

theorem push_shape (kv : KVCacheState σ) (k v : List F32) : SameShape kv (kv.push k v) :=
  ⟨rfl, rfl, rfl, rfl, rfl, rfl, rfl, rfl⟩

/-! ## The maps -/

theorem erase_insert_self {β : Type} {m : BlockMap β} {k : Nat} {v : β} (h : m[k]? = some v) :
    (m.erase k).insert k v = m := by
  apply Std.ExtTreeMap.ext_getElem?
  intro a
  rw [Std.ExtTreeMap.getElem?_insert, Std.ExtTreeMap.getElem?_erase]
  by_cases hk : k = a
  · subst hk; simp [h]
  · simp [hk]

theorem mem_of_getElem? {β : Type} {m : BlockMap β} {k : Nat} {v : β} (h : m[k]? = some v) :
    k ∈ m := by
  rw [Std.ExtTreeMap.mem_iff_isSome_getElem?, h]; rfl

theorem exists_getElem? {β : Type} {m : BlockMap β} {k : Nat} (h : k ∈ m) :
    ∃ v, m[k]? = some v := by
  rw [Std.ExtTreeMap.mem_iff_isSome_getElem?] at h
  exact Option.isSome_iff_exists.mp h

theorem mem_erase_iff {β : Type} {m : BlockMap β} {a b : Nat} :
    a ∈ m.erase b ↔ a ≠ b ∧ a ∈ m := by
  rw [Std.ExtTreeMap.mem_erase, ne_eq, Std.LawfulEqCmp.compare_eq_iff_eq, ne_eq, eq_comm]

theorem mem_insert_iff {β : Type} {m : BlockMap β} {a b : Nat} {v : β} :
    a ∈ m.insert b v ↔ a = b ∨ a ∈ m := by
  rw [Std.ExtTreeMap.mem_insert, Std.LawfulEqCmp.compare_eq_iff_eq, eq_comm]

/-! ## The eviction loop -/

section Enforce

variable {storage : StorageBackend σ} {current : Nat}

/-- One iteration that goes on: over budget, and `victim` is the first block but `current`. -/
structure Evicts (current : Nat) (kv : KVCacheState σ) (victim : Nat) (block : KvBlock) :
    Prop where
  overBudget : kv.maxResidentBlocks < kv.resident.size
  isFirst : kv.resident.keys.find? (fun k => k != current) = some victim
  isBlock : kv.resident[victim]? = some block

theorem Evicts.ne {kv : KVCacheState σ} {victim : Nat} {block : KvBlock}
    (h : Evicts current kv victim block) : victim ≠ current := by
  have := List.find?_some h.isFirst
  simpa using this

/-- The eviction loop keeps what one eviction keeps, whether the write succeeds or fails. -/
theorem enforceLoop_rule {P : KVCacheState σ → σ → Prop}
    (hspill : ∀ kv st victim block, Evicts current kv victim block →
      (storage.write (spillPath kv.seqId kv.layer victim) block.toBytes st).1 = .ok () →
      P kv st →
      P (kv.spillOut victim)
        (storage.write (spillPath kv.seqId kv.layer victim) block.toBytes st).2)
    (hfail : ∀ kv st victim block e, Evicts current kv victim block →
      (storage.write (spillPath kv.seqId kv.layer victim) block.toBytes st).1 = .error e →
      P kv st →
      P kv (storage.write (spillPath kv.seqId kv.layer victim) block.toBytes st).2) :
    ∀ (n : Nat) (kv : KVCacheState σ) (st : σ), P kv st →
      P (enforceLoop storage current n kv st).2.1 (enforceLoop storage current n kv st).2.2 := by
  intro n
  induction n with
  | zero => intro kv st h; exact h
  | succ n ih =>
    intro kv st h
    rw [enforceLoop]
    split
    · next hover =>
      split
      · exact h
      · next victim hfirst =>
        split
        · exact h
        · next block hblock =>
          have hev : Evicts current kv victim block := ⟨hover, hfirst, hblock⟩
          split
          · next e st' hw =>
            have := hfail kv st victim block e hev (by rw [hw]) h
            rw [hw] at this
            simpa only [erase_insert_self hblock] using this
          · next st' hw =>
            have := hspill kv st victim block hev (by rw [hw]) h
            rw [hw] at this
            exact ih _ _ this
    · exact h

theorem size_erase_of_getElem? {β : Type} {m : BlockMap β} {k : Nat} {v : β}
    (h : m[k]? = some v) : (m.erase k).size + 1 = m.size := by
  have hmem := mem_of_getElem? h
  have hpos : m.size ≠ 0 := by
    intro h0
    rw [← Std.ExtTreeMap.length_keys, List.length_eq_zero_iff] at h0
    have := Std.ExtTreeMap.mem_keys.mpr hmem
    rw [h0] at this
    exact absurd this (by simp)
  rw [Std.ExtTreeMap.size_erase, if_pos (Std.ExtTreeMap.contains_iff_mem.mpr hmem)]
  omega

/-- `resident.size` iterations are enough: a loop that ends `Ok` has met the budget or has only
`current` left. -/
theorem enforceLoop_done : ∀ (n : Nat) (kv : KVCacheState σ) (st : σ), kv.resident.size ≤ n →
    (enforceLoop storage current n kv st).1 = .ok () →
    (enforceLoop storage current n kv st).2.1.resident.size ≤ kv.maxResidentBlocks ∨
      (enforceLoop storage current n kv st).2.1.resident.keys.find? (fun k => k != current)
        = none := by
  intro n
  induction n with
  | zero => intro kv st hn _; left; simp only [enforceLoop]; omega
  | succ n ih =>
    intro kv st hn
    rw [enforceLoop]
    split
    · split
      · next hnone => intro _; right; exact hnone
      · next victim hfirst =>
        split
        · next hblock =>
          have hmem := Std.ExtTreeMap.mem_keys.mp (List.mem_of_find?_eq_some hfirst)
          obtain ⟨v, hv⟩ := exists_getElem? hmem
          rw [hv] at hblock
          exact absurd hblock (by simp)
        · next block hblock =>
          split
          · intro h; simp at h
          · have hsize := size_erase_of_getElem? hblock
            exact ih _ _ (by simp only [spillOut]; omega)
    · next hle => intro _; left; exact Nat.le_of_not_lt hle

theorem enforceLoop_shape (n : Nat) (kv : KVCacheState σ) (st : σ) :
    SameShape kv (enforceLoop storage current n kv st).2.1 := by
  refine enforceLoop_rule (P := fun kv' _ => SameShape kv kv') ?_ ?_ n kv st (SameShape.refl kv)
  · exact fun _ _ _ _ _ _ h => h.trans (spillOut_shape _ _)
  · exact fun _ _ _ _ _ _ _ h => h

theorem enforceLoop_len (n : Nat) (kv : KVCacheState σ) (st : σ) :
    (enforceLoop storage current n kv st).2.1.len = kv.len := by
  refine enforceLoop_rule (P := fun kv' _ => kv'.len = kv.len) ?_ ?_ n kv st rfl
  · exact fun _ _ _ _ _ _ h => h
  · exact fun _ _ _ _ _ _ _ h => h

end Enforce

/-! ## Append -/

/-- Every outcome of `append`: refused with nothing changed, or pushed and then enforced. -/
theorem append_cases (k v : List F32) (kv : KVCacheState σ) (st : σ) :
    ((∃ e, (kv.append k v st).1 = .error e) ∧ (kv.append k v st).2 = (kv, st) ∧
        (k.length ≠ kv.kvDim ∨ v.length ≠ kv.kvDim ∨ kv.maxPositions ≤ kv.len)) ∨
      (k.length = kv.kvDim ∧ v.length = kv.kvDim ∧ kv.len < kv.maxPositions ∧
        kv.append k v st = enforceResidency (kv.len / kv.blockSize) (kv.push k v) st) := by
  unfold append
  by_cases hw : k.length ≠ kv.kvDim ∨ v.length ≠ kv.kvDim
  · rw [if_pos hw]
    exact Or.inl ⟨⟨_, rfl⟩, rfl, by tauto⟩
  · rw [if_neg hw]
    by_cases hl : kv.maxPositions ≤ kv.len
    · rw [if_pos hl]
      exact Or.inl ⟨⟨_, rfl⟩, rfl, Or.inr (Or.inr hl)⟩
    · rw [if_neg hl]
      push Not at hw
      exact Or.inr ⟨hw.1, hw.2, by omega, rfl⟩

/-- Every outcome of enforcement: nothing to do, or the loop. -/
theorem enforceResidency_cases (current : Nat) (kv : KVCacheState σ) (st : σ) :
    ((kv.kvDim = 0 ∨ kv.storage = none) ∧ enforceResidency current kv st = (.ok (), kv, st)) ∨
      ∃ storage, kv.kvDim ≠ 0 ∧ kv.storage = some storage ∧
        enforceResidency current kv st = enforceLoop storage current kv.resident.size kv st := by
  unfold enforceResidency
  by_cases hd : kv.kvDim = 0
  · rw [if_pos hd]
    exact Or.inl ⟨Or.inl hd, rfl⟩
  · rw [if_neg hd]
    cases hs : kv.storage with
    | none => exact Or.inl ⟨Or.inr rfl, rfl⟩
    | some storage => exact Or.inr ⟨storage, hd, rfl, rfl⟩

theorem enforceResidency_shape (current : Nat) (kv : KVCacheState σ) (st : σ) :
    SameShape kv (enforceResidency current kv st).2.1 := by
  rcases enforceResidency_cases current kv st with ⟨_, h⟩ | ⟨storage, _, _, h⟩
  · rw [h]; exact SameShape.refl kv
  · rw [h]; exact enforceLoop_shape _ _ _

theorem append_shape (k v : List F32) (kv : KVCacheState σ) (st : σ) :
    SameShape kv (kv.append k v st).2.1 := by
  rcases append_cases k v kv st with ⟨_, h, _⟩ | ⟨_, _, _, h⟩
  · rw [h]; exact SameShape.refl kv
  · rw [h]; exact (push_shape kv k v).trans (enforceResidency_shape _ _ _)

/-! ## Reload -/

/-- Every outcome of `reload`: an error that leaves the cache alone, or the block loaded from
well-formed bytes. -/
theorem reload_cases (b : Nat) (kv : KVCacheState σ) (st : σ) :
    ((∃ e, (kv.reload b st).1 = .error e) ∧ (kv.reload b st).2.1 = kv ∧
        ((kv.reload b st).2.2 = st ∨
          ∃ storage path, kv.storage = some storage ∧ kv.spilled[b]? = some path ∧
            (kv.reload b st).2.2 = (storage.read path st).2)) ∨
      ∃ storage path bytes, kv.storage = some storage ∧ kv.spilled[b]? = some path ∧
        (storage.read path st).1 = .ok bytes ∧
        kv.reload b st = (.ok (),
          kv.loadBlock b
            { keys := ((words 4 (bytes.drop 8)).map F32.fromLeBytes).take
                (ofLE (bytes.take 8) * kv.kvDim)
              values := ((words 4 (bytes.drop 8)).map F32.fromLeBytes).drop
                (ofLE (bytes.take 8) * kv.kvDim)
              filled := ofLE (bytes.take 8) },
          (storage.read path st).2) := by
  unfold reload
  cases hp : kv.spilled[b]? with
  | none => exact Or.inl ⟨⟨_, rfl⟩, rfl, Or.inl rfl⟩
  | some path =>
    cases hs : kv.storage with
    | none => exact Or.inl ⟨⟨_, rfl⟩, rfl, Or.inl rfl⟩
    | some storage =>
      cases hr : storage.read path st with
      | mk res st' =>
        cases res with
        | error e =>
          refine Or.inl ⟨⟨e, by simp [hr]⟩, by simp [hr], Or.inr ⟨storage, path, rfl, rfl, ?_⟩⟩
          simp [hr]
        | ok bytes =>
          simp only [hr]
          split
          · exact Or.inl ⟨⟨_, rfl⟩, rfl, Or.inr ⟨storage, path, rfl, rfl, by rw [hr]⟩⟩
          · split
            · exact Or.inl ⟨⟨_, rfl⟩, rfl, Or.inr ⟨storage, path, rfl, rfl, by rw [hr]⟩⟩
            · exact Or.inr ⟨storage, path, bytes, rfl, rfl, by rw [hr], by rw [hr]⟩

theorem reload_shape (b : Nat) (kv : KVCacheState σ) (st : σ) :
    SameShape kv (kv.reload b st).2.1 := by
  rcases reload_cases b kv st with ⟨_, h, _⟩ | ⟨_, _, _, _, _, _, h⟩
  · rw [h]; exact SameShape.refl kv
  · rw [h]; exact loadBlock_shape _ _ _

/-- Reloading a list of blocks keeps what reloading one keeps. -/
theorem reloadAll_rule {P : KVCacheState σ → σ → Prop}
    (hstep : ∀ b kv st, P kv st → P (kv.reload b st).2.1 (kv.reload b st).2.2) :
    ∀ (bs : List Nat) (kv : KVCacheState σ) (st : σ), P kv st →
      P (reloadAll bs kv st).2.1 (reloadAll bs kv st).2.2 := by
  intro bs
  induction bs with
  | nil => intro kv st h; exact h
  | cons b bs ih =>
    intro kv st h
    have hb := hstep b kv st h
    rw [reloadAll]
    split
    · next e kv' st' hr => rw [hr] at hb; exact hb
    · next kv' st' hr => rw [hr] at hb; exact ih _ _ hb

/-- Every outcome of `ensureResident`: an empty range, or a reload of what it needs. -/
theorem ensureResident_cases (start stop : Nat) (kv : KVCacheState σ) (st : σ) :
    (stop ≤ start ∧ kv.ensureResident start stop st = (.ok (), kv, st)) ∨
      (start < stop ∧ kv.ensureResident start stop st = reloadAll (kv.needed start stop) kv st) := by
  unfold ensureResident
  by_cases h : stop ≤ start
  · rw [if_pos h]; exact Or.inl ⟨h, rfl⟩
  · rw [if_neg h]; exact Or.inr ⟨Nat.lt_of_not_le h, rfl⟩

theorem ensureResident_rule {P : KVCacheState σ → σ → Prop}
    (hstep : ∀ b kv st, P kv st → P (kv.reload b st).2.1 (kv.reload b st).2.2)
    (start stop : Nat) (kv : KVCacheState σ) (st : σ) (h : P kv st) :
    P (kv.ensureResident start stop st).2.1 (kv.ensureResident start stop st).2.2 := by
  rcases ensureResident_cases start stop kv st with ⟨_, he⟩ | ⟨_, he⟩
  · rw [he]; exact h
  · rw [he]; exact reloadAll_rule hstep _ _ _ h

theorem ensureResident_shape (start stop : Nat) (kv : KVCacheState σ) (st : σ) :
    SameShape kv (kv.ensureResident start stop st).2.1 :=
  ensureResident_rule (P := fun kv' _ => SameShape kv kv')
    (fun b _ _ h => h.trans (reload_shape b _ _)) start stop kv st (SameShape.refl kv)

/-- The blocks `ensureResident` reads are the spilled ones that overlap `start..stop`. -/
theorem mem_needed {start stop : Nat} (h : start < stop) {kv : KVCacheState σ} {b : Nat} :
    b ∈ kv.needed start stop ↔
      start / kv.blockSize ≤ b ∧ b ≤ (stop - 1) / kv.blockSize ∧ b ∈ kv.spilled := by
  have hle : start / kv.blockSize ≤ (stop - 1) / kv.blockSize :=
    Nat.div_le_div_right (by omega)
  unfold needed
  rw [List.mem_filter, List.mem_range'_1, Std.ExtTreeMap.contains_iff_mem]
  constructor
  · rintro ⟨⟨h1, h2⟩, h3⟩
    exact ⟨h1, by omega, h3⟩
  · rintro ⟨h1, h2, h3⟩
    exact ⟨⟨h1, by omega⟩, h3⟩

/-! ## Truncate -/

/-- Removing stale blocks only takes them out of `spilled`. -/
theorem removeStale_fields : ∀ (bs : List Nat) (kv : KVCacheState σ) (st : σ),
    SameShape kv (removeStale bs kv st).1 ∧ (removeStale bs kv st).1.resident = kv.resident ∧
      (removeStale bs kv st).1.len = kv.len
  | [], kv, st => ⟨SameShape.refl kv, rfl, rfl⟩
  | b :: bs, kv, st => by
    rw [removeStale]
    split
    · exact removeStale_fields bs kv st
    · split
      · have := removeStale_fields bs (kv.forget b) st
        exact ⟨(forget_shape kv b).trans this.1, this.2⟩
      · next path _ _ storage _ =>
        have := removeStale_fields bs (kv.forget b) (storage.remove path st).2
        exact ⟨(forget_shape kv b).trans this.1, this.2⟩

theorem removeStale_spilled : ∀ (bs : List Nat) (kv : KVCacheState σ) (st : σ) (a : Nat),
    (removeStale bs kv st).1.spilled[a]? = if a ∈ bs then none else kv.spilled[a]?
  | [], kv, st, a => by simp [removeStale]
  | b :: bs, kv, st, a => by
    have herase : (kv.forget b).spilled[a]? = if b = a then none else kv.spilled[a]? := by
      simp [forget, Std.ExtTreeMap.getElem?_erase]
    rw [removeStale]
    split
    · next hnone =>
      rw [removeStale_spilled bs kv st a]
      by_cases hab : a = b
      · subst hab; simp [hnone]
      · simp [hab]
    · split
      · rw [removeStale_spilled bs _ _ a, herase]
        by_cases hab : a = b
        · simp [hab]
        · simp [hab, Ne.symm hab]
      · rw [removeStale_spilled bs _ _ a, herase]
        by_cases hab : a = b
        · simp [hab]
        · simp [hab, Ne.symm hab]

/-- Only the files of stale blocks are removed. -/
theorem removeStale_disk {storage : Option (StorageBackend σ)} (law : ReadsBack storage) :
    ∀ (bs : List Nat) (kv : KVCacheState σ) (st : σ) (q : Path), kv.storage = storage →
      (∀ b ∈ bs, kv.spilled[b]? ≠ some q) →
      law.content (removeStale bs kv st).2 q = law.content st q
  | [], _, _, _, _, _ => rfl
  | b :: bs, kv, st, q, hs, hq => by
    have hq' : ∀ a ∈ bs, (kv.forget b).spilled[a]? ≠ some q := by
      intro a ha he
      rw [forget, Std.ExtTreeMap.getElem?_erase] at he
      split at he
      · simp at he
      · exact hq a (List.mem_cons_of_mem _ ha) he
    rw [removeStale]
    split
    · exact removeStale_disk law bs kv st q hs (fun a ha => hq a (List.mem_cons_of_mem _ ha))
    · next path hpath =>
      split
      · exact removeStale_disk law bs (kv.forget b) st q hs hq'
      · next s hsome =>
        rw [removeStale_disk law bs (kv.forget b) _ q hs hq']
        refine law.remove_frame s (by rw [← hs, hsome]) path st q ?_
        intro he
        exact hq b List.mem_cons_self (by rw [hpath, he])

/-- Every outcome of `truncate`: a no-op, a refusal, or the cut. -/
theorem truncate_cases (len : Nat) (kv : KVCacheState σ) (st : σ) :
    (kv.len ≤ len ∧ kv.truncate len st = (.ok (), kv, st)) ∨
      (len < kv.len ∧ kv.cutSpilled len = true ∧ (∃ e, (kv.truncate len st).1 = .error e) ∧
        (kv.truncate len st).2 = (kv, st)) ∨
      (len < kv.len ∧ kv.cutSpilled len = false ∧
        kv.truncate len st = (.ok (),
          { (removeStale (kv.staleBlocks len) { kv with resident := kv.cutResident len } st).1 with
            len := len },
          (removeStale (kv.staleBlocks len) { kv with resident := kv.cutResident len } st).2)) := by
  unfold truncate
  by_cases hl : kv.len ≤ len
  · rw [if_pos hl]; exact Or.inl ⟨hl, rfl⟩
  · rw [if_neg hl]
    cases hc : kv.cutSpilled len with
    | true => exact Or.inr (Or.inl ⟨by omega, rfl, ⟨_, rfl⟩, rfl⟩)
    | false => exact Or.inr (Or.inr ⟨by omega, rfl, rfl⟩)

theorem truncate_shape (len : Nat) (kv : KVCacheState σ) (st : σ) :
    SameShape kv (kv.truncate len st).2.1 := by
  rcases truncate_cases len kv st with ⟨_, h⟩ | ⟨_, _, _, h⟩ | ⟨_, _, h⟩
  · rw [h]; exact SameShape.refl kv
  · rw [h]; exact SameShape.refl kv
  · rw [h]
    have := (removeStale_fields (kv.staleBlocks len) { kv with resident := kv.cutResident len } st).1
    exact SameShape.trans (b := { kv with resident := kv.cutResident len })
      ⟨rfl, rfl, rfl, rfl, rfl, rfl, rfl, rfl⟩
      ⟨this.kvDim, this.blockSize, this.maxPositions, this.maxResidentBlocks, this.slidingWindow,
        this.storage, this.seqId, this.layer⟩

/-- What is resident after a cut. -/
theorem cutResident_getElem? (len : Nat) (kv : KVCacheState σ) (b : Nat) :
    (kv.cutResident len)[b]? =
      if b < len / kv.blockSize then kv.resident[b]?
      else if b = len / kv.blockSize ∧ 0 < len % kv.blockSize then
        (kv.resident[b]?).map (fun block =>
          { keys := block.keys.take (len % kv.blockSize * kv.kvDim)
            values := block.values.take (len % kv.blockSize * kv.kvDim)
            filled := len % kv.blockSize })
      else none := by
  have hfilter : ∀ a : Nat, (kv.resident.filter (fun b _ =>
      decide (b < len / kv.blockSize) ||
        (b == len / kv.blockSize && decide (0 < len % kv.blockSize))))[a]?
      = if a < len / kv.blockSize ∨ (a = len / kv.blockSize ∧ 0 < len % kv.blockSize)
        then kv.resident[a]? else none := by
    intro a
    rw [Std.ExtTreeMap.getElem?_filter']
    cases kv.resident[a]? with
    | none => simp
    | some v => simp [Option.filter]
  unfold cutResident
  by_cases hk : 0 < len % kv.blockSize
  · simp only [if_pos hk, Std.ExtTreeMap.getElem?_modify, Std.LawfulEqCmp.compare_eq_iff_eq,
      hfilter]
    by_cases hb : len / kv.blockSize = b
    · subst hb; simp [hk]
    · by_cases hlt : b < len / kv.blockSize
      · simp [hb, hlt]
      · simp [hb, hlt, Ne.symm hb]
  · simp only [if_neg hk, hfilter]
    simp [hk]

theorem mem_staleBlocks {len : Nat} {kv : KVCacheState σ} {b : Nat} :
    b ∈ kv.staleBlocks len ↔ b ∈ kv.spilled ∧
      (len / kv.blockSize < b ∨ (b = len / kv.blockSize ∧ len % kv.blockSize = 0)) := by
  unfold staleBlocks
  rw [List.mem_filter, Std.ExtTreeMap.mem_keys]
  simp

end KVCacheState

end Garuda
