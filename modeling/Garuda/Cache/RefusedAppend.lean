import Garuda.Cache.KvRun

/-!
# Appends that fail

`append` stores the vectors and counts the position before it writes out the blocks that are over
the residency budget.

* `KVCacheState.surplus` — the writes that an append makes, from the cache as it stands before
* `KVCacheState.enforceLoop_ok_iff` — the eviction loop succeeds when the storage takes them all
* `KVCacheState.append_atomic_iff` — when a failed append leaves the cache as it was
-/

namespace Garuda

open Infra

variable {σ : Type}

/-- The storage takes these writes, one after the other. -/
def StorageBackend.takes (storage : StorageBackend σ) : List (Path × Bytes) → σ → Bool
  | [], _ => true
  | (path, bytes) :: rest, st =>
    match storage.write path bytes st with
    | (.error _, _) => false
    | (.ok (), st) => storage.takes rest st

namespace KVCacheState

/-- The resident blocks but `current`, oldest first. -/
def others (current : Nat) (kv : KVCacheState σ) : List (Nat × KvBlock) :=
  (kv.resident.filter fun b _ => b != current).toList

/-- The spill writes that it takes to bring `current` and the others within the budget. -/
def surplus (current : Nat) (kv : KVCacheState σ) : List (Path × Bytes) :=
  ((kv.others current).take ((kv.others current).length + 1 - kv.maxResidentBlocks)).map
    fun b => (spillPath kv.seqId kv.layer b.1, b.2.toBytes)

/-- What a caller can see of the cache. -/
structure Unchanged (kv kv' : KVCacheState σ) : Prop where
  len : kv'.len = kv.len
  resident : kv'.resident = kv.resident
  spilled : kv'.spilled = kv.spilled

/-! ## The other blocks -/

section

variable {current victim : Nat} {block : KvBlock} {rest : List (Nat × KvBlock)}
  {kv : KVCacheState σ}

theorem erase_eq_filter {β : Type} (m : BlockMap β) (k : Nat) :
    m.erase k = m.filter fun b _ => b != k := by
  apply Std.ExtTreeMap.ext_getElem?
  intro b
  rw [Std.ExtTreeMap.getElem?_erase, Std.ExtTreeMap.getElem?_filter']
  by_cases hb : k = b
  · subst hb
    cases m[k]? <;> simp [Option.filter]
  · cases m[b]? <;> simp [Option.filter, hb, Ne.symm hb]

theorem mem_others {b : Nat} :
    (b, block) ∈ kv.others current ↔ b ≠ current ∧ kv.resident[b]? = some block := by
  rw [others, Std.ExtTreeMap.toList_filter, List.mem_filter,
    Std.ExtTreeMap.mem_toList_iff_getElem?_eq_some]
  simp [and_comm]

/-- The block that the eviction loop takes is the first of the others. -/
theorem find?_keys_eq (current : Nat) (kv : KVCacheState σ) :
    kv.resident.keys.find? (fun b => b != current) = (kv.others current).head?.map Prod.fst := by
  rw [others, ← List.head?_map, Std.ExtTreeMap.map_fst_toList_eq_keys,
    Std.ExtTreeMap.keys_filter_key, List.head?_filter]

theorem size_eq (h : current ∈ kv.resident) :
    kv.resident.size = (kv.others current).length + 1 := by
  obtain ⟨block, hblock⟩ := exists_getElem? h
  rw [← size_erase_of_getElem? hblock, erase_eq_filter, others, Std.ExtTreeMap.length_toList]

/-- With the first of the others gone, the rest are the others. -/
theorem others_spillOut (h : kv.others current = (victim, block) :: rest) :
    (kv.spillOut victim).others current = rest := by
  have hfilter : (kv.spillOut victim).others current
      = (kv.others current).filter fun b => b.1 != victim := by
    rw [others, others, spillOut, Std.ExtTreeMap.toList_filter, Std.ExtTreeMap.toList_filter,
      erase_eq_filter, Std.ExtTreeMap.toList_filter, List.filter_filter, List.filter_filter]
    simp only [Bool.and_comm]
  have hdistinct : (kv.others current).Pairwise fun a b => a.1 ≠ b.1 :=
    Std.ExtTreeMap.distinct_keys_toList.imp fun hne heq => hne (by simp [heq])
  rw [hfilter, h, List.filter_cons_of_neg (by simp), List.filter_eq_self]
  intro b hb
  rw [h] at hdistinct
  exact bne_iff_ne.mpr ((List.pairwise_cons.mp hdistinct).1 b hb).symm

theorem others_push (k v : List F32) (kv : KVCacheState σ) :
    (kv.push k v).others (kv.len / kv.blockSize) = kv.others (kv.len / kv.blockSize) := by
  unfold others push
  congr 1
  apply Std.ExtTreeMap.ext_getElem?
  intro b
  rw [Std.ExtTreeMap.getElem?_filter', Std.ExtTreeMap.getElem?_filter',
    Std.ExtTreeMap.getElem?_insert]
  by_cases hb : kv.len / kv.blockSize = b
  · subst hb
    cases kv.resident[kv.len / kv.blockSize]? <;> simp [Option.filter]
  · simp [hb]

theorem surplus_push (k v : List F32) (kv : KVCacheState σ) :
    (kv.push k v).surplus (kv.len / kv.blockSize) = kv.surplus (kv.len / kv.blockSize) := by
  unfold surplus
  rw [others_push]
  rfl

theorem mem_push (k v : List F32) (kv : KVCacheState σ) :
    kv.len / kv.blockSize ∈ (kv.push k v).resident :=
  mem_insert_iff.mpr (.inl rfl)

end

/-! ## The eviction loop -/

theorem surplus_nil {current : Nat} {kv : KVCacheState σ} (hmem : current ∈ kv.resident)
    (h : kv.resident.size ≤ kv.maxResidentBlocks) : kv.surplus current = [] := by
  have hsize := size_eq hmem
  rw [surplus, show (kv.others current).length + 1 - kv.maxResidentBlocks = 0 by omega]
  rfl

/-- When there is room for one fewer, the first of the others is written, and then the surplus of
what is left. -/
theorem surplus_cons {current victim : Nat} {block : KvBlock} {rest : List (Nat × KvBlock)}
    {kv : KVCacheState σ} (hmem : current ∈ kv.resident)
    (hover : kv.maxResidentBlocks < kv.resident.size)
    (h : kv.others current = (victim, block) :: rest) :
    kv.surplus current = (spillPath kv.seqId kv.layer victim, block.toBytes) ::
      (kv.spillOut victim).surplus current := by
  have hsize := size_eq hmem
  unfold surplus
  rw [others_spillOut h]
  rw [h, List.length_cons] at hsize ⊢
  rw [show rest.length + 1 + 1 - kv.maxResidentBlocks
      = rest.length + 1 - kv.maxResidentBlocks + 1 by omega, List.take_succ_cons, List.map_cons]
  rfl

/-- **The eviction loop succeeds exactly when the storage takes the whole surplus.** -/
theorem enforceLoop_ok_iff {storage : StorageBackend σ} {current : Nat} (n : Nat) :
    ∀ {kv : KVCacheState σ} {st : σ}, current ∈ kv.resident → kv.resident.size ≤ n →
      ((enforceLoop storage current n kv st).1 = .ok () ↔
        storage.takes (kv.surplus current) st = true) := by
  induction n with
  | zero =>
    intro kv st hmem hn
    have := size_eq hmem
    omega
  | succ n ih =>
    intro kv st hmem hn
    rw [enforceLoop]
    by_cases hover : kv.maxResidentBlocks < kv.resident.size
    · rw [if_pos hover, find?_keys_eq]
      cases hothers : kv.others current with
      | nil => simp [surplus, hothers, StorageBackend.takes]
      | cons first rest =>
        obtain ⟨victim, block⟩ := first
        obtain ⟨hne, hblock⟩ := mem_others.mp (hothers ▸ List.mem_cons_self)
        rw [surplus_cons hmem hover hothers, StorageBackend.takes]
        simp only [List.head?_cons, Option.map_some, hblock]
        generalize storage.write (spillPath kv.seqId kv.layer victim) block.toBytes st = out
        obtain ⟨answer, st'⟩ := out
        cases answer with
        | error e => simp
        | ok =>
          have hsize := size_erase_of_getElem? hblock
          exact ih (mem_erase_iff.mpr ⟨hne.symm, hmem⟩) (by simp only [spillOut]; omega)
    · rw [if_neg hover, surplus_nil hmem (Nat.le_of_not_lt hover)]
      simp [StorageBackend.takes]

theorem enforceResidency_ok_iff {current : Nat} {kv : KVCacheState σ} (st : σ)
    (hmem : current ∈ kv.resident) :
    (enforceResidency current kv st).1 = .ok () ↔
      kv.kvDim = 0 ∨ ∀ storage, kv.storage = some storage →
        storage.takes (kv.surplus current) st = true := by
  rcases enforceResidency_cases current kv st with ⟨h, he⟩ | ⟨storage, hdim, hstorage, he⟩
  · rw [he]
    refine iff_of_true rfl (h.imp_right fun hnone storage hs => ?_)
    rw [hnone] at hs
    cases hs
  · rw [he, enforceLoop_ok_iff _ hmem (Nat.le_refl _)]
    constructor
    · intro h
      refine .inr fun s hs => ?_
      obtain rfl := Option.some.inj (hstorage.symm.trans hs)
      exact h
    · rintro (hzero | h)
      · exact absurd hzero hdim
      · exact h storage hstorage

/-! ## Append -/

/-- An append that is refused a write has counted its position all the same. -/
theorem append_len {k v : List F32} {kv : KVCacheState σ} {st : σ} (hk : k.length = kv.kvDim)
    (hv : v.length = kv.kvDim) (hlt : kv.len < kv.maxPositions) :
    (kv.append k v st).2.1.len = kv.len + 1 := by
  rcases append_cases k v kv st with ⟨-, -, h⟩ | ⟨-, -, -, he⟩
  · omega
  · rw [he]
    rcases enforceResidency_cases (kv.len / kv.blockSize) (kv.push k v) st with
      ⟨-, h⟩ | ⟨storage, -, -, h⟩
    · rw [h]
      rfl
    · rw [h, enforceLoop_len]
      rfl

/--
**A failed append leaves the cache as it was exactly when no write of its surplus is refused.**

The checks of the widths and of the position limit come before anything is stored. The spill
writes come after: when one of them is refused the position has been counted, its vectors are in
the last block, and the blocks that were written before it have left RAM.
-/
theorem append_atomic_iff (k v : List F32) (kv : KVCacheState σ) (st : σ) :
    (∀ e, (kv.append k v st).1 = .error e → Unchanged kv (kv.append k v st).2.1) ↔
      k.length ≠ kv.kvDim ∨ v.length ≠ kv.kvDim ∨ kv.maxPositions ≤ kv.len ∨ kv.kvDim = 0 ∨
        ∀ storage, kv.storage = some storage →
          storage.takes (kv.surplus (kv.len / kv.blockSize)) st = true := by
  rcases append_cases k v kv st with ⟨-, hsame, h⟩ | ⟨hk, hv, hlt, he⟩
  · refine iff_of_true (fun e _ => ?_) (by tauto)
    rw [hsame]
    exact ⟨rfl, rfl, rfl⟩
  · have hok := enforceResidency_ok_iff st (mem_push k v kv)
    rw [surplus_push, ← he] at hok
    have hdim : (kv.push k v).kvDim = kv.kvDim := rfl
    have hstorage : (kv.push k v).storage = kv.storage := rfl
    rw [hdim, hstorage] at hok
    constructor
    · intro h
      refine .inr (.inr (.inr (hok.mp ?_)))
      cases hres : (kv.append k v st).1 with
      | ok => rfl
      | error e =>
        have hlen := (h e hres).len
        rw [append_len hk hv hlt] at hlen
        omega
    · rintro (h | h | h | h) e hres
      · exact absurd hk h
      · exact absurd hv h
      · omega
      · rw [hok.mpr h] at hres
        cases hres

/-- A disk with no room left. -/
def fullDisk : StorageBackend Unit where
  read path _ := (.error (.storage s!"{path} not found"), ())
  write _ _ _ := (.error (.storage "no space left on device"), ())
  remove _ _ := (.ok (), ())

/-- With room for one block of one position, the second append is refused its write, and leaves two
positions and two blocks where there was one. -/
theorem refused_append_counts :
    ∃ kv st, runList KVCacheState.call [appendOne 0] (forLayer (tinyCfg 1 1 none fullDisk) 7 0, ())
        = some (kv, st) ∧
      (kv.append [⟨1⟩] [⟨1⟩] st).1 = .error (.storage "no space left on device") ∧
      ¬ Unchanged kv (kv.append [⟨1⟩] [⟨1⟩] st).2.1 ∧
      kv.len = 1 ∧ kv.resident.size = 1 ∧ (kv.append [⟨1⟩] [⟨1⟩] st).2.1.len = 2 ∧
      (kv.append [⟨1⟩] [⟨1⟩] st).2.1.resident.size = 2 := by
  have hsome : (runList KVCacheState.call [appendOne 0]
      (forLayer (tinyCfg 1 1 none fullDisk) 7 0, ())).any (fun s =>
        decide ((s.1.append [⟨1⟩] [⟨1⟩] s.2).1 = .error (.storage "no space left on device") ∧
          s.1.len = 1 ∧ s.1.resident.size = 1 ∧ (s.1.append [⟨1⟩] [⟨1⟩] s.2).2.1.len = 2 ∧
          (s.1.append [⟨1⟩] [⟨1⟩] s.2).2.1.resident.size = 2)) = true := by decide +kernel
  obtain ⟨⟨kv, st⟩, hs, hout⟩ := (Option.any_eq_true _ _).mp hsome
  obtain ⟨herror, hlen, hsize, hlen', hsize'⟩ := of_decide_eq_true hout
  refine ⟨kv, st, hs, herror, fun h => ?_, hlen, hsize, hlen', hsize'⟩
  exact absurd (hlen'.symm.trans (h.len.trans hlen)) (by decide)

end KVCacheState

end Garuda
