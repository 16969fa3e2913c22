import Garuda.Cache.KvRun
import Garuda.Cache.PromptCache
import Garuda.Infra.Recency

/-!
# The bounds of the prompt cache

What holds of a `PromptCache` after any sequence of calls.

* `PromptCache.Bounded` says that the three pieces of its state are in step and within both
  bounds, and that no entry has a spilled block.
* `PromptCache.evict_spec` is what the eviction loop leaves.
* `PromptCache.bounded_run` is what it comes to over every run of `insert` and `get`.
-/

namespace Garuda

open Infra

variable {σ κ : Type}

namespace PromptCache

/-- The recency list is the keys, each once, and the byte count is the sum of the entries. -/
abbrev InStep (cache : PromptCache σ κ) (lru : List κ) : Prop :=
  Tracked SeqState.residentBytes cache.entries lru cache.bytes

structure Bounded (cache : PromptCache σ κ) : Prop where
  inStep : cache.InStep cache.lru
  entries_le : cache.lru.length ≤ cache.capacity
  bytes_le : cache.bytes ≤ cache.budgetBytes
  unspilled : cache.Keeps fun _ state => state.hasSpill = false

/-- The states that `insert` does not turn away. -/
def Accepts (cache : PromptCache σ κ) (state : SeqState σ) : Prop :=
  state.hasSpill = false ∧ state.residentBytes ≤ cache.budgetBytes

variable [DecidableEq κ]

/-! ## Calls -/

inductive Op (σ : Type) where
  | get (tokens : List Token) (freshSeqId : Nat)
  | insert (tokens : List Token) (state : SeqState σ)

variable (promptKey : List Token → κ)

def apply (s : PromptCache σ κ × σ) : Op σ → PromptCache σ κ × σ
  | .get tokens freshSeqId => ((s.1.get promptKey tokens freshSeqId).2, s.2)
  | .insert tokens state => s.1.insert promptKey tokens state s.2

/-- A new cache after a sequence of calls. -/
def run (capacity budgetBytes : Nat) (ops : List (Op σ)) (st : σ) : PromptCache σ κ × σ :=
  ops.foldl (apply promptKey) (new capacity budgetBytes, st)

/-! ## Eviction -/

variable {promptKey} {cache : PromptCache σ κ} {lru : List κ} {key victim : κ}
  {state : SeqState σ}

/-- What the eviction loop leaves, if one entry is allowed. -/
structure Evicted (cache out : PromptCache σ κ) : Prop where
  inStep : out.InStep out.lru
  entries_le : out.lru.length ≤ cache.capacity
  bytes_le : out.bytes ≤ cache.budgetBytes
  capacity_eq : out.capacity = cache.capacity
  budget_eq : out.budgetBytes = cache.budgetBytes

theorem evict_spec (lru : List κ) {cache : PromptCache σ κ} (st : σ) (h : cache.InStep lru) :
    Evicted cache (evict lru cache st).1 := by
  induction lru generalizing cache st with
  | nil =>
    have hnil : cache.entries = [] := by
      have hkeys := h.perm.nil_eq
      exact List.map_eq_nil_iff.mp hkeys.symm
    have hbytes : cache.bytes = 0 := by
      rw [h.bytes_eq, hnil]
      rfl
    exact {
      inStep := h
      entries_le := Nat.zero_le _
      bytes_le := hbytes ▸ Nat.zero_le _
      capacity_eq := rfl
      budget_eq := rfl }
  | cons victim rest ih =>
    rw [evict]
    by_cases hover : cache.capacity < rest.length + 1 ∨ cache.budgetBytes < cache.bytes
    · obtain ⟨evicted, hevicted⟩ := h.exists_lookup List.mem_cons_self
      rw [if_pos hover, remove, hevicted]
      have hpop : InStep { cache with
          entries := cache.entries.filter fun e => e.1 != victim
          bytes := cache.bytes - evicted.residentBytes } rest := h.pop hevicted
      have hrest := ih (evicted.drop st) hpop
      exact ⟨hrest.inStep, hrest.entries_le, hrest.bytes_le, hrest.capacity_eq, hrest.budget_eq⟩
    · rw [if_neg hover]
      push Not at hover
      exact ⟨h, hover.1, hover.2, rfl, rfl⟩

/-- The last of the keys is not evicted if its entry fits on its own. -/
theorem evict_keeps_last (pre : List κ) {cache : PromptCache σ κ} (st : σ)
    (h : cache.InStep (pre ++ [key])) (hkey : cache.entries.lookup key = some state)
    (hcap : 1 ≤ cache.capacity) (hsize : state.residentBytes ≤ cache.budgetBytes) :
    (evict (pre ++ [key]) cache st).1.entries.lookup key = some state := by
  induction pre generalizing cache st with
  | nil =>
    have hbytes : cache.bytes = state.residentBytes := by
      rw [← h.sizeOn_eq]
      simp [sizeOn, hkey]
    rw [List.nil_append, evict, if_neg]
    · exact hkey
    · simp only [List.length_nil]
      omega
  | cons victim pre ih =>
    rw [List.cons_append, evict]
    split
    · obtain ⟨evicted, hevicted⟩ := h.exists_lookup (k := victim) (by simp)
      have hne : key ≠ victim := by
        rintro rfl
        exact (List.nodup_cons.mp h.nodup).1 (List.mem_append_right _ List.mem_cons_self)
      rw [remove, hevicted]
      have hpop : InStep { cache with
          entries := cache.entries.filter fun e => e.1 != victim
          bytes := cache.bytes - evicted.residentBytes } (pre ++ [key]) := h.pop hevicted
      exact ih (evicted.drop st) hpop ((lookup_filter_ne hne).trans hkey) hcap hsize
    · exact hkey

/-! ## Inserting and getting -/

/-- The other entries, before the new one is added. -/
theorem erase_inStep (h : cache.InStep cache.lru) (key : κ) :
    Tracked SeqState.residentBytes (cache.entries.filter fun e => e.1 != key)
      (cache.lru.filter fun k => k != key)
      (match cache.entries.lookup key with
        | none => cache.bytes
        | some old => cache.bytes - old.residentBytes) := by
  cases hl : cache.entries.lookup key with
  | none =>
    have hnone : key ∉ cache.entries.map Prod.fst := by
      rw [← lookup_isSome_iff, hl]
      exact Bool.false_ne_true
    rw [filter_ne_of_notMem hnone, keys_filter_ne (h.mem_iff.not.mpr hnone)]
    exact h
  | some old => exact h.erase hl

/-- An accepted insert adds its entry to the others, and then evicts. -/
theorem insert_accepted (h : cache.InStep cache.lru) (promptKey : List Token → κ)
    (tokens : List Token) (hstate : cache.Accepts state) (st : σ) :
    ∃ added st', cache.insert promptKey tokens state st
        = evict (cache.lru.filter (fun k => k != promptKey tokens) ++ [promptKey tokens]) added st' ∧
      added.InStep (cache.lru.filter (fun k => k != promptKey tokens) ++ [promptKey tokens]) ∧
      added.entries.lookup (promptKey tokens) = some state ∧
      added.capacity = cache.capacity ∧ added.budgetBytes = cache.budgetBytes := by
  have hothers := erase_inStep h (promptKey tokens)
  have hnotMem : promptKey tokens ∉ cache.lru.filter fun k => k != promptKey tokens := by simp
  have hpush := hothers.push hnotMem state
  unfold PromptCache.insert remove
  rw [if_neg (by rw [hstate.1]; exact Bool.false_ne_true), if_neg (Nat.not_lt.mpr hstate.2)]
  cases hl : cache.entries.lookup (promptKey tokens) with
  | none =>
    have hlru : cache.lru = cache.lru.filter fun k => k != promptKey tokens := by
      refine (keys_filter_ne ?_).symm
      rw [h.mem_iff, ← lookup_isSome_iff, hl]
      exact Bool.false_ne_true
    rw [hl, ← hlru] at hpush
    simp only [hl, ← hlru]
    refine ⟨{ cache with
      entries := (promptKey tokens, state) :: cache.entries.filter fun e => e.1 != promptKey tokens
      bytes := cache.bytes + state.residentBytes }, st, rfl, hpush, ?_, rfl, rfl⟩
    rw [List.lookup_cons, beq_self_eq_true]
  | some old =>
    rw [hl] at hpush
    simp only [hl]
    refine ⟨{ cache with
      entries := (promptKey tokens, state) :: cache.entries.filter fun e => e.1 != promptKey tokens
      lru := cache.lru.filter fun k => k != promptKey tokens
      bytes := cache.bytes - old.residentBytes + state.residentBytes }, old.drop st, rfl, hpush,
      ?_, rfl, rfl⟩
    rw [List.lookup_cons, beq_self_eq_true]

theorem insert_rejected (promptKey : List Token → κ) (tokens : List Token)
    (hstate : ¬ cache.Accepts state) (st : σ) :
    (cache.insert promptKey tokens state st).1 = cache := by
  unfold insert
  split
  · rfl
  · next hspill =>
    rw [if_pos]
    refine Nat.lt_of_not_le fun hle => hstate ⟨?_, hle⟩
    exact Bool.eq_false_iff.mpr hspill

/-- The eviction after an accepted insert leaves the entry where it is. -/
theorem insert_lookup (h : cache.InStep cache.lru) (hcap : 1 ≤ cache.capacity)
    (promptKey : List Token → κ) (tokens : List Token) (hstate : cache.Accepts state) (st : σ) :
    (cache.insert promptKey tokens state st).1.entries.lookup (promptKey tokens) = some state := by
  obtain ⟨added, st', he, hadded, hlookup, hcapacity, hbudget⟩ :=
    insert_accepted h promptKey tokens hstate st
  rw [he]
  exact evict_keeps_last _ st' hadded hlookup (hcapacity ▸ hcap) (hbudget ▸ hstate.2)

/-- Neither call changes the bounds. -/
theorem insert_bounds (h : cache.InStep cache.lru) (promptKey : List Token → κ)
    (tokens : List Token) (state : SeqState σ) (st : σ) :
    (cache.insert promptKey tokens state st).1.capacity = cache.capacity ∧
      (cache.insert promptKey tokens state st).1.budgetBytes = cache.budgetBytes := by
  by_cases hstate : cache.Accepts state
  · obtain ⟨added, st', he, hadded, -, hcapacity, hbudget⟩ :=
      insert_accepted h promptKey tokens hstate st
    have hout := evict_spec _ st' hadded
    rw [he]
    exact ⟨hout.capacity_eq.trans hcapacity, hout.budget_eq.trans hbudget⟩
  · rw [insert_rejected promptKey tokens hstate st]
    exact ⟨rfl, rfl⟩

theorem Bounded.insert (h : Bounded cache) (promptKey : List Token → κ) (tokens : List Token)
    (state : SeqState σ) (st : σ) : Bounded (cache.insert promptKey tokens state st).1 := by
  by_cases hstate : cache.Accepts state
  · have hkeeps : Keeps (fun _ state => state.hasSpill = false)
        (cache.insert promptKey tokens state st).1 :=
      insert_keeps promptKey hstate.1 h.unspilled st
    obtain ⟨added, st', he, hadded, -, hcapacity, hbudget⟩ :=
      insert_accepted h.inStep promptKey tokens hstate st
    have hout := evict_spec _ st' hadded
    rw [he] at hkeeps ⊢
    exact {
      inStep := hout.inStep
      entries_le := hout.entries_le.trans hout.capacity_eq.ge
      bytes_le := hout.bytes_le.trans hout.budget_eq.ge
      unspilled := hkeeps }
  · rw [insert_rejected promptKey tokens hstate st]
    exact h

theorem Bounded.get (h : Bounded cache) (promptKey : List Token → κ) (tokens : List Token)
    (freshSeqId : Nat) :
    Bounded (cache.get promptKey tokens freshSeqId).2 ∧
      (cache.get promptKey tokens freshSeqId).2.capacity = cache.capacity ∧
      (cache.get promptKey tokens freshSeqId).2.budgetBytes = cache.budgetBytes := by
  have hkeeps := get_keeps promptKey tokens freshSeqId h.unspilled
  unfold PromptCache.get at hkeeps ⊢
  cases hl : cache.entries.lookup (promptKey tokens) with
  | none =>
    rw [hl] at hkeeps
    exact ⟨⟨h.inStep, h.entries_le, h.bytes_le, hkeeps⟩, rfl, rfl⟩
  | some entry =>
    rw [hl] at hkeeps
    have hmem : promptKey tokens ∈ cache.lru := by
      rw [h.inStep.mem_iff, ← lookup_isSome_iff, hl]
      rfl
    have htouch := h.inStep.touch hmem
    have hlength : (cache.lru.filter (fun k => k != promptKey tokens) ++ [promptKey tokens]).length
        = cache.lru.length :=
      htouch.perm.length_eq.trans h.inStep.perm.length_eq.symm
    exact ⟨⟨htouch, hlength.trans_le h.entries_le, h.bytes_le, hkeeps⟩, rfl, rfl⟩

/-! ## Every run -/

omit [DecidableEq κ] in
theorem bounded_new (capacity budgetBytes : Nat) :
    Bounded (new capacity budgetBytes : PromptCache σ κ) where
  inStep := .nil _
  entries_le := Nat.zero_le _
  bytes_le := Nat.zero_le _
  unspilled := keeps_new _ capacity budgetBytes

/-- One call keeps the invariant, and the bounds themselves. -/
theorem Bounded.apply {s : PromptCache σ κ × σ} (h : Bounded s.1) (promptKey : List Token → κ)
    (op : Op σ) :
    Bounded (apply promptKey s op).1 ∧ (apply promptKey s op).1.capacity = s.1.capacity ∧
      (apply promptKey s op).1.budgetBytes = s.1.budgetBytes := by
  cases op with
  | get tokens freshSeqId => exact h.get promptKey tokens freshSeqId
  | insert tokens state =>
    exact ⟨h.insert promptKey tokens state s.2, insert_bounds h.inStep promptKey tokens state s.2⟩

theorem run_spec (promptKey : List Token → κ) (capacity budgetBytes : Nat) (ops : List (Op σ))
    (st : σ) :
    Bounded (run promptKey capacity budgetBytes ops st).1 ∧
      (run promptKey capacity budgetBytes ops st).1.capacity = max capacity 1 ∧
      (run promptKey capacity budgetBytes ops st).1.budgetBytes = budgetBytes := by
  induction ops using List.reverseRecOn with
  | nil => exact ⟨bounded_new capacity budgetBytes, rfl, rfl⟩
  | append_singleton ops op ih =>
    obtain ⟨hbounded, hcapacity, hbudget⟩ := ih
    obtain ⟨happly, hcap, hbytes⟩ := hbounded.apply promptKey op
    rw [run, List.foldl_append]
    exact ⟨happly, hcap.trans hcapacity, hbytes.trans hbudget⟩

/-- A state with nothing on disk can be given another identity. -/
theorem rekey_entry (h : Bounded cache) {key : κ} {entry : SeqState σ}
    (hl : cache.entries.lookup key = some entry) (freshSeqId : Nat) :
    (entry.rekey freshSeqId).1 = .ok () := by
  obtain ⟨_, _, hentries, -⟩ := List.lookup_eq_some_iff.mp hl
  have hmem : (key, entry) ∈ cache.entries := by
    rw [hentries]
    exact List.mem_append_right _ List.mem_cons_self
  rw [SeqState.rekey_ok freshSeqId (h.unspilled _ hmem)]

/--
**The prompt cache keeps its bounds over every run.**

A capacity of zero holds one entry all the same: `new` raises it to one. Whatever the run, an
accepted state is there after its insert, and the clone of every entry can be rekeyed.
-/
theorem bounded_run (promptKey : List Token → κ) (capacity budgetBytes : Nat) (ops : List (Op σ))
    (st : σ) :
    let s := run promptKey capacity budgetBytes ops st
    s.1.entries.length ≤ max capacity 1 ∧
      s.1.bytes = (s.1.entries.map fun e => e.2.residentBytes).sum ∧ s.1.bytes ≤ budgetBytes ∧
      s.1.lru.Nodup ∧ s.1.lru.Perm (s.1.entries.map Prod.fst) ∧
      (∀ e ∈ s.1.entries, e.2.hasSpill = false) ∧
      (∀ tokens state, state.hasSpill = false → state.residentBytes ≤ budgetBytes →
        (s.1.insert promptKey tokens state s.2).1.entries.lookup (promptKey tokens) = some state) ∧
      ∀ tokens entry freshSeqId, s.1.entries.lookup (promptKey tokens) = some entry →
        (entry.rekey freshSeqId).1 = .ok () := by
  obtain ⟨h, hcapacity, hbudget⟩ := run_spec promptKey capacity budgetBytes ops st
  have hlength : (run promptKey capacity budgetBytes ops st).1.entries.length
      = (run promptKey capacity budgetBytes ops st).1.lru.length := by
    rw [h.inStep.perm.length_eq, List.length_map]
  refine ⟨?_, h.inStep.bytes_eq, h.bytes_le.trans_eq hbudget, h.inStep.nodup, h.inStep.perm, h.unspilled,
    fun tokens state hspill hsize => ?_, fun tokens entry freshSeqId hl =>
      rekey_entry h hl freshSeqId⟩
  · rw [hlength, ← hcapacity]
    exact h.entries_le
  · refine insert_lookup h.inStep ?_ promptKey tokens ⟨hspill, hbudget.symm ▸ hsize⟩ _
    rw [hcapacity]
    exact Nat.le_max_right _ _

/-- One prompt inserted into a cache of capacity zero. -/
theorem bounded_run_zero :
    let s := run id 0 64 [.insert [1, 2, 3] (SeqState.new (tinyCfg 1 1 none memoryStorage) 1)]
      (fun _ => none)
    s.1.entries.length = 1 ∧ ¬ s.1.entries.length ≤ 0 := by
  decide +kernel

end PromptCache

end Garuda
