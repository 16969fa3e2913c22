import Garuda.Cache.Pass

/-!
# The prompt cache

`PromptCache` of `cache/mod.rs`: sequence states kept under the hash of the prompt prefix that
produced them, bounded by entries and by bytes, evicted least recently used first. The hash
itself (`prompt_key`, blake3 over the tokens) is a parameter `promptKey`.

* `PromptCache.insert_keeps`, `PromptCache.get_keeps` — a property of the entries survives every
  call
* `PromptCache.get_some` — what a hit hands out
-/

namespace Garuda

variable {σ κ : Type}

/-! ## Sizes -/

def KVCacheState.residentBytes (kv : KVCacheState σ) : Nat :=
  (kv.resident.toList.map fun e => (e.2.keys.length + e.2.values.length) * 4).sum

def LinearState.bytes (s : LinearState) : Nat :=
  (s.conv.length + s.state.length
    + (s.history.map fun e => e.conv.length + e.state.length).sum) * 4

def SeqState.residentBytes (seq : SeqState σ) : Nat :=
  (seq.kvs.map KVCacheState.residentBytes).sum
    + (seq.linear.map fun s => (s.map LinearState.bytes).getD 0).sum

/-! ## The cache -/

/-- Maps an exact prompt to the sequence state produced by prefilling it. -/
structure PromptCache (σ κ : Type) where
  entries : List (κ × SeqState σ)
  /-- Least recently used first. -/
  lru : List κ
  bytes : Nat
  hits : Nat
  misses : Nat
  capacity : Nat
  budgetBytes : Nat

namespace PromptCache

def new (capacity budgetBytes : Nat) : PromptCache σ κ where
  entries := []
  lru := []
  bytes := 0
  hits := 0
  misses := 0
  capacity := max capacity 1
  budgetBytes := budgetBytes

variable [DecidableEq κ]

/-- The entry kept under `key`, and the others. -/
def remove (key : κ) (entries : List (κ × SeqState σ)) :
    Option (SeqState σ) × List (κ × SeqState σ) :=
  (entries.lookup key, entries.filter (fun e => e.1 != key))

/-- A ready-to-continue state for `tokens`, under an identity of its own. The source `expect`s
the rekey to succeed: no entry holds a spilled block. -/
def get (promptKey : List Token → κ) (tokens : List Token) (freshSeqId : Nat)
    (cache : PromptCache σ κ) : Option (SeqState σ) × PromptCache σ κ :=
  match cache.entries.lookup (promptKey tokens) with
  | none => (none, { cache with misses := cache.misses + 1 })
  | some entry =>
    (some (entry.rekey freshSeqId).2,
      { cache with
        hits := cache.hits + 1
        lru := cache.lru.filter (fun k => k != promptKey tokens) ++ [promptKey tokens] })

/-- Evict the least recently used entries until both bounds hold. -/
def evict : List κ → PromptCache σ κ → σ → PromptCache σ κ × σ
  | [], cache, st => ({ cache with lru := [] }, st)
  | victim :: rest, cache, st =>
    if cache.capacity < rest.length + 1 ∨ cache.budgetBytes < cache.bytes then
      match remove victim cache.entries with
      | (none, _) => evict rest cache st
      | (some evicted, entries) =>
        -- dropping it purges anything it owns
        evict rest { cache with entries := entries, bytes := cache.bytes - evicted.residentBytes }
          (evicted.drop st)
    else ({ cache with lru := victim :: rest }, st)

/-- Cache the state for `tokens`. A state that is turned away is dropped, and takes its spill
files with it. -/
def insert (promptKey : List Token → κ) (tokens : List Token) (state : SeqState σ)
    (cache : PromptCache σ κ) (st : σ) : PromptCache σ κ × σ :=
  if state.hasSpill then (cache, state.drop st)
  else if cache.budgetBytes < state.residentBytes then (cache, state.drop st)
  else
    let key := promptKey tokens
    let (old, others) := remove key cache.entries
    let (cache, st) := match old with
      | none => (cache, st)
      | some old =>
        ({ cache with
            bytes := cache.bytes - old.residentBytes
            lru := cache.lru.filter (fun k => k != key) }, old.drop st)
    evict (cache.lru ++ [key])
      { cache with entries := (key, state) :: others, bytes := cache.bytes + state.residentBytes }
      st

/-! ## What every entry satisfies -/

/-- `P` holds of every entry and the key it is kept under. -/
def Keeps (P : κ → SeqState σ → Prop) (cache : PromptCache σ κ) : Prop :=
  ∀ e ∈ cache.entries, P e.1 e.2

omit [DecidableEq κ] in
theorem keeps_new (P : κ → SeqState σ → Prop) (capacity budgetBytes : Nat) :
    Keeps P (new capacity budgetBytes) := by
  intro e he
  simp [new] at he

variable {P : κ → SeqState σ → Prop}

theorem mem_of_mem_remove {key : κ} {entries : List (κ × SeqState σ)} {e : κ × SeqState σ}
    (h : e ∈ (remove key entries).2) : e ∈ entries := (List.mem_filter.mp h).1

theorem evict_keeps : ∀ (lru : List κ) (cache : PromptCache σ κ) (st : σ),
    Keeps P cache → Keeps P (evict lru cache st).1
  | [], _, _, h => h
  | victim :: rest, cache, st, h => by
    rw [evict]
    split
    · split
      · exact evict_keeps rest cache st h
      · next evicted entries hr =>
        refine evict_keeps rest _ _ fun e he => h e ?_
        rw [show entries = (remove victim cache.entries).2 by rw [hr]] at he
        exact mem_of_mem_remove he
    · exact h

/-- An insert adds at most the state it was given. -/
theorem insert_keeps (promptKey : List Token → κ) {tokens : List Token} {state : SeqState σ}
    {cache : PromptCache σ κ} (hnew : P (promptKey tokens) state) (h : Keeps P cache) (st : σ) :
    Keeps P (insert promptKey tokens state cache st).1 := by
  unfold insert
  split
  · exact h
  split
  · exact h
  · refine evict_keeps _ _ _ fun e he => ?_
    rcases List.mem_cons.mp he with rfl | he
    · exact hnew
    · exact h e (mem_of_mem_remove he)

theorem get_keeps (promptKey : List Token → κ) (tokens : List Token) (freshSeqId : Nat)
    {cache : PromptCache σ κ} (h : Keeps P cache) :
    Keeps P (get promptKey tokens freshSeqId cache).2 := by
  unfold get
  split
  · exact h
  · exact h

/-- A hit hands out an entry kept under the key asked for, rekeyed. -/
theorem get_some {promptKey : List Token → κ} {tokens : List Token} {freshSeqId : Nat}
    {cache : PromptCache σ κ} {seq : SeqState σ} (h : Keeps P cache)
    (hget : (get promptKey tokens freshSeqId cache).1 = some seq) :
    ∃ entry, P (promptKey tokens) entry ∧ seq = (entry.rekey freshSeqId).2 := by
  unfold get at hget
  cases hl : cache.entries.lookup (promptKey tokens) with
  | none => rw [hl] at hget; simp at hget
  | some entry =>
    rw [hl] at hget
    obtain ⟨_, _, hentries, _⟩ := List.lookup_eq_some_iff.mp hl
    have hmem : (promptKey tokens, entry) ∈ cache.entries := by rw [hentries]; simp
    exact ⟨entry, h _ hmem, (Option.some.inj hget).symm⟩

end PromptCache

end Garuda
