import Garuda.Memory.Expert

/-!
# The expert cache

`ExpertCache` of `cache/mod.rs`: loaded experts under a budget in bytes, evicted least recently
used first.

* `ExpertCache.insert_keeps`, `ExpertCache.remove_keeps` — a property of the entries survives every
  call
* `ExpertCache.get_keeps` — and what a hit hands out has it
-/

namespace Garuda

structure ExpertCache where
  loaded : List (ExpertId × Expert)
  /-- Least recently used first. -/
  lru : List ExpertId
  bytes : Nat
  hits : Nat
  misses : Nat
  evictions : Nat
  budgetBytes : Nat

namespace ExpertCache

/-- The budget is at least one byte. -/
def new (budgetBytes : Nat) : ExpertCache where
  loaded := []
  lru := []
  bytes := 0
  hits := 0
  misses := 0
  evictions := 0
  budgetBytes := max budgetBytes 1

def get (id : ExpertId) (c : ExpertCache) : Option Expert × ExpertCache :=
  match c.loaded.lookup id with
  | some e => (some e, { c with hits := c.hits + 1, lru := c.lru.filter (· != id) ++ [id] })
  | none => (none, { c with misses := c.misses + 1 })

/-- The cache without the entry of `id`. -/
def take (id : ExpertId) (c : ExpertCache) : ExpertCache :=
  match c.loaded.lookup id with
  | some old => { c with
      loaded := c.loaded.filter fun p => p.1 != id
      bytes := c.bytes - old.sizeBytes }
  | none => c

/-- Evicts from the front of the queue until `size` more bytes fit, or nothing is left. -/
def evict (size : Nat) : List ExpertId → ExpertCache → List ExpertId × ExpertCache
  | [], c => ([], { c with lru := [] })
  | victim :: rest, c =>
    if c.budgetBytes < c.bytes + size then
      match c.loaded.lookup victim with
      | some _ =>
        let (evicted, c) := evict size rest
          { c.take victim with evictions := c.evictions + 1 }
        (victim :: evicted, c)
      | none => evict size rest c
    else ([], { c with lru := victim :: rest })

/-- Inserts, and answers what was evicted for it. -/
def insert (id : ExpertId) (expert : Expert) (c : ExpertCache) : List ExpertId × ExpertCache :=
  let lru := if (c.loaded.lookup id).isSome then c.lru.filter (· != id) else c.lru
  let (evicted, c) := evict expert.sizeBytes lru (c.take id)
  (evicted, { c with
    bytes := c.bytes + expert.sizeBytes
    loaded := (id, expert) :: c.loaded.filter fun p => p.1 != id
    lru := c.lru ++ [id] })

def remove (id : ExpertId) (c : ExpertCache) : ExpertCache :=
  { c.take id with lru := c.lru.filter (· != id) }

def contains (id : ExpertId) (c : ExpertCache) : Bool := (c.loaded.lookup id).isSome

/-! ## What every entry satisfies -/

/-- `P` holds of every entry and the id it is kept under. -/
def Keeps (P : ExpertId → Expert → Prop) (c : ExpertCache) : Prop :=
  ∀ p ∈ c.loaded, P p.1 p.2

variable {P : ExpertId → Expert → Prop} {c : ExpertCache} {id : ExpertId}

theorem keeps_new (P : ExpertId → Expert → Prop) (budgetBytes : Nat) :
    Keeps P (new budgetBytes) := fun _ h => absurd h List.not_mem_nil

theorem get_keeps (id : ExpertId) (h : Keeps P c) :
    Keeps P (c.get id).2 ∧ ∀ e, (c.get id).1 = some e → P id e := by
  unfold get
  cases hl : c.loaded.lookup id with
  | none => exact ⟨h, fun e he => nomatch he⟩
  | some e =>
    refine ⟨h, fun e' he' => ?_⟩
    cases he'
    obtain ⟨pre, post, hloaded, -⟩ := List.lookup_eq_some_iff.mp hl
    exact h (id, e) (by rw [hloaded]; simp)

theorem take_keeps (h : Keeps P c) : Keeps P (c.take id) := by
  unfold take
  split
  · exact fun p hp => h p (List.mem_of_mem_filter hp)
  · exact h

theorem remove_keeps (h : Keeps P c) : Keeps P (c.remove id) := take_keeps h

theorem evict_keeps (size : Nat) (lru : List ExpertId) {c : ExpertCache} (h : Keeps P c) :
    Keeps P (evict size lru c).2 := by
  induction lru generalizing c with
  | nil => exact h
  | cons victim rest ih =>
    rw [evict]
    split
    · split
      · exact ih (take_keeps h)
      · exact ih h
    · exact h

theorem insert_keeps {e : Expert} (h : Keeps P c) (he : P id e) : Keeps P (c.insert id e).2 := by
  intro p hp
  rcases List.mem_cons.mp hp with rfl | hp
  · exact he
  · exact evict_keeps _ _ (take_keeps h) p (List.mem_of_mem_filter hp)

end ExpertCache

end Garuda
