import Garuda.Memory.Tiers

/-!
# What the counters of the store count

The hits and misses of the cache against the loads that were made of the store.

* `MemoryManager.load_counts` is what one load does to the counters.
* `MemoryManager.Honest` says that between two states the hits and misses together are the loads,
  and the misses the loads that a deeper tier served.
* `MemoryManager.honest_iff` says that they are just when every load found its expert in the
  cache, and `MemoryManager.hit_statistics_iff` what that means for a new store.
-/

namespace Garuda

/-! ## The counters of the cache -/

namespace ExpertCache

variable {c : ExpertCache} {id : ExpertId}

theorem take_counters (id : ExpertId) :
    (c.take id).hits = c.hits ∧ (c.take id).misses = c.misses := by
  unfold ExpertCache.take
  split
  · exact ⟨rfl, rfl⟩
  · exact ⟨rfl, rfl⟩

theorem evict_counters (size : Nat) (lru : List ExpertId) {c : ExpertCache} :
    (evict size lru c).2.hits = c.hits ∧ (evict size lru c).2.misses = c.misses := by
  induction lru generalizing c with
  | nil => exact ⟨rfl, rfl⟩
  | cons victim rest ih =>
    rw [evict]
    split
    · split
      · obtain ⟨hhits, hmisses⟩ :=
          ih (c := { c.take victim with evictions := c.evictions + 1 })
        exact ⟨hhits.trans (take_counters victim).1, hmisses.trans (take_counters victim).2⟩
      · exact ih
    · exact ⟨rfl, rfl⟩

/-- Only a lookup moves the counters. -/
theorem insert_counters (id : ExpertId) (e : Expert) :
    (c.insert id e).2.hits = c.hits ∧ (c.insert id e).2.misses = c.misses := by
  obtain ⟨hhits, hmisses⟩ := evict_counters e.sizeBytes
    (if (c.loaded.lookup id).isSome then c.lru.filter (· != id) else c.lru) (c := c.take id)
  exact ⟨hhits.trans (take_counters id).1, hmisses.trans (take_counters id).2⟩

theorem remove_counters (id : ExpertId) :
    (c.remove id).hits = c.hits ∧ (c.remove id).misses = c.misses := take_counters id

end ExpertCache

/-! ## The counters of the store -/

/-- Loads that a tier below the cache served. -/
def TierCounts.deeper (t : TierCounts) : Nat := t.l2 + t.l3 + t.synthesised

namespace MemoryManager

variable {σ τ : Type}

/-- The expert exists and is in the cache. -/
def Resident (m : MemoryManager σ τ) (id : ExpertId) (s : MemoryState σ τ) : Prop :=
  id.toNat < m.dims.nExperts ∧ s.l1.contains id = true

/-- A fetch from `s` that left the cache alone and, if it succeeded, counted itself in a tier. -/
structure Fetch (s : MemoryState σ τ) (out : Except GarudaError Expert × MemoryState σ τ) :
    Prop where
  l1 : out.2.l1 = s.l1
  served : out.2.stats.l1 = s.stats.l1
  deeper : out.2.stats.deeper = s.stats.deeper + if out.1.isOk then 1 else 0

variable {m : MemoryManager σ τ} {s s' s'' : MemoryState σ τ} {id : ExpertId}

theorem loadSynthesised_fetch : Fetch s (m.loadSynthesised id s) where
  l1 := rfl
  served := rfl
  deeper := rfl

theorem loadL2_fetch : Fetch s (m.loadL2 id s) := by
  unfold loadL2
  split
  · exact ⟨rfl, rfl, rfl⟩
  · next bytes st _ =>
    cases expertFromBytes id m.dims bytes with
    | error e => exact ⟨rfl, rfl, rfl⟩
    | ok expert =>
      refine ⟨rfl, rfl, ?_⟩
      show s.stats.l2 + 1 + s.stats.l3 + s.stats.synthesised
        = s.stats.l2 + s.stats.l3 + s.stats.synthesised + 1
      omega

theorem loadL3_fetch {l3 : ExpertStorage τ} : Fetch s (m.loadL3 l3 id s) := by
  unfold loadL3
  split
  · exact ⟨rfl, rfl, rfl⟩
  · next bytes st _ =>
    cases expertFromBytes id m.dims bytes with
    | error e => exact ⟨rfl, rfl, rfl⟩
    | ok expert =>
      refine ⟨rfl, rfl, ?_⟩
      show s.stats.l2 + (s.stats.l3 + 1) + s.stats.synthesised
        = s.stats.l2 + s.stats.l3 + s.stats.synthesised + 1
      omega

theorem loadUncached_fetch (m : MemoryManager σ τ) (id : ExpertId) (s : MemoryState σ τ) :
    Fetch s (m.loadUncached id s) := by
  unfold loadUncached
  split
  · exact loadL2_fetch
  · split
    · split
      · exact loadL3_fetch
      · exact loadSynthesised_fetch
    · exact loadSynthesised_fetch

/-! ## One load -/

/-- A look that finds nothing is a miss, and one that finds the expert a hit, in both counts. -/
theorem lookL1_some {e : Expert} (h : s.l1.loaded.lookup id = some e) :
    (lookL1 id s).1 = some e ∧ (lookL1 id s).2.l1.hits = s.l1.hits + 1 ∧
      (lookL1 id s).2.l1.misses = s.l1.misses ∧
      (lookL1 id s).2.stats = { s.stats with l1 := s.stats.l1 + 1 } := by
  simp [lookL1, ExpertCache.get, h]

theorem lookL1_none (h : s.l1.loaded.lookup id = none) :
    lookL1 id s = (none, { s with l1 := { s.l1 with misses := s.l1.misses + 1 } }) := by
  simp [lookL1, ExpertCache.get, h]

/-- What a load does to the counters: nothing, if the expert does not exist; one hit, if it is in
the cache; and otherwise two misses, one for either look, and at most one count in a tier. -/
inductive LoadCount (m : MemoryManager σ τ) (id : ExpertId) (s s' : MemoryState σ τ) : Prop where
  | rejected (hid : m.dims.nExperts ≤ id.toNat) (hsame : s' = s)
  | hit (hid : m.Resident id s) (hhits : s'.l1.hits = s.l1.hits + 1)
      (hmisses : s'.l1.misses = s.l1.misses) (hdeeper : s'.stats.deeper = s.stats.deeper)
  | missed (hid : ¬ m.Resident id s) (hhits : s'.l1.hits = s.l1.hits)
      (hmisses : s'.l1.misses = s.l1.misses + 2)
      (hdeeper : s'.stats.deeper ≤ s.stats.deeper + 1) (hmono : s.stats.deeper ≤ s'.stats.deeper)

theorem load_counts (m : MemoryManager σ τ) (id : ExpertId) (s : MemoryState σ τ) :
    LoadCount m id s (m.load id s).2 := by
  by_cases hid : m.dims.nExperts ≤ id.toNat
  · refine .rejected hid ?_
    rw [load, if_pos hid]
  cases hl : s.l1.loaded.lookup id with
  | some e =>
    obtain ⟨hfound, hhits, hmisses, hstats⟩ := lookL1_some hl
    have hload : (m.load id s).2 = (lookL1 id s).2 := by
      rw [load, if_neg hid]
      generalize lookL1 id s = out at hfound
      obtain ⟨found, s'⟩ := out
      subst hfound
      rfl
    rw [hload]
    refine .hit ⟨Nat.lt_of_not_le hid, ?_⟩ hhits hmisses (by rw [hstats]; rfl)
    rw [ExpertCache.contains, hl]
    rfl
  | none =>
    have hnot : ¬ m.Resident id s := by
      rintro ⟨-, hc⟩
      rw [ExpertCache.contains, hl] at hc
      cases hc
    have hfetch := loadUncached_fetch m id
      { s with l1 := { s.l1 with misses := s.l1.misses + 1 + 1 } }
    have hsecond : lookL1 id { s with l1 := { s.l1 with misses := s.l1.misses + 1 } }
        = (none, { s with l1 := { s.l1 with misses := s.l1.misses + 1 + 1 } }) := lookL1_none hl
    cases hout : m.loadUncached id
      { s with l1 := { s.l1 with misses := s.l1.misses + 1 + 1 } } with
    | mk answer s' =>
    rw [hout] at hfetch
    obtain ⟨hl1, -, hdeeper⟩ := hfetch
    simp only at hl1 hdeeper
    cases answer with
    | error e =>
      have hload : (m.load id s).2 = s' := by
        simp only [load, if_neg hid, lookL1_none hl, hsecond, hout]
      rw [hload]
      refine .missed hnot (by rw [hl1]) (by rw [hl1]) ?_ ?_
      · rw [hdeeper]
        exact Nat.le_succ _
      · rw [hdeeper]
        exact Nat.le_refl _
    | ok e =>
      have hload : (m.load id s).2 = { s' with l1 := (s'.l1.insert id e).2 } := by
        simp only [load, if_neg hid, lookL1_none hl, hsecond, hout]
      rw [hload]
      obtain ⟨hhits, hmisses⟩ := ExpertCache.insert_counters (c := s'.l1) id e
      refine .missed hnot (hhits.trans (by rw [hl1])) (hmisses.trans (by rw [hl1])) ?_ ?_
      · show s'.stats.deeper ≤ _
        rw [hdeeper]
        exact Nat.le_refl _
      · show _ ≤ s'.stats.deeper
        rw [hdeeper]
        exact Nat.le_succ _

/-! ## Runs -/

/-- The loads that a call makes: a prefetch makes one of what is not in the cache. -/
def Call.loads (s : MemoryState σ τ) : Call → Nat
  | .load _ => 1
  | .prefetch id => if s.l1.contains id then 0 else 1
  | .unload _ => 0

/-- The store after a sequence of calls. -/
def after (m : MemoryManager σ τ) (cs : List Call) (s : MemoryState σ τ) : MemoryState σ τ :=
  cs.foldl (fun s c => (m.step c s).2) s

def loadsMade (m : MemoryManager σ τ) : List Call → MemoryState σ τ → Nat
  | [], _ => 0
  | c :: cs, s => c.loads s + loadsMade m cs (m.step c s).2

/-- If the call makes a load, it is of an expert in the cache. -/
def Finds (m : MemoryManager σ τ) (s : MemoryState σ τ) : Call → Prop
  | .load id => m.Resident id s
  | .prefetch id => s.l1.contains id = true
  | .unload _ => True

def EachFinds (m : MemoryManager σ τ) : List Call → MemoryState σ τ → Prop
  | [], _ => True
  | c :: cs, s => m.Finds s c ∧ EachFinds m cs (m.step c s).2

/-- From `s` to `s'` the hits and misses grew by the `loads` made, and the misses by the loads that
a deeper tier served. -/
def Honest (loads : Nat) (s s' : MemoryState σ τ) : Prop :=
  s'.l1.hits + s'.l1.misses = s.l1.hits + s.l1.misses + loads ∧
    s'.l1.misses + s.stats.deeper = s.l1.misses + s'.stats.deeper

/-- From `s` to `s'`, `found` loads were served by the cache and `missed` loads got past it. -/
structure Counted (found missed : Nat) (s s' : MemoryState σ τ) : Prop where
  hits : s'.l1.hits = s.l1.hits + found
  misses : s'.l1.misses = s.l1.misses + 2 * missed
  deeper_le : s'.stats.deeper ≤ s.stats.deeper + missed
  le_deeper : s.stats.deeper ≤ s'.stats.deeper

theorem Counted.refl (s : MemoryState σ τ) : Counted 0 0 s s where
  hits := rfl
  misses := rfl
  deeper_le := Nat.le_refl _
  le_deeper := Nat.le_refl _

theorem Counted.trans {found found' missed missed' : Nat} (h : Counted found missed s s')
    (h' : Counted found' missed' s' s'') : Counted (found + found') (missed + missed') s s'' where
  hits := by rw [h'.hits, h.hits, Nat.add_assoc]
  misses := by rw [h'.misses, h.misses, Nat.mul_add, Nat.add_assoc]
  deeper_le := by
    have := h.deeper_le
    have := h'.deeper_le
    omega
  le_deeper := h.le_deeper.trans h'.le_deeper

/-- A load, of which kind it is. -/
theorem load_counted (m : MemoryManager σ τ) (id : ExpertId) (s : MemoryState σ τ) :
    ∃ found missed rejected, 1 = found + missed + rejected ∧
      Counted found missed s (m.load id s).2 ∧
      (m.Resident id s ↔ missed = 0 ∧ rejected = 0) := by
  cases load_counts m id s with
  | rejected hid hsame =>
    refine ⟨0, 0, 1, rfl, ?_, iff_of_false (fun h => ?_) (by simp)⟩
    · rw [hsame]
      exact .refl s
    · have := h.1
      omega
  | hit hid hhits hmisses hdeeper =>
    exact ⟨1, 0, 0, rfl, ⟨hhits, hmisses, hdeeper.le, hdeeper.ge⟩, iff_of_true hid ⟨rfl, rfl⟩⟩
  | missed hid hhits hmisses hdeeper hmono =>
    exact ⟨0, 1, 0, rfl, ⟨hhits, hmisses, hdeeper, hmono⟩, iff_of_false hid (by simp)⟩

/-- A call makes loads of each kind; it only finds what it asks for if none is of the others. -/
theorem step_counted (m : MemoryManager σ τ) (c : Call) (s : MemoryState σ τ) :
    ∃ found missed rejected, c.loads s = found + missed + rejected ∧
      Counted found missed s (m.step c s).2 ∧
      (m.Finds s c ↔ missed = 0 ∧ rejected = 0) := by
  cases c with
  | load id => exact load_counted m id s
  | prefetch id =>
    by_cases hc : s.l1.contains id = true
    · have hstep : (m.step (.prefetch id) s).2 = s := by
        show (m.prefetch id s).2 = s
        rw [prefetch, if_pos hc]
      refine ⟨0, 0, 0, if_pos hc, ?_, iff_of_true hc ⟨rfl, rfl⟩⟩
      rw [hstep]
      exact .refl s
    · obtain ⟨found, missed, rejected, hone, hcounted, hiff⟩ := load_counted m id s
      refine ⟨found, missed, rejected, (if_neg hc).trans hone, ?_, ?_⟩
      · show Counted found missed s (m.prefetch id s).2
        rw [prefetch, if_neg hc]
        generalize m.load id s = out at hcounted
        obtain ⟨answer, s'⟩ := out
        cases answer with
        | error e => exact hcounted
        | ok e => exact ⟨hcounted.hits, hcounted.misses, hcounted.deeper_le, hcounted.le_deeper⟩
      · rw [← hiff]
        exact iff_of_false hc fun h => hc h.2
  | unload id =>
    obtain ⟨hhits, hmisses⟩ := ExpertCache.remove_counters (c := s.l1) id
    exact ⟨0, 0, 0, rfl, ⟨hhits, hmisses, Nat.le_refl _, Nat.le_refl _⟩,
      iff_of_true trivial ⟨rfl, rfl⟩⟩

theorem run_counted (m : MemoryManager σ τ) (cs : List Call) (s : MemoryState σ τ) :
    ∃ found missed rejected, m.loadsMade cs s = found + missed + rejected ∧
      Counted found missed s (m.after cs s) ∧
      (m.EachFinds cs s ↔ missed = 0 ∧ rejected = 0) := by
  induction cs generalizing s with
  | nil => exact ⟨0, 0, 0, rfl, .refl s, iff_of_true trivial ⟨rfl, rfl⟩⟩
  | cons c cs ih =>
    obtain ⟨found, missed, rejected, hloads, hcounted, hiff⟩ := step_counted m c s
    obtain ⟨found', missed', rejected', hloads', hcounted', hiff'⟩ := ih (m.step c s).2
    refine ⟨found + found', missed + missed', rejected + rejected', ?_,
      hcounted.trans hcounted', ?_⟩
    · rw [loadsMade, hloads, hloads']
      omega
    · rw [EachFinds, hiff, hiff']
      omega

/-- **The counters are honest of a run exactly when every load of it found its expert.** -/
theorem honest_iff (m : MemoryManager σ τ) (cs : List Call) (s : MemoryState σ τ) :
    Honest (m.loadsMade cs s) s (m.after cs s) ↔ m.EachFinds cs s := by
  obtain ⟨found, missed, rejected, hloads, hcounted, hiff⟩ := run_counted m cs s
  have hhits := hcounted.hits
  have hmisses := hcounted.misses
  have hle := hcounted.deeper_le
  have hge := hcounted.le_deeper
  rw [hiff, Honest]
  omega

/-! ## A new store -/

/-- Nothing is found in an empty cache. -/
theorem eachFinds_empty {cs : List Call} (h : s.l1.loaded = []) :
    m.EachFinds cs s ↔ m.loadsMade cs s = 0 := by
  induction cs generalizing s with
  | nil => exact iff_of_true trivial rfl
  | cons c cs ih =>
    have hnone : ∀ id, s.l1.contains id = false := by
      intro id
      rw [ExpertCache.contains, h]
      rfl
    cases c with
    | load id =>
      refine iff_of_false (fun hf => ?_) (by simp [loadsMade, Call.loads])
      have := hf.1.2
      rw [hnone] at this
      cases this
    | prefetch id =>
      refine iff_of_false (fun hf => ?_) (by simp [loadsMade, Call.loads, hnone])
      have : s.l1.contains id = true := hf.1
      rw [hnone] at this
      cases this
    | unload id =>
      have hempty : (m.step (.unload id) s).2.l1.loaded = [] := by
        show (s.l1.take id).loaded = []
        unfold ExpertCache.take
        rw [h]
        exact h
      rw [EachFinds, loadsMade, ih hempty]
      simp [Finds, Call.loads]

end MemoryManager

open MemoryManager in
/--
**The hit statistics of a new store are those of its loads exactly when no load is made.**

A load that gets past the cache is counted as two misses and a load of no expert as none, and the
first load of a new store is one or the other. From then on the counts move with the loads over
every stretch of calls that finds its experts, and over no other.
-/
theorem hit_statistics_iff {σ τ : Type} (m : MemoryManager σ τ) (l1Budget : Nat) (l2 : σ) (l3 : τ)
    (cs : List Call) :
    let s := m.after cs (start l1Budget l2 l3)
    (s.l1.hits + s.l1.misses = m.loadsMade cs (start l1Budget l2 l3) ∧
        s.l1.misses = s.stats.deeper ↔ m.loadsMade cs (start l1Budget l2 l3) = 0) ∧
      ∀ more, Honest (m.loadsMade more s) s (m.after more s) ↔ m.EachFinds more s := by
  refine ⟨?_, fun more => honest_iff m more _⟩
  rw [← eachFinds_empty (m := m) (s := start l1Budget l2 l3) rfl, ← honest_iff]
  simp [Honest, start, ExpertCache.new, TierCounts.deeper]

open MemoryManager in
/-- One load of a new store: no hit, two misses, and one expert out of the archive. -/
theorem hit_statistics_double :
    let s₀ := start 12 (fun _ => none) smallArchive
    let s := smallStore.after [.load 0] s₀
    smallStore.loadsMade [.load 0] s₀ = 1 ∧ s.l1.hits = 0 ∧ s.l1.misses = 2 ∧
      s.stats.deeper = 1 ∧
      ¬ (s.l1.hits + s.l1.misses = smallStore.loadsMade [.load 0] s₀ ∧
        s.l1.misses = s.stats.deeper) := by
  refine ⟨rfl, rfl, rfl, rfl, ?_⟩
  rintro ⟨hloads, -⟩
  cases hloads

end Garuda
