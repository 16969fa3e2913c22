import Garuda.Cache.ExpertCache
import Garuda.Infra.Recency

/-!
# The expert cache as a byte-budgeted LRU

Any run of lookups, inserts and removals on an `ExpertCache`.

* `ExpertCache.Sound` is the invariant: the map, the recency list and the running sum are in step,
  the list is in order of last use, and the sum is within bounds.
* `ExpertCache.evict_spec` says what an eviction takes away, and `ExpertCache.insert_evicts` what
  an insert does.
* `ExpertCache.byte_budgeted_lru` is all of it after every run.
-/

namespace Garuda

open Infra

namespace ExpertCache

/-! ## Runs -/

inductive Op where
  | get (id : ExpertId)
  | insert (id : ExpertId) (expert : Expert)
  | remove (id : ExpertId)

/-- The entry that an operation names. -/
def Op.id : Op → ExpertId
  | .get id => id
  | .insert id _ => id
  | .remove id => id

def apply (c : ExpertCache) : Op → ExpertCache
  | .get id => (c.get id).2
  | .insert id expert => (c.insert id expert).2
  | .remove id => c.remove id

/-- The cache after a sequence of operations on a new one. -/
def run (budgetBytes : Nat) (ops : List Op) : ExpertCache := ops.foldl apply (new budgetBytes)

/-- The size of the entry inserted last; zero before any is. -/
def lastSize (ops : List Op) : Nat :=
  ops.foldl (fun size op => match op with
    | .insert _ expert => expert.sizeBytes
    | _ => size) 0

/-! ## The invariant -/

/-- The map, the recency list and the running sum are in step. -/
def InStep (c : ExpertCache) (lru : List ExpertId) : Prop :=
  Tracked Expert.sizeBytes c.loaded lru c.bytes

structure Sound (budget : Nat) (ops : List Op) (c : ExpertCache) : Prop where
  budget_eq : c.budgetBytes = max budget 1
  tracked : c.InStep c.lru
  recent : Recent (ops.map Op.id) c.lru
  bounded : c.bytes ≤ max budget (lastSize ops)

variable {c : ExpertCache} {id : ExpertId} {lru : List ExpertId}

theorem sound_new (budget : Nat) : Sound budget [] (new budget) where
  budget_eq := rfl
  tracked := .nil _
  recent := .nil _
  bounded := Nat.zero_le _

theorem notMem_of_lookup (h : c.InStep lru) (hnone : c.loaded.lookup id = none) : id ∉ lru := by
  rw [h.mem_iff, ← lookup_isSome_iff, hnone]
  exact Bool.false_ne_true

/-- Without the entry of `id`, neither has the list its key. -/
theorem InStep.take (h : c.InStep lru) (id : ExpertId) :
    (c.take id).InStep (lru.filter fun k => k != id) ∧ (c.take id).bytes ≤ c.bytes := by
  unfold ExpertCache.take
  split
  · next old hold => exact ⟨h.erase hold, Nat.sub_le _ _⟩
  · next hnone =>
    rw [keys_filter_ne (notMem_of_lookup h hnone)]
    exact ⟨h, Nat.le_refl _⟩

theorem take_lookup {k : ExpertId} (h : k ≠ id) :
    (c.take id).loaded.lookup k = c.loaded.lookup k := by
  unfold ExpertCache.take
  split
  · exact lookup_filter_ne h
  · rfl

theorem take_budgetBytes (id : ExpertId) : (c.take id).budgetBytes = c.budgetBytes := by
  unfold ExpertCache.take
  split <;> rfl

theorem take_evictions (id : ExpertId) : (c.take id).evictions = c.evictions := by
  unfold ExpertCache.take
  split <;> rfl

/-- A lookup moves the key that it finds, and nothing else. -/
theorem InStep.get (h : c.InStep c.lru) (id : ExpertId) :
    (c.get id).2.InStep (c.get id).2.lru ∧ (c.get id).2.bytes = c.bytes ∧
      (c.get id).2.budgetBytes = c.budgetBytes ∧ (c.get id).2.evictions = c.evictions ∧
      (c.get id).2.loaded = c.loaded := by
  unfold ExpertCache.get
  split
  · next e he =>
    have hmem : id ∈ c.lru := h.mem_iff.mpr (lookup_isSome_iff.mp (by rw [he]; rfl))
    exact ⟨h.touch hmem, rfl, rfl, rfl, rfl⟩
  · exact ⟨h, rfl, rfl, rfl, rfl⟩

/-! ## Eviction -/

/-- The entries of `keys` and `size` more bytes are within the budget. -/
def Fits (c : ExpertCache) (size : Nat) (keys : List ExpertId) : Prop :=
  sizeOn Expert.sizeBytes c.loaded keys + size ≤ c.budgetBytes

/-- What an eviction leaves: the shortest prefix is gone, and the rest is as it was. -/
structure Evicted (size : Nat) (lru : List ExpertId) (c : ExpertCache)
    (out : List ExpertId × ExpertCache) : Prop where
  shortest : Shortest (c.Fits size) lru out.1 out.2.lru
  inStep : out.2.InStep out.2.lru
  kept : ∀ k ∈ out.2.lru, out.2.loaded.lookup k = c.loaded.lookup k
  budget_eq : out.2.budgetBytes = c.budgetBytes
  counted : out.2.evictions = c.evictions + out.1.length

theorem evict_spec (size : Nat) (lru : List ExpertId) {c : ExpertCache} (h : c.InStep lru) :
    Evicted size lru c (evict size lru c) := by
  induction lru generalizing c with
  | nil =>
    exact {
      shortest := .stop (.inr rfl)
      inStep := h
      kept := by simp [evict]
      budget_eq := rfl
      counted := rfl }
  | cons victim rest ih =>
    have hnotMem : victim ∉ rest := (List.nodup_cons.mp h.nodup).1
    have hfits : c.Fits size (victim :: rest) ↔ c.bytes + size ≤ c.budgetBytes := by
      rw [Fits, h.sizeOn_eq]
    rw [evict]
    by_cases hover : c.budgetBytes < c.bytes + size
    · obtain ⟨e, he⟩ := h.exists_lookup List.mem_cons_self
      rw [if_pos hover, he]
      have htake := (h.take victim).1
      rw [List.filter_cons_of_neg (by simp), keys_filter_ne hnotMem] at htake
      have hrest := ih (c := { c.take victim with evictions := c.evictions + 1 }) htake
      have hkept : ∀ k ∈ rest, (c.take victim).loaded.lookup k = c.loaded.lookup k := by
        intro k hk
        refine take_lookup ?_
        rintro rfl
        exact hnotMem hk
      have hfits' : ∀ keys, keys <:+ rest →
          (Fits { c.take victim with evictions := c.evictions + 1 } size keys
            ↔ c.Fits size keys) := by
        intro keys hkeys
        rw [Fits, Fits, sizeOn_congr fun k hk => hkept k (hkeys.subset hk), take_budgetBytes]
      exact {
        shortest := (hrest.shortest.congr hfits').cons fun hok => by
          have := hfits.mp hok
          omega
        inStep := hrest.inStep
        kept := fun k hk => (hrest.kept k hk).trans
          (hkept k (hrest.shortest.rest_subset hk))
        budget_eq := hrest.budget_eq.trans (take_budgetBytes victim)
        counted := hrest.counted.trans (by simp only [List.length_cons]; omega) }
    · rw [if_neg hover]
      exact {
        shortest := .stop (.inl (hfits.mpr (Nat.le_of_not_lt hover)))
        inStep := h
        kept := fun _ _ => rfl
        budget_eq := rfl
        counted := rfl }

/-! ## Inserting -/

theorem notMem_filter_ne : id ∉ lru.filter fun k => k != id := by simp

/-- The cache that an insert adds its entry to. -/
theorem insert_eq (h : c.InStep c.lru) (e : Expert) :
    c.insert id e =
      let out := evict e.sizeBytes (c.lru.filter fun k => k != id) (c.take id)
      (out.1, { out.2 with
        bytes := out.2.bytes + e.sizeBytes
        loaded := (id, e) :: out.2.loaded
        lru := out.2.lru ++ [id] }) := by
  have hlru : (if (c.loaded.lookup id).isSome then c.lru.filter (· != id) else c.lru)
      = c.lru.filter fun k => k != id := by
    split
    · rfl
    · next hnone =>
      rw [keys_filter_ne]
      rwa [h.mem_iff, ← lookup_isSome_iff]
  have hout := evict_spec e.sizeBytes _ (h.take id).1
  have hid : id ∉ (evict e.sizeBytes (c.lru.filter fun k => k != id) (c.take id)).2.loaded.map
      Prod.fst := by
    rw [← hout.inStep.mem_iff]
    intro hmem
    exact notMem_filter_ne (hout.shortest.rest_subset hmem)
  unfold ExpertCache.insert
  simp only [hlru, filter_ne_of_notMem hid]

/-- The entries of `keys` and `e` are within `budget`. -/
def Roomy (budget : Nat) (c : ExpertCache) (e : Expert) (keys : List ExpertId) : Prop :=
  sizeOn Expert.sizeBytes c.loaded keys + e.sizeBytes ≤ budget

/-- An insert evicts the shortest prefix of the other entries, least recently used first, that
makes the rest fit beside the new entry; the rest stay as they are, and the new entry is last. -/
structure EvictsLeast (budget : Nat) (c : ExpertCache) (id : ExpertId) (e : Expert)
    (out : List ExpertId × ExpertCache) : Prop where
  shortest : ∃ rest, Shortest (c.Roomy budget e) (c.lru.filter fun k => k != id) out.1 rest ∧
    out.2.lru = rest ++ [id] ∧ ∀ k ∈ rest, out.2.loaded.lookup k = c.loaded.lookup k
  inserted : out.2.loaded.lookup id = some e
  evicted : ∀ k ∈ out.1, k ≠ id ∧ out.2.loaded.lookup k = none

theorem four_dvd_sizeOn (entries : List (ExpertId × Expert)) (keys : List ExpertId) :
    4 ∣ sizeOn Expert.sizeBytes entries keys := by
  refine List.dvd_sum fun n hn => ?_
  obtain ⟨k, -, rfl⟩ := List.mem_map.mp hn
  cases entries.lookup k with
  | none => exact Nat.dvd_zero 4
  | some e => exact Nat.dvd_mul_left 4 _

/-- The one byte that `new` raises an empty budget to is no room for an entry. -/
theorem roomy_max {budget : Nat} {e : Expert} {keys : List ExpertId} :
    c.Roomy (max budget 1) e keys ↔ c.Roomy budget e keys := by
  obtain ⟨m, hm⟩ := four_dvd_sizeOn c.loaded keys
  have hsize : e.sizeBytes = (e.gate.length + e.up.length + e.down.length) * 4 := rfl
  unfold Roomy
  omega

theorem fits_take {size : Nat} {keys : List ExpertId} (h : id ∉ keys) :
    (c.take id).Fits size keys ↔ c.Fits size keys := by
  rw [Fits, Fits, sizeOn_congr fun k hk => take_lookup ?_, take_budgetBytes]
  rintro rfl
  exact h hk

/-- What an insert evicts, and that the cache is in step after it. -/
theorem insert_evicts {budget : Nat} (hbudget : c.budgetBytes = max budget 1)
    (h : c.InStep c.lru) (id : ExpertId) (e : Expert) :
    EvictsLeast budget c id e (c.insert id e) ∧
      (c.insert id e).2.InStep (c.insert id e).2.lru ∧
      (c.insert id e).2.bytes ≤ max budget e.sizeBytes ∧
      (c.insert id e).2.budgetBytes = c.budgetBytes ∧
      (c.insert id e).2.evictions = c.evictions + (c.insert id e).1.length := by
  have hout := evict_spec e.sizeBytes _ (h.take id).1
  rw [insert_eq h]
  generalize evict e.sizeBytes (c.lru.filter fun k => k != id) (c.take id) = out at hout
  have hrest : id ∉ out.2.lru := fun hmem => notMem_filter_ne (hout.shortest.rest_subset hmem)
  have hok : ∀ keys, keys <:+ c.lru.filter (fun k => k != id) →
      ((c.take id).Fits e.sizeBytes keys ↔ c.Roomy budget e keys) := by
    intro keys hkeys
    rw [fits_take fun hmem => notMem_filter_ne (hkeys.subset hmem), ← roomy_max, ← hbudget]
    rfl
  have hshortest := hout.shortest.congr hok
  have hbudget' : out.2.budgetBytes = c.budgetBytes :=
    hout.budget_eq.trans (take_budgetBytes id)
  have hlookup : ∀ k, k ≠ id → List.lookup k ((id, e) :: out.2.loaded) = out.2.loaded.lookup k := by
    intro k hk
    rw [List.lookup_cons, beq_false_of_ne hk]
  refine ⟨⟨⟨out.2.lru, hshortest, rfl, fun k hk => ?_⟩, ?_, fun k hk => ?_⟩,
    hout.inStep.push hrest e, ?_, hbudget', ?_⟩
  · have hne : k ≠ id := by
      rintro rfl
      exact hrest hk
    rw [hlookup k hne, hout.kept k hk, take_lookup hne]
  · rw [List.lookup_cons, beq_self_eq_true]
  · have hne : k ≠ id := by
      rintro rfl
      exact notMem_filter_ne (hout.shortest.gone_subset hk)
    refine ⟨hne, ?_⟩
    rw [hlookup k hne]
    have hgone : k ∉ out.2.lru := by
      have hnodup := h.nodup.filter (fun k => k != id)
      rw [hout.shortest.split, List.nodup_append] at hnodup
      exact fun hmem => hnodup.2.2 k hk k hmem rfl
    rw [hout.inStep.mem_iff, ← lookup_isSome_iff] at hgone
    exact Option.not_isSome_iff_eq_none.mp hgone
  · show out.2.bytes + e.sizeBytes ≤ max budget e.sizeBytes
    have hbytes := hout.inStep.sizeOn_eq
    rcases hshortest.enough with hroomy | hnil
    · have hsum : sizeOn Expert.sizeBytes out.2.loaded out.2.lru
          = sizeOn Expert.sizeBytes c.loaded out.2.lru := by
        refine sizeOn_congr fun k hk => ?_
        rw [hout.kept k hk, take_lookup]
        rintro rfl
        exact hrest hk
      rw [Roomy, ← hsum, hbytes] at hroomy
      omega
    · rw [hnil] at hbytes
      have hzero : out.2.bytes = 0 := hbytes.symm
      omega
  · show out.2.evictions = _
    rw [hout.counted, take_evictions]

/-- An insert that evicts nothing leaves the other entries as they are. -/
theorem insert_lookup (hbudget : 1 ≤ c.budgetBytes) (h : c.InStep c.lru) {e : Expert}
    (hnone : (c.insert id e).2.evictions = c.evictions) (k : ExpertId) :
    (c.insert id e).2.loaded.lookup k = if k = id then some e else c.loaded.lookup k := by
  obtain ⟨⟨⟨rest, hshortest, hlru, hkept⟩, hinserted, -⟩, htracked, -, -, hcounted⟩ :=
    insert_evicts (Nat.max_eq_left hbudget).symm h id e
  split
  · next heq =>
    rw [heq]
    exact hinserted
  · next hne =>
    have hgone : (c.insert id e).1 = [] := by
      rw [← List.length_eq_zero_iff]
      omega
    have hrest : rest = c.lru.filter fun k => k != id := by
      rw [hshortest.split, hgone, List.nil_append]
    by_cases hk : k ∈ c.lru
    · refine hkept k ?_
      rw [hrest, List.mem_filter]
      exact ⟨hk, bne_iff_ne.mpr hne⟩
    · have hbefore : c.loaded.lookup k = none := by
        rw [h.mem_iff, ← lookup_isSome_iff] at hk
        exact Option.not_isSome_iff_eq_none.mp hk
      have hafter : k ∉ (c.insert id e).2.lru := by
        rw [hlru, hrest, List.mem_append, List.mem_filter, List.mem_singleton]
        rintro (⟨hmem, -⟩ | heq)
        · exact hk hmem
        · exact hne heq
      rw [htracked.mem_iff, ← lookup_isSome_iff] at hafter
      rw [hbefore]
      exact Option.not_isSome_iff_eq_none.mp hafter

/-! ## Every run -/

variable {budget : Nat} {ops : List Op}

theorem map_id_concat (ops : List Op) (op : Op) :
    (ops ++ [op]).map Op.id = ops.map Op.id ++ [op.id] := List.map_append

/-- One operation keeps the invariant. -/
theorem Sound.apply (h : Sound budget ops c) (op : Op) : Sound budget (ops ++ [op]) (c.apply op) := by
  have hlast : lastSize (ops ++ [op]) = match op with
      | .insert _ expert => expert.sizeBytes
      | _ => lastSize ops := by
    rw [lastSize, List.foldl_append]
    rfl
  cases op with
  | get id =>
    have hbounded : c.bytes ≤ max budget (lastSize (ops ++ [.get id])) := by
      rw [hlast]
      exact h.bounded
    obtain ⟨htracked, hbytes, hbudget, -⟩ := InStep.get h.tracked id
    refine ⟨hbudget.trans h.budget_eq, htracked, ?_, hbytes ▸ hbounded⟩
    rw [map_id_concat]
    show Recent _ (c.get id).2.lru
    unfold ExpertCache.get
    split
    · exact (h.recent.sublist List.filter_sublist).push notMem_filter_ne
    · next hnone => exact h.recent.skip (notMem_of_lookup h.tracked hnone)
  | insert id expert =>
    obtain ⟨hevicts, htracked, hbytes, hbudget, -⟩ :=
      insert_evicts h.budget_eq h.tracked id expert
    obtain ⟨rest, hshortest, hlru, -⟩ := hevicts.shortest
    refine ⟨hbudget.trans h.budget_eq, htracked, ?_, ?_⟩
    · show Recent _ (c.insert id expert).2.lru
      rw [hlru, map_id_concat]
      have hsub : rest.Sublist c.lru := by
        refine .trans ?_ (List.filter_sublist (p := fun k => k != id))
        rw [hshortest.split]
        exact List.sublist_append_right _ _
      exact (h.recent.sublist hsub).push fun hmem => notMem_filter_ne (hshortest.rest_subset hmem)
    · rw [hlast]
      exact hbytes
  | remove id =>
    obtain ⟨htracked, hbytes⟩ := InStep.take h.tracked id
    refine ⟨(take_budgetBytes id).trans h.budget_eq, htracked, ?_, ?_⟩
    · rw [map_id_concat]
      exact (h.recent.sublist List.filter_sublist).skip notMem_filter_ne
    · rw [hlast]
      exact hbytes.trans h.bounded

theorem sound_run (budget : Nat) (ops : List Op) : Sound budget ops (run budget ops) := by
  induction ops using List.reverseRecOn with
  | nil => exact sound_new budget
  | append_singleton ops op ih =>
    rw [run, List.foldl_append]
    exact ih.apply op

/--
**The expert cache is a byte-budgeted LRU.**

After any operations on a new cache: the byte count is the sum of the sizes, the recency list is
the keys in order of their last use, an insert evicts the shortest prefix that makes room, and the
byte count is within the larger of the budget and the entry inserted last.
-/
theorem byte_budgeted_lru (budget : Nat) (ops : List Op) :
    (run budget ops).bytes = sizeSum Expert.sizeBytes (run budget ops).loaded ∧
      (run budget ops).lru.Nodup ∧
      (run budget ops).lru.Perm ((run budget ops).loaded.map Prod.fst) ∧
      (run budget ops).lru.Pairwise (UsedBefore (ops.map Op.id)) ∧
      (∀ id e, EvictsLeast budget (run budget ops) id e ((run budget ops).insert id e)) ∧
      (run budget ops).bytes ≤ max budget (lastSize ops) := by
  have h := sound_run budget ops
  exact ⟨h.tracked.bytes_eq, h.tracked.nodup, h.tracked.perm, h.recent.sorted,
    fun id e => (insert_evicts h.budget_eq h.tracked id e).1, h.bounded⟩

end ExpertCache

end Garuda
