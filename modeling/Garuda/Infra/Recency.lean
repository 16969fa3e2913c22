import Mathlib

/-!
# Entries in order of last use

A store of entries under keys, beside a list of the keys in order of their last use and the number
of bytes the entries take. Three pieces of state that every operation must keep in step.

* `Tracked` says that they are: the list is the keys, each once, and the number is the sum.
* `Tracked.erase`, `Tracked.touch`, `Tracked.push` are what an operation may do.
* `Recent` says that a list is in order of last use in a history, and `Recent.skip`, `Recent.push`
  and `Recent.sublist` are what keeps it so.
* `Shortest` is the shortest prefix of a list that has to go for the rest to be in order.
-/

namespace Infra

variable {κ α : Type}

/-! ## What is kept in step -/

/-- The bytes of the entries. -/
def sizeSum (size : α → Nat) (entries : List (κ × α)) : Nat :=
  (entries.map fun e => size e.2).sum

/-- The list is the keys, each once, and `bytes` is the sum of the sizes. -/
structure Tracked (size : α → Nat) (entries : List (κ × α)) (order : List κ) (bytes : Nat) :
    Prop where
  nodup : order.Nodup
  perm : order.Perm (entries.map Prod.fst)
  bytes_eq : bytes = sizeSum size entries

namespace Tracked

variable {size : α → Nat} {entries : List (κ × α)} {order : List κ} {bytes : Nat} {k : κ}

theorem nil (size : α → Nat) : Tracked size ([] : List (κ × α)) [] 0 where
  nodup := List.nodup_nil
  perm := .refl _
  bytes_eq := rfl

theorem entries_nodup (h : Tracked size entries order bytes) : (entries.map Prod.fst).Nodup :=
  h.perm.nodup_iff.mp h.nodup

theorem mem_iff (h : Tracked size entries order bytes) :
    k ∈ order ↔ k ∈ entries.map Prod.fst := h.perm.mem_iff

end Tracked

/-! ## Looking up -/

section

variable [DecidableEq κ] {size : α → Nat} {entries : List (κ × α)} {k k' : κ} {v : α}

theorem lookup_isSome_iff : (entries.lookup k).isSome = true ↔ k ∈ entries.map Prod.fst := by
  induction entries with
  | nil => simp
  | cons e entries ih =>
    rw [List.lookup_cons, List.map_cons, List.mem_cons]
    by_cases hk : k = e.1
    · simp [hk]
    · rw [beq_false_of_ne hk]
      simp [hk, ih]

theorem lookup_filter_ne (h : k' ≠ k) :
    (entries.filter fun e => e.1 != k).lookup k' = entries.lookup k' := by
  induction entries with
  | nil => rfl
  | cons e entries ih =>
    by_cases he : e.1 = k
    · rw [List.filter_cons_of_neg (by simpa using he), ih, List.lookup_cons,
        beq_false_of_ne (he ▸ h)]
    · rw [List.filter_cons_of_pos (by simpa using he), List.lookup_cons, List.lookup_cons, ih]

theorem map_filter_ne : (entries.filter fun e => e.1 != k).map Prod.fst
    = (entries.map Prod.fst).filter fun k' => k' != k := by
  rw [List.filter_map]
  rfl

omit [DecidableEq κ] in
theorem keys_filter_ne [BEq κ] [LawfulBEq κ] {order : List κ} (h : k ∉ order) :
    (order.filter fun k' => k' != k) = order := by
  refine List.filter_eq_self.mpr fun k' hk' => ?_
  rw [bne_iff_ne]
  rintro rfl
  exact h hk'

theorem filter_ne_of_notMem (h : k ∉ entries.map Prod.fst) :
    (entries.filter fun e => e.1 != k) = entries := by
  refine List.filter_eq_self.mpr fun e he => ?_
  rw [bne_iff_ne]
  rintro rfl
  exact h (List.mem_map_of_mem he)

/-- The bytes of the others, and those of the entry itself. -/
theorem sizeSum_filter_ne (hnodup : (entries.map Prod.fst).Nodup) (h : entries.lookup k = some v) :
    sizeSum size (entries.filter fun e => e.1 != k) + size v = sizeSum size entries := by
  induction entries with
  | nil => cases h
  | cons e entries ih =>
    rw [List.map_cons, List.nodup_cons] at hnodup
    rw [List.lookup_cons] at h
    by_cases hk : k = e.1
    · rw [hk, beq_self_eq_true] at h
      obtain rfl := Option.some.inj h
      rw [List.filter_cons_of_neg (by simp [hk]), hk, filter_ne_of_notMem hnodup.1]
      simp [sizeSum, Nat.add_comm]
    · rw [beq_false_of_ne hk] at h
      have hrest := ih hnodup.2 h
      rw [List.filter_cons_of_pos (by simpa using Ne.symm hk)]
      simp only [sizeSum, List.map_cons, List.sum_cons] at hrest ⊢
      omega

end

/-! ## The operations -/

namespace Tracked

variable [DecidableEq κ] {size : α → Nat} {entries : List (κ × α)} {order : List κ} {bytes : Nat}
  {k : κ} {v : α}

/-- An entry goes, with its key and its bytes. -/
theorem erase (h : Tracked size entries order bytes) (hv : entries.lookup k = some v) :
    Tracked size (entries.filter fun e => e.1 != k) (order.filter fun k' => k' != k)
      (bytes - size v) where
  nodup := h.nodup.filter _
  perm := by
    rw [map_filter_ne]
    exact h.perm.filter _
  bytes_eq := by
    have hsum : sizeSum size (entries.filter fun e => e.1 != k) + size v = sizeSum size entries :=
      sizeSum_filter_ne h.entries_nodup hv
    rw [h.bytes_eq]
    omega

/-- The least recently used entry goes. -/
theorem pop (h : Tracked size entries (k :: order) bytes) (hv : entries.lookup k = some v) :
    Tracked size (entries.filter fun e => e.1 != k) order (bytes - size v) := by
  have herase := h.erase hv
  rwa [List.filter_cons_of_neg (by simp), keys_filter_ne (List.nodup_cons.mp h.nodup).1] at herase

/-- The key that was used last goes to the back. -/
theorem touch (h : Tracked size entries order bytes) (hk : k ∈ order) :
    Tracked size entries (order.filter (fun k' => k' != k) ++ [k]) bytes where
  nodup := by
    rw [List.nodup_append_comm, List.singleton_append, List.nodup_cons]
    exact ⟨by simp, h.nodup.filter _⟩
  perm := by
    refine .trans ?_ h.perm
    rw [← h.nodup.erase_eq_filter]
    exact List.perm_append_comm.trans (List.perm_cons_erase hk).symm
  bytes_eq := h.bytes_eq

omit [DecidableEq κ] in
/-- A new entry goes to the back. -/
theorem push (h : Tracked size entries order bytes) (hk : k ∉ order) (v : α) :
    Tracked size ((k, v) :: entries) (order ++ [k]) (bytes + size v) where
  nodup := by
    rw [List.nodup_append_comm, List.singleton_append, List.nodup_cons]
    exact ⟨hk, h.nodup⟩
  perm := List.perm_append_comm.trans (h.perm.cons k)
  bytes_eq := by
    rw [h.bytes_eq, sizeSum, sizeSum, List.map_cons, List.sum_cons, Nat.add_comm]

theorem exists_lookup (h : Tracked size entries order bytes) (hk : k ∈ order) :
    ∃ v, entries.lookup k = some v :=
  Option.isSome_iff_exists.mp (lookup_isSome_iff.mpr (h.mem_iff.mp hk))

end Tracked

/-! ## The bytes of some of the keys -/

section

variable [DecidableEq κ] (size : α → Nat)

/-- The bytes of the entries under `keys`. -/
def sizeOn (entries : List (κ × α)) (keys : List κ) : Nat :=
  (keys.map fun k => ((entries.lookup k).map size).getD 0).sum

variable {size} {entries : List (κ × α)} {order : List κ} {bytes : Nat} {k : κ}

theorem sizeOn_congr {entries' : List (κ × α)} {keys : List κ}
    (h : ∀ k ∈ keys, entries'.lookup k = entries.lookup k) :
    sizeOn size entries' keys = sizeOn size entries keys := by
  unfold sizeOn
  rw [List.map_congr_left fun k hk => ?_]
  rw [h k hk]

theorem sizeOn_keys (hnodup : (entries.map Prod.fst).Nodup) :
    sizeOn size entries (entries.map Prod.fst) = sizeSum size entries := by
  induction entries with
  | nil => rfl
  | cons e entries ih =>
    rw [List.map_cons, List.nodup_cons] at hnodup
    have hrest : sizeOn size (e :: entries) (entries.map Prod.fst)
        = sizeOn size entries (entries.map Prod.fst) := by
      refine sizeOn_congr fun k hk => ?_
      rw [List.lookup_cons, beq_false_of_ne]
      rintro rfl
      exact hnodup.1 hk
    have hself : (e :: entries).lookup e.1 = some e.2 := by
      rw [List.lookup_cons, beq_self_eq_true]
    have hcons : sizeOn size (e :: entries) (e.1 :: entries.map Prod.fst)
        = size e.2 + sizeOn size (e :: entries) (entries.map Prod.fst) := by
      simp [sizeOn, hself]
    rw [List.map_cons, hcons, hrest, ih hnodup.2]
    simp [sizeSum]

theorem Tracked.sizeOn_eq (h : Tracked size entries order bytes) :
    sizeOn size entries order = bytes := by
  rw [h.bytes_eq, ← sizeOn_keys h.entries_nodup]
  exact (h.perm.map _).sum_eq

end

/-! ## Order of last use -/

/-- The last use of `a` comes before the last use of `b`. -/
def UsedBefore (uses : List κ) (a b : κ) : Prop :=
  ∃ pre post, uses = pre ++ a :: post ∧ a ∉ post ∧ b ∈ post

/-- Keys that were used, in order of their last use. -/
structure Recent (uses order : List κ) : Prop where
  used : ∀ k ∈ order, k ∈ uses
  sorted : order.Pairwise (UsedBefore uses)

section

variable {uses order order' : List κ} {a b k : κ}

theorem UsedBefore.concat (h : UsedBefore uses a b) (ha : a ≠ k) :
    UsedBefore (uses ++ [k]) a b := by
  obtain ⟨pre, post, rfl, hpost, hb⟩ := h
  refine ⟨pre, post ++ [k], by simp, ?_, List.mem_append_left _ hb⟩
  simp [hpost, ha]

theorem exists_last_use (ha : a ∈ uses) : ∃ pre post, uses = pre ++ a :: post ∧ a ∉ post := by
  obtain ⟨post, pre, hrev, hpost⟩ := List.eq_append_cons_of_mem (List.mem_reverse.mpr ha)
  refine ⟨pre.reverse, post.reverse, ?_, by simpa using hpost⟩
  rw [← List.reverse_reverse uses, hrev]
  simp

theorem usedBefore_last (ha : a ∈ uses) (hne : a ≠ k) : UsedBefore (uses ++ [k]) a k := by
  obtain ⟨pre, post, rfl, hpost⟩ := exists_last_use ha
  refine ⟨pre, post ++ [k], by simp, ?_, by simp⟩
  simp [hpost, hne]

theorem Recent.nil (uses : List κ) : Recent uses [] where
  used := by simp
  sorted := .nil

theorem Recent.sublist (h : Recent uses order) (hsub : order'.Sublist order) :
    Recent uses order' where
  used k hk := h.used k (hsub.subset hk)
  sorted := h.sorted.sublist hsub

/-- A use of another key. -/
theorem Recent.skip (h : Recent uses order) (hk : k ∉ order) : Recent (uses ++ [k]) order where
  used k' hk' := List.mem_append_left _ (h.used k' hk')
  sorted := h.sorted.imp_of_mem fun ha _ hab => hab.concat (by rintro rfl; exact hk ha)

/-- The key that is used goes to the back. -/
theorem Recent.push (h : Recent uses order) (hk : k ∉ order) :
    Recent (uses ++ [k]) (order ++ [k]) where
  used k' hk' := by
    rcases List.mem_append.mp hk' with hk' | hk'
    · exact List.mem_append_left _ (h.used k' hk')
    · exact List.mem_append_right _ hk'
  sorted := by
    refine List.pairwise_append.mpr ⟨(h.skip hk).sorted, List.pairwise_singleton _ _, ?_⟩
    intro a ha b hb
    rw [List.mem_singleton.mp hb]
    exact usedBefore_last (h.used a ha) (by rintro rfl; exact hk ha)

end

/-! ## Eviction -/

/-- `gone` is the shortest prefix of `order` without which the rest is `ok`; all of it, if even
nothing is not. -/
structure Shortest (ok : List κ → Prop) (order gone rest : List κ) : Prop where
  split : order = gone ++ rest
  needed : ∀ pre k post, gone = pre ++ k :: post → ¬ ok (k :: post ++ rest)
  enough : ok rest ∨ rest = []

section

variable {ok ok' : List κ → Prop} {order gone rest : List κ} {k : κ}

theorem Shortest.stop (h : ok order ∨ order = []) : Shortest ok order [] order where
  split := rfl
  needed pre k post h := by simp at h
  enough := h

theorem Shortest.cons (hk : ¬ ok (k :: order)) (h : Shortest ok order gone rest) :
    Shortest ok (k :: order) (k :: gone) rest where
  split := by rw [h.split, List.cons_append]
  needed := by
    rintro (_ | ⟨first, pre⟩) victim post heq
    · obtain ⟨rfl, rfl⟩ := List.cons.inj heq
      rwa [h.split] at hk
    · exact h.needed pre victim post (List.cons.inj heq).2
  enough := h.enough

theorem Shortest.gone_subset (h : Shortest ok order gone rest) : gone ⊆ order := by
  rw [h.split]
  exact List.subset_append_left _ _

theorem Shortest.rest_subset (h : Shortest ok order gone rest) : rest ⊆ order := by
  rw [h.split]
  exact List.subset_append_right _ _

theorem Shortest.congr (h : Shortest ok order gone rest)
    (hok : ∀ keys, keys <:+ order → (ok keys ↔ ok' keys)) : Shortest ok' order gone rest where
  split := h.split
  needed pre victim post heq := by
    rw [← hok]
    · exact h.needed pre victim post heq
    · exact ⟨pre, by rw [h.split, heq]; simp⟩
  enough := h.enough.imp_left (hok rest ⟨gone, h.split.symm⟩).mp

end

end Infra
