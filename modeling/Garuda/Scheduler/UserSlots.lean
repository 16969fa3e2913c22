import Mathlib

/-!
# The per-user limit

`user_slots` of `scheduler/mod.rs`: a table from users to semaphores, made on first use and
dropped again when the table is long and nobody holds a permit. Every semaphore has a number of
its own, so that one that has left the table is still told apart from its successor.

A submit looks the semaphore up, then takes a permit from it; the two steps are apart.

* `UserSlots.Accounted` — a semaphore has given out what it is short of
* `UserSlots.Mapped` — whatever is in use is what the table says
* `UserSlots.Mapped.le_max` — then no user has more permits than the limit
-/

namespace Garuda

/-- A semaphore, and the user for whom it was looked up. -/
structure UserSem where
  user : String
  sem : Nat
  deriving DecidableEq, Repr

/-- The table of semaphores, and the permits left in each semaphore ever made. -/
structure UserSlots where
  table : List (String × Nat)
  available : Nat → Nat
  made : Nat

/-- Beyond this many tracked users, drop the ones with nothing outstanding. -/
def USER_TABLE_HIGH_WATER : Nat := 1024

namespace UserSlots

def empty : UserSlots := { table := [], available := fun _ => 0, made := 0 }

/-- `slots.retain(..)`, where the table has grown too long. -/
def prune (max : Nat) (u : UserSlots) : UserSlots :=
  if USER_TABLE_HIGH_WATER < u.table.length then
    { u with table := u.table.filter fun e => decide (u.available e.2 < max) }
  else u

/-- `slots.entry(user).or_insert_with(..)` -/
def entry (max : Nat) (user : String) (u : UserSlots) : Nat × UserSlots :=
  match u.table.lookup user with
  | some sem => (sem, u)
  | none =>
    (u.made,
      { table := (user, u.made) :: u.table
        available := Function.update u.available u.made max
        made := u.made + 1 })

/-- Look up or create the user's semaphore; `max` is `max_concurrent_per_user`. -/
def userSemaphore (max : Nat) (user : String) (u : UserSlots) : Nat × UserSlots :=
  (u.prune max).entry max user

def tryAcquire (sem : Nat) (u : UserSlots) : Option UserSlots :=
  if u.available sem = 0 then none
  else some { u with available := Function.update u.available sem (u.available sem - 1) }

/-- What dropping a permit does. -/
def release (sem : Nat) (u : UserSlots) : UserSlots :=
  { u with available := Function.update u.available sem (u.available sem + 1) }

/-! ## What is out of a semaphore -/

/-- A semaphore is short of what is held from it; `looked` are the lookups no permit has been
asked for yet. -/
structure Accounted (max : Nat) (u : UserSlots) (looked held : Multiset UserSem) : Prop where
  available : ∀ k < u.made, u.available k + held.countP (fun p => p.sem = k) = max
  table : ∀ e ∈ u.table, e.2 < u.made
  looked : ∀ p ∈ looked, p.sem < u.made
  held : ∀ p ∈ held, p.sem < u.made

variable {max : Nat} {u v : UserSlots} {looked held : Multiset UserSem} {p : UserSem}

theorem accounted_empty : Accounted max empty 0 0 where
  available k hk := absurd hk (Nat.not_lt_zero k)
  table _ he := absurd he List.not_mem_nil
  looked p hp := absurd hp (Multiset.notMem_zero p)
  held p hp := absurd hp (Multiset.notMem_zero p)

@[simp] theorem prune_available : (u.prune max).available = u.available := by
  unfold prune
  split <;> rfl

@[simp] theorem prune_made : (u.prune max).made = u.made := by
  unfold prune
  split <;> rfl

theorem prune_table_subset : ∀ e ∈ (u.prune max).table, e ∈ u.table := by
  unfold prune
  split
  · exact fun e he => (List.mem_filter.mp he).1
  · exact fun e he => he

theorem mem_of_lookup {l : List (String × Nat)} {user : String} {sem : Nat}
    (h : l.lookup user = some sem) : (user, sem) ∈ l := by
  induction l with
  | nil => simp at h
  | cons e l ih =>
    obtain ⟨other, k⟩ := e
    rw [List.lookup_cons] at h
    split at h
    · next heq =>
      rw [← Option.some.inj h, eq_of_beq heq]
      exact List.mem_cons_self
    · exact List.mem_cons_of_mem _ (ih h)

theorem entry_of_some {user : String} {sem : Nat} (hl : u.table.lookup user = some sem) :
    u.entry max user = (sem, u) := by
  simp only [entry, hl]

theorem entry_of_none {user : String} (hl : u.table.lookup user = none) :
    u.entry max user = (u.made,
      { table := (user, u.made) :: u.table
        available := Function.update u.available u.made max
        made := u.made + 1 }) := by
  simp only [entry, hl]

theorem Accounted.prune (h : Accounted max u looked held) :
    Accounted max (u.prune max) looked held where
  available k hk := by
    rw [prune_made] at hk
    rw [prune_available]
    exact h.available k hk
  table e he := by
    rw [prune_made]
    exact h.table e (prune_table_subset e he)
  looked p hp := by
    rw [prune_made]
    exact h.looked p hp
  held p hp := by
    rw [prune_made]
    exact h.held p hp

theorem Accounted.entry (h : Accounted max u looked held) (user : String) :
    Accounted max (u.entry max user).2 (⟨user, (u.entry max user).1⟩ ::ₘ looked) held := by
  cases hl : u.table.lookup user with
  | some sem =>
    rw [entry_of_some hl]
    refine ⟨h.available, h.table, ?_, h.held⟩
    intro p hp
    rcases Multiset.mem_cons.mp hp with rfl | hp
    · exact h.table _ (mem_of_lookup hl)
    · exact h.looked p hp
  | none =>
    rw [entry_of_none hl]
    -- nobody can hold a permit from a semaphore that did not exist
    have hnew : held.countP (fun p => p.sem = u.made) = 0 :=
      Multiset.countP_eq_zero.mpr fun p hp => (h.held p hp).ne
    refine ⟨?_, ?_, ?_, fun p hp => Nat.lt_succ_of_lt (h.held p hp)⟩
    · intro k hk
      show Function.update u.available u.made max k + _ = max
      rcases Nat.lt_succ_iff_lt_or_eq.mp hk with hk | rfl
      · rw [Function.update_of_ne hk.ne]
        exact h.available k hk
      · rw [Function.update_self, hnew, Nat.add_zero]
    · intro e he
      rcases List.mem_cons.mp he with rfl | he
      · exact Nat.lt_succ_self u.made
      · exact Nat.lt_succ_of_lt (h.table e he)
    · intro p hp
      rcases Multiset.mem_cons.mp hp with rfl | hp
      · exact Nat.lt_succ_self u.made
      · exact Nat.lt_succ_of_lt (h.looked p hp)

theorem Accounted.userSemaphore (h : Accounted max u looked held) (user : String) :
    Accounted max (u.userSemaphore max user).2 (⟨user, (u.userSemaphore max user).1⟩ ::ₘ looked) held :=
  h.prune.entry user

theorem Accounted.refuse (h : Accounted max u (p ::ₘ looked) held) :
    Accounted max u looked held :=
  ⟨h.available, h.table, fun q hq => h.looked q (Multiset.mem_cons_of_mem hq), h.held⟩

theorem tryAcquire_eq_some (h : u.tryAcquire p.sem = some v) : 0 < u.available p.sem ∧
    v = { u with available := Function.update u.available p.sem (u.available p.sem - 1) } := by
  unfold tryAcquire at h
  split at h
  · cases h
  · next hpos => exact ⟨Nat.pos_of_ne_zero hpos, (Option.some.inj h).symm⟩

theorem Accounted.tryAcquire (h : Accounted max u (p ::ₘ looked) held)
    (hv : u.tryAcquire p.sem = some v) : Accounted max v looked (p ::ₘ held) := by
  obtain ⟨hpos, rfl⟩ := tryAcquire_eq_some hv
  refine ⟨?_, h.table, h.refuse.looked, ?_⟩
  · intro k hk
    have hk' := h.available k hk
    show Function.update u.available p.sem (u.available p.sem - 1) k + _ = max
    rw [Multiset.countP_cons]
    by_cases hpk : p.sem = k
    · rw [hpk, Function.update_self, if_pos rfl]
      rw [hpk] at hpos
      omega
    · rw [Function.update_of_ne (Ne.symm hpk), if_neg hpk]
      exact hk'
  · intro q hq
    rcases Multiset.mem_cons.mp hq with rfl | hq
    · exact h.looked q (Multiset.mem_cons_self q looked)
    · exact h.held q hq

theorem Accounted.release (h : Accounted max u looked (p ::ₘ held)) :
    Accounted max (u.release p.sem) looked held := by
  refine ⟨?_, h.table, h.looked, fun q hq => h.held q (Multiset.mem_cons_of_mem hq)⟩
  intro k hk
  have hk' := h.available k hk
  rw [Multiset.countP_cons] at hk'
  show Function.update u.available p.sem (u.available p.sem + 1) k + _ = max
  by_cases hpk : p.sem = k
  · rw [if_pos hpk] at hk'
    rw [hpk, Function.update_self]
    omega
  · rw [if_neg hpk] at hk'
    rw [Function.update_of_ne (Ne.symm hpk)]
    exact hk'

/-! ## The limit -/

/-- Every semaphore in use is the one the table has for its user. -/
def Mapped (u : UserSlots) (ps : Multiset UserSem) : Prop :=
  ∀ p ∈ ps, u.table.lookup p.user = some p.sem

theorem lookup_filter {l : List (String × Nat)} {keep : String × Nat → Bool} {user : String}
    {sem : Nat} (h : l.lookup user = some sem) (hkeep : keep (user, sem) = true) :
    (l.filter keep).lookup user = some sem := by
  induction l with
  | nil => simp at h
  | cons e l ih =>
    obtain ⟨other, k⟩ := e
    rw [List.lookup_cons] at h
    cases heq : user == other with
    | true =>
      rw [heq] at h
      have hk : k = sem := Option.some.inj h
      rw [← eq_of_beq heq, hk, List.filter_cons_of_pos hkeep, List.lookup_cons]
      simp
    | false =>
      rw [heq] at h
      have ih := ih h
      by_cases hother : keep (other, k) = true
      · rw [List.filter_cons_of_pos hother, List.lookup_cons, heq]
        exact ih
      · rw [List.filter_cons_of_neg hother]
        exact ih

/-- What is in use survives, where no semaphore is taken out of the table between the lookup and
the permit. -/
theorem Mapped.prune (h : u.Mapped (looked + held)) (hacc : Accounted max u looked held)
    (hbusy : USER_TABLE_HIGH_WATER < u.table.length → ∀ p ∈ looked, u.available p.sem < max) :
    (u.prune max).Mapped (looked + held) := by
  intro p hp
  unfold UserSlots.prune
  split
  · next hlong =>
    refine lookup_filter (h p hp) (decide_eq_true ?_)
    rcases Multiset.mem_add.mp hp with hp | hp
    · exact hbusy hlong p hp
    · have hout : 0 < held.countP (fun q => q.sem = p.sem) :=
        Multiset.countP_pos.mpr ⟨p, hp, rfl⟩
      have := hacc.available p.sem (hacc.held p hp)
      show u.available p.sem < max
      omega
  · exact h p hp

theorem Mapped.entry (h : u.Mapped (looked + held)) (user : String) :
    (u.entry max user).2.Mapped ((⟨user, (u.entry max user).1⟩ ::ₘ looked) + held) := by
  cases hl : u.table.lookup user with
  | some sem =>
    rw [entry_of_some hl]
    intro p hp
    rw [Multiset.cons_add] at hp
    rcases Multiset.mem_cons.mp hp with rfl | hp
    · exact hl
    · exact h p hp
  | none =>
    rw [entry_of_none hl]
    intro p hp
    rw [Multiset.cons_add] at hp
    rcases Multiset.mem_cons.mp hp with rfl | hp
    · simp
    · have hother : (p.user == user) = false := by
        rw [beq_eq_false_iff_ne]
        intro huser
        rw [← huser, h p hp] at hl
        cases hl
      show List.lookup p.user ((user, u.made) :: u.table) = some p.sem
      rw [List.lookup_cons, hother]
      exact h p hp

theorem Mapped.userSemaphore (h : u.Mapped (looked + held)) (hacc : Accounted max u looked held)
    (hbusy : USER_TABLE_HIGH_WATER < u.table.length → ∀ p ∈ looked, u.available p.sem < max)
    (user : String) :
    (u.userSemaphore max user).2.Mapped ((⟨user, (u.userSemaphore max user).1⟩ ::ₘ looked) + held) :=
  (h.prune hacc hbusy).entry user

/-- **No user has more permits than the limit**, as long as the table knows what is in use. -/
theorem Mapped.le_max (h : u.Mapped held) (hacc : Accounted max u looked held) (user : String) :
    held.countP (fun p => p.user = user) ≤ max := by
  by_cases hany : ∃ p ∈ held, p.user = user
  · obtain ⟨p, hp, rfl⟩ := hany
    have hsame : ∀ q ∈ held, q.user = p.user → q.sem = p.sem := by
      intro q hq huser
      have hq' := h q hq
      rw [huser, h p hp] at hq'
      exact (Option.some.inj hq').symm
    have hle : held.countP (fun q => q.user = p.user) ≤ held.countP (fun q => q.sem = p.sem) := by
      rw [Multiset.countP_eq_card_filter, Multiset.countP_eq_card_filter]
      refine Multiset.card_le_card (Multiset.le_filter.mpr ⟨Multiset.filter_le _ _, ?_⟩)
      intro q hq
      obtain ⟨hq, huser⟩ := Multiset.mem_filter.mp hq
      exact hsame q hq huser
    have := hacc.available p.sem (hacc.held p hp)
    omega
  · rw [Multiset.countP_eq_zero.mpr fun p hp huser => hany ⟨p, hp, huser⟩]
    exact Nat.zero_le max

end UserSlots

end Garuda
