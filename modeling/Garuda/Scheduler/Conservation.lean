import Garuda.Runtime.RoundRollback
import Garuda.Scheduler.Lives

/-!
# Nothing is lost or counted twice

* `Scheduler.conservation` — every request accepted is in one container or in one counter, once,
  and its permit goes back in the iteration in which it is counted
-/

namespace Garuda

open Infra

variable {σ κ K Γ : Type} {cfg : SchedulerConfig} {s : Scheduler σ κ K Γ}

namespace Scheduler

/-- The numbers of the requests that have been counted. -/
def countedIds (s : Scheduler σ κ K Γ) : List Nat := s.book.counted.map Prod.fst

/-- Permits of submits that have not sent their request. -/
def permits (s : Scheduler σ κ K Γ) : List UserSem :=
  s.submits.filterMap Submit.held? ++ (s.submits.filterMap Submit.ready?).map Request.userSem

namespace Sound

variable (hs : s.Sound cfg)

include hs

theorem accepted_le_one (id : Nat) : s.book.accepted.count id ≤ 1 := by
  rw [← Multiset.coe_count]
  exact hs.balanced.accepted_le_one id

theorem count_accepted (id : Nat) : s.book.accepted.count id
    = (s.waiting.map Request.id).count id + (s.running.map Request.id).count id
      + s.countedIds.count id := by
  have h := hs.balanced.accepted id
  rw [Ledger.ids, Ledger.ids, Ledger.countedIds] at h
  simpa [ledger, countedIds] using h

/-- Where the accepted requests are between two iterations. -/
theorem length_accepted (htop : s.phase = .top) : s.book.accepted.length
    = s.counters.completed + s.counters.cancelled + s.counters.timedOut + s.counters.failed
      + s.channel.length + s.heap.length + s.prefilling.length + s.active.length := by
  have hlen := hs.balanced.length_accepted
  rw [hs.balanced.length_counted] at hlen
  simp only [ledger, Multiset.coe_card, waiting, running, htop, Phase.waiting, Phase.running,
    List.length_append, List.length_map, List.length_nil] at hlen
  omega

theorem leaving_top (htop : s.phase = .top) : s.ledger.leaving = 0 := by
  show ((s.leaving ++ s.phase.leaving : List (Request K)) : Multiset (Request K)) = 0
  rw [(hs.shaped.top htop).2, htop]
  rfl

/-- Between two iterations what has been counted has been dropped. -/
theorem released_top (htop : s.phase = .top) {id : Nat} (hid : id ∈ s.countedIds) :
    id ∈ s.book.released := by
  have hcount := hs.balanced.counted id
  have hpos : 0 < s.ledger.countedIds.count id :=
    Multiset.count_pos.mpr (Multiset.mem_coe.mpr hid)
  rw [hcount, hs.leaving_top htop, Ledger.ids, Multiset.map_zero, Multiset.count_zero,
    Nat.zero_add] at hpos
  exact Multiset.mem_coe.mp (Multiset.count_pos.mp hpos)

/-- Between two iterations a semaphore is short of the permits of submits under way and of the
requests in the containers. -/
theorem available_top (htop : s.phase = .top) {k : Nat} (hk : k < s.slots.made) :
    s.slots.available k + s.permits.countP (fun p => decide (p.sem = k))
      + (s.waiting ++ s.running).countP (fun r => decide (r.permit = k))
        = cfg.maxConcurrentPerUser := by
  have hout : s.ledger.out
      = (s.permits ++ (s.waiting ++ s.running).map Request.userSem : List UserSem) := by
    unfold Ledger.out
    rw [hs.leaving_top htop]
    simp only [Ledger.permits, ledger, permits, Multiset.map_coe, Multiset.map_zero, add_zero,
      Multiset.coe_add, List.map_append, List.append_assoc]
  have hk' := hs.accounted.available k hk
  rw [hout, Multiset.coe_countP, List.countP_append, List.countP_map, ← Nat.add_assoc] at hk'
  exact hk'

end Sound

variable [Weight K] [DecidableEq κ] {rt : InferenceRuntime σ κ K Γ}
variable {w : World σ κ} {as : List (Action K)}

/-- **Conservation.** At any moment of any run, a request has been accepted at most once, and if
it has, it is waiting, running or counted, one of them and once; the counters are what has been
counted; only what has been counted has been dropped. Between two iterations the accepted
requests are the four counters and the four containers together, what has been counted has been
dropped, and a semaphore is short of the permits of the requests in the containers and of the
submits under way. -/
theorem conservation (h : run cfg rt w as = some s) :
    (∀ id, s.book.accepted.count id ≤ 1 ∧ s.book.accepted.count id
      = (s.waiting.map Request.id).count id + (s.running.map Request.id).count id
        + s.countedIds.count id) ∧
    (∀ o, s.counters.get o = (s.book.counted.map Prod.snd).count o) ∧
    s.counters.submitted + (s.submits.filterMap Submit.sending?).length
      = s.book.accepted.length ∧
    (∀ id ∈ s.book.released, id ∈ s.countedIds) ∧
    (s.phase = .top →
      s.book.accepted.length
        = s.counters.completed + s.counters.cancelled + s.counters.timedOut + s.counters.failed
          + s.channel.length + s.heap.length + s.prefilling.length + s.active.length ∧
      (∀ id ∈ s.countedIds, id ∈ s.book.released) ∧
      ∀ k < s.slots.made,
        s.slots.available k + s.permits.countP (fun p => decide (p.sem = k))
          + (s.waiting ++ s.running).countP (fun r => decide (r.permit = k))
            = cfg.maxConcurrentPerUser) := by
  have hs := run_sound h
  refine ⟨fun id => ⟨hs.accepted_le_one id, hs.count_accepted id⟩, hs.balanced.counters,
    hs.balanced.submitted, ?_, ?_⟩
  · intro id hid
    exact Multiset.mem_coe.mp (hs.balanced.released_alone hid).2
  · intro htop
    exact ⟨hs.length_accepted htop, fun id hid => hs.released_top htop hid,
      fun k hk => hs.available_top htop hk⟩

end Scheduler

/-! ## A run -/

def Phase.isTop : Phase σ K Γ → Bool
  | .top => true
  | _ => false

theorem Phase.isTop_iff {φ : Phase σ K Γ} : φ.isTop = true ↔ φ = .top := by
  cases φ <;> simp [isTop]

/-- A scheduler with one place in its queue. -/
def smallConfig : SchedulerConfig where
  maxConcurrent := 1
  speculativeLookahead := 0
  queueCapacity := 1
  maxConcurrentPerUser := 8

/-- A request of `user`. -/
def requestOf (user : String) (priority : Priority) : RequestSpec Int where
  userId := user
  prompt := [1, 2]
  params := greedyParams 10
  priority := priority
  timeout := 100

/-- The five steps of a `submit`, with nothing else under way. -/
def submitAll (user : String) (priority : Priority) : List (Action Int) :=
  .submit (requestOf user priority) :: List.replicate 5 (.next 0)

/-- A request is cancelled while it waits, and the loop goes round once. -/
def cancelledRun : List (Action Int) :=
  submitAll "ada" .normal ++ [.cancel 0] ++ List.replicate 10 .loop

theorem conservation_cancelled : ∃ s,
    Scheduler.run smallConfig tightRuntime emptyWorld cancelledRun = some s ∧
      s.book.counted = [(0, .cancelled)] ∧ s.book.released = [0] ∧
      s.book.accepted.length
        = s.counters.completed + s.counters.cancelled + s.counters.timedOut + s.counters.failed
          + s.channel.length + s.heap.length + s.prefilling.length + s.active.length := by
  have hrun : (Scheduler.run smallConfig tightRuntime emptyWorld cancelledRun).any (fun s =>
      decide (s.book.counted = [(0, .cancelled)] ∧ s.book.released = [0]) && s.phase.isTop)
        = true := by
    decide
  obtain ⟨s, hs, hfacts⟩ := (Option.any_eq_true _ _).mp hrun
  rw [Bool.and_eq_true, decide_eq_true_eq] at hfacts
  obtain ⟨⟨hcounted, hreleased⟩, htop⟩ := hfacts
  exact ⟨s, hs, hcounted, hreleased,
    ((Scheduler.conservation hs).2.2.2.2 (Phase.isTop_iff.mp htop)).1⟩

end Garuda
