import Garuda.Scheduler.Conservation

/-!
# The limit of a user

The semaphore a submit has looked up can leave the table before a permit is taken from it; the
user's next submit then gets a new one, full again.

* `Scheduler.user_limit` — where this does not happen, no user has more permits than the limit
* `crowd_run` — what a crowd of users leaves in the table
* `user_over_limit` — a run in which it does
-/

namespace Garuda

open Infra

variable {σ κ K Γ : Type}

namespace Ledger

variable {cfg : SchedulerConfig} {l m : Ledger K}

/-- Callers take permits only from semaphores that have been looked up. -/
theorem call_out (hcall : Call l m) : m.slots.table = l.slots.table ∧
    ∀ p ∈ m.looked + m.out, p ∈ l.looked + l.out := by
  cases hcall with
  | @take p rest slots hlooked hslots =>
    obtain ⟨_, rfl⟩ := UserSlots.tryAcquire_eq_some hslots
    refine ⟨rfl, fun q hq => ?_⟩
    simpa [out, hlooked, Multiset.cons_add, Multiset.add_cons] using hq
  | @limited p rest hlooked =>
    refine ⟨rfl, fun q hq => ?_⟩
    rw [hlooked, Multiset.cons_add]
    exact Multiset.mem_cons_of_mem hq
  | @make r rest hheld _ =>
    refine ⟨rfl, fun q hq => ?_⟩
    simpa [out, hheld, Multiset.cons_add, Multiset.add_cons] using hq
  | @accept r rest hready =>
    refine ⟨rfl, fun q hq => ?_⟩
    simpa [out, hready, Multiset.cons_add, Multiset.add_cons] using hq
  | @busy r rest hready =>
    refine ⟨rfl, fun q hq => ?_⟩
    have hout : l.out = r.userSem ::ₘ out { l with ready := rest } := by
      simp [out, hready, Multiset.cons_add, Multiset.add_cons]
    rw [hout, Multiset.add_cons]
    exact Multiset.mem_cons_of_mem hq
  | confirm _ => exact ⟨rfl, fun q hq => hq⟩
  | cancel _ => exact ⟨rfl, fun q hq => hq⟩
  | close _ => exact ⟨rfl, fun q hq => hq⟩
  | idle => exact ⟨rfl, fun q hq => hq⟩

theorem mapped_call (h : l.slots.Mapped (l.looked + l.out)) (hcall : Call l m) :
    m.slots.Mapped (m.looked + m.out) := by
  obtain ⟨htable, hout⟩ := call_out hcall
  intro p hp
  rw [htable]
  exact h p (hout p hp)

theorem mapped_serve (h : l.slots.Mapped (l.looked + l.out)) (hserve : Serve l m) :
    m.slots.Mapped (m.looked + m.out) := by
  obtain ⟨hlooked, ⟨hout, hslots⟩ | ⟨p, hout, hslots⟩⟩ := serve_out hserve
  · rw [hlooked, hout, hslots]
    exact h
  · intro q hq
    rw [hslots]
    rw [hlooked] at hq
    rw [hout, Multiset.add_cons] at h
    exact h q (Multiset.mem_cons_of_mem hq)

theorem mapped_enter (h : l.slots.Mapped (l.looked + l.out)) (henter : Admit cfg l m) :
    m.slots.Mapped (m.looked + m.out) := by
  obtain ⟨hwaiting, _, _, _⟩ := henter
  simpa [out, hwaiting, Multiset.cons_add, Multiset.add_cons] using h

end Ledger

namespace Scheduler

variable [Weight K] [DecidableEq κ] {rt : InferenceRuntime σ κ K Γ}
variable {cfg : SchedulerConfig} {w : World σ κ} {as : List (Action K)}
variable {s m : Scheduler σ κ K Γ}

/-- Every permit that is out: of submits, and of the requests anywhere in the scheduler. -/
def livePermits (s : Scheduler σ κ K Γ) : List UserSem :=
  s.permits ++ (s.waiting ++ s.running ++ (s.leaving ++ s.phase.leaving)).map Request.userSem

omit [Weight K] [DecidableEq κ] in
theorem out_eq (s : Scheduler σ κ K Γ) : s.ledger.out = (s.livePermits : Multiset UserSem) := by
  unfold Ledger.out livePermits
  simp only [Ledger.permits, ledger, permits, Multiset.map_coe, Multiset.coe_add,
    List.map_append, List.append_assoc]

/-- A submit whose lookup prunes the table does so while no other submit stands between its
lookup and its permit with a semaphore nobody holds a permit of. -/
def Undisturbed (cfg : SchedulerConfig) (s : Scheduler σ κ K Γ) (a : Action K) : Prop :=
  ∀ spec, a = .submit spec → USER_TABLE_HIGH_WATER < s.slots.table.length →
    ∀ p ∈ s.submits.filterMap Submit.looked?, s.slots.available p.sem < cfg.maxConcurrentPerUser

theorem mapped_step {a : Action K} (hs : s.Sound cfg)
    (hmapped : s.slots.Mapped (s.ledger.looked + s.ledger.out))
    (hcalm : Undisturbed cfg s a) (hm : s.step cfg rt a = some m) :
    m.slots.Mapped (m.ledger.looked + m.ledger.out) := by
  obtain ⟨⟨spec, rfl, hlook⟩ | hcall | hserve | ⟨henter, _⟩, _⟩ := step_ledger hs.shaped hm
  · show m.ledger.slots.Mapped _
    rw [hlook]
    exact hmapped.userSemaphore hs.accounted (hcalm spec rfl) spec.userId
  · exact Ledger.mapped_call hmapped hcall
  · exact Ledger.mapped_serve hmapped hserve
  · exact Ledger.mapped_enter hmapped henter

/-- **The limit of a user** holds in every run in which no semaphore leaves the table between a
submit's lookup and its permit. -/
theorem user_limit (h : run cfg rt w as = some s)
    (hcalm : EachStep (step cfg rt) (Undisturbed cfg) as (init w)) (user : String) :
    s.livePermits.countP (fun p => decide (p.user = user)) ≤ cfg.maxConcurrentPerUser := by
  have hinit : (init w : Scheduler σ κ K Γ).Sound cfg ∧
      (init w : Scheduler σ κ K Γ).slots.Mapped
        ((init w : Scheduler σ κ K Γ).ledger.looked + (init w : Scheduler σ κ K Γ).ledger.out) :=
    ⟨init_sound cfg w, fun p hp => absurd hp (Multiset.notMem_zero p)⟩
  have hs := EachStep.invariant (P := fun m : Scheduler σ κ K Γ =>
    m.Sound cfg ∧ m.slots.Mapped (m.ledger.looked + m.ledger.out))
      (fun m a t hstep hcalm hm => ⟨hm.1.step hstep, mapped_step hm.1 hm.2 hcalm hstep⟩)
      hcalm h hinit
  have hout : s.slots.Mapped s.ledger.out := fun p hp =>
    hs.2 p (Multiset.mem_add.mpr (Or.inr hp))
  have hle := hout.le_max hs.1.accounted user
  rw [out_eq, Multiset.coe_countP] at hle
  exact hle

/-! ## A crowd -/

omit [Weight K] [DecidableEq κ] in
theorem lookup_fresh {spec : RequestSpec K} (hshort : s.slots.table.length ≤ USER_TABLE_HIGH_WATER)
    (hnew : s.slots.table.lookup spec.userId = none) :
    s.lookup cfg spec = { s with
      slots := {
        table := (spec.userId, s.slots.made) :: s.slots.table
        available := Function.update s.slots.available s.slots.made cfg.maxConcurrentPerUser
        made := s.slots.made + 1 }
      submits := .looked spec s.slots.made :: s.submits } := by
  have hprune : s.slots.prune cfg.maxConcurrentPerUser = s.slots := by
    unfold UserSlots.prune
    rw [if_neg (Nat.not_lt.mpr hshort)]
  unfold lookup UserSlots.userSemaphore
  rw [hprune, UserSlots.entry_of_none hnew]

omit [Weight K] [DecidableEq κ] in
/-- A lookup that drops every entry of the table. -/
theorem lookup_prune {spec : RequestSpec K} (hlong : USER_TABLE_HIGH_WATER < s.slots.table.length)
    (hidle : ∀ e ∈ s.slots.table, s.slots.available e.2 = cfg.maxConcurrentPerUser) :
    s.lookup cfg spec = { s with
      slots := {
        table := [(spec.userId, s.slots.made)]
        available := Function.update s.slots.available s.slots.made cfg.maxConcurrentPerUser
        made := s.slots.made + 1 }
      submits := .looked spec s.slots.made :: s.submits } := by
  have hprune : s.slots.prune cfg.maxConcurrentPerUser = { s.slots with table := [] } := by
    unfold UserSlots.prune
    rw [if_pos hlong]
    congr 1
    refine List.filter_eq_nil_iff.mpr fun e he => ?_
    rw [hidle e he]
    simp
  unfold lookup UserSlots.userSemaphore
  rw [hprune, UserSlots.entry_of_none rfl]

variable (cfg rt) in
/-- The four steps that take a submit from its semaphore into the channel. -/
theorem sends {i : Nat} {spec : RequestSpec K} {sem : Nat}
    (hi : s.submits[i]? = some (.looked spec sem)) (hfree : s.slots.available sem ≠ 0)
    (hroom : s.channel.length < max cfg.queueCapacity 1) :
    ∃ m, runList (step cfg rt) [.next i, .next 0, .next 0, .next 0] s = some m ∧
      m.channel = s.channel ++ [⟨⟨s.nextId, spec, s.now, sem⟩, s.seq⟩] ∧
      m.submits = .sent s.nextId :: s.submits.eraseIdx i ∧
      m.slots.available = Function.update s.slots.available sem (s.slots.available sem - 1) := by
  simp only [runList, step, hi, submitNext, UserSlots.tryAcquire, if_neg hfree, Option.bind_some,
    List.getElem?_cons_zero, List.eraseIdx_cons_zero, if_pos hroom]
  exact ⟨_, rfl, rfl, rfl, rfl⟩

end Scheduler

/-- One request of a user at a time. -/
def lonelyConfig : SchedulerConfig :=
  { smallConfig with queueCapacity := 8, maxConcurrentPerUser := 1 }

/-- As many names as needed. -/
def userName (i : Nat) : String := String.ofList (List.replicate i 'u')

theorem userName_inj {i j : Nat} (h : userName i = userName j) : i = j := by
  have hlen := congrArg (fun name : String => name.toList.length) h
  simpa [userName] using hlen

def crowdRequest (i : Nat) : RequestSpec Int := requestOf (userName i) .normal

/-- `n` users look their semaphore up. -/
def crowd (n : Nat) : List (Action Int) := (List.range n).map fun i => .submit (crowdRequest i)

/-- What a crowd leaves behind. -/
structure Crowded {σ κ Γ : Type} (n : Nat) (s : Scheduler σ κ Int Γ) : Prop where
  table : s.slots.table = (List.range n).reverse.map fun i => (userName i, i)
  made : s.slots.made = n
  available : ∀ i < n, s.slots.available i = 1
  submits : s.submits = (List.range n).reverse.map fun i => .looked (crowdRequest i) i
  channel : s.channel = []

theorem lookup_userName (l : List Nat) {n : Nat} (h : n ∉ l) :
    (l.map fun i => (userName i, i)).lookup (userName n) = none := by
  induction l with
  | nil => rfl
  | cons i l ih =>
    obtain ⟨hne, hl⟩ := List.ne_and_not_mem_of_not_mem_cons h
    have hname : (userName n == userName i) = false :=
      beq_eq_false_iff_ne.mpr fun heq => hne (userName_inj heq)
    rw [List.map_cons, List.lookup_cons, hname]
    exact ih hl

theorem Crowded.table_length {n : Nat} {s : Scheduler σ κ Int Γ} (hs : Crowded n s) :
    s.slots.table.length = n := by
  rw [hs.table, List.length_map, List.length_reverse, List.length_range]

theorem crowd_run [DecidableEq κ] (rt : InferenceRuntime σ κ Int Γ) (w : World σ κ) :
    ∀ n ≤ USER_TABLE_HIGH_WATER + 1,
      ∃ s, Scheduler.run lonelyConfig rt w (crowd n) = some s ∧ Crowded n s := by
  intro n
  induction n with
  | zero =>
    intro _
    exact ⟨Scheduler.init w, rfl, rfl, rfl, fun i hi => absurd hi (Nat.not_lt_zero i), rfl, rfl⟩
  | succ n ih =>
    intro hn
    obtain ⟨s, hrun, hs⟩ := ih (Nat.le_of_succ_le hn)
    have hshort : s.slots.table.length ≤ USER_TABLE_HIGH_WATER := by
      rw [hs.table_length]
      exact Nat.le_of_succ_le_succ hn
    have hnew : s.slots.table.lookup (crowdRequest n).userId = none := by
      rw [hs.table]
      exact lookup_userName _ (by simp)
    refine ⟨s.lookup lonelyConfig (crowdRequest n), ?_, ?_⟩
    · unfold crowd
      rw [List.range_succ, List.map_append]
      exact runList_concat.mpr ⟨s, hrun, rfl⟩
    · rw [Scheduler.lookup_fresh hshort hnew]
      have hrange : (List.range (n + 1)).reverse = n :: (List.range n).reverse := by
        rw [List.range_succ, List.reverse_concat]
      refine ⟨?_, ?_, ?_, ?_, hs.channel⟩
      · rw [hrange, List.map_cons, ← hs.table, hs.made]
        rfl
      · exact congrArg (· + 1) hs.made
      · intro i hi
        show Function.update s.slots.available s.slots.made 1 i = 1
        rw [hs.made]
        rcases Nat.lt_succ_iff_lt_or_eq.mp hi with hi | rfl
        · rw [Function.update_of_ne hi.ne]
          exact hs.available i hi
        · exact Function.update_self _ _ _
      · rw [hrange, List.map_cons, ← hs.submits, hs.made]

theorem countP_channel_le [Weight K] {s : Scheduler σ κ K Γ} (user : String) :
    s.channel.countP (fun q => decide (q.request.spec.userId = user))
      ≤ s.livePermits.countP fun p => decide (p.user = user) := by
  unfold Scheduler.livePermits Scheduler.waiting
  simp only [List.countP_append, List.map_append, List.map_map, List.countP_map]
  have hsame : s.channel.countP (fun q => decide (q.request.spec.userId = user))
      = s.channel.countP ((fun p : UserSem => decide (p.user = user)) ∘
          Request.userSem ∘ Queued.request) := rfl
  omega

/-- What the next two lookups of a crowd leave: the table has forgotten everybody, and the last of
the crowd has a second semaphore. -/
theorem crowd_forgotten {s : Scheduler σ κ Int Γ} (hs : Crowded 1025 s) :
    ∃ m, m = (s.lookup lonelyConfig (crowdRequest 1025)).lookup lonelyConfig (crowdRequest 1024) ∧
      m.slots.available 1026 = 1 ∧ m.slots.available 1024 = 1 ∧ m.channel = [] ∧
      ∃ rest, m.submits = .looked (crowdRequest 1024) 1026 :: .looked (crowdRequest 1025) 1025 ::
        .looked (crowdRequest 1024) 1024 :: rest := by
  have hidle : ∀ e ∈ s.slots.table,
      s.slots.available e.2 = lonelyConfig.maxConcurrentPerUser := by
    intro e he
    rw [hs.table] at he
    obtain ⟨i, hi, rfl⟩ := List.mem_map.mp he
    exact hs.available i (List.mem_range.mp (List.mem_reverse.mp hi))
  have hlong : USER_TABLE_HIGH_WATER < s.slots.table.length := by
    rw [hs.table_length]
    exact Nat.lt_succ_self 1024
  have hrange : (List.range 1025).reverse = 1024 :: (List.range 1024).reverse := by
    rw [List.range_succ, List.reverse_concat]
  have hnew : [(userName 1025, 1025)].lookup (userName 1024) = none :=
    lookup_userName [1025] (by simp)
  rw [Scheduler.lookup_prune hlong hidle, Scheduler.lookup_fresh]
  · refine ⟨_, rfl, ?_, ?_, hs.channel, (List.range 1024).reverse.map fun i =>
      .looked (crowdRequest i) i, ?_⟩
    · show Function.update _ (s.slots.made + 1) 1 1026 = 1
      rw [hs.made, Function.update_self]
    · show Function.update (Function.update _ s.slots.made 1) (s.slots.made + 1) 1 1024 = 1
      rw [hs.made, Function.update_of_ne (by decide), Function.update_of_ne (by decide)]
      exact hs.available 1024 (Nat.lt_succ_self 1024)
    · show Submit.looked _ (s.slots.made + 1) :: .looked _ s.slots.made :: s.submits = _
      rw [hs.made, hs.submits, hrange, List.map_cons]
  · show 1 ≤ USER_TABLE_HIGH_WATER
    decide
  · rw [hs.made]
    exact hnew

/-- With one user more than the table keeps, the next lookup drops every semaphore nobody holds a
permit of. A submit of the last of the crowd has looked its semaphore up, and another submit of the
same user gets a new one: both take their permit. -/
theorem user_over_limit : ∃ as s user,
    Scheduler.run lonelyConfig tightRuntime emptyWorld as = some s ∧
      lonelyConfig.maxConcurrentPerUser
        < s.livePermits.countP (fun p => decide (p.user = user)) := by
  obtain ⟨s₀, hrun, hs⟩ := crowd_run tightRuntime emptyWorld 1025 (Nat.le_refl _)
  obtain ⟨s₁, hs₁, hnew, hold, hchannel, rest, hsubmits⟩ := crowd_forgotten hs
  have hfirst : s₁.submits[0]? = some (.looked (crowdRequest 1024) 1026) := by
    rw [hsubmits]
    rfl
  obtain ⟨s₂, hrun₂, hchannel₂, hsubmits₂, havail₂⟩ :=
    Scheduler.sends tightRuntime lonelyConfig hfirst (by rw [hnew]; decide)
      (by rw [hchannel]; decide)
  have hsecond : s₂.submits[2]? = some (.looked (crowdRequest 1024) 1024) := by
    rw [hsubmits₂, hsubmits]
    rfl
  obtain ⟨s₃, hrun₃, hchannel₃, _, _⟩ :=
    Scheduler.sends tightRuntime lonelyConfig hsecond
      (by rw [havail₂, Function.update_of_ne (by decide), hold]; decide)
      (by rw [hchannel₂, hchannel]; exact Nat.one_lt_two.trans (by decide))
  have hlooked : runList (Scheduler.step lonelyConfig tightRuntime)
      [.submit (crowdRequest 1025), .submit (crowdRequest 1024)] s₀ = some s₁ := by
    rw [hs₁]
    rfl
  have hboth := runList_append.mpr ⟨s₀, hrun, hlooked⟩
  have hone := runList_append.mpr ⟨s₁, hboth, hrun₂⟩
  refine ⟨_, s₃, userName 1024, runList_append.mpr ⟨s₂, hone, hrun₃⟩, ?_⟩
  refine Nat.lt_of_lt_of_le ?_ (countP_channel_le (userName 1024))
  rw [hchannel₃, hchannel₂, hchannel]
  simp [crowdRequest, requestOf, lonelyConfig]

/-- Where the table is short nothing is dropped from it. -/
theorem user_limit_alone : ∃ s,
    Scheduler.run lonelyConfig tightRuntime emptyWorld (submitAll "ada" .normal) = some s ∧
      s.livePermits.countP (fun p => decide (p.user = "ada")) ≤ 1 := by
  have hrun : (Scheduler.run lonelyConfig tightRuntime emptyWorld
      (submitAll "ada" .normal)).isSome = true := by
    decide
  obtain ⟨s, hs⟩ := Option.isSome_iff_exists.mp hrun
  refine ⟨s, hs, Scheduler.user_limit hs ?_ "ada"⟩
  intro pre a post m has hm spec ha hlong
  rw [ha] at has
  cases pre with
  | nil =>
    rw [← Option.some.inj hm] at hlong
    exact absurd hlong (Nat.not_lt_zero _)
  | cons b pre =>
    -- the only other steps are those of the same submit
    have hmem : Action.submit spec ∈ List.replicate 5 (Action.next 0) := by
      rw [(List.cons.inj has).2]
      exact List.mem_append_right pre List.mem_cons_self
    cases List.eq_of_mem_replicate hmem

end Garuda
