import Garuda.Scheduler.UserLimit

/-!
# Who waits and who is next

* `Scheduler.queue_bounded_iff` — when the queue stays within its capacity: the channel is
  bounded, but the loop empties it into a heap that is not
* `Scheduler.run_channel` — what is bounded is the channel
* `Scheduler.exists_fill` — submits alone fill the channel, whatever is in the heap
* `Scheduler.queue_unbounded` — a run in which it does not
* `Scheduler.admission_policy` — no more requests run than may, and none is let in before one
  that should go first
-/

namespace Garuda

open Infra

variable {σ κ K Γ : Type} {cfg : SchedulerConfig} {s m : Scheduler σ κ K Γ}

namespace Scheduler

/-! ## Who goes next -/

/-- `x` should go before `q`: it has a higher priority, or the same and is older. -/
def Before (x q : Queued K) : Prop :=
  compare q.priority x.priority = .lt ∨ x.priority = q.priority ∧ x.seq < q.seq

theorem before_iff {x q : Queued K} : Before x q ↔ Queued.cmp q x = .lt := by
  rw [Queued.cmp_lt_iff, Before, Priority.compare_eq, Nat.compare_eq_lt, eq_comm (a := q.priority)]

/-- The requests taken from the heap that have not started. -/
def admitted (s : Scheduler σ κ K Γ) : List (Queued K) :=
  match s.phase with
  | .admission admitted => admitted
  | .start admitted => admitted
  | _ => []

/-- Nobody in the heap should go before a request that is about to start. -/
def Fair (s : Scheduler σ κ K Γ) : Prop := ∀ q ∈ s.admitted, ∀ x ∈ s.heap, ¬ Before x q

theorem Fair.mono (hs : s.Fair) (hadmitted : ∀ q ∈ m.admitted, q ∈ s.admitted)
    (hheap : ∀ x ∈ m.heap, x ∈ s.heap) : m.Fair :=
  fun q hq x hx => hs q (hadmitted q hq) x (hheap x hx)

theorem fair_of_nil (h : m.admitted = []) : m.Fair := by
  intro q hq
  rw [h] at hq
  cases hq

theorem Admits.fair {q : Queued K} (h : s.Admits q m) (hs : s.Fair) :
    (∀ x ∈ m.heap, ¬ Before x q) ∧ m.Fair := by
  obtain ⟨admitted, heap, hphase, hpop, rfl⟩ := h
  have hmax : ∀ x ∈ heap, ¬ Before x q := by
    intro x hx
    rw [before_iff]
    exact popMax_max hpop x hx
  refine ⟨hmax, ?_⟩
  intro p hp x hx
  rcases List.mem_append.mp hp with hp | hp
  · refine hs p ?_ x ((popMax_perm hpop).mem_iff.mpr (List.mem_cons_of_mem q hx))
    simpa only [Scheduler.admitted, hphase] using hp
  · rw [List.mem_singleton.mp hp]
    exact hmax x hx

/-- An admission lets nobody new be about to start, or a maximum of the heap. -/
theorem admitNext_admitted {l : List (Queued K)} (hphase : s.phase = .admission l) :
    ((∀ q ∈ (s.admitNext cfg l).admitted, q ∈ s.admitted) ∧
        ∀ x ∈ (s.admitNext cfg l).heap, x ∈ s.heap) ∨
      ∃ q, s.Admits q (s.admitNext cfg l) := by
  have hsame : s.admitted = l := by simp only [admitted, hphase]
  unfold admitNext
  split
  · split
    · left
      rw [hsame]
      exact ⟨fun q hq => hq, fun x hx => hx⟩
    · next q heap hpop =>
      simp only
      split
      · left
        refine ⟨fun p hp => ?_, fun x hx => ?_⟩
        · simpa only [admitted, retire, count, hphase] using hp
        · exact (popMax_perm hpop).mem_iff.mpr (List.mem_cons_of_mem q hx)
      · exact Or.inr ⟨q, l, heap, hphase, hpop, rfl⟩
  · left
    rw [hsame]
    exact ⟨fun q hq => hq, fun x hx => hx⟩

variable [Weight K] [DecidableEq κ] {rt : InferenceRuntime σ κ K Γ}
variable {w : World σ κ} {as : List (Action K)}

/-- A start takes one that was about to start, and leaves the heap. -/
theorem startNext_admitted {l : List (Queued K)} (hphase : s.phase = .start l) :
    (s.startNext rt l).admitted = [] ∨
      (∀ q ∈ (s.startNext rt l).admitted, q ∈ s.admitted) ∧
        ∀ x ∈ (s.startNext rt l).heap, x ∈ s.heap := by
  have hsame : s.admitted = l := by simp only [admitted, hphase]
  unfold startNext
  split
  · next q rest =>
    right
    rw [hsame]
    unfold admitOne
    split
    · exact ⟨fun p hp => List.mem_cons_of_mem q hp, fun x hx => hx⟩
    · exact ⟨fun p hp => List.mem_cons_of_mem q hp, fun x hx => hx⟩
  · split <;> exact Or.inl rfl

/-- What a step of the loop does: it takes the head of the channel, admits or starts a request, or
lets nobody be about to start and leaves the channel. -/
theorem runLoop_cases (hm : s.runLoop cfg rt = some m) :
    m.admitted = [] ∧ (m.channel = s.channel ∨ ∃ q, s.channel = q :: m.channel) ∨
      (∃ l, s.phase = .admission l ∧ m = s.admitNext cfg l) ∨
      ∃ l, s.phase = .start l ∧ m = s.startNext rt l := by
  unfold runLoop at hm
  cases hphase : s.phase with
  | top =>
    rw [hphase] at hm
    change s.topNext = some m at hm
    unfold topNext at hm
    split at hm
    · split at hm
      · cases hm
      · next q channel hchannel =>
        rw [← Option.some.inj hm]
        exact Or.inl ⟨rfl, Or.inr ⟨q, hchannel⟩⟩
    · rw [← Option.some.inj hm]
      exact Or.inl ⟨rfl, Or.inl rfl⟩
  | drain =>
    rw [hphase] at hm
    rw [← Option.some.inj hm]
    unfold drainNext
    split
    · exact Or.inl ⟨rfl, Or.inl rfl⟩
    · next q channel hchannel =>
      exact Or.inl ⟨by simp only [admitted, hphase], Or.inr ⟨q, hchannel⟩⟩
  | scan rest =>
    rw [hphase] at hm
    rw [← Option.some.inj hm]
    unfold scanNext
    split
    · exact Or.inl ⟨rfl, Or.inl rfl⟩
    · split <;> exact Or.inl ⟨rfl, Or.inl rfl⟩
  | sweep rest =>
    rw [hphase] at hm
    rw [← Option.some.inj hm]
    unfold sweepNext
    split
    · exact Or.inl ⟨rfl, Or.inl rfl⟩
    · simp only
      split <;> exact Or.inl ⟨rfl, Or.inl rfl⟩
  | admission l =>
    rw [hphase] at hm
    exact Or.inr (Or.inl ⟨l, rfl, (Option.some.inj hm).symm⟩)
  | start l =>
    rw [hphase] at hm
    exact Or.inr (Or.inr ⟨l, rfl, (Option.some.inj hm).symm⟩)
  | prefill now budget rest still =>
    rw [hphase] at hm
    rw [← Option.some.inj hm]
    unfold prefillNext
    split
    · exact Or.inl ⟨rfl, Or.inl rfl⟩
    · split <;> exact Or.inl ⟨rfl, Or.inl rfl⟩
  | advance now budget p rest still =>
    rw [hphase] at hm
    rw [← Option.some.inj hm]
    unfold advanceNext
    split <;> exact Or.inl ⟨rfl, Or.inl rfl⟩
  | stepBatch =>
    rw [hphase] at hm
    rw [← Option.some.inj hm]
    exact Or.inl ⟨rfl, Or.inl rfl⟩
  | retain now rest =>
    rw [hphase] at hm
    rw [← Option.some.inj hm]
    unfold retainNext
    split
    · split <;> exact Or.inl ⟨rfl, Or.inl rfl⟩
    · split <;> exact Or.inl ⟨rfl, Or.inl rfl⟩
  | decode =>
    rw [hphase] at hm
    change s.decode cfg rt = some m at hm
    unfold decode at hm
    split at hm
    · rw [← Option.some.inj hm]
      exact Or.inl ⟨rfl, Or.inl rfl⟩
    · split at hm
      · cases hm
      · rw [← Option.some.inj hm]
        exact Or.inl ⟨rfl, Or.inl rfl⟩
  | stream a tokens outcome =>
    rw [hphase] at hm
    rw [← Option.some.inj hm]
    unfold streamNext
    split
    · split
      · exact Or.inl ⟨rfl, Or.inl rfl⟩
      · unfold send
        split <;> exact Or.inl ⟨rfl, Or.inl rfl⟩
    · exact Or.inl ⟨rfl, Or.inl rfl⟩
    · exact Or.inl ⟨rfl, Or.inl rfl⟩
  | deliver rest done =>
    rw [hphase] at hm
    rw [← Option.some.inj hm]
    unfold deliverNext
    split
    · exact Or.inl ⟨rfl, Or.inl rfl⟩
    · split
      · exact Or.inl ⟨rfl, Or.inl rfl⟩
      · unfold send
        split <;> exact Or.inl ⟨rfl, Or.inl rfl⟩
    · exact Or.inl ⟨rfl, Or.inl rfl⟩
  | settle rest =>
    rw [hphase] at hm
    rw [← Option.some.inj hm]
    unfold settleNext
    split <;> exact Or.inl ⟨rfl, Or.inl rfl⟩

/-- A step of the loop lets nobody be about to start, or nobody new, or a maximum of the heap. -/
theorem runLoop_admitted (hm : s.runLoop cfg rt = some m) :
    m.admitted = [] ∨
      ((∀ q ∈ m.admitted, q ∈ s.admitted) ∧ ∀ x ∈ m.heap, x ∈ s.heap) ∨ ∃ q, s.Admits q m := by
  rcases runLoop_cases hm with ⟨hnil, -⟩ | ⟨l, hphase, rfl⟩ | ⟨l, hphase, rfl⟩
  · exact Or.inl hnil
  · exact Or.inr (admitNext_admitted hphase)
  · exact (startNext_admitted hphase).imp_right Or.inl

theorem loopNext_fair (hs : s.Fair) (hm : s.loopNext cfg rt = some m) : m.Fair := by
  unfold loopNext at hm
  split at hm
  · rw [← Option.some.inj hm]
    unfold send
    split <;> exact hs
  · rw [← Option.some.inj hm]
    exact hs
  · rcases runLoop_admitted hm with hnil | ⟨hadmitted, hheap⟩ | ⟨q, hq⟩
    · exact fair_of_nil hnil
    · exact hs.mono hadmitted hheap
    · exact (hq.fair hs).2

omit [Weight K] [DecidableEq κ] in
theorem submitNext_fair (hs : s.Fair) {t : Submit K} (hm : s.submitNext cfg t = some m) :
    m.Fair := by
  unfold submitNext at hm
  split at hm
  · split at hm
    · rw [← Option.some.inj hm]
      exact hs
    · rw [← Option.some.inj hm]
      exact hs
  · rw [← Option.some.inj hm]
    exact hs
  · rw [← Option.some.inj hm]
    exact hs
  · split at hm
    · rw [← Option.some.inj hm]
      exact hs
    · rw [← Option.some.inj hm]
      exact hs
  · rw [← Option.some.inj hm]
    exact hs
  · cases hm

theorem Fair.step {a : Action K} (hs : s.Fair) (hm : s.step cfg rt a = some m) : m.Fair := by
  cases a with
  | submit spec =>
    rw [← Option.some.inj hm]
    exact hs
  | next i =>
    simp only [Scheduler.step] at hm
    split at hm
    · cases hm
    · have hs' : ({ s with submits := s.submits.eraseIdx i } : Scheduler σ κ K Γ).Fair := hs
      exact submitNext_fair hs' hm
  | cancel id =>
    simp only [Scheduler.step] at hm
    split at hm
    · rw [← Option.some.inj hm]
      exact hs
    · cases hm
  | close id =>
    simp only [Scheduler.step] at hm
    split at hm
    · rw [← Option.some.inj hm]
      exact hs
    · cases hm
  | tick d =>
    rw [← Option.some.inj hm]
    exact hs
  | pace chunk =>
    simp only [Scheduler.step] at hm
    split at hm
    · rw [← Option.some.inj hm]
      exact hs
    · cases hm
  | loop => exact loopNext_fair hs hm

/-- No more requests are admitted than may run at once. -/
theorem run_room (h : run cfg rt w as = some s) :
    s.running.length ≤ max cfg.maxConcurrent 1 := by
  have hroom : ∀ (s : Scheduler σ κ K Γ) (a : Action K) (m : Scheduler σ κ K Γ),
      s.step cfg rt a = some m → s.Shaped ∧ s.running.length ≤ max cfg.maxConcurrent 1 →
        m.Shaped ∧ m.running.length ≤ max cfg.maxConcurrent 1 := by
    rintro s a m hstep ⟨hshaped, hs⟩
    obtain ⟨⟨spec, _, hlook⟩ | hcall | hserve | ⟨henter, _⟩, hshaped⟩ :=
      step_ledger hshaped hstep
    · have hsame : m.ledger.running = s.ledger.running := by
        rw [hlook]
        rfl
      exact ⟨hshaped, (congrArg Multiset.card hsame).le.trans hs⟩
    · have hsame : m.ledger.running.card = s.ledger.running.card := by
        rw [Ledger.call_running hcall]
      exact ⟨hshaped, hsame.le.trans hs⟩
    · exact ⟨hshaped, (Multiset.card_le_card (Ledger.serve_shrinks hserve).2).trans hs⟩
    · exact ⟨hshaped, Ledger.admit_room henter⟩
  exact (runList_invariant hroom h ⟨(init_sound cfg w).shaped, Nat.zero_le _⟩).2

/-- Who is admitted by a step, is taken from the heap by it. -/
theorem step_admits {a : Action K} (hs : s.Shaped) (hm : s.step cfg rt a = some m)
    {r : Request K} (hr : r ∈ m.running) (hnew : r ∉ s.running) :
    ∃ q, s.Admits q m ∧ q.request = r := by
  obtain ⟨⟨spec, _, hlook⟩ | hcall | hserve | ⟨_, q, hq⟩, _⟩ := step_ledger hs hm
  · have hsame : m.ledger.running = s.ledger.running := by
      rw [hlook]
      rfl
    have hmem : r ∈ s.ledger.running := by
      rw [← hsame]
      exact Multiset.mem_coe.mpr hr
    exact absurd (Multiset.mem_coe.mp hmem) hnew
  · have hsame : r ∈ s.ledger.running := by
      rw [← Ledger.call_running hcall]
      exact Multiset.mem_coe.mpr hr
    exact absurd (Multiset.mem_coe.mp hsame) hnew
  · have hless := Multiset.mem_of_le (Ledger.serve_shrinks hserve).2 (Multiset.mem_coe.mpr hr)
    exact absurd (Multiset.mem_coe.mp hless) hnew
  · refine ⟨q, hq, ?_⟩
    obtain ⟨l, heap, hphase, _, rfl⟩ := hq
    simp only [running, hphase, Phase.running, List.map_append, List.map_cons, List.map_nil,
      List.mem_append, List.mem_singleton] at hr hnew
    tauto

/-- **The admission policy.** The requests admitted, active or prefilling, are never more than
`max(max_concurrent, 1)`; whenever a request is admitted, and until it starts, nobody in the heap
has a higher priority, or the same and a smaller sequence number. The order is lawful and agrees
with equality. -/
theorem admission_policy (h : run cfg rt w as = some s) :
    s.active.length + s.prefilling.length ≤ s.running.length ∧
    s.running.length ≤ max cfg.maxConcurrent 1 ∧
    (∀ a m, s.step cfg rt a = some m → ∀ r ∈ m.running, r ∉ s.running →
      ∃ q, q.request = r ∧ q ∈ m.admitted ∧ ∀ x ∈ m.heap, ¬ Before x q) ∧
    (∀ q ∈ s.admitted, ∀ x ∈ s.heap, ¬ Before x q) ∧
    ∀ a b c : Queued K, Queued.cmp a b = (Queued.cmp b a).swap ∧
      ((Queued.cmp a b).isLE = true → (Queued.cmp b c).isLE = true →
        (Queued.cmp a c).isLE = true) ∧
      (Queued.eq a b = true ↔ Queued.cmp a b = .eq) := by
  have hfair : s.Fair :=
    runList_invariant (fun _ _ _ hstep hs => Fair.step hs hstep) h (fair_of_nil rfl)
  refine ⟨?_, run_room h, ?_, hfair, Queued.cmp_lawful⟩
  · simp only [running, List.length_append, List.length_map]
    omega
  · intro a m hm r hr hnew
    obtain ⟨q, hq, rfl⟩ := step_admits (run_sound h).shaped hm hr hnew
    refine ⟨q, rfl, ?_, (hq.fair hfair).1⟩
    obtain ⟨l, heap, _, _, rfl⟩ := hq
    exact List.mem_append_right l (List.mem_singleton_self q)

/-! ## The queue's capacity -/

/-- A submit finds room in the channel. -/
def FindsRoom (cfg : SchedulerConfig) (s : Scheduler σ κ K Γ) (a : Action K) : Prop :=
  ∃ i q, a = .next i ∧ s.submits[i]? = some (.ready q) ∧
    s.channel.length < max cfg.queueCapacity 1

/-- The submit about to send its request is refused as queue-full. -/
def Refused (cfg : SchedulerConfig) (rt : InferenceRuntime σ κ K Γ) (s : Scheduler σ κ K Γ)
    (i : Nat) : Prop :=
  ∀ m, s.step cfg rt (.next i) = some m →
    m.submits = .returned (.error .busy) :: s.submits.eraseIdx i

theorem refused_iff {i : Nat} {q : Queued K} (hi : s.submits[i]? = some (.ready q)) :
    Refused cfg rt s i ↔ ¬ s.channel.length < max cfg.queueCapacity 1 := by
  constructor
  · intro h hroom
    have hm := h { s with
      submits := .sent q.request.id :: s.submits.eraseIdx i
      channel := s.channel ++ [q]
      book := { s.book with accepted := q.request.id :: s.book.accepted } }
      (by simp only [step, hi, submitNext, if_pos hroom])
    cases (List.cons.inj hm).1
  · intro hfull m hm
    simp only [step, hi, submitNext, if_neg hfull] at hm
    rw [← Option.some.inj hm]

/-- What the loop has pulled out of the channel and neither admitted nor dropped. -/
def pulled (s : Scheduler σ κ K Γ) : List (Request K) :=
  s.heap.map Queued.request ++ s.phase.waiting

omit [Weight K] [DecidableEq κ] in
theorem waiting_length (s : Scheduler σ κ K Γ) :
    s.waiting.length = s.channel.length + s.pulled.length := by
  simp only [waiting, pulled, List.length_append, List.length_map]
  omega

/-- A submit that finds room in the channel comes when nothing is in the heap; and the queue may
hold something at all. -/
def FindsHeapEmpty (cfg : SchedulerConfig) (s : Scheduler σ κ K Γ) (a : Action K) : Prop :=
  FindsRoom cfg s a → 0 < cfg.queueCapacity ∧ s.pulled = []

/-! ### The channel is bounded -/

/-- The loop puts nothing into the channel. -/
theorem runLoop_channel (hm : s.runLoop cfg rt = some m) : m.channel.length ≤ s.channel.length := by
  rcases runLoop_cases hm with ⟨-, hsame | ⟨q, htaken⟩⟩ | ⟨l, -, rfl⟩ | ⟨l, -, rfl⟩
  · rw [hsame]
  · rw [htaken]
    exact Nat.le_succ _
  · unfold admitNext
    split
    · split
      · exact Nat.le_refl _
      · simp only
        split <;> exact Nat.le_refl _
    · exact Nat.le_refl _
  · unfold startNext
    split
    · unfold admitOne
      split <;> exact Nat.le_refl _
    · split <;> exact Nat.le_refl _

theorem loopNext_channel (hm : s.loopNext cfg rt = some m) :
    m.channel.length ≤ s.channel.length := by
  unfold loopNext at hm
  split at hm
  · rw [← Option.some.inj hm]
    unfold send
    split <;> exact Nat.le_refl _
  · rw [← Option.some.inj hm]
    exact Nat.le_refl _
  · exact runLoop_channel hm

omit [Weight K] [DecidableEq κ] in
/-- A submit puts at most one request into the channel, where there is room for it, and leaves
what has been pulled alone. -/
theorem submitNext_channel {t : Submit K} (hm : s.submitNext cfg t = some m) :
    m.pulled = s.pulled ∧ (m.channel.length ≤ s.channel.length ∨
      s.channel.length < max cfg.queueCapacity 1 ∧
        m.channel.length = s.channel.length + 1) := by
  unfold submitNext at hm
  split at hm
  · split at hm
    · rw [← Option.some.inj hm]
      exact ⟨rfl, Or.inl (Nat.le_refl _)⟩
    · rw [← Option.some.inj hm]
      exact ⟨rfl, Or.inl (Nat.le_refl _)⟩
  · rw [← Option.some.inj hm]
    exact ⟨rfl, Or.inl (Nat.le_refl _)⟩
  · rw [← Option.some.inj hm]
    exact ⟨rfl, Or.inl (Nat.le_refl _)⟩
  · split at hm
    · next hroom =>
      rw [← Option.some.inj hm]
      exact ⟨rfl, Or.inr ⟨hroom, List.length_append⟩⟩
    · rw [← Option.some.inj hm]
      exact ⟨rfl, Or.inl (Nat.le_refl _)⟩
  · rw [← Option.some.inj hm]
    exact ⟨rfl, Or.inl (Nat.le_refl _)⟩
  · cases hm

/-- What a step that is not the loop's does to the channel. -/
theorem step_channel {a : Action K} (ha : a ≠ .loop) (hm : s.step cfg rt a = some m) :
    m.pulled = s.pulled ∧ (m.channel.length ≤ s.channel.length ∨
      s.channel.length < max cfg.queueCapacity 1 ∧
        m.channel.length = s.channel.length + 1) := by
  cases a with
  | submit spec =>
    rw [← Option.some.inj hm]
    exact ⟨rfl, Or.inl (Nat.le_refl _)⟩
  | next i =>
    simp only [step] at hm
    split at hm
    · cases hm
    · exact submitNext_channel (s := { s with submits := s.submits.eraseIdx i }) hm
  | cancel id =>
    simp only [step] at hm
    split at hm
    · rw [← Option.some.inj hm]
      exact ⟨rfl, Or.inl (Nat.le_refl _)⟩
    · cases hm
  | close id =>
    simp only [step] at hm
    split at hm
    · rw [← Option.some.inj hm]
      exact ⟨rfl, Or.inl (Nat.le_refl _)⟩
    · cases hm
  | tick d =>
    rw [← Option.some.inj hm]
    exact ⟨rfl, Or.inl (Nat.le_refl _)⟩
  | pace chunk =>
    simp only [step] at hm
    split at hm
    · rw [← Option.some.inj hm]
      exact ⟨rfl, Or.inl (Nat.le_refl _)⟩
    · cases hm
  | loop => exact absurd rfl ha

theorem channel_step {a : Action K} (hs : s.channel.length ≤ max cfg.queueCapacity 1)
    (hm : s.step cfg rt a = some m) : m.channel.length ≤ max cfg.queueCapacity 1 := by
  by_cases ha : a = .loop
  · subst ha
    exact (loopNext_channel hm).trans hs
  · rcases (step_channel ha hm).2 with hle | ⟨hroom, hlen⟩
    · exact hle.trans hs
    · omega

/-- **The channel is bounded.** -/
theorem run_channel (h : run cfg rt w as = some s) :
    s.channel.length ≤ max cfg.queueCapacity 1 :=
  runList_invariant (fun _ _ _ hstep hs => channel_step hs hstep) h (Nat.zero_le _)

/-- Until the loop's next step nothing is pulled, and the channel keeps its bound. -/
theorem unlooped {bs : List (Action K)} (hbs : .loop ∉ bs)
    (h : runList (step cfg rt) bs s = some m) (hs : s.channel.length ≤ max cfg.queueCapacity 1) :
    m.pulled = s.pulled ∧ m.channel.length ≤ max cfg.queueCapacity 1 := by
  induction bs generalizing s with
  | nil =>
    rw [← Option.some.inj h]
    exact ⟨rfl, hs⟩
  | cons a bs ih =>
    obtain ⟨ha, hbs⟩ := List.ne_and_not_mem_of_not_mem_cons hbs
    obtain ⟨t, ht, hrun⟩ := runList_cons.mp h
    obtain ⟨hpulled, hchannel⟩ := ih hbs hrun (channel_step hs ht)
    exact ⟨hpulled.trans (step_channel (Ne.symm ha) ht).1, hchannel⟩

/-! ### Submits fill it -/

omit [DecidableEq κ] in
/-- A request of a user nobody has heard of. -/
theorem exists_newcomer (s : Scheduler σ κ K Γ) :
    ∃ spec : RequestSpec K, ∀ e ∈ s.slots.table, e.1 ≠ spec.userId := by
  have hmany : (Set.range userName).Infinite :=
    Set.infinite_range_of_injective fun _ _ h => userName_inj h
  obtain ⟨user, _, hnew⟩ := hmany.exists_notMem_finset (s.slots.table.map Prod.fst).toFinset
  refine ⟨{ userId := user, prompt := [], params := ⟨0, 0, 0, 0, none⟩, priority := .normal
            timeout := 0 }, fun e he heq => hnew ?_⟩
  exact List.mem_toFinset.mpr (List.mem_map.mpr ⟨e, he, heq⟩)

omit [Weight K] [DecidableEq κ] in
/-- A newcomer's semaphore is full. -/
theorem lookup_newcomer (cfg : SchedulerConfig) {spec : RequestSpec K}
    (hnew : ∀ e ∈ s.slots.table, e.1 ≠ spec.userId) :
    (s.lookup cfg spec).submits[0]? = some (.looked spec s.slots.made) ∧
      (s.lookup cfg spec).slots.available s.slots.made = cfg.maxConcurrentPerUser ∧
      (s.lookup cfg spec).channel = s.channel := by
  have hnone : (s.slots.prune cfg.maxConcurrentPerUser).table.lookup spec.userId = none := by
    refine List.lookup_eq_none_iff.mpr fun e he => ?_
    exact bne_iff_ne.mpr (hnew e (UserSlots.prune_table_subset e he)).symm
  unfold lookup UserSlots.userSemaphore
  rw [UserSlots.entry_of_none hnone]
  simp

variable (rt) in
/-- One more request in the channel, from submits alone. -/
theorem exists_send (hmax : 0 < cfg.maxConcurrentPerUser)
    (hroom : s.channel.length < max cfg.queueCapacity 1) :
    ∃ bs m, .loop ∉ bs ∧ runList (step cfg rt) bs s = some m ∧
      m.channel.length = s.channel.length + 1 := by
  obtain ⟨spec, hnew⟩ := exists_newcomer s
  obtain ⟨hsubmit, hfull, hchannel⟩ := lookup_newcomer cfg hnew
  obtain ⟨m, hrun, hm, _⟩ := sends rt cfg hsubmit (by rw [hfull]; exact hmax.ne')
    (by rw [hchannel]; exact hroom)
  refine ⟨[.submit spec, .next 0, .next 0, .next 0, .next 0], m, by simp,
    runList_cons.mpr ⟨_, rfl, hrun⟩, ?_⟩
  rw [hm, hchannel, List.length_append, List.length_singleton]

variable (rt) in
/-- **Submits alone fill the channel**, whatever is in the heap. -/
theorem exists_fill (hmax : 0 < cfg.maxConcurrentPerUser) (n : Nat)
    (hroom : s.channel.length + n ≤ max cfg.queueCapacity 1) :
    ∃ bs m, .loop ∉ bs ∧ runList (step cfg rt) bs s = some m ∧
      m.channel.length = s.channel.length + n := by
  induction n with
  | zero => exact ⟨[], s, List.not_mem_nil, rfl, rfl⟩
  | succ n ih =>
    obtain ⟨bs, t, hbs, ht, hlen⟩ := ih (by omega)
    obtain ⟨cs, m, hcs, hm, hone⟩ := exists_send (s := t) rt hmax (by omega)
    refine ⟨bs ++ cs, m, ?_, runList_append.mpr ⟨t, ht, hm⟩, by omega⟩
    rw [List.mem_append, not_or]
    exact ⟨hbs, hcs⟩

/-! ### The queue -/

/-- A submit over an empty heap keeps the queue within its capacity. -/
theorem FindsHeapEmpty.step {a : Action K} (hs : s.Shaped)
    (hle : s.waiting.length ≤ cfg.queueCapacity) (ha : FindsHeapEmpty cfg s a)
    (hm : s.step cfg rt a = some m) : m.waiting.length ≤ cfg.queueCapacity := by
  rcases step_waiting hs hm with hshrinks | ⟨i, q, rfl, hi, hroom, hlen⟩
  · exact hshrinks.trans hle
  · obtain ⟨hcap, hpulled⟩ := ha ⟨i, q, rfl, hi, hroom⟩
    rw [hlen, waiting_length, hpulled, List.length_nil]
    omega

/-- **When the queue stays within its capacity.** In a run in which every submit that finds room in
the channel comes when the heap is empty, never more than `queue_capacity` requests wait in the
channel and in the heap, and a submit beyond is refused. And nothing less is enough: where the heap
of a state that a run reaches is not empty, submits alone, before the loop's next step, make it
more. -/
theorem queue_bounded_iff (cfg : SchedulerConfig) (rt : InferenceRuntime σ κ K Γ)
    (w : World σ κ) (as : List (Action K)) :
    (EachStep (step cfg rt) (FindsHeapEmpty cfg) as (init w) →
      (∀ pre post m, as = pre ++ post → run cfg rt w pre = some m →
        m.waiting.length ≤ cfg.queueCapacity) ∧
      ∀ pre i post m q, as = pre ++ .next i :: post → run cfg rt w pre = some m →
        m.submits[i]? = some (.ready q) → cfg.queueCapacity ≤ m.waiting.length →
        Refused cfg rt m i) ∧
    ∀ m, run cfg rt w as = some m → 0 < cfg.maxConcurrentPerUser →
      ((∀ bs t, .loop ∉ bs → runList (step cfg rt) bs m = some t →
        t.waiting.length ≤ cfg.queueCapacity) ↔ 0 < cfg.queueCapacity ∧ m.pulled = []) := by
  constructor
  · intro hempty
    constructor
    · rintro pre post m rfl hm
      have hinit : (init w : Scheduler σ κ K Γ).waiting.length ≤ cfg.queueCapacity :=
        Nat.zero_le _
      refine (EachStep.invariant (P := fun m : Scheduler σ κ K Γ =>
        m.Shaped ∧ m.waiting.length ≤ cfg.queueCapacity) ?_ hempty.before hm
        ⟨(init_sound cfg w).shaped, hinit⟩).2
      intro m a t hstep hfind hm
      exact ⟨(step_ledger hm.1 hstep).2, hfind.step hm.1 hm.2 hstep⟩
    · intro pre i post m q has hm hi hfull
      refine (refused_iff hi).mpr fun hroom => ?_
      obtain ⟨hcap, hpulled⟩ := hempty pre _ post m has hm ⟨i, q, rfl, hi, hroom⟩
      rw [waiting_length, hpulled, List.length_nil] at hfull
      omega
  · intro m hm hmax
    have hchannel := run_channel hm
    constructor
    · intro hbounded
      obtain ⟨bs, t, hbs, ht, hfull⟩ := exists_fill (s := m) rt hmax
        (max cfg.queueCapacity 1 - m.channel.length) (by omega)
      have hle := hbounded bs t hbs ht
      rw [waiting_length, (unlooped hbs ht hchannel).1] at hle
      exact ⟨by omega, List.eq_nil_of_length_eq_zero (by omega)⟩
    · rintro ⟨hcap, hpulled⟩ bs t hbs ht
      obtain ⟨hsame, hle⟩ := unlooped hbs ht hchannel
      rw [waiting_length, hsame, hpulled, List.length_nil]
      omega

end Scheduler

/-- The queue has one place; the loop takes the first request into its heap, and the second one
finds the channel empty. -/
theorem queue_unbounded : ∃ as s,
    Scheduler.run smallConfig tightRuntime emptyWorld as = some s ∧
      smallConfig.queueCapacity < s.waiting.length := by
  have hrun : (Scheduler.run smallConfig tightRuntime emptyWorld
      (submitAll "ada" .normal ++ [.loop] ++ submitAll "bob" .normal)).any
        (fun s => decide (smallConfig.queueCapacity < s.waiting.length)) = true := by
    decide
  obtain ⟨s, hs, hmany⟩ := (Option.any_eq_true _ _).mp hrun
  exact ⟨_, s, hs, of_decide_eq_true hmany⟩

/-- A second request while the loop has not pulled the first. -/
def crowdedRun : List (Action Int) :=
  submitAll "ada" .normal ++ .submit (requestOf "bob" .normal) :: List.replicate 4 (.next 0)

/-- It is refused; once the loop has pulled the first, a second is not. -/
theorem queue_bounded_iff_crowded :
    (∃ s, Scheduler.run smallConfig tightRuntime emptyWorld crowdedRun = some s ∧
      s.counters.rejectedBusy = 1 ∧ s.waiting.length ≤ smallConfig.queueCapacity) ∧
    ∃ s bs t, Scheduler.run smallConfig tightRuntime emptyWorld
        (submitAll "ada" .normal ++ [.loop]) = some s ∧
      .loop ∉ bs ∧ runList (Scheduler.step smallConfig tightRuntime) bs s = some t ∧
      smallConfig.queueCapacity < t.waiting.length := by
  constructor
  · have hrun : (Scheduler.run smallConfig tightRuntime emptyWorld crowdedRun).any
        (fun s => decide (s.counters.rejectedBusy = 1)) = true := by
      decide
    obtain ⟨s, hs, hbusy⟩ := (Option.any_eq_true _ _).mp hrun
    refine ⟨s, hs, of_decide_eq_true hbusy, ?_⟩
    refine ((Scheduler.queue_bounded_iff smallConfig tightRuntime emptyWorld crowdedRun).1 ?_).1
      crowdedRun [] s (List.append_nil _).symm hs
    -- the loop takes no step, so nothing is ever in the heap
    intro pre a post m has hm _
    have hpre : Action.loop ∉ pre := by
      intro hmem
      have hall : Action.loop ∈ crowdedRun := by
        rw [has]
        exact List.mem_append_left _ hmem
      simp [crowdedRun, submitAll] at hall
    exact ⟨Nat.one_pos, (Scheduler.unlooped hpre hm (Nat.zero_le _)).1⟩
  · have hrun : (Scheduler.run smallConfig tightRuntime emptyWorld
        (submitAll "ada" .normal ++ [.loop])).any
          (fun s => decide (s.pulled.length = 1)) = true := by
      decide
    obtain ⟨s, hs, hpulled⟩ := (Option.any_eq_true _ _).mp hrun
    have hone := of_decide_eq_true hpulled
    by_contra hnone
    push Not at hnone
    have hempty := (((Scheduler.queue_bounded_iff smallConfig tightRuntime emptyWorld _).2 s hs
      (by decide)).mp fun bs t hbs ht => hnone s bs t hs hbs ht).2
    rw [hempty] at hone
    cases hone

/-- Two requests wait, the more urgent one behind the other. -/
def contestedRun : List (Action Int) :=
  submitAll "ada" .low ++ submitAll "bob" .high ++ List.replicate 6 .loop

/-- A queue with room for both. -/
def wideConfig : SchedulerConfig := { smallConfig with queueCapacity := 8 }

theorem admission_policy_urgent : ∃ s q,
    Scheduler.run wideConfig tightRuntime emptyWorld (contestedRun ++ [.loop]) = some s ∧
      s.admitted = [q] ∧ q.request.spec.userId = "bob" ∧ s.heap.length = 1 ∧
      ∀ x ∈ s.heap, ¬ Scheduler.Before x q := by
  have hrun : (Scheduler.run wideConfig tightRuntime emptyWorld (contestedRun ++ [.loop])).any
      (fun s => decide (s.admitted.map (fun q => q.request.spec.userId) = ["bob"] ∧
        s.heap.length = 1)) = true := by
    decide
  obtain ⟨s, hs, hfacts⟩ := (Option.any_eq_true _ _).mp hrun
  obtain ⟨hbob, hlen⟩ := of_decide_eq_true hfacts
  obtain ⟨q, hq, hname⟩ := List.map_eq_singleton_iff.mp hbob
  have hpolicy := (Scheduler.admission_policy hs).2.2.2.1
  exact ⟨s, q, hs, hq, hname, hlen, hpolicy q (by rw [hq]; exact List.mem_singleton_self q)⟩

end Garuda
