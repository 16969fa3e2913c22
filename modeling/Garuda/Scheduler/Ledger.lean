import Garuda.Scheduler.Machine

/-!
# The life of a request

What the scheduler is for, without its queues and loops: a request is made, waits, runs, is
counted once, is told how it ended and is let go. A `Ledger` says which requests are at which
stage; `Ledger.Call` is what callers do to it, `Ledger.Admit` and `Ledger.Serve` what the
scheduler does.

* `Ledger.Balanced` — every request accepted is in one place, or has been counted once
* `Ledger.Balanced.call`, `Ledger.Balanced.enter`, `Ledger.Balanced.serve` — nothing that happens
  loses or repeats one
-/

namespace Garuda

variable {K : Type}

/-- Which requests are at which stage. -/
@[ext]
structure Ledger (K : Type) where
  /-- Lookups of a semaphore that nothing has been taken from yet. -/
  looked : Multiset UserSem
  /-- Permits of submits that have not made a request yet. -/
  held : Multiset UserSem
  /-- Requests that have been made and not been sent. -/
  ready : Multiset (Request K)
  /-- Requests sent that the caller has not been told about. -/
  sending : Multiset Nat
  handles : Multiset Nat
  waiting : Multiset (Request K)
  running : Multiset (Request K)
  /-- Requests counted that have not been dropped. -/
  leaving : Multiset (Request K)
  outbox : Option (Nat × StreamEvent)
  streams : Nat → Stream
  counters : Counters
  slots : UserSlots
  nextId : Nat
  book : Book

/-- Whose permit a request has, and from which semaphore. -/
def Request.userSem (r : Request K) : UserSem := ⟨r.spec.userId, r.permit⟩

namespace Ledger

/-- The requests of a bag, by their numbers. -/
def ids (rs : Multiset (Request K)) : Multiset Nat := rs.map Request.id

/-- The permits of the requests of a bag. -/
def permits (rs : Multiset (Request K)) : Multiset UserSem := rs.map Request.userSem

/-- Every permit that is out. -/
def out (l : Ledger K) : Multiset UserSem :=
  l.held + permits l.ready + permits l.waiting + permits l.running + permits l.leaving

def countedIds (l : Ledger K) : Multiset Nat := (l.book.counted.map Prod.fst : List Nat)

/-- An event after which there is none. -/
def Last : StreamEvent → Prop
  | .token _ => False
  | .done _ => True
  | .error _ => True

def mark (l : Ledger K) (r : Request K) (o : Outcome) : Ledger K :=
  { l with
    counters := l.counters.add o
    book := { l.book with counted := (r.id, o) :: l.book.counted } }

def onStream (l : Ledger K) (id : Nat) (f : Stream → Stream) : Ledger K :=
  { l with streams := Function.update l.streams id (f (l.streams id)) }

def tell (l : Ledger K) (id : Nat) (event : StreamEvent) : Ledger K :=
  if (l.streams id).closed then l else l.onStream id (Stream.push · event)

/-! ## What can happen -/

/-- A caller looks the user's semaphore up. -/
def look (cfg : SchedulerConfig) (user : String) (l : Ledger K) : Ledger K :=
  { l with
    looked := ⟨user, (l.slots.userSemaphore cfg.maxConcurrentPerUser user).1⟩ ::ₘ l.looked
    slots := (l.slots.userSemaphore cfg.maxConcurrentPerUser user).2 }

/-- What else callers do. -/
inductive Call (l : Ledger K) : Ledger K → Prop where
  | take {p : UserSem} {rest : Multiset UserSem} {slots : UserSlots}
      (h : l.looked = p ::ₘ rest) (hslots : l.slots.tryAcquire p.sem = some slots) :
      Call l { l with looked := rest, held := p ::ₘ l.held, slots := slots }
  | limited {p : UserSem} {rest : Multiset UserSem} (h : l.looked = p ::ₘ rest) :
      Call l { l with
        looked := rest
        counters := { l.counters with rejectedRateLimit := l.counters.rejectedRateLimit + 1 } }
  | make {r : Request K} {rest : Multiset UserSem} (h : l.held = r.userSem ::ₘ rest)
      (hid : r.id = l.nextId) :
      Call l { l with held := rest, ready := r ::ₘ l.ready, nextId := l.nextId + 1 }
  | accept {r : Request K} {rest : Multiset (Request K)} (h : l.ready = r ::ₘ rest) :
      Call l { l with
        ready := rest
        sending := r.id ::ₘ l.sending
        waiting := r ::ₘ l.waiting
        book := { l.book with accepted := r.id :: l.book.accepted } }
  | busy {r : Request K} {rest : Multiset (Request K)} (h : l.ready = r ::ₘ rest) :
      Call l { l with
        ready := rest
        slots := l.slots.release r.permit
        counters := { l.counters with rejectedBusy := l.counters.rejectedBusy + 1 } }
  | confirm {id : Nat} {rest : Multiset Nat} (h : l.sending = id ::ₘ rest) :
      Call l { l with
        sending := rest
        handles := id ::ₘ l.handles
        counters := { l.counters with submitted := l.counters.submitted + 1 } }
  | cancel {id : Nat} (h : id ∈ l.handles) : Call l (l.onStream id Stream.cancel)
  | close {id : Nat} (h : id ∈ l.handles) : Call l (l.onStream id Stream.close)
  | idle : Call l l

/-- The scheduler lets a waiting request run, while there is room. -/
inductive Admit (cfg : SchedulerConfig) (l : Ledger K) : Ledger K → Prop where
  | mk {r : Request K} {rest : Multiset (Request K)} (h : l.waiting = r ::ₘ rest)
      (hroom : l.running.card < max cfg.maxConcurrent 1) (hquiet : l.outbox = none)
      (hhere : (l.streams r.id).cancelled = false) :
      Admit cfg l { l with waiting := rest, running := r ::ₘ l.running }

/-- What else the scheduler does. -/
inductive Serve (l : Ledger K) : Ledger K → Prop where
  /-- A waiting request whose client has gone is dropped without a word. -/
  | abandon {r : Request K} {rest : Multiset (Request K)} (h : l.waiting = r ::ₘ rest)
      (hquiet : l.outbox = none)
      (hgone : (l.streams r.id).cancelled = true ∨ (l.streams r.id).closed = true) :
      Serve l { ({ l with waiting := rest, leaving := r ::ₘ l.leaving }.mark r .cancelled) with
        outbox := none }
  | token {r : Request K} (h : r ∈ l.running) (t : Token) (hquiet : l.outbox = none) :
      Serve l (l.tell r.id (.token t))
  /-- A running request whose receiver is closed is dropped. -/
  | hangUp {r : Request K} {rest : Multiset (Request K)} (h : l.running = r ::ₘ rest)
      (hquiet : l.outbox = none) (hclosed : (l.streams r.id).closed = true) :
      Serve l { ({ l with running := rest, leaving := r ::ₘ l.leaving }.mark r .cancelled) with
        outbox := none }
  | retire {r : Request K} {rest : Multiset (Request K)} (h : l.running = r ::ₘ rest)
      (o : Outcome) {event : StreamEvent} (hlast : Last event) (hquiet : l.outbox = none) :
      Serve l { ({ l with running := rest, leaving := r ::ₘ l.leaving }.mark r o) with
        outbox := some (r.id, event) }
  | flush {id : Nat} {event : StreamEvent} (h : l.outbox = some (id, event)) :
      Serve l ({ l with outbox := none }.tell id event)
  | release {r : Request K} {rest : Multiset (Request K)} (h : l.leaving = r ::ₘ rest)
      (hquiet : l.outbox = none) :
      Serve l { l with
        leaving := rest
        slots := l.slots.release r.permit
        book := { l.book with released := r.id :: l.book.released } }
  | idle : Serve l l

/-! ## Nothing is lost or repeated -/

/-- Every request accepted is waiting, running, or has been counted, in one of the three; what has
been counted is about to be dropped or has been; the counters are what has been counted. -/
structure Balanced (l : Ledger K) : Prop where
  accepted : ∀ i, (l.book.accepted : Multiset Nat).count i
    = (ids l.waiting).count i + (ids l.running).count i + l.countedIds.count i
  counted : ∀ i, l.countedIds.count i
    = (ids l.leaving).count i + (l.book.released : Multiset Nat).count i
  fresh : ∀ i, (l.book.accepted : Multiset Nat).count i + (ids l.ready).count i
    ≤ if i < l.nextId then 1 else 0
  told : ∀ i, l.sending.count i + l.handles.count i ≤ (l.book.accepted : Multiset Nat).count i
  submitted : l.counters.submitted + l.sending.card = l.book.accepted.length
  counters : ∀ o, l.counters.get o = (l.book.counted.map Prod.snd).count o

variable {cfg : SchedulerConfig} {l m : Ledger K}

@[simp] theorem ids_cons (r : Request K) (rs : Multiset (Request K)) :
    ids (r ::ₘ rs) = r.id ::ₘ ids rs := Multiset.map_cons _ _ _

@[simp] theorem permits_cons (r : Request K) (rs : Multiset (Request K)) :
    permits (r ::ₘ rs) = r.userSem ::ₘ permits rs := Multiset.map_cons _ _ _

@[simp] theorem counters_get_add (c : Counters) (o o' : Outcome) :
    (c.add o).get o' = c.get o' + if o' = o then 1 else 0 := by
  cases o <;> cases o' <;> rfl

@[simp] theorem counters_add_submitted (c : Counters) (o : Outcome) :
    (c.add o).submitted = c.submitted := by
  cases o <;> rfl

theorem tell_eq (l : Ledger K) (id : Nat) (event : StreamEvent) :
    l.tell id event = { l with streams := (l.tell id event).streams } := by
  unfold tell
  split <;> rfl

theorem Balanced.congr_streams (h : l.Balanced) (streams : Nat → Stream) :
    Balanced { l with streams := streams } :=
  ⟨h.accepted, h.counted, h.fresh, h.told, h.submitted, h.counters⟩

theorem Balanced.tell (h : l.Balanced) (id : Nat) (event : StreamEvent) :
    (l.tell id event).Balanced := by
  rw [tell_eq]
  exact h.congr_streams _

/-- A request moves from `waiting` or `running` to `leaving` and is counted. -/
theorem Balanced.mark (h : l.Balanced) {r : Request K} {waiting running : Multiset (Request K)}
    (o : Outcome) (hmove : l.waiting + l.running = r ::ₘ (waiting + running))
    (outbox : Option (Nat × StreamEvent)) :
    Balanced { ({ l with waiting := waiting, running := running, leaving := r ::ₘ l.leaving }.mark
      r o) with outbox := outbox } := by
  have hids : ∀ i, (ids l.waiting).count i + (ids l.running).count i
      = (ids waiting).count i + (ids running).count i + if i = r.id then 1 else 0 := by
    intro i
    have hmap := congrArg (fun rs => (ids rs).count i) hmove
    simpa [ids, Multiset.map_add, Multiset.count_cons] using hmap
  refine ⟨?_, ?_, h.fresh, h.told, ?_, ?_⟩
  · intro i
    have := h.accepted i
    have := hids i
    simp only [Ledger.mark, countedIds, List.map_cons, ← Multiset.cons_coe,
      Multiset.count_cons] at *
    omega
  · intro i
    have := h.counted i
    simp only [Ledger.mark, countedIds, List.map_cons, ← Multiset.cons_coe,
      Multiset.count_cons, ids_cons] at *
    omega
  · have := h.submitted
    simpa [Ledger.mark] using this
  · intro o'
    have := h.counters o'
    simp only [Ledger.mark, counters_get_add, List.map_cons, List.count_cons, beq_iff_eq] at *
    rw [this]
    congr 1
    simp only [eq_comm]

theorem Balanced.look (h : l.Balanced) (user : String) : (l.look cfg user).Balanced :=
  ⟨h.accepted, h.counted, h.fresh, h.told, h.submitted, h.counters⟩

theorem Balanced.call (h : l.Balanced) (hcall : Call l m) : m.Balanced := by
  cases hcall with
  | take _ _ => exact ⟨h.accepted, h.counted, h.fresh, h.told, h.submitted, h.counters⟩
  | limited _ =>
    exact ⟨h.accepted, h.counted, h.fresh, h.told, h.submitted, fun o => by
      have ho := h.counters o
      cases o <;> exact ho⟩
  | @make r rest _ hid =>
    refine ⟨h.accepted, h.counted, ?_, h.told, h.submitted, h.counters⟩
    intro i
    have hi := h.fresh i
    simp only [ids_cons, Multiset.count_cons, hid]
    split at hi
    · rw [if_neg (by omega), if_pos (by omega)]
      exact hi
    · split <;> split <;> omega
  | @accept r rest hready =>
    refine ⟨?_, h.counted, ?_, ?_, ?_, h.counters⟩
    · intro i
      have hi := h.accepted i
      simp only [← Multiset.cons_coe, Multiset.count_cons, ids_cons] at hi ⊢
      show _ = _ + _ + l.countedIds.count i
      omega
    · intro i
      have hi := h.fresh i
      rw [hready] at hi
      simp only [← Multiset.cons_coe, Multiset.count_cons, ids_cons] at hi ⊢
      omega
    · intro i
      have hi := h.told i
      simp only [← Multiset.cons_coe, Multiset.count_cons] at hi ⊢
      omega
    · have hi := h.submitted
      simp only [Multiset.card_cons, List.length_cons]
      omega
  | @busy r rest hready =>
    refine ⟨h.accepted, h.counted, ?_, h.told, h.submitted, fun o => by
      have ho := h.counters o
      cases o <;> exact ho⟩
    intro i
    have hi := h.fresh i
    rw [hready, ids_cons, Multiset.count_cons] at hi
    show (l.book.accepted : Multiset Nat).count i + (ids rest).count i ≤ _
    exact le_trans (by omega) hi
  | @confirm id rest hsending =>
    refine ⟨h.accepted, h.counted, h.fresh, ?_, ?_, fun o => by
      have ho := h.counters o
      cases o <;> exact ho⟩
    · intro i
      have hi := h.told i
      rw [hsending, Multiset.count_cons] at hi
      simp only [Multiset.count_cons]
      omega
    · have hi := h.submitted
      rw [hsending, Multiset.card_cons] at hi
      show l.counters.submitted + 1 + rest.card = l.book.accepted.length
      omega
  | cancel _ => exact h.congr_streams _
  | close _ => exact h.congr_streams _
  | idle => exact h

theorem Balanced.enter (h : l.Balanced) (henter : Admit cfg l m) : m.Balanced := by
  obtain @⟨r, rest, hwaiting, _, _, _⟩ := henter
  refine ⟨?_, h.counted, h.fresh, h.told, h.submitted, h.counters⟩
  intro i
  have hi := h.accepted i
  rw [hwaiting] at hi
  simp only [ids_cons, Multiset.count_cons] at hi ⊢
  show _ = _ + _ + l.countedIds.count i
  omega

theorem Balanced.serve (h : l.Balanced) (hserve : Serve l m) : m.Balanced := by
  cases hserve with
  | abandon hwaiting _ _ =>
    exact h.mark .cancelled (by rw [hwaiting, Multiset.cons_add]) none
  | token _ t _ => exact h.tell _ _
  | hangUp hrunning _ _ =>
    exact h.mark .cancelled (by rw [hrunning, Multiset.add_cons]) none
  | retire hrunning o _ _ => exact h.mark o (by rw [hrunning, Multiset.add_cons]) _
  | flush _ =>
    have h' : Balanced { l with outbox := none } :=
      ⟨h.accepted, h.counted, h.fresh, h.told, h.submitted, h.counters⟩
    exact h'.tell _ _
  | @release r rest hleaving _ =>
    refine ⟨h.accepted, ?_, h.fresh, h.told, h.submitted, h.counters⟩
    intro i
    have hi := h.counted i
    rw [hleaving] at hi
    simp only [ids_cons, ← Multiset.cons_coe, Multiset.count_cons] at hi ⊢
    show l.countedIds.count i = _
    omega
  | idle => exact h

/-! ## Who waits and who runs -/

/-- Serving makes nobody wait or run. -/
theorem serve_shrinks (hserve : Serve l m) : m.waiting ≤ l.waiting ∧ m.running ≤ l.running := by
  cases hserve with
  | @abandon r rest hwaiting _ _ =>
    rw [hwaiting]
    exact ⟨Multiset.le_cons_self rest r, le_refl _⟩
  | token _ t _ =>
    rw [tell_eq]
    exact ⟨le_refl _, le_refl _⟩
  | @hangUp r rest hrunning _ _ =>
    rw [hrunning]
    exact ⟨le_refl _, Multiset.le_cons_self rest r⟩
  | @retire r rest hrunning o _ _ _ =>
    rw [hrunning]
    exact ⟨le_refl _, Multiset.le_cons_self rest r⟩
  | flush _ =>
    rw [tell_eq]
    exact ⟨le_refl _, le_refl _⟩
  | release _ _ => exact ⟨le_refl _, le_refl _⟩
  | idle => exact ⟨le_refl _, le_refl _⟩

theorem admit_shrinks (henter : Admit cfg l m) : m.waiting ≤ l.waiting := by
  obtain @⟨r, rest, hwaiting, _, _, _⟩ := henter
  rw [hwaiting]
  exact Multiset.le_cons_self rest r

theorem admit_room (henter : Admit cfg l m) : m.running.card ≤ max cfg.maxConcurrent 1 := by
  obtain @⟨r, rest, _, hroom, _, _⟩ := henter
  rw [Multiset.card_cons]
  exact hroom

/-- Callers make nobody run. -/
theorem call_running (hcall : Call l m) : m.running = l.running := by
  cases hcall <;> rfl

/-! ## Every request is at one stage -/

theorem Balanced.accepted_le_one (h : l.Balanced) (i : Nat) :
    (l.book.accepted : Multiset Nat).count i ≤ 1 := by
  have hi := h.fresh i
  split at hi <;> omega

theorem Balanced.waiting_alone (h : l.Balanced) {i : Nat} (hi : i ∈ ids l.waiting) :
    i ∉ ids l.running ∧ i ∉ l.countedIds := by
  have hone := h.accepted_le_one i
  rw [h.accepted i] at hone
  have hpos := Multiset.count_pos.mpr hi
  exact ⟨Multiset.count_eq_zero.mp (by omega), Multiset.count_eq_zero.mp (by omega)⟩

theorem Balanced.running_alone (h : l.Balanced) {i : Nat} (hi : i ∈ ids l.running) :
    i ∉ ids l.waiting ∧ i ∉ l.countedIds := by
  have hone := h.accepted_le_one i
  rw [h.accepted i] at hone
  have hpos := Multiset.count_pos.mpr hi
  exact ⟨Multiset.count_eq_zero.mp (by omega), Multiset.count_eq_zero.mp (by omega)⟩

theorem Balanced.released_alone (h : l.Balanced) {i : Nat} (hi : i ∈ l.book.released) :
    i ∉ ids l.leaving ∧ i ∈ l.countedIds := by
  have hone := h.accepted_le_one i
  rw [h.accepted i] at hone
  have hpos : 0 < (l.book.released : Multiset Nat).count i :=
    Multiset.count_pos.mpr (Multiset.mem_coe.mpr hi)
  have hcounted := h.counted i
  exact ⟨Multiset.count_eq_zero.mp (by omega), Multiset.count_pos.mp (by omega)⟩

/-- A request at some stage has been accepted. -/
theorem Balanced.mem_accepted (h : l.Balanced) {i : Nat}
    (hi : i ∈ ids l.waiting ∨ i ∈ ids l.running ∨ i ∈ l.countedIds) : i ∈ l.book.accepted := by
  rw [← Multiset.mem_coe, ← Multiset.count_pos, h.accepted i]
  rcases hi with hi | hi | hi
  · have := Multiset.count_pos.mpr hi
    omega
  · have := Multiset.count_pos.mpr hi
    omega
  · have := Multiset.count_pos.mpr hi
    omega

/-- How many requests are where. -/
theorem Balanced.length_accepted (h : l.Balanced) : l.book.accepted.length
    = l.waiting.card + l.running.card + l.book.counted.length := by
  have heq : (l.book.accepted : Multiset Nat) = ids l.waiting + ids l.running + l.countedIds := by
    refine Multiset.ext.mpr fun i => ?_
    rw [Multiset.count_add, Multiset.count_add, h.accepted i]
  have hcard := congrArg Multiset.card heq
  simpa [ids, countedIds] using hcard

theorem length_eq_sum_outcomes (os : List Outcome) : os.length
    = os.count .completed + os.count .cancelled + os.count .timedOut + os.count .failed := by
  induction os with
  | nil => rfl
  | cons o os ih => cases o <;> simp <;> omega

/-- The four counters add up to what has been counted. -/
theorem Balanced.length_counted (h : l.Balanced) : l.book.counted.length
    = l.counters.completed + l.counters.cancelled + l.counters.timedOut + l.counters.failed := by
  have hlen := length_eq_sum_outcomes (l.book.counted.map Prod.snd)
  rw [List.length_map, ← h.counters, ← h.counters, ← h.counters, ← h.counters] at hlen
  exact hlen

/-! ## Permits -/

theorem accounted_look (h : l.slots.Accounted cfg.maxConcurrentPerUser l.looked l.out)
    (user : String) : (l.look cfg user).slots.Accounted cfg.maxConcurrentPerUser
      (l.look cfg user).looked (l.look cfg user).out := h.userSemaphore user

/-- Every permit that is out is held by a submit, or by a request that has not been dropped. -/
theorem accounted_call (h : l.slots.Accounted cfg.maxConcurrentPerUser l.looked l.out)
    (hcall : Call l m) : m.slots.Accounted cfg.maxConcurrentPerUser m.looked m.out := by
  cases hcall with
  | @take p rest slots hlooked hslots =>
    rw [hlooked] at h
    simpa [out, Multiset.cons_add] using h.tryAcquire hslots
  | limited hlooked =>
    rw [hlooked] at h
    exact h.refuse
  | @make r rest hheld _ =>
    simpa [out, hheld, Multiset.cons_add, Multiset.add_cons] using h
  | @accept r rest hready =>
    simpa [out, hready, Multiset.cons_add, Multiset.add_cons] using h
  | @busy r rest hready =>
    refine UserSlots.Accounted.release (p := r.userSem) ?_
    simpa [out, hready, Multiset.cons_add, Multiset.add_cons] using h
  | confirm _ => exact h
  | cancel _ => exact h
  | close _ => exact h
  | idle => exact h

theorem tell_out (l : Ledger K) (id : Nat) (event : StreamEvent) :
    (l.tell id event).out = l.out ∧ (l.tell id event).slots = l.slots ∧
      (l.tell id event).looked = l.looked := by
  rw [tell_eq]
  exact ⟨rfl, rfl, rfl⟩

/-- What serving does to the permits: nothing, or one goes back. -/
theorem serve_out (hserve : Serve l m) : m.looked = l.looked ∧
    (m.out = l.out ∧ m.slots = l.slots ∨
      ∃ p, l.out = p ::ₘ m.out ∧ m.slots = l.slots.release p.sem) := by
  cases hserve with
  | abandon hwaiting _ _ =>
    exact ⟨rfl, Or.inl ⟨by simp [out, mark, hwaiting, Multiset.cons_add, Multiset.add_cons], rfl⟩⟩
  | token _ t _ =>
    obtain ⟨hout, hslots, hlooked⟩ := tell_out l _ _
    exact ⟨hlooked, Or.inl ⟨hout, hslots⟩⟩
  | hangUp hrunning _ _ =>
    exact ⟨rfl, Or.inl ⟨by simp [out, mark, hrunning, Multiset.cons_add, Multiset.add_cons], rfl⟩⟩
  | retire hrunning o _ _ =>
    exact ⟨rfl, Or.inl ⟨by simp [out, mark, hrunning, Multiset.cons_add, Multiset.add_cons], rfl⟩⟩
  | flush _ =>
    obtain ⟨hout, hslots, hlooked⟩ := tell_out { l with outbox := none } _ _
    exact ⟨hlooked, Or.inl ⟨hout, hslots⟩⟩
  | @release r rest hleaving _ =>
    exact ⟨rfl, Or.inr ⟨r.userSem, by simp [out, hleaving, Multiset.add_cons], rfl⟩⟩
  | idle => exact ⟨rfl, Or.inl ⟨rfl, rfl⟩⟩

theorem accounted_enter (h : l.slots.Accounted cfg.maxConcurrentPerUser l.looked l.out)
    (henter : Admit cfg l m) : m.slots.Accounted cfg.maxConcurrentPerUser m.looked m.out := by
  obtain ⟨hwaiting, _, _, _⟩ := henter
  simpa [out, hwaiting, Multiset.cons_add, Multiset.add_cons] using h

theorem accounted_serve (h : l.slots.Accounted cfg.maxConcurrentPerUser l.looked l.out)
    (hserve : Serve l m) : m.slots.Accounted cfg.maxConcurrentPerUser m.looked m.out := by
  obtain ⟨hlooked, ⟨hout, hslots⟩ | ⟨p, hout, hslots⟩⟩ := serve_out hserve
  · rw [hlooked, hout, hslots]
    exact h
  · rw [hout] at h
    rw [hlooked, hslots]
    exact h.release

end Ledger

end Garuda
