import Garuda.Scheduler.Ledger

/-!
# The machine keeps a ledger

What stage the machine's containers and the variables of its loops put every request at, and that
no step does anything to a request that the ledger does not allow.

* `Scheduler.ledger` — the ledger of a state
* `Scheduler.step_call`, `Scheduler.step_serve` — every step is a step of the ledger
* `Scheduler.run_balanced`, `Scheduler.run_accounted` — so nothing is lost in any run
-/

namespace Garuda

open Infra

variable {σ κ K Γ : Type}

namespace Submit

def looked? : Submit K → Option UserSem
  | looked spec sem => some ⟨spec.userId, sem⟩
  | _ => none

def held? : Submit K → Option UserSem
  | holding spec sem => some ⟨spec.userId, sem⟩
  | numbered spec sem _ => some ⟨spec.userId, sem⟩
  | _ => none

def ready? : Submit K → Option (Request K)
  | ready q => some q.request
  | _ => none

def sending? : Submit K → Option Nat
  | sent id => some id
  | _ => none

end Submit

namespace Phase

/-- Waiting requests that are in none of the containers. -/
def waiting : Phase σ K Γ → List (Request K)
  | sweep rest => rest.map Queued.request
  | _ => []

/-- Admitted requests that are in none of the containers. -/
def running : Phase σ K Γ → List (Request K)
  | admission admitted => admitted.map Queued.request
  | start admitted => admitted.map Queued.request
  | prefill _ _ rest still => rest.map Prefilling.request ++ still.map Prefilling.request
  | advance _ _ p rest still =>
    p.request :: (rest.map Prefilling.request ++ still.map Prefilling.request)
  | retain _ rest => rest.map Active.request
  | stream a _ _ => [a.request]
  | deliver rest done =>
    rest.map (fun x => x.1.request) ++ (done.filter fun x => !x.2).map fun x => x.1.request
  | settle rest => (rest.filter fun x => !x.2).map fun x => x.1.request
  | _ => []

/-- Requests that have been counted, and are kept until the batch has been reported. -/
def leaving : Phase σ K Γ → List (Request K)
  | deliver _ done => (done.filter fun x => x.2).map fun x => x.1.request
  | settle rest => (rest.filter fun x => x.2).map fun x => x.1.request
  | _ => []

end Phase

namespace Scheduler

/-- The requests waiting: in the channel and in the heap. -/
def waiting (s : Scheduler σ κ K Γ) : List (Request K) :=
  s.channel.map Queued.request ++ s.heap.map Queued.request ++ s.phase.waiting

/-- The requests admitted: prefilling and active. -/
def running (s : Scheduler σ κ K Γ) : List (Request K) :=
  s.phase.running ++ s.prefilling.map Prefilling.request ++ s.active.map Active.request

def ledger (s : Scheduler σ κ K Γ) : Ledger K where
  looked := s.submits.filterMap Submit.looked?
  held := s.submits.filterMap Submit.held?
  ready := s.submits.filterMap Submit.ready?
  sending := s.submits.filterMap Submit.sending?
  handles := s.handles
  waiting := s.waiting
  running := s.running
  leaving := s.leaving ++ s.phase.leaving
  outbox := s.outbox
  streams := s.streams
  counters := s.counters
  slots := s.slots
  nextId := s.nextId
  book := s.book

/-! ## Callers -/

/-- One submit apart from the others. -/
theorem filterMap_eraseIdx {α β : Type} {l : List α} {i : Nat} {t : α} (h : l[i]? = some t)
    (f : α → Option β) :
    (l.filterMap f : Multiset β) = ((t :: l.eraseIdx i).filterMap f : List β) := by
  obtain ⟨hi, rfl⟩ := List.getElem?_eq_some_iff.mp h
  exact Multiset.coe_eq_coe.mpr ((List.getElem_cons_eraseIdx_perm hi).symm.filterMap f)

variable {cfg : SchedulerConfig} {s m : Scheduler σ κ K Γ}

theorem ledger_pull {i : Nat} {t : Submit K} (h : s.submits[i]? = some t) :
    s.ledger = { s with submits := t :: s.submits.eraseIdx i }.ledger := by
  unfold ledger handles
  simp only [filterMap_eraseIdx h]
  rfl

/-- What joins the end of a list joins its requests. -/
theorem coe_map_snoc {α : Type} (f : α → Request K) (l : List α) (x : α) :
    (((l ++ [x]).map f : List (Request K)) : Multiset (Request K))
      = f x ::ₘ (l.map f : List (Request K)) := by
  rw [List.map_append, List.map_singleton, ← Multiset.coe_add, add_comm, Multiset.coe_singleton,
    Multiset.singleton_add]

theorem ledger_push (q : Queued K) : { s with channel := s.channel ++ [q] }.ledger
    = { s.ledger with waiting := q.request ::ₘ s.ledger.waiting } := by
  have hwaiting : (({ s with channel := s.channel ++ [q] }.waiting : List _) : Multiset (Request K))
      = q.request ::ₘ (s.waiting : Multiset (Request K)) := by
    unfold waiting
    simp only [← Multiset.coe_add, coe_map_snoc, Multiset.cons_add]
  unfold ledger
  rw [hwaiting]
  rfl

/-- A step of `submit` is a step of the ledger. -/
theorem submitNext_call {i : Nat} {t : Submit K} (h : s.submits[i]? = some t)
    (hm : { s with submits := s.submits.eraseIdx i }.submitNext cfg t = some m) :
    Ledger.Call s.ledger m.ledger := by
  rw [ledger_pull h]
  cases t with
  | looked spec sem =>
    simp only [submitNext] at hm
    cases hp : s.slots.tryAcquire sem with
    | some slots =>
      rw [hp] at hm
      rw [← Option.some.inj hm]
      exact .take (p := ⟨spec.userId, sem⟩) rfl hp
    | none =>
      rw [hp] at hm
      rw [← Option.some.inj hm]
      exact .limited rfl
  | holding spec sem =>
    rw [← Option.some.inj hm]
    exact .idle
  | numbered spec sem seq =>
    rw [← Option.some.inj hm]
    exact .make rfl rfl
  | ready q =>
    simp only [submitNext] at hm
    split at hm
    · rw [← Option.some.inj hm]
      have hledger := ledger_push (s := { s with
        submits := .sent q.request.id :: s.submits.eraseIdx i
        book := { s.book with accepted := q.request.id :: s.book.accepted } }) q
      rw [hledger]
      exact .accept (r := q.request) rfl
    · rw [← Option.some.inj hm]
      exact .busy rfl
  | sent id =>
    rw [← Option.some.inj hm]
    exact .confirm rfl
  | returned result => cases hm

/-! ## The loop -/

variable {r : Request K} {o : Outcome} {event : Option StreamEvent}

/-- Why a running request may be counted: its receiver is closed, or there is something to tell
it. -/
def Excuse (s : Scheduler σ κ K Γ) (r : Request K) (o : Outcome) (event : Option StreamEvent) :
    Prop :=
  event = none ∧ o = .cancelled ∧ (s.streams r.id).closed = true ∨
    ∃ e, event = some e ∧ Ledger.Last e

theorem check_excuse {now deadline : Nat} (h : s.check now deadline r = some (o, event)) :
    s.Excuse r o event := by
  unfold check at h
  split at h
  · obtain ⟨_, rfl⟩ := Prod.mk.inj (Option.some.inj h)
    exact Or.inr ⟨_, rfl, trivial⟩
  · split at h
    · next hclosed =>
      obtain ⟨rfl, rfl⟩ := Prod.mk.inj (Option.some.inj h)
      exact Or.inl ⟨rfl, rfl, hclosed⟩
    · split at h
      · obtain ⟨_, rfl⟩ := Prod.mk.inj (Option.some.inj h)
        exact Or.inr ⟨_, rfl, trivial⟩
      · cases h

/-- Nothing but the places of requests differs. -/
def Moves (s t : Scheduler σ κ K Γ) : Prop :=
  t.ledger = { s.ledger with
    waiting := t.waiting, running := t.running, leaving := (t.leaving ++ t.phase.leaving : List _) }

theorem Moves.same {t : Scheduler σ κ K Γ} (h : s.Moves t)
    (hwaiting : (t.waiting : Multiset (Request K)) = s.waiting)
    (hrunning : (t.running : Multiset (Request K)) = s.running)
    (hleaving : ((t.leaving ++ t.phase.leaving : List (Request K)) : Multiset (Request K))
      = (s.leaving ++ s.phase.leaving : List (Request K))) : t.ledger = s.ledger := by
  rw [h, hwaiting, hrunning, hleaving]
  rfl

theorem idle_serve {t : Scheduler σ κ K Γ} (h : s.Moves t)
    (hwaiting : (t.waiting : Multiset (Request K)) = s.waiting)
    (hrunning : (t.running : Multiset (Request K)) = s.running)
    (hleaving : ((t.leaving ++ t.phase.leaving : List (Request K)) : Multiset (Request K))
      = (s.leaving ++ s.phase.leaving : List (Request K))) :
    Ledger.Serve s.ledger t.ledger := by
  rw [h.same hwaiting hrunning hleaving]
  exact .idle

/-- A running request is counted and told; `t` is the state with the request in its new place. -/
theorem count_serve {t : Scheduler σ κ K Γ} (event : Option StreamEvent) (h : s.Moves t)
    (hrunning : (s.running : Multiset (Request K)) = r ::ₘ (t.running : Multiset (Request K)))
    (hwaiting : (t.waiting : Multiset (Request K)) = s.waiting)
    (hleaving : ((t.leaving ++ t.phase.leaving : List (Request K)) : Multiset (Request K))
      = r ::ₘ ((s.leaving ++ s.phase.leaving : List (Request K)) : Multiset (Request K)))
    (hquiet : s.outbox = none) (hexcuse : s.Excuse r o event) :
    Ledger.Serve s.ledger
      { t.count r o with outbox := event.map fun e => (r.id, e) }.ledger := by
  have heq : t.ledger = { s.ledger with
      running := t.running, leaving := r ::ₘ s.ledger.leaving } := by
    rw [h, hwaiting, hleaving]
    rfl
  have hcount : { t.count r o with outbox := event.map fun e => (r.id, e) }.ledger
      = { t.ledger.mark r o with outbox := event.map fun e => (r.id, e) } := rfl
  rw [hcount, heq]
  rcases hexcuse with ⟨rfl, rfl, hclosed⟩ | ⟨e, rfl, hlast⟩
  · exact .hangUp hrunning hquiet hclosed
  · exact .retire hrunning o hlast hquiet

/-- A running request is taken out of wherever it is, counted, told and dropped. -/
theorem retire_serve {t : Scheduler σ κ K Γ} (h : s.Moves t)
    (hrunning : (s.running : Multiset (Request K)) = r ::ₘ (t.running : Multiset (Request K)))
    (hwaiting : (t.waiting : Multiset (Request K)) = s.waiting)
    (hphase : t.phase.leaving = s.phase.leaving)
    (hquiet : s.outbox = none) (hleaving : s.leaving = [])
    (hexcuse : s.Excuse r o event) : Ledger.Serve s.ledger (t.retire r o event).ledger := by
  refine count_serve (t := { t with leaving := [r] }) event ?_ hrunning hwaiting ?_ hquiet hexcuse
  · unfold Moves at h ⊢
    have hlater : ({ t with leaving := [r] } : Scheduler σ κ K Γ).ledger
        = { t.ledger with leaving := ([r] ++ t.phase.leaving : List _) } := rfl
    rw [hlater, h]
    rfl
  · rw [hleaving, hphase]
    rfl

/-- A waiting request is taken out of wherever it is, counted and dropped. -/
theorem abandon_serve {t : Scheduler σ κ K Γ} (h : s.Moves t)
    (hwaiting : (s.waiting : Multiset (Request K)) = r ::ₘ (t.waiting : Multiset (Request K)))
    (hrunning : (t.running : Multiset (Request K)) = s.running)
    (hphase : t.phase.leaving = s.phase.leaving)
    (hquiet : s.outbox = none) (hleaving : s.leaving = []) (hgone : s.gone r = true) :
    Ledger.Serve s.ledger (t.retire r .cancelled none).ledger := by
  have heq : (t.retire r .cancelled none).ledger = { ({ s.ledger with
      waiting := t.waiting, leaving := r ::ₘ s.ledger.leaving }.mark r .cancelled) with
        outbox := none } := by
    have hretire : (t.retire r .cancelled none).ledger = { ({ t.ledger with
        leaving := ([r] ++ t.phase.leaving : List _) }.mark r .cancelled) with
          outbox := none } := rfl
    have hout : s.ledger.leaving = (s.phase.leaving : Multiset (Request K)) := by
      unfold ledger
      rw [hleaving, List.nil_append]
    rw [hretire, h, hrunning, hphase, hout]
    rfl
  rw [heq]
  exact .abandon hwaiting hquiet (Bool.or_eq_true _ _ ▸ hgone)

/-- A waiting request is admitted. -/
theorem admitNext_admits {t : Scheduler σ κ K Γ} (h : s.Moves t)
    (hwaiting : (s.waiting : Multiset (Request K)) = r ::ₘ (t.waiting : Multiset (Request K)))
    (hrunning : (t.running : Multiset (Request K)) = r ::ₘ (s.running : Multiset (Request K)))
    (hleaving : t.leaving ++ t.phase.leaving = s.leaving ++ s.phase.leaving)
    (hroom : s.running.length < max cfg.maxConcurrent 1) (hquiet : s.outbox = none)
    (hhere : ¬ s.gone r = true) : Ledger.Admit cfg s.ledger t.ledger := by
  have heq : t.ledger = { s.ledger with
      waiting := t.waiting, running := r ::ₘ (s.running : Multiset (Request K)) } := by
    rw [h, hrunning, hleaving]
    rfl
  rw [heq]
  exact .mk hwaiting hroom hquiet (Bool.or_eq_false_iff.mp (Bool.eq_false_iff.mpr hhere)).1

/-- What the loop does with a token for a running request. -/
theorem send_ledger (id : Nat) (e : StreamEvent) :
    (s.send id e).ledger = s.ledger.tell id e := by
  unfold send Ledger.tell
  show _ = if (s.streams id).closed then _ else _
  split <;> rfl

theorem token_serve {t : Scheduler σ κ K Γ} (token : Token) (h : t.ledger = s.ledger)
    (hmem : r ∈ s.running) (hquiet : s.outbox = none) :
    Ledger.Serve s.ledger (t.send r.id (.token token)).ledger := by
  rw [send_ledger, h]
  exact .token (Multiset.mem_coe.mpr hmem) token hquiet

theorem coe_waiting (s : Scheduler σ κ K Γ) : (s.waiting : Multiset (Request K))
    = s.channel.map Queued.request + s.heap.map Queued.request + s.phase.waiting := by
  simp only [waiting, ← Multiset.coe_add]

theorem coe_running (s : Scheduler σ κ K Γ) : (s.running : Multiset (Request K))
    = s.phase.running + s.prefilling.map Prefilling.request + s.active.map Active.request := by
  simp only [running, ← Multiset.coe_add]

/-- Only the phase differs, and no request is anywhere else for it. -/
theorem phase_serve {φ ψ : Phase σ K Γ} (hphase : s.phase = φ) (hwaiting : ψ.waiting = φ.waiting)
    (hrunning : ψ.running = φ.running) (hleaving : ψ.leaving = φ.leaving) :
    Ledger.Serve s.ledger { s with phase := ψ }.ledger := by
  refine idle_serve rfl ?_ ?_ ?_
  · rw [coe_waiting, coe_waiting, hphase, hwaiting]
  · rw [coe_running, coe_running, hphase, hrunning]
  · rw [hphase, hleaving]

theorem topNext_serve (hphase : s.phase = .top) (hm : s.topNext = some m) :
    Ledger.Serve s.ledger m.ledger := by
  unfold topNext at hm
  split at hm
  · cases hchannel : s.channel with
    | nil =>
      rw [hchannel] at hm
      cases hm
    | cons q channel =>
      rw [hchannel] at hm
      rw [← Option.some.inj hm]
      refine idle_serve rfl ?_ ?_ ?_
      · simp only [coe_waiting, hphase, hchannel, Phase.waiting, List.map_cons,
          ← Multiset.cons_coe, Multiset.cons_add, Multiset.add_cons]
      · simp only [coe_running, hphase, Phase.running]
      · simp only [hphase, Phase.leaving]
  · rw [← Option.some.inj hm]
    exact phase_serve hphase rfl rfl rfl

theorem drainNext_serve (hphase : s.phase = .drain) :
    Ledger.Serve s.ledger s.drainNext.ledger := by
  unfold drainNext
  split
  · exact phase_serve hphase rfl rfl rfl
  · next q channel hchannel =>
    refine idle_serve rfl ?_ rfl rfl
    simp only [coe_waiting, hchannel, List.map_cons, ← Multiset.cons_coe, Multiset.cons_add,
      Multiset.add_cons]

theorem scanNext_serve {rest : List (Queued K)} (hphase : s.phase = .scan rest) :
    Ledger.Serve s.ledger (s.scanNext rest).ledger := by
  cases rest with
  | nil => exact phase_serve hphase rfl rfl rfl
  | cons q rest =>
    simp only [scanNext]
    split
    · -- the heap is drained, and now waits in the loop
      refine idle_serve rfl ?_ ?_ ?_
      · simp only [coe_waiting, hphase, Phase.waiting, List.map_nil, Multiset.coe_nil, add_zero]
      · simp only [coe_running, hphase, Phase.running]
      · simp only [hphase, Phase.leaving]
    · exact phase_serve hphase rfl rfl rfl

/-- `q` is taken from the heap and joins those about to start. -/
def Admits (s : Scheduler σ κ K Γ) (q : Queued K) (t : Scheduler σ κ K Γ) : Prop :=
  ∃ admitted heap, s.phase = .admission admitted ∧ popMax Queued.cmp s.heap = some (q, heap) ∧
    t = { s with heap := heap, phase := .admission (admitted ++ [q]) }

section

variable (hquiet : s.outbox = none) (hleaving : s.leaving = [])

include hquiet hleaving

theorem sweepNext_serve {rest : List (Queued K)} (hphase : s.phase = .sweep rest) :
    Ledger.Serve s.ledger (s.sweepNext rest).ledger := by
  cases rest with
  | nil => exact phase_serve hphase rfl rfl rfl
  | cons q rest =>
    simp only [sweepNext]
    split
    · next hgone =>
      refine abandon_serve rfl ?_ ?_ ?_ hquiet hleaving hgone
      · simp only [coe_waiting, hphase, Phase.waiting, List.map_cons, ← Multiset.cons_coe,
          Multiset.add_cons]
      · simp only [coe_running, hphase, Phase.running]
      · simp only [hphase, Phase.leaving]
    · refine idle_serve rfl ?_ ?_ ?_
      · simp only [coe_waiting, hphase, Phase.waiting, List.map_cons, ← Multiset.cons_coe,
          Multiset.add_cons, Multiset.cons_add]
      · simp only [coe_running, hphase, Phase.running]
      · simp only [hphase, Phase.leaving]

/-- The admission loop lets a maximum of the heap run, or does nothing of the kind. -/
theorem admitNext_serve {admitted : List (Queued K)} (hphase : s.phase = .admission admitted) :
    Ledger.Serve s.ledger (s.admitNext cfg admitted).ledger ∨
      Ledger.Admit cfg s.ledger (s.admitNext cfg admitted).ledger ∧
        ∃ q, s.Admits q (s.admitNext cfg admitted) := by
  have hstart : Ledger.Serve s.ledger { s with phase := .start admitted }.ledger :=
    phase_serve hphase rfl rfl rfl
  unfold admitNext
  split
  · next hroom =>
    cases hpop : popMax Queued.cmp s.heap with
    | none => exact Or.inl hstart
    | some out =>
      obtain ⟨q, heap⟩ := out
      have hheap : (s.heap.map Queued.request : Multiset (Request K))
          = q.request ::ₘ (heap.map Queued.request : List (Request K)) :=
        Multiset.coe_eq_coe.mpr ((popMax_perm hpop).map Queued.request)
      simp only
      split
      · next hgone =>
        refine Or.inl (abandon_serve rfl ?_ rfl rfl hquiet hleaving hgone)
        simp only [coe_waiting, hheap, Multiset.add_cons, Multiset.cons_add]
      · next hhere =>
        refine Or.inr ⟨admitNext_admits rfl ?_ ?_ ?_ ?_ hquiet hhere, q, admitted, heap, hphase, hpop,
          rfl⟩
        · simp only [coe_waiting, hheap, hphase, Phase.waiting, Multiset.add_cons,
            Multiset.cons_add]
        · simp only [coe_running, hphase, Phase.running, coe_map_snoc, Multiset.cons_add]
        · simp only [hphase, Phase.leaving]
        · simpa [running, hphase, Phase.running, Nat.add_comm, Nat.add_left_comm] using hroom
  · exact Or.inl hstart

variable [Weight K] [DecidableEq κ] {rt : InferenceRuntime σ κ K Γ}

theorem startNext_serve {admitted : List (Queued K)} (hphase : s.phase = .start admitted) :
    Ledger.Serve s.ledger (s.startNext rt admitted).ledger := by
  cases admitted with
  | nil =>
    simp only [startNext]
    split
    · exact phase_serve hphase rfl rfl rfl
    · refine idle_serve rfl ?_ ?_ ?_
      · simp only [coe_waiting, hphase, Phase.waiting]
      · simp only [coe_running, hphase, Phase.running, List.map_nil, List.append_nil,
          Multiset.coe_nil, zero_add, add_zero]
      · simp only [hphase, Phase.leaving]
  | cons q admitted =>
    simp only [startNext, admitOne]
    split
    · refine idle_serve rfl ?_ ?_ ?_
      · simp only [coe_waiting, hphase, Phase.waiting]
      · simp only [coe_running, hphase, Phase.running, coe_map_snoc, List.map_cons,
          ← Multiset.cons_coe, Multiset.add_cons, Multiset.cons_add]
      · simp only [hphase, Phase.leaving]
    · refine retire_serve rfl ?_ ?_ ?_ hquiet hleaving (Or.inr ⟨_, rfl, trivial⟩)
      · simp only [coe_running, hphase, Phase.running, List.map_cons, ← Multiset.cons_coe,
          Multiset.cons_add]
      · simp only [coe_waiting, hphase, Phase.waiting]
      · simp only [hphase, Phase.leaving]

omit [Weight K] [DecidableEq κ] in
theorem prefillNext_serve {now budget : Nat} {rest still : List (Prefilling σ K)}
    (hphase : s.phase = .prefill now budget rest still) (hempty : s.prefilling = []) :
    Ledger.Serve s.ledger (s.prefillNext now budget rest still).ledger := by
  cases rest with
  | nil =>
    refine idle_serve rfl ?_ ?_ ?_
    · simp only [prefillNext, coe_waiting, hphase, Phase.waiting]
    · simp only [prefillNext, coe_running, hphase, hempty, Phase.running, List.map_nil,
        List.nil_append, Multiset.coe_nil, zero_add, add_zero]
    · simp only [prefillNext, hphase, Phase.leaving]
  | cons p rest =>
    simp only [prefillNext]
    split
    · next o event hcheck =>
      refine retire_serve rfl ?_ ?_ ?_ hquiet hleaving (check_excuse hcheck)
      · simp only [free, coe_running, hphase, Phase.running, List.map_cons, List.cons_append,
          ← Multiset.cons_coe, Multiset.cons_add]
      · simp only [free, coe_waiting, hphase, Phase.waiting]
      · simp only [free, hphase, Phase.leaving]
    · exact phase_serve hphase rfl rfl rfl

omit [Weight K] in
theorem advanceNext_serve {now budget : Nat} {p : Prefilling σ K}
    {rest still : List (Prefilling σ K)} (hphase : s.phase = .advance now budget p rest still) :
    Ledger.Serve s.ledger (s.advanceNext rt now budget p rest still).ledger := by
  unfold advanceNext
  split
  · refine idle_serve rfl ?_ ?_ ?_
    · simp only [coe_waiting, hphase, Phase.waiting]
    · simp only [coe_running, hphase, Phase.running, coe_map_snoc, ← Multiset.cons_coe,
        Multiset.add_cons, Multiset.cons_add]
    · simp only [hphase, Phase.leaving]
  · refine idle_serve rfl ?_ ?_ ?_
    · simp only [coe_waiting, hphase, Phase.waiting]
    · simp only [coe_running, hphase, Phase.running, ← Multiset.coe_add, coe_map_snoc,
        ← Multiset.cons_coe, Multiset.add_cons, Multiset.cons_add]
    · simp only [hphase, Phase.leaving]
  · refine retire_serve rfl ?_ ?_ ?_ hquiet hleaving (Or.inr ⟨_, rfl, trivial⟩)
    · simp only [free, coe_running, hphase, Phase.running, ← Multiset.cons_coe,
        Multiset.cons_add]
    · simp only [free, coe_waiting, hphase, Phase.waiting]
    · simp only [free, hphase, Phase.leaving]

omit [Weight K] [DecidableEq κ] in
theorem retainNext_serve {now : Nat} {rest : List (Active σ K Γ)}
    (hphase : s.phase = .retain now rest) :
    Ledger.Serve s.ledger (s.retainNext now rest).ledger := by
  cases rest with
  | nil =>
    simp only [retainNext]
    split
    · exact phase_serve hphase rfl rfl rfl
    · exact phase_serve hphase rfl rfl rfl
  | cons a rest =>
    simp only [retainNext]
    split
    · next o event hcheck =>
      refine retire_serve rfl ?_ ?_ ?_ hquiet hleaving (check_excuse hcheck)
      · simp only [free, coe_running, hphase, Phase.running, List.map_cons,
          ← Multiset.cons_coe, Multiset.cons_add]
      · simp only [free, coe_waiting, hphase, Phase.waiting]
      · simp only [free, hphase, Phase.leaving]
    · refine idle_serve rfl ?_ ?_ ?_
      · simp only [coe_waiting, hphase, Phase.waiting]
      · simp only [coe_running, hphase, Phase.running, coe_map_snoc, List.map_cons,
          ← Multiset.cons_coe, Multiset.add_cons, Multiset.cons_add]
      · simp only [hphase, Phase.leaving]

omit [Weight K] [DecidableEq κ] in
theorem streamNext_serve {a : Active σ K Γ} {tokens : List Token}
    {outcome : Except StopReason Unit} (hphase : s.phase = .stream a tokens outcome)
    (hempty : s.active = []) :
    Ledger.Serve s.ledger (s.streamNext a tokens outcome).ledger := by
  have hrunning : (s.running : Multiset (Request K)) = a.request ::ₘ
      (s.prefilling.map Prefilling.request : List (Request K)) := by
    simp only [coe_running, hphase, hempty, Phase.running, List.map_nil, Multiset.coe_nil,
      ← Multiset.cons_coe, Multiset.cons_add, zero_add, add_zero]
  have hrest : ∀ φ : Phase σ K Γ, φ.running = [] →
      (({ s with phase := φ }.free a.session.seqs).running : Multiset (Request K))
        = (s.prefilling.map Prefilling.request : List (Request K)) := by
    intro φ hφ
    simp only [free, coe_running, hφ, hempty, List.map_nil, Multiset.coe_nil, zero_add, add_zero]
  cases tokens with
  | cons t tokens =>
    simp only [streamNext]
    split
    · next hclosed =>
      refine retire_serve rfl ?_ ?_ ?_ hquiet hleaving (Or.inl ⟨rfl, rfl, hclosed⟩)
      · rw [hrest _ rfl, hrunning]
      · simp only [free, coe_waiting, hphase, Phase.waiting]
      · simp only [free, hphase, Phase.leaving, List.filter_nil, List.map_nil]
    · refine token_serve t (Moves.same rfl ?_ ?_ ?_) ?_ hquiet
      · simp only [coe_waiting, hphase, Phase.waiting]
      · simp only [coe_running, hphase, Phase.running]
      · simp only [hphase, Phase.leaving]
      · rw [← Multiset.mem_coe, hrunning]
        exact Multiset.mem_cons_self _ _
  | nil =>
    cases outcome with
    | error reason =>
      refine retire_serve rfl ?_ ?_ ?_ hquiet hleaving (Or.inr ⟨_, rfl, trivial⟩)
      · rw [hrest _ rfl, hrunning]
      · simp only [free, coe_waiting, hphase, Phase.waiting]
      · simp only [free, hphase, Phase.leaving, List.filter_nil, List.map_nil]
    | ok _ =>
      refine idle_serve rfl ?_ ?_ ?_
      · simp only [streamNext, coe_waiting, hphase, Phase.waiting]
      · simp only [streamNext, coe_running, hphase, hempty, Phase.running, List.map_cons,
          List.map_nil, ← Multiset.cons_coe, Multiset.coe_nil, Multiset.add_cons,
          Multiset.cons_add, zero_add, add_zero]
      · simp only [streamNext, hphase, Phase.leaving]

omit [Weight K] [DecidableEq κ] hleaving in
theorem deliverNext_serve {rest : List (Active σ K Γ × Except StopReason Token)}
    {done : List (Active σ K Γ × Bool)} (hphase : s.phase = .deliver rest done) :
    Ledger.Serve s.ledger (s.deliverNext rest done).ledger := by
  cases rest with
  | nil => exact phase_serve hphase rfl (by simp [Phase.running]) rfl
  | cons x rest =>
    obtain ⟨a, outcome⟩ := x
    have hrunning : (s.running : Multiset (Request K)) = a.request ::ₘ
        (({ s with phase := .deliver rest (done ++ [(a, true)]) } :
          Scheduler σ κ K Γ).running : Multiset (Request K)) := by
      simp only [coe_running, hphase, Phase.running, List.map_cons, List.filter_append,
        List.filter_cons, List.filter_nil, List.cons_append, List.append_nil, Bool.not_true,
        Bool.false_eq_true, if_false, ← Multiset.cons_coe, Multiset.cons_add]
    have hwaiting : (({ s with phase := .deliver rest (done ++ [(a, true)]) } :
          Scheduler σ κ K Γ).waiting : Multiset (Request K)) = s.waiting := by
      simp only [coe_waiting, hphase, Phase.waiting]
    have hgone : ((s.leaving ++ (Phase.deliver rest (done ++ [(a, true)])).leaving :
          List (Request K)) : Multiset (Request K))
        = a.request ::ₘ ((s.leaving ++ s.phase.leaving : List (Request K)) : Multiset _) := by
      simp only [hphase, Phase.leaving, List.filter_append, List.filter_cons, List.filter_nil,
        if_true, coe_map_snoc, ← Multiset.coe_add, Multiset.add_cons]
    cases outcome with
    | ok token =>
      simp only [deliverNext]
      split
      · next hclosed =>
        have hsame : ({ s with phase := .deliver rest (done ++ [(a, true)]) }.count a.request
            .cancelled) = { ({ s with phase := .deliver rest (done ++ [(a, true)]) }.count a.request
              .cancelled) with outbox := none } := by
          rw [← hquiet]
          rfl
        rw [hsame]
        exact count_serve none rfl hrunning hwaiting hgone hquiet
          (Or.inl ⟨rfl, rfl, hclosed⟩)
      · refine token_serve token (Moves.same rfl ?_ ?_ ?_) ?_ hquiet
        · simp only [coe_waiting, hphase, Phase.waiting]
        · rw [hrunning]
          simp only [coe_running, Phase.running, List.filter_append, List.filter_cons,
            List.filter_nil, List.append_nil, List.map_append, List.map_cons, List.map_nil,
            Bool.not_true, Bool.not_false, Bool.false_eq_true, if_false, if_true,
            ← Multiset.coe_add, ← Multiset.cons_coe, Multiset.coe_nil, Multiset.cons_add,
            Multiset.add_cons, add_zero]
        · simp only [hphase, Phase.leaving, List.filter_append, List.filter_cons,
            List.filter_nil, Bool.false_eq_true, if_false, List.append_nil]
        · rw [← Multiset.mem_coe, hrunning]
          exact Multiset.mem_cons_self _ _
    | error reason =>
      exact count_serve (some (.done reason)) rfl hrunning hwaiting hgone hquiet
        (Or.inr ⟨_, rfl, trivial⟩)

omit [Weight K] [DecidableEq κ] hquiet in
theorem settleNext_serve {rest : List (Active σ K Γ × Bool)} (hphase : s.phase = .settle rest) :
    Ledger.Serve s.ledger (s.settleNext rest).ledger := by
  cases rest with
  | nil => exact phase_serve hphase rfl rfl rfl
  | cons x rest =>
    obtain ⟨a, done⟩ := x
    cases done with
    | true =>
      refine idle_serve rfl ?_ ?_ ?_
      · simp only [settleNext, free, coe_waiting, hphase, Phase.waiting]
      · simp only [settleNext, free, coe_running, hphase, Phase.running, List.filter_cons,
          Bool.not_true, Bool.false_eq_true, if_false]
      · simp only [settleNext, free, hphase, hleaving, Phase.leaving, List.filter_cons, if_true,
          List.map_cons, List.cons_append, List.nil_append]
    | false =>
      refine idle_serve rfl ?_ ?_ ?_
      · simp only [settleNext, coe_waiting, hphase, Phase.waiting]
      · simp only [settleNext, coe_running, hphase, Phase.running, List.filter_cons,
          Bool.not_false, if_true, coe_map_snoc, List.map_cons, ← Multiset.cons_coe,
          Multiset.add_cons, Multiset.cons_add]
      · simp only [settleNext, hphase, Phase.leaving, List.filter_cons, Bool.false_eq_true,
          if_false]

omit [DecidableEq κ] hquiet hleaving in
theorem decode_serve (hphase : s.phase = .decode) (hm : s.decode cfg rt = some m) :
    Ledger.Serve s.ledger m.ledger := by
  unfold decode at hm
  split at hm
  · next a lookahead hactive hlookahead =>
    rw [← Option.some.inj hm]
    refine idle_serve rfl ?_ ?_ ?_
    · simp only [coe_waiting, hphase, Phase.waiting]
    · simp only [coe_running, hphase, hactive, Phase.running, List.map_cons, List.map_nil,
        Multiset.coe_nil, ← Multiset.cons_coe, Multiset.cons_add, Multiset.add_cons, zero_add,
        add_zero]
    · simp only [hphase, Phase.leaving]
  · split at hm
    · cases hm
    · next stepped w hstep =>
      have hlen := rt.nextTokenBatch_length hstep
      rw [List.length_map] at hlen
      have hsame : (List.zipWith (fun (a : Active σ K Γ) (out : Stepped σ Γ) =>
          ({ a with session := out.2 }, out.1)) s.active stepped).map (fun x => x.1.request)
            = s.active.map Active.request := by
        rw [List.map_zipWith]
        refine List.ext_getElem (by simp [hlen]) ?_
        intro i _ _
        simp
      rw [← Option.some.inj hm]
      refine idle_serve rfl ?_ ?_ ?_
      · simp only [coe_waiting, hphase, Phase.waiting]
      · simp only [coe_running, hphase, Phase.running, hsame, List.filter_nil, List.map_nil,
          List.append_nil, Multiset.coe_nil, zero_add, add_comm]
      · simp only [hphase, Phase.leaving, List.filter_nil, List.map_nil]

end

/-! ## The whole machine -/

/-- What is empty where in the loop. -/
def Shaped (s : Scheduler σ κ K Γ) : Prop :=
  match s.phase with
  | .top => s.outbox = none ∧ s.leaving = []
  | .prefill _ _ _ _ => s.prefilling = []
  | .advance _ _ _ _ _ => s.prefilling = []
  | .stream _ _ _ => s.active = []
  | _ => True

variable [Weight K] [DecidableEq κ] {rt : InferenceRuntime σ κ K Γ}

theorem runLoop_serve (hs : s.Shaped) (hquiet : s.outbox = none) (hleaving : s.leaving = [])
    (hm : s.runLoop cfg rt = some m) : Ledger.Serve s.ledger m.ledger ∨
      Ledger.Admit cfg s.ledger m.ledger ∧ ∃ q, s.Admits q m := by
  unfold runLoop at hm
  unfold Shaped at hs
  cases hphase : s.phase with
  | top =>
    rw [hphase] at hm
    exact Or.inl (topNext_serve hphase hm)
  | drain =>
    rw [hphase] at hm
    rw [← Option.some.inj hm]
    exact Or.inl (drainNext_serve hphase)
  | scan rest =>
    rw [hphase] at hm
    rw [← Option.some.inj hm]
    exact Or.inl (scanNext_serve hphase)
  | sweep rest =>
    rw [hphase] at hm
    rw [← Option.some.inj hm]
    exact Or.inl (sweepNext_serve hquiet hleaving hphase)
  | admission admitted =>
    rw [hphase] at hm
    rw [← Option.some.inj hm]
    exact admitNext_serve hquiet hleaving hphase
  | start admitted =>
    rw [hphase] at hm
    rw [← Option.some.inj hm]
    exact Or.inl (startNext_serve hquiet hleaving hphase)
  | prefill now budget rest still =>
    rw [hphase] at hm hs
    rw [← Option.some.inj hm]
    exact Or.inl (prefillNext_serve hquiet hleaving hphase hs)
  | advance now budget p rest still =>
    rw [hphase] at hm
    rw [← Option.some.inj hm]
    exact Or.inl (advanceNext_serve hquiet hleaving hphase)
  | stepBatch =>
    rw [hphase] at hm
    rw [← Option.some.inj hm]
    refine Or.inl (idle_serve rfl ?_ ?_ ?_)
    · simp only [coe_waiting, hphase, Phase.waiting]
    · simp only [coe_running, hphase, Phase.running, List.map_nil, Multiset.coe_nil, zero_add,
        add_comm]
    · simp only [hphase, Phase.leaving]
  | retain now rest =>
    rw [hphase] at hm
    rw [← Option.some.inj hm]
    exact Or.inl (retainNext_serve hquiet hleaving hphase)
  | decode =>
    rw [hphase] at hm
    exact Or.inl (decode_serve hphase hm)
  | stream a tokens outcome =>
    rw [hphase] at hm hs
    rw [← Option.some.inj hm]
    exact Or.inl (streamNext_serve hquiet hleaving hphase hs)
  | deliver rest done =>
    rw [hphase] at hm
    rw [← Option.some.inj hm]
    exact Or.inl (deliverNext_serve hquiet hphase)
  | settle rest =>
    rw [hphase] at hm
    rw [← Option.some.inj hm]
    exact Or.inl (settleNext_serve hleaving hphase)

/-- What is empty where stays so. -/
theorem runLoop_shaped (hs : s.Shaped) (hquiet : s.outbox = none) (hleaving : s.leaving = [])
    (hm : s.runLoop cfg rt = some m) : m.Shaped := by
  unfold runLoop at hm
  unfold Shaped at hs
  cases hphase : s.phase with
  | top =>
    rw [hphase] at hm
    change s.topNext = some m at hm
    unfold topNext at hm
    split at hm
    · split at hm
      · cases hm
      · rw [← Option.some.inj hm]
        trivial
    · rw [← Option.some.inj hm]
      trivial
  | drain =>
    rw [hphase] at hm
    rw [← Option.some.inj hm]
    unfold drainNext
    split
    · trivial
    · simp only [Shaped, hphase]
  | scan rest =>
    rw [hphase] at hm
    rw [← Option.some.inj hm]
    unfold scanNext
    split
    · trivial
    · split <;> trivial
  | sweep rest =>
    rw [hphase] at hm
    rw [← Option.some.inj hm]
    unfold sweepNext
    split
    · trivial
    · simp only
      split <;> trivial
  | admission admitted =>
    rw [hphase] at hm
    rw [← Option.some.inj hm]
    unfold admitNext
    split
    · split
      · trivial
      · simp only
        split
        · simp only [Shaped, retire, count, hphase]
        · trivial
    · trivial
  | start admitted =>
    rw [hphase] at hm
    rw [← Option.some.inj hm]
    unfold startNext
    split
    · unfold admitOne
      split <;> trivial
    · split
      · trivial
      · rfl
  | prefill now budget rest still =>
    rw [hphase] at hm hs
    rw [← Option.some.inj hm]
    unfold prefillNext
    split
    · trivial
    · split
      · exact hs
      · exact hs
  | advance now budget p rest still =>
    rw [hphase] at hm hs
    rw [← Option.some.inj hm]
    unfold advanceNext
    split <;> exact hs
  | stepBatch =>
    rw [hphase] at hm
    rw [← Option.some.inj hm]
    trivial
  | retain now rest =>
    rw [hphase] at hm
    rw [← Option.some.inj hm]
    unfold retainNext
    split
    · split
      · exact ⟨hquiet, hleaving⟩
      · trivial
    · split <;> trivial
  | decode =>
    rw [hphase] at hm
    change s.decode cfg rt = some m at hm
    unfold decode at hm
    split at hm
    · rw [← Option.some.inj hm]
      rfl
    · split at hm
      · cases hm
      · rw [← Option.some.inj hm]
        trivial
  | stream a tokens outcome =>
    rw [hphase] at hm hs
    rw [← Option.some.inj hm]
    unfold streamNext
    split
    · split
      · trivial
      · unfold send
        split <;> exact hs
    · trivial
    · exact ⟨hquiet, hleaving⟩
  | deliver rest done =>
    rw [hphase] at hm
    rw [← Option.some.inj hm]
    unfold deliverNext
    split
    · trivial
    · split
      · trivial
      · unfold send
        split <;> trivial
    · trivial
  | settle rest =>
    rw [hphase] at hm
    rw [← Option.some.inj hm]
    unfold settleNext
    split
    · exact ⟨hquiet, hleaving⟩
    · trivial
    · trivial

omit [Weight K] [DecidableEq κ] in
theorem Shaped.congr (hs : s.Shaped) (hphase : m.phase = s.phase)
    (hprefilling : m.prefilling = s.prefilling) (hactive : m.active = s.active)
    (htop : s.phase = .top → m.outbox = none ∧ m.leaving = []) : m.Shaped := by
  unfold Shaped at hs ⊢
  rw [hphase]
  cases h : s.phase with
  | top => exact htop h
  | prefill now budget rest still =>
    rw [h] at hs
    exact hprefilling.trans hs
  | advance now budget p rest still =>
    rw [h] at hs
    exact hprefilling.trans hs
  | stream a tokens outcome =>
    rw [h] at hs
    exact hactive.trans hs
  | _ => trivial

omit [Weight K] [DecidableEq κ] in
theorem Shaped.top (hs : s.Shaped) (h : s.phase = .top) : s.outbox = none ∧ s.leaving = [] := by
  unfold Shaped at hs
  rw [h] at hs
  exact hs

/-- **A step of the loop** is a step of the ledger. -/
theorem loopNext_serve (hs : s.Shaped) (hm : s.loopNext cfg rt = some m) :
    (Ledger.Serve s.ledger m.ledger ∨
      Ledger.Admit cfg s.ledger m.ledger ∧ ∃ q, s.Admits q m) ∧ m.Shaped := by
  unfold loopNext at hm
  split at hm
  · next id event hout =>
    rw [← Option.some.inj hm]
    have hnot : s.phase ≠ .top := by
      intro htop
      rw [(hs.top htop).1] at hout
      cases hout
    constructor
    · rw [send_ledger]
      exact Or.inl (.flush hout)
    · refine hs.congr ?_ ?_ ?_ fun htop => absurd htop hnot
      all_goals unfold send; split <;> rfl
  · next r leaving hquiet hleaving =>
    rw [← Option.some.inj hm]
    have hnot : s.phase ≠ .top := by
      intro htop
      rw [(hs.top htop).2] at hleaving
      cases hleaving
    constructor
    · refine Or.inl (.release (r := r) ?_ hquiet)
      show ((s.leaving ++ s.phase.leaving : List (Request K)) : Multiset (Request K)) = _
      rw [hleaving]
      rfl
    · exact hs.congr rfl rfl rfl fun htop => absurd htop hnot
  · next hquiet hleaving =>
    exact ⟨runLoop_serve hs hquiet hleaving hm, runLoop_shaped hs hquiet hleaving hm⟩

/-! ## Every step -/

omit [Weight K] [DecidableEq κ] in
theorem submitNext_shaped (hs : s.Shaped) {t : Submit K} (hm : s.submitNext cfg t = some m) :
    m.Shaped := by
  unfold submitNext at hm
  split at hm
  · split at hm
    · rw [← Option.some.inj hm]
      exact hs
    · rw [← Option.some.inj hm]
      exact hs
  · rw [← Option.some.inj hm]
    exact hs
  · rw [← Option.some.inj hm]
    exact hs
  · split at hm
    · rw [← Option.some.inj hm]
      exact hs
    · rw [← Option.some.inj hm]
      exact hs
  · rw [← Option.some.inj hm]
    exact hs
  · cases hm

/-- **Every step** is one of a caller or one of the scheduler, and a step of the ledger. -/
theorem step_ledger {a : Action K} (hs : s.Shaped) (hm : s.step cfg rt a = some m) :
    ((∃ spec, a = .submit spec ∧ m.ledger = s.ledger.look cfg spec.userId) ∨
      Ledger.Call s.ledger m.ledger ∨ Ledger.Serve s.ledger m.ledger ∨
      Ledger.Admit cfg s.ledger m.ledger ∧ ∃ q, s.Admits q m) ∧ m.Shaped := by
  cases a with
  | submit spec =>
    rw [← Option.some.inj hm]
    exact ⟨Or.inl ⟨spec, rfl, rfl⟩, hs⟩
  | next i =>
    simp only [step] at hm
    cases hi : s.submits[i]? with
    | none =>
      rw [hi] at hm
      cases hm
    | some t =>
      rw [hi] at hm
      have hs' : ({ s with submits := s.submits.eraseIdx i } : Scheduler σ κ K Γ).Shaped := hs
      exact ⟨Or.inr (Or.inl (submitNext_call hi hm)), submitNext_shaped hs' hm⟩
  | cancel id =>
    simp only [step] at hm
    split at hm
    · next hid =>
      rw [← Option.some.inj hm]
      exact ⟨Or.inr (Or.inl (.cancel (Multiset.mem_coe.mpr hid))), hs⟩
    · cases hm
  | close id =>
    simp only [step] at hm
    split at hm
    · next hid =>
      rw [← Option.some.inj hm]
      exact ⟨Or.inr (Or.inl (.close (Multiset.mem_coe.mpr hid))), hs⟩
    · cases hm
  | tick d =>
    rw [← Option.some.inj hm]
    exact ⟨Or.inr (Or.inl .idle), hs⟩
  | pace chunk =>
    simp only [step] at hm
    split at hm
    · rw [← Option.some.inj hm]
      exact ⟨Or.inr (Or.inl .idle), hs⟩
    · cases hm
  | loop =>
    obtain ⟨hserve, hshaped⟩ := loopNext_serve hs hm
    exact ⟨Or.inr (Or.inr hserve), hshaped⟩

/-- Who waits after a step: the same requests or fewer, or one more that was sent. -/
theorem step_waiting {a : Action K} (hs : s.Shaped) (hm : s.step cfg rt a = some m) :
    m.waiting.length ≤ s.waiting.length ∨
      ∃ i q, a = .next i ∧ s.submits[i]? = some (.ready q) ∧
        s.channel.length < max cfg.queueCapacity 1 ∧
        m.waiting.length = s.waiting.length + 1 := by
  cases a with
  | next i =>
    simp only [step] at hm
    cases hi : s.submits[i]? with
    | none =>
      rw [hi] at hm
      cases hm
    | some t =>
      rw [hi] at hm
      simp only [submitNext] at hm
      split at hm
      · split at hm
        · rw [← Option.some.inj hm]
          exact Or.inl (Nat.le_refl _)
        · rw [← Option.some.inj hm]
          exact Or.inl (Nat.le_refl _)
      · rw [← Option.some.inj hm]
        exact Or.inl (Nat.le_refl _)
      · rw [← Option.some.inj hm]
        exact Or.inl (Nat.le_refl _)
      · next q =>
        split at hm
        · next hroom =>
          rw [← Option.some.inj hm]
          refine Or.inr ⟨i, q, rfl, hi, hroom, ?_⟩
          simp only [waiting, List.length_append, List.length_map, List.length_singleton]
          omega
        · rw [← Option.some.inj hm]
          exact Or.inl (Nat.le_refl _)
      · rw [← Option.some.inj hm]
        exact Or.inl (Nat.le_refl _)
      · cases hm
  | loop =>
    left
    obtain ⟨hserve | ⟨henter, _⟩, _⟩ := loopNext_serve hs hm
    · exact Multiset.card_le_card (Ledger.serve_shrinks hserve).1
    · exact Multiset.card_le_card (Ledger.admit_shrinks henter)
  | submit spec =>
    rw [← Option.some.inj hm]
    exact Or.inl (Nat.le_refl _)
  | tick d =>
    rw [← Option.some.inj hm]
    exact Or.inl (Nat.le_refl _)
  | cancel id =>
    simp only [step] at hm
    split at hm
    · rw [← Option.some.inj hm]
      exact Or.inl (Nat.le_refl _)
    · cases hm
  | close id =>
    simp only [step] at hm
    split at hm
    · rw [← Option.some.inj hm]
      exact Or.inl (Nat.le_refl _)
    · cases hm
  | pace chunk =>
    simp only [step] at hm
    split at hm
    · rw [← Option.some.inj hm]
      exact Or.inl (Nat.le_refl _)
    · cases hm

/-! ## Every run -/

variable {w : World σ κ} {as : List (Action K)}

omit [Weight K] [DecidableEq κ] in
theorem init_balanced (w : World σ κ) : (init w : Scheduler σ κ K Γ).ledger.Balanced where
  accepted _ := rfl
  counted _ := rfl
  fresh i := by
    show 0 ≤ _
    exact Nat.zero_le _
  told _ := Nat.le_refl 0
  submitted := rfl
  counters o := by cases o <;> rfl

/-- The machine's containers are as its loop expects them, nothing is lost or counted twice, and
every permit that is out is accounted for. -/
structure Sound (cfg : SchedulerConfig) (s : Scheduler σ κ K Γ) : Prop where
  shaped : s.Shaped
  balanced : s.ledger.Balanced
  accounted : s.slots.Accounted cfg.maxConcurrentPerUser s.ledger.looked s.ledger.out

theorem Sound.step {a : Action K} (hs : s.Sound cfg) (hm : s.step cfg rt a = some m) :
    m.Sound cfg := by
  obtain ⟨⟨spec, _, hlook⟩ | hcall | hserve | ⟨henter, _⟩, hshaped⟩ := step_ledger hs.shaped hm
  · refine ⟨hshaped, ?_, ?_⟩
    · rw [hlook]
      exact hs.balanced.look spec.userId
    · show m.ledger.slots.Accounted _ _ _
      rw [hlook]
      exact Ledger.accounted_look hs.accounted spec.userId
  · exact ⟨hshaped, hs.balanced.call hcall, Ledger.accounted_call hs.accounted hcall⟩
  · exact ⟨hshaped, hs.balanced.serve hserve, Ledger.accounted_serve hs.accounted hserve⟩
  · exact ⟨hshaped, hs.balanced.enter henter, Ledger.accounted_enter hs.accounted henter⟩

omit [Weight K] [DecidableEq κ] in
theorem init_sound (cfg : SchedulerConfig) (w : World σ κ) :
    (init w : Scheduler σ κ K Γ).Sound cfg :=
  ⟨⟨rfl, rfl⟩, init_balanced w, UserSlots.accounted_empty⟩

/-- **Nothing is lost in any run.** -/
theorem run_sound (h : run cfg rt w as = some s) : s.Sound cfg :=
  runList_invariant (fun _ _ _ hstep hs => Sound.step hs hstep) h (init_sound cfg w)

end Scheduler

end Garuda
