import Garuda.Infra.Runs
import Garuda.Runtime.Batch
import Garuda.Runtime.Speculative
import Garuda.Scheduler.Queue

/-!
# The scheduler

`submit` and `run_loop` of `scheduler/mod.rs` as one machine. Submits run on threads of their own,
clients cancel and hang up, time passes; between any two of the loop's steps any of this may
happen. One step of the loop looks at one request, or counts one, or sends one event, or drops
one; `Phase` is the place in `run_loop` that comes next, with the variables alive there.

* `Scheduler.submitNext` — the steps of `submit`
* `Scheduler.admitOne`, `Scheduler.prefillNext`, `Scheduler.retainNext`, `Scheduler.decode`,
  `Scheduler.streamNext`, `Scheduler.deliverNext` — the loop bodies of `admit_one`,
  `advance_prefills` and `step_batch`
* `Scheduler.runLoop` — the loop
* `Scheduler.step` — everything that can happen
-/

namespace Garuda

open Infra

variable {σ κ K Γ : Type}

/-! ## Data -/

structure SchedulerConfig where
  /-- Sequences decoding at once. -/
  maxConcurrent : Nat
  /-- Tokens to guess ahead when only one sequence is decoding. `0` disables it. -/
  speculativeLookahead : Nat
  /-- Requests that may wait for a decode slot before submissions are refused. -/
  queueCapacity : Nat
  /-- Concurrent requests one user may have in the system. -/
  maxConcurrentPerUser : Nat

/-- What becomes of a request. -/
inductive Outcome where
  | completed
  | cancelled
  | timedOut
  | failed
  deriving DecidableEq, Repr

structure Counters where
  submitted : Nat
  completed : Nat
  cancelled : Nat
  timedOut : Nat
  failed : Nat
  rejectedBusy : Nat
  rejectedRateLimit : Nat
  deriving Repr

namespace Counters

def zero : Counters := ⟨0, 0, 0, 0, 0, 0, 0⟩

def add (c : Counters) : Outcome → Counters
  | .completed => { c with completed := c.completed + 1 }
  | .cancelled => { c with cancelled := c.cancelled + 1 }
  | .timedOut => { c with timedOut := c.timedOut + 1 }
  | .failed => { c with failed := c.failed + 1 }

def get (c : Counters) : Outcome → Nat
  | .completed => c.completed
  | .cancelled => c.cancelled
  | .timedOut => c.timedOut
  | .failed => c.failed

end Counters

/-- What a request shares with its `Handle`: the event channel and the cancel flag. -/
structure Stream where
  events : List StreamEvent
  cancelled : Bool
  closed : Bool

namespace Stream

def push (x : Stream) (event : StreamEvent) : Stream := { x with events := x.events ++ [event] }

def cancel (x : Stream) : Stream := { x with cancelled := true }

def close (x : Stream) : Stream := { x with closed := true }

end Stream

/-- A request that has been admitted and whose prompt is still going in. -/
structure Prefilling (σ K : Type) where
  request : Request K
  pending : Pending σ
  deadline : Nat

/-- A request that has been admitted and is now decoding. -/
structure Active (σ K Γ : Type) where
  request : Request K
  session : Session σ Γ
  deadline : Nat

/-- The sequences that go when a session does. -/
def Session.seqs (s : Session σ Γ) : List (SeqState σ) := s.seq :: s.draftSeq.toList

/-- How far a call of `submit` has come. -/
inductive Submit (K : Type) where
  /-- It has the semaphore. -/
  | looked (spec : RequestSpec K) (sem : Nat)
  /-- It has a permit. -/
  | holding (spec : RequestSpec K) (sem : Nat)
  /-- It has a sequence number. -/
  | numbered (spec : RequestSpec K) (sem : Nat) (seq : Nat)
  | ready (q : Queued K)
  /-- The request is in the channel. -/
  | sent (id : Nat)
  | returned (result : Except GarudaError Nat)

/-- The handle the caller has been given. -/
def Submit.handle? : Submit K → Option Nat
  | .returned (.ok id) => some id
  | _ => none

/-- What `run_loop` does next, with the variables alive there. -/
inductive Phase (σ K Γ : Type) where
  /-- The head of the loop. -/
  | top
  /-- `while let Ok(q) = rx.try_recv()` -/
  | drain
  /-- `heap.iter().any(..)`; the entries still to be looked at -/
  | scan (rest : List (Queued K))
  /-- `heap.drain().filter(..).collect()`; the entries still to be looked at -/
  | sweep (rest : List (Queued K))
  /-- The admission loop; what `admit` has so far -/
  | admission (admitted : List (Queued K))
  /-- `for request in admit` -/
  | start (admitted : List (Queued K))
  /-- The loop of `advance_prefills`, with its `now`, `budget` and `still` -/
  | prefill (now budget : Nat) (rest still : List (Prefilling σ K))
  /-- The same, past the checks on `p` -/
  | advance (now budget : Nat) (p : Prefilling σ K) (rest still : List (Prefilling σ K))
  /-- The head of `step_batch` -/
  | stepBatch
  /-- `active.retain(..)` of `step_batch`, with its `now` -/
  | retain (now : Nat) (rest : List (Active σ K Γ))
  | decode
  /-- The tokens of a speculative round still to be sent -/
  | stream (a : Active σ K Γ) (tokens : List Token) (outcome : Except StopReason Unit)
  /-- The outcomes of a batch still to be reported, and who is done -/
  | deliver (rest : List (Active σ K Γ × Except StopReason Token))
      (done : List (Active σ K Γ × Bool))
  /-- `active.retain(|_| keep.next()..)` -/
  | settle (rest : List (Active σ K Γ × Bool))

/-- What has happened, for the theorems only. -/
structure Book where
  /-- Requests that went into the channel. -/
  accepted : List Nat
  counted : List (Nat × Outcome)
  /-- Requests dropped after they were counted, their permits back in the pool. -/
  released : List Nat

structure Scheduler (σ κ K Γ : Type) where
  now : Nat
  /-- What the pacing would answer if it were asked. -/
  chunk : Nat
  seq : Nat
  nextId : Nat
  slots : UserSlots
  counters : Counters
  streams : Nat → Stream
  submits : List (Submit K)
  channel : List (Queued K)
  heap : List (Queued K)
  prefilling : List (Prefilling σ K)
  active : List (Active σ K Γ)
  phase : Phase σ K Γ
  /-- An event about to be sent. -/
  outbox : Option (Nat × StreamEvent)
  /-- Requests about to be dropped. -/
  leaving : List (Request K)
  world : World σ κ
  book : Book

/-- What can happen. -/
inductive Action (K : Type) where
  /-- Somebody calls `submit`, which looks the semaphore up. -/
  | submit (spec : RequestSpec K)
  /-- A `submit` goes on. -/
  | next (i : Nat)
  /-- `Handle::cancel` -/
  | cancel (id : Nat)
  /-- The receiver is closed. -/
  | close (id : Nat)
  | tick (d : Nat)
  /-- The measurements of the pacing lead to another chunk. -/
  | pace (chunk : Nat)
  /-- The loop goes on. -/
  | loop

def PREFILL_TOKENS_INITIAL : Nat := 32
def PREFILL_TOKENS_MIN : Nat := 1
def PREFILL_TOKENS_MAX : Nat := 512

def USIZE_MAX : Nat := 2 ^ 64 - 1

namespace Scheduler

/-- `Scheduler::new` -/
def init (w : World σ κ) : Scheduler σ κ K Γ where
  now := 0
  chunk := PREFILL_TOKENS_INITIAL
  seq := 0
  nextId := 0
  slots := .empty
  counters := .zero
  streams := fun _ => { events := [], cancelled := false, closed := false }
  submits := []
  channel := []
  heap := []
  prefilling := []
  active := []
  phase := .top
  outbox := none
  leaving := []
  world := w
  book := ⟨[], [], []⟩

/-! ## One request -/

/-- `is_cancelled() || is_closed()` -/
def gone (s : Scheduler σ κ K Γ) (r : Request K) : Bool :=
  (s.streams r.id).cancelled || (s.streams r.id).closed

def onStream (id : Nat) (f : Stream → Stream) (s : Scheduler σ κ K Γ) : Scheduler σ κ K Γ :=
  { s with streams := Function.update s.streams id (f (s.streams id)) }

/-- `events.send(event)`, whose answer says whether the receiver is still there. -/
def send (id : Nat) (event : StreamEvent) (s : Scheduler σ κ K Γ) : Scheduler σ κ K Γ :=
  if (s.streams id).closed then s else s.onStream id (Stream.push · event)

def count (r : Request K) (o : Outcome) (s : Scheduler σ κ K Γ) : Scheduler σ κ K Γ :=
  { s with
    counters := s.counters.add o
    book := { s.book with counted := (r.id, o) :: s.book.counted } }

/-- Count a request, send it its last event if there is one, and drop it. -/
def retire (r : Request K) (o : Outcome) (event : Option StreamEvent)
    (s : Scheduler σ κ K Γ) : Scheduler σ κ K Γ :=
  { s.count r o with
    outbox := event.map fun e => (r.id, e)
    leaving := [r] }

/-- Drop a request that has been counted. -/
def drop (r : Request K) (s : Scheduler σ κ K Γ) : Scheduler σ κ K Γ :=
  { s with
    slots := s.slots.release r.permit
    book := { s.book with released := r.id :: s.book.released } }

/-- Drop sequences. -/
def free (seqs : List (SeqState σ)) (s : Scheduler σ κ K Γ) : Scheduler σ κ K Γ :=
  { s with world := { s.world with
      storage := seqs.foldl (fun st seq => seq.drop st) s.world.storage } }

/-- What `advance_prefills` and `step_batch` find out about a request before they spend work on
it: whether to count it, as what, and what to tell it. -/
def check (now deadline : Nat) (r : Request K) (s : Scheduler σ κ K Γ) :
    Option (Outcome × Option StreamEvent) :=
  if (s.streams r.id).cancelled then some (.cancelled, some (.error .cancelled))
  else if (s.streams r.id).closed then some (.cancelled, none)
  else if deadline ≤ now then some (.timedOut, some (.error .timeout))
  else none

/-! ## `submit` -/

variable (cfg : SchedulerConfig)

/-- `user_semaphore` -/
def lookup (spec : RequestSpec K) (s : Scheduler σ κ K Γ) : Scheduler σ κ K Γ :=
  let (sem, slots) := s.slots.userSemaphore cfg.maxConcurrentPerUser spec.userId
  { s with slots := slots, submits := .looked spec sem :: s.submits }

/-- One more step of `submit`, which has come as far as the first argument says; `s` is without
it. The channel is never closed: the loop holds a sender itself. -/
def submitNext (t : Submit K) (s : Scheduler σ κ K Γ) : Option (Scheduler σ κ K Γ) :=
  match t with
  | .looked spec sem =>
    match s.slots.tryAcquire sem with
    | some slots => some { s with slots := slots, submits := .holding spec sem :: s.submits }
    | none =>
      some { s with
        counters := { s.counters with rejectedRateLimit := s.counters.rejectedRateLimit + 1 }
        submits := .returned (.error .rateLimit) :: s.submits }
  | .holding spec sem =>
    some { s with seq := s.seq + 1, submits := .numbered spec sem s.seq :: s.submits }
  | .numbered spec sem seq =>
    let request : Request K := { id := s.nextId, spec := spec, submitted := s.now, permit := sem }
    some { s with nextId := s.nextId + 1, submits := .ready ⟨request, seq⟩ :: s.submits }
  | .ready q =>
    if s.channel.length < max cfg.queueCapacity 1 then
      some { s with
        channel := s.channel ++ [q]
        submits := .sent q.request.id :: s.submits
        book := { s.book with accepted := q.request.id :: s.book.accepted } }
    else
      -- the permit drops with the request
      some { s with
        counters := { s.counters with rejectedBusy := s.counters.rejectedBusy + 1 }
        slots := s.slots.release q.request.permit
        submits := .returned (.error .busy) :: s.submits }
  | .sent id =>
    some { s with
      counters := { s.counters with submitted := s.counters.submitted + 1 }
      submits := .returned (.ok id) :: s.submits }
  | .returned _ => none

/-- The handles callers have been given. -/
def handles (s : Scheduler σ κ K Γ) : List Nat := s.submits.filterMap Submit.handle?

/-! ## The queue -/

/-- Block only when there is genuinely nothing to do. -/
def topNext (s : Scheduler σ κ K Γ) : Option (Scheduler σ κ K Γ) :=
  if s.active.isEmpty && s.prefilling.isEmpty && s.heap.isEmpty then
    match s.channel with
    | [] => none
    | q :: channel => some { s with channel := channel, heap := q :: s.heap, phase := .drain }
  else some { s with phase := .drain }

def drainNext (s : Scheduler σ κ K Γ) : Scheduler σ κ K Γ :=
  match s.channel with
  | [] => { s with phase := .scan s.heap }
  | q :: channel => { s with channel := channel, heap := q :: s.heap }

def scanNext (rest : List (Queued K)) (s : Scheduler σ κ K Γ) : Scheduler σ κ K Γ :=
  match rest with
  | [] => { s with phase := .admission [] }
  | q :: rest =>
    if s.gone q.request then { s with heap := [], phase := .sweep s.heap }
    else { s with phase := .scan rest }

/-- Drop queued requests whose client has already gone. -/
def sweepNext (rest : List (Queued K)) (s : Scheduler σ κ K Γ) : Scheduler σ κ K Γ :=
  match rest with
  | [] => { s with phase := .admission [] }
  | q :: rest =>
    let s := { s with phase := .sweep rest }
    if s.gone q.request then s.retire q.request .cancelled none
    else { s with heap := q :: s.heap }

def admitNext (admitted : List (Queued K)) (s : Scheduler σ κ K Γ) : Scheduler σ κ K Γ :=
  if s.active.length + s.prefilling.length + admitted.length < max cfg.maxConcurrent 1 then
    match popMax Queued.cmp s.heap with
    | none => { s with phase := .start admitted }
    | some (q, heap) =>
      let s := { s with heap := heap }
      if s.gone q.request then s.retire q.request .cancelled none
      else { s with phase := .admission (admitted ++ [q]) }
  else { s with phase := .start admitted }

/-! ## The decode worker -/

variable [Weight K] [DecidableEq κ] (rt : InferenceRuntime σ κ K Γ)

/-- Accept one request, or report why it could not start. -/
def admitOne (r : Request K) (s : Scheduler σ κ K Γ) : Scheduler σ κ K Γ :=
  match rt.startIncremental r.spec.params r.spec.prompt s.world with
  | (.ok pending, w) =>
    { s with
      world := w
      prefilling := s.prefilling ++
        [{ request := r, pending := pending, deadline := r.submitted + r.spec.timeout }] }
  | (.error e, w) => { s with world := w }.retire r .failed (some (.error e))

def startNext (admitted : List (Queued K)) (s : Scheduler σ κ K Γ) : Scheduler σ κ K Γ :=
  match admitted with
  | q :: admitted => { s with phase := .start admitted }.admitOne rt q.request
  | [] =>
    if s.prefilling.isEmpty then { s with phase := .stepBatch }
    else
      -- nothing is streaming, so there is no one to stall: take the whole prompt
      let budget := if s.active.isEmpty then USIZE_MAX else s.chunk
      { s with prefilling := [], phase := .prefill s.now budget s.prefilling [] }

/-- The checks of `advance_prefills` on its next request. -/
def prefillNext (now budget : Nat) (rest still : List (Prefilling σ K))
    (s : Scheduler σ κ K Γ) : Scheduler σ κ K Γ :=
  match rest with
  | [] => { s with prefilling := still, phase := .stepBatch }
  | p :: rest =>
    match s.check now p.deadline p.request with
    | some (o, event) =>
      ({ s with phase := .prefill now budget rest still }.free [p.pending.seq]).retire
        p.request o event
    | none => { s with phase := .advance now budget p rest still }

/-- Feed a pending prompt a little further, promoting it if it finishes. -/
def advanceNext (now budget : Nat) (p : Prefilling σ K) (rest still : List (Prefilling σ K))
    (s : Scheduler σ κ K Γ) : Scheduler σ κ K Γ :=
  match rt.advancePrefill p.pending budget s.world with
  | (.ok true, pending, w) =>
    { s with
      world := w
      active := s.active ++
        [{ request := p.request, session := rt.finishPrefill pending, deadline := p.deadline }]
      phase := .prefill now budget rest still }
  | (.ok false, pending, w) =>
    { s with
      world := w
      phase := .prefill now budget rest (still ++ [{ p with pending := pending }]) }
  | (.error e, pending, w) =>
    ({ s with world := w, phase := .prefill now budget rest still }.free [pending.seq]).retire
      p.request .failed (some (.error e))

/-- The checks of `step_batch` on its next request. -/
def retainNext (now : Nat) (rest : List (Active σ K Γ)) (s : Scheduler σ κ K Γ) :
    Scheduler σ κ K Γ :=
  match rest with
  | [] => if s.active.isEmpty then { s with phase := .top } else { s with phase := .decode }
  | a :: rest =>
    match s.check now a.deadline a.request with
    | some (o, event) =>
      ({ s with phase := .retain now rest }.free a.session.seqs).retire a.request o event
    | none => { s with active := s.active ++ [a], phase := .retain now rest }

/-- One sequence guesses ahead, several share a pass. `none` is a panic of the worker: the loop drops
the batch and goes on, but a run ends here. -/
def decode (s : Scheduler σ κ K Γ) : Option (Scheduler σ κ K Γ) :=
  match s.active, cfg.speculativeLookahead with
  | [a], lookahead + 1 =>
    let (outcome, tokens, session, w) :=
      rt.nextTokensSpeculative a.request.spec.params (lookahead + 1) a.session [] s.world
    some { s with
      world := w
      active := []
      phase := .stream { a with session := session } tokens outcome }
  | active, _ =>
    match rt.nextTokenBatch (active.map fun a => (a.session, a.request.spec.params)) s.world with
    | none => none
    | some (stepped, w) =>
      some { s with
        world := w
        active := []
        phase := .deliver
          (List.zipWith (fun a out => ({ a with session := out.2 }, out.1)) active stepped) [] }

/-- Send the next token of a speculative round, or finish the round. -/
def streamNext (a : Active σ K Γ) (tokens : List Token) (outcome : Except StopReason Unit)
    (s : Scheduler σ κ K Γ) : Scheduler σ κ K Γ :=
  match tokens, outcome with
  | t :: tokens, outcome =>
    if (s.streams a.request.id).closed then
      ({ s with phase := .settle [] }.free a.session.seqs).retire a.request .cancelled none
    else { s with phase := .stream a tokens outcome }.send a.request.id (.token t)
  | [], .error reason =>
    ({ s with phase := .settle [] }.free a.session.seqs).retire a.request .completed
      (some (.done reason))
  | [], .ok () => { s with active := [a], phase := .top }

/-- Report the next outcome of a batch. -/
def deliverNext (rest : List (Active σ K Γ × Except StopReason Token))
    (done : List (Active σ K Γ × Bool)) (s : Scheduler σ κ K Γ) : Scheduler σ κ K Γ :=
  match rest with
  | [] => { s with phase := .settle done }
  | (a, .ok token) :: rest =>
    if (s.streams a.request.id).closed then
      { s with phase := .deliver rest (done ++ [(a, true)]) }.count a.request .cancelled
    else
      { s with phase := .deliver rest (done ++ [(a, false)]) }.send a.request.id (.token token)
  | (a, .error reason) :: rest =>
    { ({ s with phase := .deliver rest (done ++ [(a, true)]) }.count a.request .completed) with
      outbox := some (a.request.id, .done reason) }

/-- Keep the next request that was stepped, or drop it. -/
def settleNext (rest : List (Active σ K Γ × Bool)) (s : Scheduler σ κ K Γ) :
    Scheduler σ κ K Γ :=
  match rest with
  | [] => { s with phase := .top }
  | (a, true) :: rest =>
    { s with phase := .settle rest, leaving := [a.request] }.free a.session.seqs
  | (a, false) :: rest => { s with active := s.active ++ [a], phase := .settle rest }

/-! ## Everything together -/

/-- The next step of `run_loop`, with nothing left to send or to drop. -/
def runLoop (s : Scheduler σ κ K Γ) : Option (Scheduler σ κ K Γ) :=
  match s.phase with
  | .top => s.topNext
  | .drain => some s.drainNext
  | .scan rest => some (s.scanNext rest)
  | .sweep rest => some (s.sweepNext rest)
  | .admission admitted => some (s.admitNext cfg admitted)
  | .start admitted => some (s.startNext rt admitted)
  | .prefill now budget rest still => some (s.prefillNext now budget rest still)
  | .advance now budget p rest still => some (s.advanceNext rt now budget p rest still)
  | .stepBatch => some { s with active := [], phase := .retain s.now s.active }
  | .retain now rest => some (s.retainNext now rest)
  | .decode => s.decode cfg rt
  | .stream a tokens outcome => some (s.streamNext a tokens outcome)
  | .deliver rest done => some (s.deliverNext rest done)
  | .settle rest => some (s.settleNext rest)

/-- The next step of the loop task. -/
def loopNext (s : Scheduler σ κ K Γ) : Option (Scheduler σ κ K Γ) :=
  match s.outbox, s.leaving with
  | some (id, event), _ => some ({ s with outbox := none }.send id event)
  | none, r :: leaving => some ({ s with leaving := leaving }.drop r)
  | none, [] => s.runLoop cfg rt

/-- Everything that can happen. A handle is only used once the caller has it. -/
def step (s : Scheduler σ κ K Γ) : Action K → Option (Scheduler σ κ K Γ)
  | .submit spec => some (s.lookup cfg spec)
  | .next i =>
    match s.submits[i]? with
    | none => none
    | some t => { s with submits := s.submits.eraseIdx i }.submitNext cfg t
  | .cancel id =>
    if id ∈ s.handles then some (s.onStream id Stream.cancel) else none
  | .close id =>
    if id ∈ s.handles then some (s.onStream id Stream.close) else none
  | .tick d => some { s with now := s.now + d }
  | .pace chunk =>
    if PREFILL_TOKENS_MIN ≤ chunk ∧ chunk ≤ PREFILL_TOKENS_MAX then some { s with chunk := chunk }
    else none
  | .loop => s.loopNext cfg rt

/-- A run from a scheduler that has just been made. -/
abbrev run (w : World σ κ) (as : List (Action K)) : Option (Scheduler σ κ K Γ) :=
  runList (step cfg rt) as (init w)

end Scheduler

end Garuda
