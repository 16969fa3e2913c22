import Garuda.Runtime.Session

/-!
# One token for each of several sessions

`next_token_batch` of `runtime/mod.rs`: the sessions that are still running share one pass of the
model; when that pass fails each of them takes a step of its own.

* `nextTokenBatch_length` — one outcome for each session
-/

namespace Garuda

variable {σ κ K Γ : Type}

/-- A session in a batch, its parameters, and why it takes no part if it does not. -/
structure Lane (σ K Γ : Type) where
  session : Session σ Γ
  params : SamplingParams K
  stopped : Option StopReason

/-- The outcome of a step and the session after it. -/
abbrev Stepped (σ Γ : Type) := Except StopReason Token × Session σ Γ

namespace InferenceRuntime

variable [Weight K] (rt : InferenceRuntime σ κ K Γ)

/-- Decide who is still running, and retire the rest, before any work. -/
def lane (slot : Session σ Γ × SamplingParams K) : Lane σ K Γ :=
  match rt.spent slot.2 slot.1 with
  | some reason => { session := slot.1.finish, params := slot.2, stopped := some reason }
  | none => { session := slot.1, params := slot.2, stopped := none }

/-- The live lanes get back the sequences the batched pass worked on. -/
def takeBack : List (Lane σ K Γ) → List (SeqState σ) → List (Lane σ K Γ)
  | [], _ => []
  | l :: lanes, seqs =>
    match l.stopped, seqs with
    | none, seq :: seqs => { l with session := { l.session with seq := seq } } :: takeBack lanes seqs
    | _, seqs => l :: takeBack lanes seqs

/-- Step each live lane alone. -/
def stepAlone : List (Lane σ K Γ) → World σ κ → List (Stepped σ Γ) × World σ κ
  | [], w => ([], w)
  | l :: lanes, w =>
    match l.stopped with
    | some reason =>
      let (rest, w) := stepAlone lanes w
      ((.error reason, l.session) :: rest, w)
    | none =>
      let (outcome, session, w) := rt.nextToken l.params l.session w
      let (rest, w) := stepAlone lanes w
      ((outcome, session) :: rest, w)

/-- Append the token drawn from `logits`. -/
def takeToken (l : Lane σ K Γ) (logits : List K) : Stepped σ Γ :=
  match sample rt.num logits l.params l.session.rng with
  | (.ok token, rng) =>
    let s := { l.session with rng := rng }.push token
    if rt.endsTurn token then (.error .eos, s.finish) else (.ok token, s)
  | (.error _, rng) => (.error .contextFull, { l.session with rng := rng }.finish)

/-- Draw a token in each live lane. `none` is a panic: fewer answers than live lanes. -/
def takeTokens : List (Lane σ K Γ) → List (List K) → Option (List (Stepped σ Γ))
  | [], _ => some []
  | l :: lanes, answers =>
    match l.stopped, answers with
    | some reason, answers => (takeTokens lanes answers).map ((.error reason, l.session) :: ·)
    | none, logits :: answers => (takeTokens lanes answers).map (rt.takeToken l logits :: ·)
    | none, [] => none

/-- Advance every session by one token in a single pass. `none` is a panic. -/
def nextTokenBatch (slots : List (Session σ Γ × SamplingParams K)) (w : World σ κ) :
    Option (List (Stepped σ Γ) × World σ κ) :=
  let lanes := slots.map rt.lane
  let live := lanes.filter fun l => l.stopped.isNone
  if live.isEmpty then some (rt.stepAlone lanes w)
  else
    match rt.backend.logitsBatch (live.map fun l => l.session.context)
        (live.map fun l => l.session.seq) w.storage with
    | (.error _, seqs, st) => some (rt.stepAlone (takeBack lanes seqs) { w with storage := st })
    | (.ok answers, seqs, st) =>
      (rt.takeTokens (takeBack lanes seqs) answers).map fun out => (out, { w with storage := st })

/-! ## One outcome for each session -/

omit [Weight K] in
@[simp] theorem length_takeBack : ∀ (lanes : List (Lane σ K Γ)) (seqs : List (SeqState σ)),
    (takeBack lanes seqs).length = lanes.length
  | [], _ => rfl
  | l :: lanes, seqs => by
    cases hstopped : l.stopped with
    | some reason => simp [takeBack, hstopped, length_takeBack lanes]
    | none =>
      cases seqs with
      | nil => simp [takeBack, hstopped, length_takeBack lanes]
      | cons seq seqs => simp [takeBack, hstopped, length_takeBack lanes]

@[simp] theorem length_stepAlone : ∀ (lanes : List (Lane σ K Γ)) (w : World σ κ),
    (rt.stepAlone lanes w).1.length = lanes.length
  | [], _ => rfl
  | l :: lanes, w => by
    cases hstopped : l.stopped with
    | some reason => simp [stepAlone, hstopped, length_stepAlone lanes]
    | none => simp [stepAlone, hstopped, length_stepAlone lanes]

theorem length_takeTokens : ∀ {lanes : List (Lane σ K Γ)} {answers : List (List K)}
    {out : List (Stepped σ Γ)}, rt.takeTokens lanes answers = some out →
    out.length = lanes.length
  | [], _, out, h => by
    rw [takeTokens] at h
    rw [← Option.some.inj h]
    rfl
  | l :: lanes, answers, out, h => by
    cases hstopped : l.stopped with
    | some reason =>
      simp only [takeTokens, hstopped] at h
      obtain ⟨rest, hrest, rfl⟩ := Option.map_eq_some_iff.mp h
      rw [List.length_cons, List.length_cons, length_takeTokens hrest]
    | none =>
      cases answers with
      | nil => simp [takeTokens, hstopped] at h
      | cons logits answers =>
        simp only [takeTokens, hstopped] at h
        obtain ⟨rest, hrest, rfl⟩ := Option.map_eq_some_iff.mp h
        rw [List.length_cons, List.length_cons, length_takeTokens hrest]

/-- **One outcome for each session**, in the order the sessions came. -/
theorem nextTokenBatch_length {slots : List (Session σ Γ × SamplingParams K)} {w w' : World σ κ}
    {out : List (Stepped σ Γ)} (h : rt.nextTokenBatch slots w = some (out, w')) :
    out.length = slots.length := by
  unfold nextTokenBatch at h
  simp only at h
  split at h
  · obtain ⟨rfl, _⟩ := Prod.mk.inj (Option.some.inj h)
    simp
  · split at h
    · obtain ⟨rfl, _⟩ := Prod.mk.inj (Option.some.inj h)
      simp
    · obtain ⟨rest, hrest, heq⟩ := Option.map_eq_some_iff.mp h
      obtain ⟨rfl, _⟩ := Prod.mk.inj heq
      rw [rt.length_takeTokens hrest]
      simp

end InferenceRuntime

end Garuda
