import Garuda.Cache.PromptCache
import Garuda.Runtime.Sampling

/-!
# Sessions

`InferenceRuntime` of `runtime/mod.rs`: taking a prompt in, decoding one token at a time, and
decoding speculatively, several tokens to a pass.

The model behind the runtime is an `InferenceBackend`, any functions of a context and a sequence
state. What outlives a call (the storage, the counter sequence ids come from, the prompt cache)
is the `World`, threaded through every method; the arithmetic of `f64` that a sequence keeps
score with is a parameter.

* `draftFromContext_sublist`, `proposeWithModel_greedy` — no more guesses than asked for
-/

namespace Garuda

variable {σ κ K Γ : Type}

/-! ## Backends -/

section

variable {α : Type} (logits : List Token → SeqState σ → σ → Except GarudaError α × SeqState σ × σ)

/-- One forward pass for each context in turn, up to the first that fails. -/
def logitsInTurn : List (List Token) → List (SeqState σ) → σ →
    Except GarudaError (List α) × List (SeqState σ) × σ
  | context :: contexts, seq :: seqs, st =>
    match logits context seq st with
    | (.error e, seq, st) => (.error e, seq :: seqs, st)
    | (.ok l, seq, st) =>
      let (rest, seqs, st) := logitsInTurn contexts seqs st
      (rest.map (l :: ·), seq :: seqs, st)
  | _, seqs, st => (.ok [], seqs, st)

/-- The trait's own `logits_batch`, for a backend that cannot share work. -/
def defaultLogitsBatch (contexts : List (List Token)) (seqs : List (SeqState σ)) (st : σ) :
    Except GarudaError (List α) × List (SeqState σ) × σ :=
  if contexts.length ≠ seqs.length then
    (.error (.inference
      s!"logits_batch got {contexts.length} contexts for {seqs.length} sequences"), seqs, st)
  else logitsInTurn logits contexts seqs st

end

/-- Produces next-token logits for a context, from a sequence state it brings up to date. -/
structure InferenceBackend (σ K : Type) where
  hidden : List Token → SeqState σ → σ → Except GarudaError (List K) × SeqState σ × σ
  logits : List Token → SeqState σ → σ → Except GarudaError (List K) × SeqState σ × σ
  /-- Logits at the last `n` positions, from a single pass. -/
  logitsMulti : List Token → SeqState σ → Nat → σ →
    Except GarudaError (List (List K)) × SeqState σ × σ
  /-- Logits for several sequences at once. -/
  logitsBatch : List (List Token) → List (SeqState σ) → σ →
    Except GarudaError (List (List K)) × List (SeqState σ) × σ := defaultLogitsBatch logits
  speculationSupported : Bool

/-- The `f64` arithmetic of `spec_gain`. -/
structure GainOps (Γ : Type) where
  one : Γ
  /-- `spec_gain < WORTH_IT` -/
  losing : Γ → Bool
  /-- `spec_gain.ceil() as usize` -/
  ceil : Γ → Nat
  /-- `spec_gain * 0.7 + won * 0.3` -/
  blend : Γ → Nat → Γ

/-! ## Data -/

/-- Why generation stopped. -/
inductive StopReason where
  /-- The model emitted end-of-sequence. -/
  | eos
  /-- `max_tokens` was reached. -/
  | length
  /-- The context window is full. -/
  | contextFull
  deriving DecidableEq, Repr

/-- A sequence whose prompt is still going in. -/
structure Pending (σ : Type) where
  seq : SeqState σ
  /-- The full prompt. Everything but its last token is prefilled. -/
  context : List Token
  /-- Prompt positions already in `seq`. -/
  consumed : Nat
  seed : UInt64
  cacheOnFinish : Bool

def Pending.remaining (p : Pending σ) : Nat := p.context.length - 1 - p.consumed

/-- One in-flight sequence. -/
structure Session (σ Γ : Type) where
  seq : SeqState σ
  /-- Prompt followed by everything generated so far. -/
  context : List Token
  promptLen : Nat
  rng : Rng
  finished : Bool
  /-- Extra tokens the last few guesses actually won, as a moving average. -/
  specGain : Γ
  /-- Rounds since drafting was last attempted. -/
  specIdle : Nat
  /-- The draft model's attention state for this same sequence. -/
  draftSeq : Option (SeqState σ)

namespace Session

def generated (s : Session σ Γ) : Nat := s.context.length - s.promptLen

def finish (s : Session σ Γ) : Session σ Γ := { s with finished := true }

def push (s : Session σ Γ) (t : Token) : Session σ Γ := { s with context := s.context ++ [t] }

end Session

/-- What outlives a call: the storage, the next sequence id and the prompt cache. -/
structure World (σ κ : Type) where
  storage : σ
  nextSeq : UInt64
  promptCache : PromptCache σ κ

structure InferenceRuntime (σ κ K Γ : Type) where
  /-- `tokenizer.eos()` -/
  eos : Token
  backend : InferenceBackend σ K
  drafter : Option (InferenceBackend σ K × KvConfig σ)
  /-- A token that ends a turn besides the vocabulary's end-of-sequence. -/
  turnEnd : Option Token
  kvTemplate : KvConfig σ
  num : Numerics K
  gain : GainOps Γ
  promptKey : List Token → κ

namespace InferenceRuntime

/-- Set from the template when the runtime is built, and never changed. -/
def maxContext (rt : InferenceRuntime σ κ K Γ) : Nat := rt.kvTemplate.maxPositions.toNat

def endsTurn (rt : InferenceRuntime σ κ K Γ) (token : Token) : Bool :=
  token == rt.eos || some token == rt.turnEnd

def freshSeqId (w : World σ κ) : Nat × World σ κ :=
  (w.nextSeq.toNat, { w with nextSeq := w.nextSeq + 1 })

end InferenceRuntime

/-! ## Guessing -/

/-- Context tokens that must match for a guess to be drawn from an earlier passage. -/
def NGRAM : Nat := 4

/-- The tokens after the latest earlier occurrence of the last `ngram`, looking at starts below
the given one. -/
def latestMatch (context : List Token) (maxTokens ngram : Nat) : Nat → List Token
  | 0 => []
  | start + 1 =>
    if (context.drop start).take ngram = context.drop (context.length - ngram) then
      let after := context.drop (start + ngram)
      if 0 < min maxTokens after.length then after.take (min maxTokens after.length)
      else latestMatch context maxTokens ngram start
    else latestMatch context maxTokens ngram start

/-- Guess the next few tokens by finding where the recent context occurred earlier and copying
whatever followed it. -/
def draftFromContext (context : List Token) (maxTokens ngram : Nat) : List Token :=
  if maxTokens = 0 ∨ ngram = 0 ∨ context.length ≤ ngram then []
  else latestMatch context maxTokens ngram (context.length - ngram)

theorem latestMatch_sublist (context : List Token) (maxTokens ngram : Nat) :
    ∀ start, (latestMatch context maxTokens ngram start).Sublist context ∧
      (latestMatch context maxTokens ngram start).length ≤ maxTokens
  | 0 => ⟨List.nil_sublist _, Nat.zero_le _⟩
  | start + 1 => by
    have ih := latestMatch_sublist context maxTokens ngram start
    simp only [latestMatch]
    split
    · split
      · refine ⟨(List.take_sublist _ _).trans (List.drop_sublist _ _), ?_⟩
        rw [List.length_take]
        omega
      · exact ih
    · exact ih

theorem draftFromContext_sublist (context : List Token) (maxTokens ngram : Nat) :
    (draftFromContext context maxTokens ngram).Sublist context ∧
      (draftFromContext context maxTokens ngram).length ≤ maxTokens := by
  unfold draftFromContext
  split
  · exact ⟨List.nil_sublist _, Nat.zero_le _⟩
  · exact latestMatch_sublist context maxTokens ngram _

/-- A guess, and the distribution it was drawn from when there is one, before the later ones. -/
def consGuess (token : Token) (dists : List (List (Token × K)))
    (rest : Except GarudaError (List Token × List (List (Token × K)))) :
    Except GarudaError (List Token × List (List (Token × K))) :=
  rest.map fun (guesses, later) => (token :: guesses, dists ++ later)

theorem consGuess_ok {token : Token} {dists : List (List (Token × K))}
    {rest : Except GarudaError (List Token × List (List (Token × K)))}
    {out : List Token × List (List (Token × K))} (h : consGuess token dists rest = .ok out) :
    ∃ more, rest = .ok more ∧ out = (token :: more.1, dists ++ more.2) := by
  cases rest with
  | error e => simp [consGuess, Except.map] at h
  | ok more => exact ⟨more, rfl, (Except.ok.inj h).symm⟩

section

variable [Weight K]

/-- Run the draft model forward `n` times, drawing a token from it each step. The source keeps
the distributions of a failed run until its caller clears them; here they are dropped. -/
def proposeWithModel (num : Numerics K) (drafter : InferenceBackend σ K)
    (params : SamplingParams K) : Nat → List Token → SeqState σ → Rng → σ →
    Except GarudaError (List Token × List (List (Token × K))) × SeqState σ × Rng × σ
  | 0, _, seq, rng, st => (.ok ([], []), seq, rng, st)
  | n + 1, probe, seq, rng, st =>
    match drafter.logits probe seq st with
    | (.error e, seq, st) => (.error e, seq, rng, st)
    | (.ok logits, seq, st) =>
      if params.temperature == 0 then
        match sample num logits params rng with
        | (.error e, rng) => (.error e, seq, rng, st)
        | (.ok token, rng) =>
          let out := proposeWithModel num drafter params n (probe ++ [token]) seq rng st
          (consGuess token [] out.1, out.2)
      else
        let cands := candidates num logits params
        if cands.isEmpty ∨ totalMass cands ≤ 0 then (.ok ([], []), seq, rng, st)
        else
          let (u, rng) := rng.nextF32 num
          let token := drawn u cands
          let out := proposeWithModel num drafter params n (probe ++ [token]) seq rng st
          (consGuess token [cands] out.1, out.2)

/-- The draft model makes no more guesses than asked for. -/
theorem proposeWithModel_length (num : Numerics K) (drafter : InferenceBackend σ K)
    (params : SamplingParams K) : ∀ (n : Nat) (probe : List Token) (seq : SeqState σ) (rng : Rng)
      (st : σ) (out : List Token × List (List (Token × K))),
      (proposeWithModel num drafter params n probe seq rng st).1 = .ok out → out.1.length ≤ n
  | 0, _, _, _, _, out, h => by
    rw [← Except.ok.inj h]
    exact Nat.le_refl 0
  | n + 1, probe, seq, rng, st, out, h => by
    rw [proposeWithModel] at h
    generalize drafter.logits probe seq st = answer at h
    obtain ⟨res, seq, st⟩ := answer
    -- what follows the first guess
    have hmore : ∀ {token : Token} {dists : List (List (Token × K))} {rng : Rng},
        consGuess token dists
          (proposeWithModel num drafter params n (probe ++ [token]) seq rng st).1 = .ok out →
        out.1.length ≤ n + 1 := by
      intro token dists rng hcons
      obtain ⟨more, hmore, rfl⟩ := consGuess_ok hcons
      exact Nat.succ_le_succ (proposeWithModel_length num drafter params n _ _ _ _ _ hmore)
    cases res with
    | error e => cases h
    | ok logits =>
      simp only at h
      split at h
      · split at h
        · cases h
        · exact hmore h
      · split at h
        · rw [← Except.ok.inj h]
          exact Nat.zero_le _
        · exact hmore h

/-- A greedy draft makes no more guesses than asked for, all indices of the draft's logits. -/
theorem proposeWithModel_greedy {num : Numerics K} {drafter : InferenceBackend σ K}
    {params : SamplingParams K} (ht : (params.temperature == 0) = true) {vocab : Nat}
    (hvocab : ∀ (ctx : List Token) (seq : SeqState σ) (st : σ) (logits : List K),
      (drafter.logits ctx seq st).1 = .ok logits → logits.length ≤ vocab) :
    ∀ (n : Nat) (probe : List Token) (seq : SeqState σ) (rng : Rng) (st : σ)
      {out : List Token × List (List (Token × K))},
      (proposeWithModel num drafter params n probe seq rng st).1 = .ok out →
      out.1.length ≤ n ∧ ∀ t ∈ out.1, t.toNat < vocab
  | 0, _, _, _, _, out, h => by
    rw [← Except.ok.inj h]
    exact ⟨Nat.le_refl 0, by simp⟩
  | n + 1, probe, seq, rng, st, out, h => by
    have hv := hvocab probe seq st
    rw [proposeWithModel] at h
    generalize drafter.logits probe seq st = answer at h hv
    obtain ⟨res, seq, st⟩ := answer
    cases res with
    | error e => simp at h
    | ok logits =>
      have ht' : ∀ t, (sample num logits params rng).1 = .ok t → t.toNat < logits.length :=
        fun _ => sample_greedy_lt ht
      simp only [ht, if_true] at h
      generalize sample num logits params rng = sampled at h ht'
      obtain ⟨res, rng⟩ := sampled
      cases res with
      | error e => simp at h
      | ok token =>
        obtain ⟨more, hmore, rfl⟩ := consGuess_ok h
        obtain ⟨hlen, hall⟩ := proposeWithModel_greedy ht hvocab n _ _ _ _ hmore
        refine ⟨Nat.succ_le_succ hlen, ?_⟩
        intro t htm
        rcases List.mem_cons.mp htm with rfl | htm
        · exact Nat.lt_of_lt_of_le (ht' t rfl) (hv logits rfl)
        · exact hall t htm

namespace InferenceRuntime

variable (rt : InferenceRuntime σ κ K Γ) (params : SamplingParams K)

/-! ## Prefill -/

variable [DecidableEq κ]

/-- Begin a sequence without absorbing the prompt yet. -/
def startIncremental (prompt : List Token) (w : World σ κ) :
    Except GarudaError (Pending σ) × World σ κ :=
  match params.validate rt.num with
  | .error e => (.error e, w)
  | .ok () =>
    if prompt.isEmpty then (.error (.inference "prompt is empty"), w)
    else if rt.maxContext ≤ prompt.length then
      (.error (.inference s!"prompt of {prompt.length} tokens does not fit the {rt.maxContext}-token context window"),
        w)
    else
      let (seqId, w) := freshSeqId w
      let pending (seq : SeqState σ) (consumed : Nat) (cacheOnFinish : Bool) : Pending σ :=
        { seq := seq, context := prompt, consumed := consumed,
          seed := params.seed.getD (UInt64.ofNat seqId), cacheOnFinish := cacheOnFinish }
      let before := prompt.dropLast
      if before.isEmpty then (.ok (pending (.new rt.kvTemplate seqId) 0 false), w)
      else
        let (hit, promptCache) := w.promptCache.get rt.promptKey before seqId
        let w := { w with promptCache := promptCache }
        match hit with
        | some cached => (.ok (pending cached before.length false), w)
        | none => (.ok (pending (.new rt.kvTemplate seqId) 0 true), w)

/-- Absorb up to `maxTokens` more of a pending prompt: `true` once it is all in. -/
def advancePrefill (p : Pending σ) (maxTokens : Nat) (w : World σ κ) :
    Except GarudaError Bool × Pending σ × World σ κ :=
  let prefixLen := p.context.length - 1
  if prefixLen ≤ p.consumed then (.ok true, p, w)
  else
    let target := min prefixLen (p.consumed + max maxTokens 1)
    match rt.backend.hidden (p.context.take target) p.seq w.storage with
    | (.error e, seq, st) => (.error e, { p with seq := seq }, { w with storage := st })
    | (.ok _, seq, st) =>
      let p := { p with seq := seq, consumed := target }
      let w := { w with storage := st }
      let done := decide (prefixLen ≤ target)
      if done ∧ p.cacheOnFinish ∧ ¬ p.seq.hasSpill then
        let (promptCache, st) :=
          w.promptCache.insert rt.promptKey (p.context.take prefixLen) p.seq w.storage
        (.ok done, p, { w with storage := st, promptCache := promptCache })
      else (.ok done, p, w)

/-- Call `advancePrefill` without a limit until it says the prompt is in; `n` bounds the calls. -/
def absorb : Nat → Pending σ → World σ κ → Except GarudaError Unit × Pending σ × World σ κ
  | 0, p, w => (.ok (), p, w)
  | n + 1, p, w =>
    -- the rest of the prompt stands for `usize::MAX`
    match rt.advancePrefill p p.remaining w with
    | (.error e, p, w) => (.error e, p, w)
    | (.ok true, p, w) => (.ok (), p, w)
    | (.ok false, p, w) => absorb n p w

/-- Turn a fully-absorbed prompt into the session that decodes from it. -/
def finishPrefill (p : Pending σ) : Session σ Γ where
  seq := p.seq
  context := p.context
  promptLen := p.context.length
  rng := .new p.seed
  finished := false
  specGain := rt.gain.one
  specIdle := 0
  draftSeq := none

/-- Begin a sequence, prefilling everything but the final prompt token. -/
def start (prompt : List Token) (w : World σ κ) : Except GarudaError (Session σ Γ) × World σ κ :=
  match rt.startIncremental params prompt w with
  | (.error e, w) => (.error e, w)
  | (.ok p, w) =>
    match rt.absorb (p.remaining + 1) p w with
    -- the half-filled sequence is dropped with the pending prompt
    | (.error e, p, w) => (.error e, { w with storage := p.seq.drop w.storage })
    | (.ok (), p, w) => (.ok (rt.finishPrefill p), w)

/-! ## One token -/

/-- Why a session has no further step to take, if it has none. -/
def spent (s : Session σ Γ) : Option StopReason :=
  if s.finished then some .length
  else if params.maxTokens ≤ s.generated then some .length
  else if rt.maxContext ≤ s.context.length then some .contextFull
  else none

/-- Produce the next token, or the reason why the sequence is done. -/
def nextToken (s : Session σ Γ) (w : World σ κ) :
    Except StopReason Token × Session σ Γ × World σ κ :=
  match rt.spent params s with
  | some reason => (.error reason, s.finish, w)
  | none =>
    match rt.backend.logits s.context s.seq w.storage with
    | (.error _, seq, st) =>
      (.error .contextFull, { s with seq := seq }.finish, { w with storage := st })
    | (.ok logits, seq, st) =>
      let s := { s with seq := seq }
      let w := { w with storage := st }
      match sample rt.num logits params s.rng with
      | (.error _, rng) => (.error .contextFull, { s with rng := rng }.finish, w)
      | (.ok token, rng) =>
        let s := { s with rng := rng }.push token
        if rt.endsTurn token then (.error .eos, s.finish, w) else (.ok token, s, w)

end InferenceRuntime

end

end Garuda
