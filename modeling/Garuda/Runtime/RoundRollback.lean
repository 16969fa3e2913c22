import Garuda.Runtime.Speculative

/-!
# Rolling a round back

The rollback of a speculative round cuts the cache inside the pass that the round has just made.
A block of that pass may already be on disk, and then the cache refuses the cut and the session
ends.

* `InferenceRuntime.verify_rollback_ok_iff` — when the cache accepts the cut
* `InferenceRuntime.round_rollback_iff` — and what the caller of the round is told
* `rollback_ends_session` — a configuration in which the first round is the last
-/

namespace Garuda

open Infra

variable {σ κ K Γ : Type} [Weight K]

/-- What a round relies on: the pass takes every layer through the tokens the sequence has not
seen, keeps copies of the recurrent states when there may be something to cut, and answers
for every position asked for. -/
structure InferenceBackend.Verifies (backend : InferenceBackend σ K) (recurrent : Nat → Bool) :
    Prop where
  answers : ∀ {ctx : List Token} {seq : SeqState σ} {n : Nat} {st : σ} {answers : List (List K)}
    {s' : SeqState σ × σ}, backend.logitsMulti ctx seq n st = (.ok answers, s') →
    answers.length = n ∧ ∀ a ∈ answers, a ≠ []
  pass : ∀ {ctx : List Token} {seq : SeqState σ} {n : Nat} {st : σ} {answers : List (List K)}
    {s' : SeqState σ × σ}, backend.logitsMulti ctx seq n st = (.ok answers, s') →
    ∃ record steps, SeqState.IsPass recurrent record (ctx.length - seq.len) steps (seq, st) s' ∧
      (record = true ∨ n = 1 ∨ ∀ l, l < seq.kvs.length → recurrent l = false)

namespace InferenceRuntime

variable (rt : InferenceRuntime σ κ K Γ) (params : SamplingParams K)

theorem verify_ok {draft : List Token} {dists : List (List (Token × K))} {s s' : Session σ Γ}
    {out : List Token} {w w' : World σ κ} {round : Round σ Γ}
    (h : rt.verify params draft dists s out w = (.ok round, s', w')) :
    ∃ answers seq, rt.backend.logitsMulti (s.context ++ draft) s.seq (draft.length + 1) w.storage
        = (.ok answers, seq, w'.storage) ∧
      round.session = (rt.judge params draft dists 0 answers { s with seq := seq } out).1 := by
  unfold verify at h
  split at h
  · simp at h
  · next answers seq st hpass =>
    simp only [Prod.mk.injEq, Except.ok.injEq] at h
    obtain ⟨rfl, _, rfl⟩ := h
    exact ⟨answers, seq, hpass, rfl⟩

section

variable {storage : Option (StorageBackend σ)} {law : ReadsBack storage}
variable {recurrent : Nat → Bool} {seqId : Nat} {s s₁ s₂ : Session σ Γ} {w w₁ w₂ : World σ κ}
variable {guesses : List Token} {dists : List (List (Token × K))} {out : List Token}
variable {round : Round σ Γ}

/-- **When the cache accepts the rollback of a round**: `k` guesses survive, and the cut just
behind the last of them is `Rollable` in every layer. -/
theorem verify_rollback_ok_iff (hs : rt.kvTemplate.storage = storage)
    (hb : rt.backend.Verifies recurrent)
    (hreach : SeqState.Reached law rt.kvTemplate recurrent seqId (s.seq, w.storage))
    (hlen : s.context.length = s.seq.len + 1)
    (hround : rt.verify params guesses dists s out w = (.ok round, s₁, w₁)) :
    ∃ k, k ≤ guesses.length ∧ round.session.context.length = s.context.length + k + 1 ∧
      ((round.session.seq.truncate (keepOf round) w₁.storage).1 = .ok () ↔
        ∀ kv ∈ s.seq.kvs, kv.Rollable (s.seq.len + (guesses.length + 1)) (s.seq.len + (k + 1))) := by
  obtain ⟨answers, seq, hpass, hsession⟩ := rt.verify_ok params hround
  obtain ⟨hcount, hanswers⟩ := hb.answers hpass
  obtain ⟨record, steps, hisPass, hrecord⟩ := hb.pass hpass
  obtain ⟨hseq, k, hk, hcontext⟩ := rt.judge_context params guesses dists answers 0
    { s with seq := seq } out (by rintro rfl; simp at hcount) hanswers
  rw [← hsession] at hseq hcontext
  have hcontext : round.session.context.length = s.context.length + k + 1 := hcontext
  have hn : (s.context ++ guesses).length - s.seq.len = guesses.length + 1 := by
    rw [List.length_append]
    omega
  rw [hn] at hisPass
  have hkeep : keepOf round = s.seq.len + (k + 1) := by
    unfold keepOf
    omega
  refine ⟨k, by omega, hcontext, ?_⟩
  rw [hkeep, hseq]
  refine SeqState.rollback_ok_iff hs hreach hisPass (Nat.succ_pos _) ?_ ?_
  · rcases hrecord with h | h | h
    · exact Or.inl h
    · exact Or.inr (Or.inl h)
    · exact Or.inr (Or.inr h)
  · show s.seq.len < s.seq.len + (k + 1)
    omega

/-- **What a round reports.** The rollback shows exactly when the cut, `k` surviving guesses
past the first new token of a pass over all of them, is not `Rollable` in every layer: the
session then ends as if its window were full. -/
theorem round_rollback_iff {lookahead : Nat} (hs : rt.kvTemplate.storage = storage)
    (hb : rt.backend.Verifies recurrent)
    (hreach : SeqState.Reached law rt.kvTemplate recurrent seqId (s.seq, w.storage))
    (hlen : s.context.length = s.seq.len + 1)
    (hon : 0 < lookahead ∧ rt.backend.speculationSupported = true ∧ rt.spent params s = none)
    (hdraft : rt.draft params (rt.budget lookahead s).1 (rt.budget lookahead s).2 w
      = ((guesses, dists), s₁, w₁))
    (hquiet : ∀ l b, law.content w₁.storage (spillPath seqId l b)
      = law.content w.storage (spillPath seqId l b))
    (hround : rt.verify params guesses dists s₁ out w₁ = (.ok round, s₂, w₂)) :
    ∃ k, k ≤ guesses.length ∧ round.session.context.length = s.context.length + k + 1 ∧
      ((round.session.seq.truncate (keepOf round) w₂.storage).1 = .ok () ↔
        ∀ kv ∈ s.seq.kvs, kv.Rollable (s.seq.len + (guesses.length + 1)) (s.seq.len + (k + 1))) ∧
      ((round.session.seq.truncate (keepOf round) w₂.storage).1 = .ok () →
        (rt.nextTokensSpeculative params lookahead s out w).1 = round.outcome) ∧
      ((round.session.seq.truncate (keepOf round) w₂.storage).1 ≠ .ok () →
        (rt.nextTokensSpeculative params lookahead s out w).1 = .error .contextFull ∧
        (rt.nextTokensSpeculative params lookahead s out w).2.2.1.finished = true) := by
  obtain ⟨idle, ds, rng, hs₁⟩ := rt.drafted_session params lookahead s w
  have hspec : rt.speculate params lookahead s out w = (.ok round, s₂, w₂) := by
    rw [speculate_eq, hdraft]
    exact hround
  rw [hdraft] at hs₁
  simp only at hs₁
  have hreach₁ : SeqState.Reached law rt.kvTemplate recurrent seqId (s₁.seq, w₁.storage) := by
    rw [hs₁]
    exact hreach.elsewhere hquiet
  obtain ⟨k, hk, hcontext, hiff⟩ := rt.verify_rollback_ok_iff params hs hb hreach₁
    (by rw [hs₁]; exact hlen) hround
  rw [hs₁] at hcontext hiff
  rw [rt.nextTokensSpeculative_round params hon hspec]
  exact ⟨k, hk, hcontext, hiff, fun h => (rt.settle_accepted h).1, rt.settle_refused⟩

end

end InferenceRuntime

/-! ## A backend small enough to evaluate -/

instance : Weight Int where
  decidableLT := inferInstance
  decidableLE := inferInstance

/-- Every layer attends once to each of `n` tokens. -/
def stubSteps (width layers : Nat) : Nat → List PassStep
  | 0 => []
  | n + 1 => (List.range layers).map (fun l => .attend l (.replicate width ⟨0⟩) (.replicate width ⟨0⟩))
      ++ stubSteps width layers n

theorem stubSteps_count (width layers n : Nat) {l : Nat} (hl : l < layers) :
    (stubSteps width layers n).countP (fun p => p.layer == l) = n := by
  induction n with
  | zero => rfl
  | succ n ih =>
    rw [stubSteps, List.countP_append, ih, List.countP_map]
    have hone : (List.range layers).countP (fun i => i == l) = 1 :=
      List.count_eq_one_of_mem List.nodup_range (List.mem_range.mpr hl)
    have hcomp : ((fun p : PassStep => p.layer == l)
        ∘ fun l => .attend l (.replicate width ⟨0⟩) (.replicate width ⟨0⟩)) = fun i => i == l := rfl
    rw [hcomp, hone]
    omega

theorem stubSteps_isFold (width layers n : Nat) : ∀ p ∈ stubSteps width layers n,
    p.isFold = false := by
  induction n with
  | zero => intro p hp; simp [stubSteps] at hp
  | succ n ih =>
    intro p hp
    rcases List.mem_append.mp hp with hp | hp
    · obtain ⟨l, _, rfl⟩ := List.mem_map.mp hp
      rfl
    · exact ih p hp

/-- One pass over the tokens `seq` has not seen. -/
def stubPass (width : Nat) (ctx : List Token) (seq : SeqState σ) (st : σ) :
    Option (SeqState σ × σ) :=
  (runList SeqState.consume (stubSteps width seq.kvs.length (ctx.length - seq.len)) (seq, st)).map
    fun s => (s.1.endRecording, s.2)

theorem stubPass_isPass {width : Nat} {ctx : List Token} {seq : SeqState σ} {st : σ}
    {s' : SeqState σ × σ} (h : stubPass width ctx seq st = some s') :
    ∃ steps, SeqState.IsPass (fun _ => false) false (ctx.length - seq.len) steps (seq, st) s' := by
  obtain ⟨t, ht, rfl⟩ := Option.map_eq_some_iff.mp h
  exact ⟨_, ⟨⟨t, ht, rfl⟩, fun l hl => stubSteps_count width _ _ hl, stubSteps_isFold width _ _⟩⟩

/-- Logits that put everything on one token. -/
def oneHot (vocab : Nat) (t : Token) : List Int :=
  (List.range vocab).map fun i => if i = t.toNat then 1 else 0

/-- A backend whose next token is `next` of the context, and which stores zeros of the layer
width at every position. -/
def stubBackend (next : List Token → Token) (vocab width : Nat) : InferenceBackend σ Int where
  hidden ctx seq st :=
    match stubPass width ctx seq st with
    | none => (.error (.inference "pass failed"), seq, st)
    | some s => (.ok [], s)
  logits ctx seq st :=
    match stubPass width ctx seq st with
    | none => (.error (.inference "pass failed"), seq, st)
    | some s => (.ok (oneHot vocab (next ctx)), s)
  logitsMulti ctx seq n st :=
    match stubPass width ctx seq st with
    | none => (.error (.inference "pass failed"), seq, st)
    | some s =>
      (.ok ((List.range n).map fun i =>
        oneHot vocab (next (ctx.take (ctx.length - n + i + 1)))), s)
  speculationSupported := true

theorem stub_verifies (next : List Token → Token) {vocab : Nat} (hvocab : 0 < vocab)
    (width : Nat) :
    (stubBackend next vocab width : InferenceBackend σ Int).Verifies (fun _ => false) := by
  have hpass : ∀ {ctx : List Token} {seq : SeqState σ} {n : Nat} {st : σ}
      {answers : List (List Int)} {s' : SeqState σ × σ},
      (stubBackend next vocab width).logitsMulti ctx seq n st = (.ok answers, s') →
      stubPass width ctx seq st = some s' ∧ answers = (List.range n).map fun i =>
        oneHot vocab (next (ctx.take (ctx.length - n + i + 1))) := by
    intro ctx seq n st answers s' h
    simp only [stubBackend] at h
    cases hp : stubPass width ctx seq st with
    | none => rw [hp] at h; simp at h
    | some t =>
      rw [hp] at h
      obtain ⟨h₁, rfl⟩ := Prod.mk.inj h
      exact ⟨rfl, (Except.ok.inj h₁).symm⟩
  constructor
  · intro ctx seq n st answers s' h
    obtain ⟨_, rfl⟩ := hpass h
    refine ⟨by simp, ?_⟩
    intro a ha
    obtain ⟨i, _, rfl⟩ := List.mem_map.mp ha
    simp [oneHot]
    omega
  · intro ctx seq n st answers s' h
    obtain ⟨steps, hsteps⟩ := stubPass_isPass (hpass h).1
    exact ⟨false, steps, hsteps, Or.inr (Or.inr fun _ _ => rfl)⟩

/-- A runtime over the stub, without a draft model. -/
def stubRuntime (cfg : KvConfig σ) (next : List Token → Token) :
    InferenceRuntime σ (List Token) Int Nat where
  eos := 0
  backend := stubBackend next 8 1
  drafter := none
  turnEnd := none
  kvTemplate := cfg
  num := { negInfinity := -1, isFinite := fun _ => true, render := Int.repr, exp := id,
           ofNat := Int.ofNat }
  gain := { one := 1, losing := fun g => g == 0, ceil := id, blend := fun g won => (g + won) / 2 }
  promptKey := id

def greedyParams (maxTokens : Nat) : SamplingParams Int where
  temperature := 0
  topP := 1
  topK := 0
  maxTokens := maxTokens
  seed := some 7

/-- Nothing stored, nothing cached. -/
def emptyWorld : World (Path → Option Bytes) (List Token) where
  storage := fun _ => none
  nextSeq := 1
  promptCache := .new 1 0

/-- Blocks of two, room for one, and a window that needs no more than one. -/
def tightRuntime : InferenceRuntime (Path → Option Bytes) (List Token) Int Nat :=
  stubRuntime (tinyCfg 2 1 (some 1) memoryStorage) fun _ => 3

/-- The session ends although the model has nothing against going on: the two wrong guesses of
the first round have pushed the block with the last good position to disk. -/
theorem rollback_ends_session :
    ∃ s w, tightRuntime.start (greedyParams 10) [1, 2, 1, 2, 1, 2, 1] emptyWorld = (.ok s, w) ∧
      (tightRuntime.nextToken (greedyParams 10) s w).1 = .ok 3 ∧
      (tightRuntime.nextTokensSpeculative (greedyParams 10) 2 s [] w).1 = .error .contextFull ∧
      (tightRuntime.nextTokensSpeculative (greedyParams 10) 2 s [] w).2.1 = [3] ∧
      (tightRuntime.nextTokensSpeculative (greedyParams 10) 2 s [] w).2.2.1.finished = true := by
  have hstart : (tightRuntime.start (greedyParams 10) [1, 2, 1, 2, 1, 2, 1]
      emptyWorld).1.toOption.any (fun s =>
        let w := (tightRuntime.start (greedyParams 10) [1, 2, 1, 2, 1, 2, 1] emptyWorld).2
        let round := tightRuntime.nextTokensSpeculative (greedyParams 10) 2 s [] w
        decide ((tightRuntime.nextToken (greedyParams 10) s w).1 = .ok 3 ∧
          round.1 = .error .contextFull ∧ round.2.1 = [3] ∧ round.2.2.1.finished = true)) = true := by
    decide +kernel
  generalize tightRuntime.start (greedyParams 10) [1, 2, 1, 2, 1, 2, 1] emptyWorld = out
    at hstart ⊢
  obtain ⟨res, w⟩ := out
  cases res with
  | error e => simp [Except.toOption] at hstart
  | ok s => exact ⟨s, w, rfl, of_decide_eq_true hstart⟩

/-- The session of `tightRuntime` once its prompt is in. -/
def tightSession (seq : SeqState (Path → Option Bytes)) : Session (Path → Option Bytes) Nat :=
  tightRuntime.finishPrefill
    { seq := seq, context := [1, 2, 1, 2, 1, 2, 1], consumed := 6, seed := 7, cacheOnFinish := true }

def tightPass : Option (SeqState (Path → Option Bytes) × (Path → Option Bytes)) :=
  stubPass 1 [1, 2, 1, 2, 1, 2] (.new tightRuntime.kvTemplate 1) fun _ => none

theorem round_rollback_iff_tight :
    ∃ (s : Session (Path → Option Bytes) Nat) (w w₂ : World (Path → Option Bytes) (List Token))
      (round : Round (Path → Option Bytes) Nat) (k : Nat),
      s.context = [1, 2, 1, 2, 1, 2, 1] ∧ s.seq.len = 6 ∧ k ≤ 2 ∧
      round.session.context.length = 7 + k + 1 ∧
      ((round.session.seq.truncate (InferenceRuntime.keepOf round) w₂.storage).1 = .ok () ↔
        ∀ kv ∈ s.seq.kvs, kv.Rollable (6 + (2 + 1)) (6 + (k + 1))) ∧
      ((round.session.seq.truncate (InferenceRuntime.keepOf round) w₂.storage).1 ≠ .ok () →
        (tightRuntime.nextTokensSpeculative (greedyParams 10) 2 s [] w).1 = .error .contextFull ∧
        (tightRuntime.nextTokensSpeculative (greedyParams 10) 2 s [] w).2.2.1.finished = true) := by
  have hfacts : tightPass.any (fun t =>
      let s := tightSession t.1
      decide (t.1.len = 6 ∧ tightRuntime.spent (greedyParams 10) s = none ∧
        draftFromContext s.context (min (tightRuntime.budget 2 s).1
          (tightRuntime.room (greedyParams 10) (tightRuntime.budget 2 s).2)) NGRAM = [2, 1]) &&
      (tightRuntime.verify (greedyParams 10) [2, 1] [] (tightRuntime.budget 2 s).2 []
        { emptyWorld with storage := t.2 }).1.toOption.isSome) = true := by
    decide +kernel
  obtain ⟨⟨seq, st⟩, hpass, hfacts⟩ := (Option.any_eq_true _ _).mp hfacts
  simp only [Bool.and_eq_true, decide_eq_true_eq] at hfacts
  obtain ⟨⟨hlen, hspent, hguess⟩, hround⟩ := hfacts
  obtain ⟨steps, hsteps⟩ := stubPass_isPass hpass
  have hdraft : tightRuntime.draft (greedyParams 10) (tightRuntime.budget 2 (tightSession seq)).1
      (tightRuntime.budget 2 (tightSession seq)).2 { emptyWorld with storage := st }
      = (([2, 1], []), (tightRuntime.budget 2 (tightSession seq)).2,
        { emptyWorld with storage := st }) := by
    rw [← hguess]
    rfl
  generalize hspec : tightRuntime.verify (greedyParams 10) [2, 1] []
    (tightRuntime.budget 2 (tightSession seq)).2 [] { emptyWorld with storage := st } = out
    at hround
  obtain ⟨res, s₂, w₂⟩ := out
  cases res with
  | error e => simp [Except.toOption] at hround
  | ok round =>
    have hreach : SeqState.Reached memoryStorage_reliable.toReadsBack tightRuntime.kvTemplate
        (fun _ => false) 1 (seq, st) := .pass (.fresh 1 _) hsteps
    obtain ⟨k, hk, hcontext, hiff, _, hrefused⟩ :=
      tightRuntime.round_rollback_iff (greedyParams 10) rfl
        (stub_verifies (fun _ => 3) (by decide) 1) hreach (by show 7 = seq.len + 1; rw [hlen])
        ⟨Nat.two_pos, rfl, hspent⟩ hdraft (fun _ _ => rfl) hspec
    refine ⟨_, _, w₂, round, k, rfl, hlen, hk, hcontext, ?_, hrefused⟩
    rw [show (tightSession seq).seq.len = 6 from hlen] at hiff
    exact hiff

end Garuda
