import Garuda.Runtime.Session

/-!
# Speculative decoding

`next_tokens_speculative` of `runtime/mod.rs`. A round drafts some guesses, has the model answer
for all of them in one pass, keeps the guesses the answers confirm and cuts the cache back to
the tokens that were produced.

The method is split where the source has its comments: `budget`, `draft`, `verify` (the pass and
the loop over its answers), `settle` (the rollback). A round that has come as far as `settle` is
a `Round`.
-/

namespace Garuda

variable {σ κ K Γ : Type}

/-- A round between the verdict on its guesses and the rollback. -/
structure Round (σ Γ : Type) where
  session : Session σ Γ
  /-- Context length when the round began. -/
  base : Nat
  draft : List Token
  out : List Token
  stop : Option StopReason

/-- What the answers of a round decided, if the rollback does not interfere. -/
def Round.outcome (round : Round σ Γ) : Except StopReason Unit :=
  match round.stop with
  | some reason => .error reason
  | none => .ok ()

namespace InferenceRuntime

variable [Weight K]

variable (rt : InferenceRuntime σ κ K Γ) (params : SamplingParams K)

/-! ## Drafting -/

/-- The most guesses the token budget and the window can take. -/
def room (s : Session σ Γ) : Nat :=
  min (params.maxTokens - s.generated) (rt.maxContext - s.context.length) - 1

/-- Rounds a sequence sits out before drafting is tried again. -/
def RETRY_AFTER : Nat := 16

/-- How many guesses to ask for: a little more than has been landing. -/
def budget (lookahead : Nat) (s : Session σ Γ) : Nat × Session σ Γ :=
  if rt.gain.losing s.specGain ∧ s.specIdle < RETRY_AFTER then
    (0, { s with specIdle := s.specIdle + 1 })
  else (min (rt.gain.ceil s.specGain + 1) lookahead, { s with specIdle := 0 })

/-- The draft model's sequence, begun on first use. -/
def draftSeqOf (kv : KvConfig σ) (s : Session σ Γ) (w : World σ κ) : SeqState σ × World σ κ :=
  match s.draftSeq with
  | some seq => (seq, w)
  | none =>
    let (seqId, w) := freshSeqId w
    (.new kv seqId, w)

/-- The guesses of a round, and the distributions they were drawn from. A draft model is asked
first; prompt lookup is free. -/
def draft (budget : Nat) (s : Session σ Γ) (w : World σ κ) :
    (List Token × List (List (Token × K))) × Session σ Γ × World σ κ :=
  match rt.drafter with
  | some (drafter, kv) =>
    if 0 < budget then
      let (seq, w) := draftSeqOf kv s w
      let (res, seq, rng, st) := proposeWithModel rt.num drafter params
        (min budget (rt.room params s)) s.context seq s.rng w.storage
      let s := { s with draftSeq := some seq, rng := rng }
      let w := { w with storage := st }
      match res with
      | .ok guesses => (guesses, s, w)
      | .error _ => (([], []), s, w) -- the draft is advisory
    else ((draftFromContext s.context (min budget (rt.room params s)) NGRAM, []), s, w)
  | none => ((draftFromContext s.context (min budget (rt.room params s)) NGRAM, []), s, w)

omit [Weight K] in
theorem budget_session (lookahead : Nat) (s : Session σ Γ) :
    ∃ idle, (rt.budget lookahead s).2 = { s with specIdle := idle } := by
  unfold budget
  split
  · exact ⟨_, rfl⟩
  · exact ⟨_, rfl⟩

/-- Drafting leaves the sequence and the context of the session alone. -/
theorem draft_session (budget : Nat) (s : Session σ Γ) (w : World σ κ) :
    ∃ ds rng, (rt.draft params budget s w).2.1 = { s with draftSeq := ds, rng := rng } := by
  unfold draft
  split
  · next drafter kv _ =>
    split
    · cases hp : proposeWithModel rt.num drafter params (min budget (rt.room params s)) s.context
        (draftSeqOf kv s w).1 s.rng (draftSeqOf kv s w).2.storage with
      | mk res more =>
        simp only [hp]
        cases res with
        | error e => exact ⟨_, _, rfl⟩
        | ok guesses => exact ⟨_, _, rfl⟩
    · exact ⟨_, _, rfl⟩
  · exact ⟨_, _, rfl⟩

/-- There are no more guesses than there is room for. -/
theorem draft_length (budget : Nat) (s : Session σ Γ) (w : World σ κ) :
    (rt.draft params budget s w).1.1.length ≤ rt.room params s := by
  have hlookup : (draftFromContext s.context (min budget (rt.room params s)) NGRAM).length
      ≤ rt.room params s :=
    (draftFromContext_sublist s.context _ _).2.trans (Nat.min_le_right _ _)
  unfold draft
  split
  · next drafter kv _ =>
    split
    · have hlen := proposeWithModel_length rt.num drafter params (min budget (rt.room params s))
        s.context (draftSeqOf kv s w).1 s.rng (draftSeqOf kv s w).2.storage
      cases hp : proposeWithModel rt.num drafter params (min budget (rt.room params s)) s.context
        (draftSeqOf kv s w).1 s.rng (draftSeqOf kv s w).2.storage with
      | mk res more =>
        rw [hp] at hlen
        simp only [hp]
        cases res with
        | error e => exact Nat.zero_le _
        | ok guesses => exact (hlen _ rfl).trans (Nat.min_le_right _ _)
    · exact hlookup
  · exact hlookup

/-! ## Verdicts -/

/-- What answer `i` says: whether guess `i` survives, and the token to emit. The last answer has
no guess to check. `none` when sampling fails. -/
def verdict (guess : Option Token) (dist : Option (List (Token × K))) (answer : List K)
    (rng : Rng) : Option (Bool × Token) × Rng :=
  match guess with
  | none =>
    match sample rt.num answer params rng with
    | (.ok t, rng) => (some (false, t), rng)
    | (.error _, rng) => (none, rng)
  | some guess =>
    if params.temperature == 0 then
      match sample rt.num answer params rng with
      | (.ok t, rng) => (some (t == guess, t), rng)
      | (.error _, rng) => (none, rng)
    else
      let cands := candidates rt.num answer params
      if cands.isEmpty then (none, rng)
      else
        let (v, rng) := verifyAgainst (Rng.nextF32 rt.num) cands guess dist rng
        (some v, rng)

/-- The loop over the answers, from answer `i` on. -/
def judge (draft : List Token) (dists : List (List (Token × K))) :
    Nat → List (List K) → Session σ Γ → List Token →
      Session σ Γ × List Token × Option StopReason
  | _, [], s, out => (s, out, none)
  | i, answer :: rest, s, out =>
    match rt.verdict params draft[i]? dists[i]? answer s.rng with
    | (none, rng) => ({ s with rng := rng }, out, some .contextFull)
    | (some (kept, token), rng) =>
      let s := { s with rng := rng }.push token
      if rt.endsTurn token then (s, out, some .eos)
      else if !kept then (s, out ++ [token], none)
      else if params.maxTokens ≤ s.generated then (s, out ++ [token], some .length)
      else judge draft dists (i + 1) rest s (out ++ [token])

/-- A non-empty answer always gives a verdict. -/
theorem verdict_isSome (guess : Option Token) (dist : Option (List (Token × K))) {answer : List K}
    (h : answer ≠ []) (rng : Rng) : ∃ v, (rt.verdict params guess dist answer rng).1 = some v := by
  obtain ⟨t, ht⟩ := sample_ok rt.num h params rng
  cases guess with
  | none =>
    rw [verdict]
    generalize sample rt.num answer params rng = out at ht
    obtain ⟨res, rng'⟩ := out
    subst ht
    exact ⟨_, rfl⟩
  | some guess =>
    rw [verdict]
    split
    · generalize sample rt.num answer params rng = out at ht
      obtain ⟨res, rng'⟩ := out
      subst ht
      exact ⟨_, rfl⟩
    · rw [if_neg (by simpa using candidates_ne_nil rt.num h params)]
      exact ⟨_, rfl⟩

/-- The loop emits at least one token and at most one for each answer, and touches no cache. -/
theorem judge_context (draft : List Token) (dists : List (List (Token × K))) :
    ∀ (answers : List (List K)) (i : Nat) (s : Session σ Γ) (out : List Token),
      answers ≠ [] → (∀ a ∈ answers, a ≠ []) →
      (rt.judge params draft dists i answers s out).1.seq = s.seq ∧
      ∃ k, k < answers.length ∧ (rt.judge params draft dists i answers s out).1.context.length
        = s.context.length + k + 1
  | [], _, _, _, hne, _ => absurd rfl hne
  | answer :: rest, i, s, out, _, hall => by
    obtain ⟨hanswer, hrest⟩ := List.forall_mem_cons.mp hall
    obtain ⟨⟨kept, token⟩, hv⟩ := rt.verdict_isSome params draft[i]? dists[i]? hanswer s.rng
    rw [judge]
    generalize rt.verdict params draft[i]? dists[i]? answer s.rng = v at hv
    obtain ⟨v, rng⟩ := v
    subst hv
    have hone : (({ s with rng := rng }.push token).context).length = s.context.length + 0 + 1 := by
      simp [Session.push]
    simp only
    split
    · exact ⟨rfl, 0, by simp, hone⟩
    split
    · exact ⟨rfl, 0, by simp, hone⟩
    split
    · exact ⟨rfl, 0, by simp, hone⟩
    cases rest with
    | nil => exact ⟨rfl, 0, by simp, hone⟩
    | cons a rest =>
      obtain ⟨hseq, k, hk, hlen⟩ := judge_context draft dists (a :: rest) (i + 1)
        ({ s with rng := rng }.push token) (out ++ [token]) (by simp) hrest
      exact ⟨hseq, k + 1, by simp only [List.length_cons] at hk ⊢; omega,
        by rw [hlen, hone]; omega⟩

/-- The score of a round: tokens beyond the one a plain step would have produced. -/
def score (round : Round σ Γ) : Session σ Γ :=
  if round.draft.isEmpty then round.session
  else
    let won := round.out.length + (if round.stop.isSome then 1 else 0) - 1
    { round.session with specGain := rt.gain.blend round.session.specGain won }

/-- One pass over `context ++ draft`, and the verdict on every guess. -/
def verify (draft : List Token) (dists : List (List (Token × K))) (s : Session σ Γ)
    (out : List Token) (w : World σ κ) :
    Except StopReason (Round σ Γ) × Session σ Γ × World σ κ :=
  match rt.backend.logitsMulti (s.context ++ draft) s.seq (draft.length + 1) w.storage with
  | (.error _, seq, st) =>
    (.error .contextFull, { s with seq := seq }.finish, { w with storage := st })
  | (.ok answers, seq, st) =>
    let base := s.context.length
    let (s, out, stop) := rt.judge params draft dists 0 answers { s with seq := seq } out
    (.ok { session := s, base := base, draft := draft, out := out, stop := stop }, s,
      { w with storage := st })

/-! ## The rollback -/

/-- One fewer cache position than context tokens. -/
def keepOf (round : Round σ Γ) : Nat := round.session.context.length - 1

/-- Cut the draft model's sequence back to the guesses that survived, or start it over. -/
def settleDraft (round : Round σ Γ) (s : Session σ Γ) (w : World σ κ) : Session σ Γ × World σ κ :=
  match s.draftSeq with
  | none => (s, w)
  | some ds =>
    match ds.truncate (round.base + min (round.out.length - 1) round.draft.length) w.storage with
    | (.ok (), ds, st) => ({ s with draftSeq := some ds }, { w with storage := st })
    | (.error _, ds, st) => ({ s with draftSeq := none }, { w with storage := ds.drop st })

/-- The end of a round: score it, give back the positions of tokens that were never produced. -/
def settle (round : Round σ Γ) (w : World σ κ) :
    Except StopReason Unit × Session σ Γ × World σ κ :=
  let s := rt.score round
  match s.seq.truncate (keepOf round) w.storage with
  | (.error _, seq, st) =>
    (.error .contextFull, { s with seq := seq }.finish, { w with storage := st })
  | (.ok (), seq, st) =>
    let (s, w) := settleDraft round { s with seq := seq } { w with storage := st }
    match round.stop with
    | some reason => (.error reason, s.finish, w)
    | none => (.ok (), s, w)

omit [Weight K] in
theorem score_session (round : Round σ Γ) :
    ∃ gain, rt.score round = { round.session with specGain := gain } := by
  unfold score
  split
  · exact ⟨_, rfl⟩
  · exact ⟨_, rfl⟩

omit [Weight K] in
theorem settleDraft_session (round : Round σ Γ) (s : Session σ Γ) (w : World σ κ) :
    ∃ ds, (settleDraft round s w).1 = { s with draftSeq := ds } := by
  unfold settleDraft
  split
  · exact ⟨_, rfl⟩
  · next ds _ =>
    cases ds.truncate (round.base + min (round.out.length - 1) round.draft.length) w.storage with
    | mk res more =>
      cases res with
      | error e => exact ⟨none, rfl⟩
      | ok _ => exact ⟨_, rfl⟩

omit [Weight K] in
/-- A rollback the cache accepts does not show. -/
theorem settle_accepted {round : Round σ Γ} {w : World σ κ}
    (h : (round.session.seq.truncate (keepOf round) w.storage).1 = .ok ()) :
    (rt.settle round w).1 = round.outcome ∧
      ∃ gain ds, (rt.settle round w).2.1 = { round.session with
        seq := (round.session.seq.truncate (keepOf round) w.storage).2.1
        specGain := gain
        draftSeq := ds
        finished := round.session.finished || round.stop.isSome } := by
  obtain ⟨gain, hscore⟩ := rt.score_session round
  unfold settle Round.outcome
  simp only [hscore]
  generalize round.session.seq.truncate (keepOf round) w.storage = out at h
  obtain ⟨res, seq, st⟩ := out
  subst h
  obtain ⟨ds, hdraft⟩ := settleDraft_session round
    { round.session with specGain := gain, seq := seq } { w with storage := st }
  cases round.stop with
  | some reason =>
    refine ⟨rfl, gain, ds, ?_⟩
    simp only [hdraft, Option.isSome_some, Bool.or_true]
    rfl
  | none =>
    refine ⟨rfl, gain, ds, ?_⟩
    simp only [hdraft, Option.isSome_none, Bool.or_false]

omit [Weight K] in
/-- A rollback the cache refuses ends the session. -/
theorem settle_refused {round : Round σ Γ} {w : World σ κ}
    (h : (round.session.seq.truncate (keepOf round) w.storage).1 ≠ .ok ()) :
    (rt.settle round w).1 = .error .contextFull ∧
      (rt.settle round w).2.1.finished = true := by
  obtain ⟨gain, hscore⟩ := rt.score_session round
  unfold settle
  simp only [hscore]
  generalize round.session.seq.truncate (keepOf round) w.storage = out at h
  obtain ⟨res, seq, st⟩ := out
  cases res with
  | error e => exact ⟨rfl, rfl⟩
  | ok _ => exact absurd rfl h

/-! ## The method -/

/-- A session that may speculate: everything up to the rollback. -/
def speculate (lookahead : Nat) (s : Session σ Γ) (out : List Token) (w : World σ κ) :
    Except StopReason (Round σ Γ) × Session σ Γ × World σ κ :=
  let (budget, s) := rt.budget lookahead s
  let ((draft, dists), s, w) := rt.draft params budget s w
  rt.verify params draft dists s out w

/-- Produce the next token, and as many after it as a guess gets right. The tokens are appended
to `out`. -/
def nextTokensSpeculative (lookahead : Nat) (s : Session σ Γ) (out : List Token)
    (w : World σ κ) : Except StopReason Unit × List Token × Session σ Γ × World σ κ :=
  if lookahead = 0 ∨ ¬ rt.backend.speculationSupported then
    match rt.nextToken params s w with
    | (.ok t, s, w) => (.ok (), out ++ [t], s, w)
    | (.error reason, s, w) => (.error reason, out, s, w)
  else
    match rt.spent params s with
    | some reason => (.error reason, out, s.finish, w)
    | none =>
      match rt.speculate params lookahead s out w with
      | (.error reason, s, w) => (.error reason, out, s, w)
      | (.ok round, _, w) =>
        let (res, s, w) := rt.settle round w
        (res, round.out, s, w)

theorem speculate_eq (lookahead : Nat) (s : Session σ Γ) (out : List Token) (w : World σ κ) :
    rt.speculate params lookahead s out w =
      let drafted := rt.draft params (rt.budget lookahead s).1 (rt.budget lookahead s).2 w
      rt.verify params drafted.1.1 drafted.1.2 drafted.2.1 out drafted.2.2 := rfl

/-- What drafting leaves of the session. -/
theorem drafted_session (lookahead : Nat) (s : Session σ Γ) (w : World σ κ) :
    ∃ idle ds rng, (rt.draft params (rt.budget lookahead s).1 (rt.budget lookahead s).2 w).2.1
      = { s with specIdle := idle, draftSeq := ds, rng := rng } := by
  obtain ⟨idle, hbudget⟩ := rt.budget_session lookahead s
  obtain ⟨ds, rng, hdraft⟩ := rt.draft_session params (rt.budget lookahead s).1
    (rt.budget lookahead s).2 w
  exact ⟨idle, ds, rng, by rw [hdraft, hbudget]⟩

/-- A round that gets as far as the rollback. -/
theorem nextTokensSpeculative_round {lookahead : Nat} {s : Session σ Γ} {out : List Token}
    {w : World σ κ}
    (hon : 0 < lookahead ∧ rt.backend.speculationSupported = true ∧ rt.spent params s = none)
    {round : Round σ Γ} {s' : Session σ Γ} {w' : World σ κ}
    (h : rt.speculate params lookahead s out w = (.ok round, s', w')) :
    rt.nextTokensSpeculative params lookahead s out w
      = ((rt.settle round w').1, round.out, (rt.settle round w').2.1, (rt.settle round w').2.2) := by
  unfold nextTokensSpeculative
  rw [if_neg (by rw [hon.2.1]; simp; omega), hon.2.2, h]

end InferenceRuntime

end Garuda
