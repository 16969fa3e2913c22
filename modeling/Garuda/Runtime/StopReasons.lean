import Garuda.Runtime.RoundInStep

/-!
# What a stop reason says

The reason that one call on a session reports, for each of the three ways of decoding, with any
backend.

* `InferenceRuntime.Truthful` says what a reason means of the session it is reported of.
* `InferenceRuntime.Reports` says that a call tells the truth just when it was served.
* `nextToken_reports`, `speculative_reports` and `batch_reports` say so of each of the three.
-/

namespace Garuda

open Infra

variable {σ κ K Γ : Type}

def Session.generatedTokens (s : Session σ Γ) : List Token := s.context.drop s.promptLen

/-- The reason that a call reports, if it does. -/
def reported {α : Type} : Except StopReason α → Option StopReason
  | .error reason => some reason
  | .ok _ => none

namespace InferenceRuntime

section

variable (rt : InferenceRuntime σ κ K Γ) (params : SamplingParams K)

/-- What a reason says of the session that it is reported of. -/
def Truthful (s : Session σ Γ) : StopReason → Prop
  | .eos => ∃ t, s.generatedTokens.getLast? = some t ∧ rt.endsTurn t = true
  | .length => s.generated = params.maxTokens
  | .contextFull => s.context.length = rt.maxContext

/-- The model answers a plain pass with logits to sample from. -/
def Answers (context : List Token) (seq : SeqState σ) (st : σ) : Prop :=
  ∃ logits, (rt.backend.logits context seq st).1 = .ok logits ∧ logits ≠ []

/-- What a call of a live session comes to: the bounds hold, it is finished if a reason was
reported, and the reason is the truth just when the call was `served`. -/
structure Reports (report : Option StopReason) (s' : Session σ Γ) (served : Prop) : Prop where
  bounded : rt.Bounded params s'
  finished : s'.finished = report.isSome
  truthful : (∀ reason, report = some reason → rt.Truthful params s' reason) ↔ served

variable {rt params} {s s' : Session σ Γ} {seq : SeqState σ} {served : Prop}

/-- The last of the new tokens ends the turn. -/
theorem truthful_eos (hb : rt.Bounded params s) {more : List Token} {t : Token}
    (hcontext : s'.context = s.context ++ more) (hprompt : s'.promptLen = s.promptLen)
    (hlast : more.getLast? = some t) (hends : rt.endsTurn t = true) :
    rt.Truthful params s' .eos := by
  refine ⟨t, ?_, hends⟩
  rw [Session.generatedTokens, hcontext, hprompt, List.drop_append_of_le_length hb.prompt,
    List.getLast?_append, hlast, Option.some_or]

/-- Nothing was produced: the window was not full before, and it is not now. -/
theorem Reports.failed (hb : rt.Bounded params s) (hspent : rt.spent params s = none)
    (hcontext : s'.context = s.context) (hprompt : s'.promptLen = s.promptLen)
    (hserved : ¬ served) : Reports rt params (some .contextFull) s'.finish served where
  bounded := hb.extend [] (by rw [List.append_nil]; exact hcontext) hprompt hb.generated hb.room
  finished := rfl
  truthful := by
    refine iff_of_false (fun h => ?_) hserved
    have hfull : s'.context.length = rt.maxContext := h .contextFull rfl
    have hroom := (of_spent_none hspent).2.2
    rw [hcontext] at hfull
    omega

/-- A spent session that is not finished says why. -/
theorem spent_truthful (hb : rt.Bounded params s) (hrunning : s.finished = false)
    {reason : StopReason} (hspent : rt.spent params s = some reason) :
    rt.Truthful params s.finish reason := by
  have hgenerated := hb.generated
  have hroom := hb.room
  unfold spent at hspent
  rw [if_neg (by rw [hrunning]; exact Bool.false_ne_true)] at hspent
  split at hspent
  · next hmax =>
    obtain rfl := Option.some.inj hspent
    exact Nat.le_antisymm hgenerated hmax
  split at hspent
  · next hmax =>
    obtain rfl := Option.some.inj hspent
    exact Nat.le_antisymm hroom hmax
  · cases hspent

end

/-! ## One token -/

section

variable [Weight K] {rt : InferenceRuntime σ κ K Γ} {params : SamplingParams K}
  {s s' : Session σ Γ} {seq : SeqState σ}

/-- A live session draws a token from the logits it was given. -/
theorem takeToken_reports (hb : rt.Bounded params s) (hspent : rt.spent params s = none)
    (seq : SeqState σ) (logits : List K) :
    let out := rt.takeToken { session := { s with seq := seq }, params := params, stopped := none }
      logits
    Reports rt params (reported out.1) out.2 (logits ≠ []) := by
  obtain ⟨hrunning, hgenerated, hroom⟩ := of_spent_none hspent
  unfold takeToken
  simp only
  by_cases hne : logits = []
  · subst hne
    exact Reports.failed hb hspent rfl rfl (by simp)
  · obtain ⟨t, ht⟩ := sample_ok rt.num hne params s.rng
    generalize sample rt.num logits params s.rng = out at ht
    obtain ⟨res, rng⟩ := out
    subst ht
    have hbounded : ∀ s' : Session σ Γ, s'.context = s.context ++ [t] →
        s'.promptLen = s.promptLen → rt.Bounded params s' :=
      fun s' hcontext hprompt => hb.extend [t] hcontext hprompt (by simpa using hgenerated)
        (by simpa using hroom)
    simp only
    split
    · next hends =>
      refine ⟨hbounded _ rfl rfl, rfl, iff_of_true (fun reason hreason => ?_) hne⟩
      obtain rfl := Option.some.inj hreason
      exact truthful_eos hb rfl rfl rfl hends
    · exact ⟨hbounded _ rfl rfl, hrunning, iff_of_true nofun hne⟩

/-- `nextToken`, once the pass has succeeded. -/
theorem nextToken_eq (hspent : rt.spent params s = none) {w : World σ κ} {logits : List K}
    {st : σ} (hpass : rt.backend.logits s.context s.seq w.storage = (.ok logits, seq, st)) :
    ((rt.nextToken params s w).1, (rt.nextToken params s w).2.1)
      = rt.takeToken { session := { s with seq := seq }, params := params, stopped := none }
          logits := by
  unfold nextToken takeToken
  simp only [hspent, hpass]
  generalize sample rt.num logits params s.rng = out
  obtain ⟨res, rng⟩ := out
  cases res with
  | error e => rfl
  | ok t =>
    simp only
    split
    · rfl
    · rfl

theorem nextToken_reports (hb : rt.Bounded params s) (hspent : rt.spent params s = none)
    (w : World σ κ) :
    Reports rt params (reported (rt.nextToken params s w).1) (rt.nextToken params s w).2.1
      (rt.Answers s.context s.seq w.storage) := by
  rcases hpass : rt.backend.logits s.context s.seq w.storage with ⟨res, seq, st⟩
  cases res with
  | error e =>
    have hnot : ¬ rt.Answers s.context s.seq w.storage := by
      rintro ⟨logits, hlogits, -⟩
      rw [hpass] at hlogits
      cases hlogits
    have hfailed : rt.nextToken params s w
        = (.error .contextFull, { s with seq := seq }.finish, { w with storage := st }) := by
      unfold nextToken
      simp only [hspent, hpass]
    rw [hfailed]
    exact Reports.failed hb hspent rfl rfl hnot
  | ok logits =>
    have hreports := takeToken_reports hb hspent seq logits
    rw [← nextToken_eq hspent hpass] at hreports
    refine ⟨hreports.bounded, hreports.finished, hreports.truthful.trans ?_⟩
    constructor
    · exact fun hne => ⟨logits, by rw [hpass], hne⟩
    · rintro ⟨logits', hlogits, hne⟩
      rw [hpass] at hlogits
      exact Except.ok.inj hlogits ▸ hne

/-! ## A round of guesses -/

/-- What the verdicts on the guesses from `i` on have made of a session, and why they stopped. -/
structure Verdicts (rt : InferenceRuntime σ κ K Γ) (params : SamplingParams K) (left : Nat)
    (s s' : Session σ Γ) (stop : Option StopReason) (more : List Token) : Prop where
  session : ∃ rng, s' = { s with rng := rng, context := s.context ++ more }
  length_le : more.length ≤ left + 1
  eos : stop = some .eos → ∃ t, more.getLast? = some t ∧ rt.endsTurn t = true
  length : stop = some .length → params.maxTokens ≤ s'.generated
  unanswered : stop = some .contextFull → more.length ≤ left

theorem judge_verdicts (rt : InferenceRuntime σ κ K Γ) (params : SamplingParams K)
    (draft : List Token) (dists : List (List (Token × K))) :
    ∀ (answers : List (List K)) (i : Nat) (s : Session σ Γ) (out : List Token),
      i ≤ draft.length → ∃ more, Verdicts rt params (draft.length - i) s
        (rt.judge params draft dists i answers s out).1
        (rt.judge params draft dists i answers s out).2.2 more := by
  intro answers
  induction answers with
  | nil =>
    intro i s out hi
    rw [judge]
    refine ⟨[], ⟨s.rng, ?_⟩, Nat.zero_le _, by simp, by simp, by simp⟩
    rw [List.append_nil]
  | cons answer rest ih =>
    intro i s out hi
    have hkept : ∀ t, (rt.verdict params draft[i]? dists[i]? answer s.rng).1 = some (true, t) →
        draft[i]? = some t := fun t => verdict_kept
    rw [judge]
    rcases hv : rt.verdict params draft[i]? dists[i]? answer s.rng with ⟨_ | ⟨kept, token⟩, rng⟩
    · refine ⟨[], ⟨rng, ?_⟩, Nat.zero_le _, by simp, by simp, fun _ => Nat.zero_le _⟩
      rw [List.append_nil]
    · have hone : (List.length [token]) ≤ draft.length - i + 1 := by simp
      simp only
      split
      · next hends =>
        exact ⟨[token], ⟨rng, rfl⟩, hone, fun _ => ⟨token, rfl, hends⟩, by simp, by simp⟩
      split
      · exact ⟨[token], ⟨rng, rfl⟩, hone, by simp, by simp, by simp⟩
      split
      · next hmax => exact ⟨[token], ⟨rng, rfl⟩, hone, by simp, fun _ => hmax, by simp⟩
      · next hk _ =>
        obtain rfl : kept = true := by simpa using hk
        have hlt := (List.getElem?_eq_some_iff.mp (hkept token (by rw [hv]))).1
        obtain ⟨more, ⟨rng', hs⟩, hle, heos, hlength, hunanswered⟩ :=
          ih (i + 1) ({ s with rng := rng }.push token) (out ++ [token]) hlt
        refine ⟨token :: more, ⟨rng', ?_⟩, ?_, fun h => ?_, hlength, fun h => ?_⟩
        · rw [hs]
          simp [Session.push]
        · rw [List.length_cons]
          omega
        · obtain ⟨t, hlast, hends⟩ := heos h
          exact ⟨t, by rw [List.getLast?_cons, hlast]; rfl, hends⟩
        · have := hunanswered h
          rw [List.length_cons]
          omega

/-- What a round has made of the session that it began with. -/
structure Ran (rt : InferenceRuntime σ κ K Γ) (params : SamplingParams K) (s : Session σ Γ)
    (round : Round σ Γ) (more : List Token) : Prop where
  context : round.session.context = s.context ++ more
  promptLen : round.session.promptLen = s.promptLen
  finished : round.session.finished = s.finished
  generated : s.generated + more.length ≤ params.maxTokens
  room : s.context.length + more.length ≤ rt.maxContext
  eos : round.stop = some .eos → ∃ t, more.getLast? = some t ∧ rt.endsTurn t = true
  length : round.stop = some .length → params.maxTokens ≤ round.session.generated
  unanswered : round.stop = some .contextFull → s.context.length + more.length < rt.maxContext

/-- Everything up to the rollback: the pass fails, or the round is judged. -/
theorem speculate_cases (hspent : rt.spent params s = none) (lookahead : Nat) (out : List Token)
    (w : World σ κ) :
    (∃ (s₁ : Session σ Γ) (w' : World σ κ),
        rt.speculate params lookahead s out w = (.error .contextFull, s₁.finish, w') ∧
        s₁.context = s.context ∧ s₁.promptLen = s.promptLen) ∨
      ∃ (round : Round σ Γ) (s₁ : Session σ Γ) (w' : World σ κ) (more : List Token),
        rt.speculate params lookahead s out w = (.ok round, s₁, w') ∧
        Ran rt params s round more := by
  obtain ⟨hrunning, hgenerated, hroom⟩ := of_spent_none hspent
  rw [rt.speculate_eq]
  obtain ⟨idle, ds, rng, hdrafted⟩ := rt.drafted_session params lookahead s w
  have hlength := rt.draft_length params (rt.budget lookahead s).1 (rt.budget lookahead s).2 w
  obtain ⟨idle', hbudget⟩ := rt.budget_session lookahead s
  have hguesses : (rt.draft params (rt.budget lookahead s).1 (rt.budget lookahead s).2 w).1.1.length
      + 1 ≤ min (params.maxTokens - s.generated) (rt.maxContext - s.context.length) := by
    rw [hbudget] at hlength ⊢
    unfold room at hlength
    simp only [Session.generated] at hlength hgenerated ⊢
    omega
  generalize rt.draft params (rt.budget lookahead s).1 (rt.budget lookahead s).2 w = drafted
    at hdrafted hguesses
  obtain ⟨⟨guesses, dists⟩, s₁, w₁⟩ := drafted
  obtain rfl : s₁ = { s with specIdle := idle, draftSeq := ds, rng := rng } := hdrafted
  simp only [verify] at hguesses ⊢
  generalize rt.backend.logitsMulti (s.context ++ guesses) s.seq (guesses.length + 1) w₁.storage
    = pass
  obtain ⟨res, seq, st⟩ := pass
  cases res with
  | error e => exact .inl ⟨_, _, rfl, rfl, rfl⟩
  | ok answers =>
    obtain ⟨more, ⟨rng', hs⟩, hle, heos, hmax, hunanswered⟩ := judge_verdicts rt params guesses
      dists answers 0 { s with seq := seq, specIdle := idle, draftSeq := ds, rng := rng } out
      (Nat.zero_le _)
    refine .inr ⟨_, _, _, more, rfl, ?_⟩
    exact {
      context := by rw [hs]
      promptLen := by rw [hs]
      finished := by rw [hs]
      generated := by omega
      room := by omega
      eos := heos
      length := hmax
      unanswered := fun h => by
        have := hunanswered h
        omega }

omit [Weight K] in
/-- The rollback takes nothing back that was produced. -/
theorem settle_context (round : Round σ Γ) (w : World σ κ) :
    (rt.settle round w).2.1.context = round.session.context ∧
      (rt.settle round w).2.1.promptLen = round.session.promptLen := by
  obtain ⟨gain, hscore⟩ := rt.score_session round
  unfold settle
  simp only [hscore]
  generalize round.session.seq.truncate (keepOf round) w.storage = out
  obtain ⟨res, seq, st⟩ := out
  cases res with
  | error e => exact ⟨rfl, rfl⟩
  | ok =>
    obtain ⟨ds, hdraft⟩ := settleDraft_session round
      { round.session with specGain := gain, seq := seq } { w with storage := st }
    simp only
    generalize settleDraft round { round.session with specGain := gain, seq := seq }
      { w with storage := st } = settled at hdraft
    obtain ⟨s', w'⟩ := settled
    obtain rfl : s' = _ := hdraft
    cases round.stop <;> exact ⟨rfl, rfl⟩

variable (rt) in
/-- The round was not left for want of logits, and the cache took its rollback, or the window is
full indeed. -/
def RoundServed (round : Round σ Γ) (w : World σ κ) : Prop :=
  round.stop ≠ some .contextFull ∧
    ((round.session.seq.truncate (keepOf round) w.storage).1 = .ok () ∨
      round.session.context.length = rt.maxContext)

omit [Weight K] in
theorem settle_reports (hb : rt.Bounded params s) (hrunning : s.finished = false)
    {round : Round σ Γ} {more : List Token} (h : Ran rt params s round more) (w : World σ κ) :
    Reports rt params (reported (rt.settle round w).1) (rt.settle round w).2.1
      (rt.RoundServed round w) := by
  obtain ⟨hcontext, hprompt⟩ := rt.settle_context round w
  rw [h.context] at hcontext
  rw [h.promptLen] at hprompt
  have hbounded : rt.Bounded params (rt.settle round w).2.1 :=
    hb.extend more hcontext hprompt h.generated h.room
  have hlength : (rt.settle round w).2.1.context.length = s.context.length + more.length := by
    rw [hcontext, List.length_append]
  by_cases hok : (round.session.seq.truncate (keepOf round) w.storage).1 = .ok ()
  · obtain ⟨houtcome, gain, ds, hsession⟩ := rt.settle_accepted hok
    have hreported : reported (rt.settle round w).1 = round.stop := by
      rw [houtcome, Round.outcome]
      cases round.stop <;> rfl
    refine ⟨hbounded, ?_, ?_⟩
    · rw [hreported, hsession]
      show (round.session.finished || round.stop.isSome) = _
      rw [h.finished, hrunning, Bool.false_or]
    · rw [hreported]
      constructor
      · intro htrue
        refine ⟨fun hstop => ?_, .inl hok⟩
        have hfull : (rt.settle round w).2.1.context.length = rt.maxContext :=
          htrue .contextFull hstop
        have := h.unanswered hstop
        omega
      · rintro ⟨hstop, -⟩ reason hreason
        cases reason with
        | eos =>
          obtain ⟨t, hlast, hends⟩ := h.eos hreason
          exact truthful_eos hb hcontext hprompt hlast hends
        | length =>
          have hmax := h.length hreason
          refine Nat.le_antisymm hbounded.generated ?_
          rw [Session.generated, hcontext, hprompt, ← h.context, ← h.promptLen]
          exact hmax
        | contextFull => exact absurd hreason hstop
  · obtain ⟨herror, hfinished⟩ := rt.settle_refused hok
    refine ⟨hbounded, ?_, ?_⟩
    · rw [herror, hfinished]
      rfl
    · rw [herror]
      constructor
      · intro htrue
        have hfull : (rt.settle round w).2.1.context.length = rt.maxContext := htrue .contextFull rfl
        refine ⟨fun hstop => ?_, .inr ?_⟩
        · have := h.unanswered hstop
          omega
        · rw [h.context, List.length_append]
          omega
      · rintro ⟨-, hserved⟩ reason hreason
        obtain rfl := Option.some.inj hreason
        have hfull := hserved.resolve_left hok
        rw [h.context, List.length_append] at hfull
        exact hlength.trans hfull

variable (rt params) in
/-- The answers that a round comes to, from answer `i` on, are not empty, and it draws `tokens` from
them: it goes on until a token ends the turn, a guess is turned down or `max_tokens` have been
generated; `n` have been before. -/
inductive Drawn (draft : List Token) (dists : List (List (Token × K))) :
    Nat → List (List K) → Rng → Nat → List Token → Prop
  | nil {i : Nat} {rng : Rng} {n : Nat} : Drawn draft dists i [] rng n []
  | last {i : Nat} {answer : List K} {rest : List (List K)} {rng rng' : Rng} {n : Nat}
      {kept : Bool} {t : Token} (hne : answer ≠ [])
      (hverdict : rt.verdict params draft[i]? dists[i]? answer rng = (some (kept, t), rng'))
      (hlast : rt.endsTurn t = true ∨ kept = false ∨ params.maxTokens ≤ n + 1) :
      Drawn draft dists i (answer :: rest) rng n [t]
  | more {i : Nat} {answer : List K} {rest : List (List K)} {rng rng' : Rng} {n : Nat}
      {t : Token} {tokens : List Token} (hne : answer ≠ [])
      (hverdict : rt.verdict params draft[i]? dists[i]? answer rng = (some (true, t), rng'))
      (hends : rt.endsTurn t = false) (hroom : n + 1 < params.maxTokens)
      (hrest : Drawn draft dists (i + 1) rest rng' (n + 1) tokens) :
      Drawn draft dists i (answer :: rest) rng n (t :: tokens)

omit [Weight K] in
theorem generated_push (t : Token) (h : s.promptLen ≤ s.context.length) :
    (s.push t).generated = s.generated + 1 ∧ (s.push t).promptLen ≤ (s.push t).context.length := by
  simp only [Session.push, Session.generated, List.length_append, List.length_singleton]
  omega

theorem candidates_nil (num : Numerics K) (params : SamplingParams K) :
    candidates num [] params = [] := by
  have hsoftmax : softmax num ([] : List K) = [] :=
    List.eq_nil_of_length_eq_zero (length_softmax num [])
  simp [candidates, hsoftmax, keepTopP]

/-- An empty answer gives no verdict. -/
theorem ne_nil_of_verdict {guess : Option Token} {dist : Option (List (Token × K))}
    {answer : List K} {rng rng' : Rng} {v : Bool × Token}
    (h : rt.verdict params guess dist answer rng = (some v, rng')) : answer ≠ [] := by
  rintro rfl
  unfold verdict at h
  cases guess with
  | none => simp [sample] at h
  | some guess =>
    simp only at h
    split at h
    · simp [sample] at h
    · simp [candidates_nil] at h

/-- A round that draws `tokens` adds them to the context, and is not left for want of logits. -/
theorem Drawn.judge {draft : List Token} {dists : List (List (Token × K))} {i : Nat}
    {answers : List (List K)} {rng : Rng} {n : Nat} {tokens : List Token}
    (h : Drawn rt params draft dists i answers rng n tokens) :
    ∀ (s : Session σ Γ) (out : List Token), s.rng = rng → s.generated = n →
      s.promptLen ≤ s.context.length →
      (rt.judge params draft dists i answers s out).1.context = s.context ++ tokens ∧
        (rt.judge params draft dists i answers s out).2.2 ≠ some .contextFull := by
  induction h with
  | nil =>
    intro s out _ _ _
    rw [InferenceRuntime.judge]
    exact ⟨(List.append_nil _).symm, by simp⟩
  | @last i answer rest rng rng' n kept t hne hverdict hlast =>
    rintro s out rfl rfl hprompt
    have hn := (generated_push (s := { s with rng := rng' }) t hprompt).1
    rw [InferenceRuntime.judge, hverdict]
    simp only
    split
    · exact ⟨rfl, by simp⟩
    split
    · exact ⟨rfl, by simp⟩
    split
    · exact ⟨rfl, by simp⟩
    · next hends hkept hroom =>
      rcases hlast with hlast | hlast | hlast
      · exact absurd hlast hends
      · rw [hlast] at hkept
        exact absurd rfl hkept
      · rw [hn] at hroom
        exact absurd hlast hroom
  | @more i answer rest rng rng' n t tokens hne hverdict hends hroom hrest ih =>
    rintro s out rfl rfl hprompt
    obtain ⟨hn, hprompt'⟩ := generated_push (s := { s with rng := rng' }) t hprompt
    obtain ⟨hcontext, hstop⟩ := ih ({ s with rng := rng' }.push t) (out ++ [t]) rfl hn hprompt'
    have hmax : ¬ params.maxTokens ≤ ({ s with rng := rng' }.push t).generated := by
      rw [hn]
      exact Nat.not_le.mpr hroom
    rw [InferenceRuntime.judge, hverdict]
    simp only [hends, Bool.false_eq_true, if_false, Bool.not_true, if_neg hmax]
    refine ⟨?_, hstop⟩
    rw [hcontext]
    exact List.append_assoc s.context [t] tokens

/-- A round that is not left for want of logits draws tokens. -/
theorem exists_drawn (draft : List Token) (dists : List (List (Token × K))) :
    ∀ (answers : List (List K)) (i : Nat) (s : Session σ Γ) (out : List Token),
      s.promptLen ≤ s.context.length →
      (rt.judge params draft dists i answers s out).2.2 ≠ some .contextFull →
      ∃ tokens, Drawn rt params draft dists i answers s.rng s.generated tokens
  | [], _, _, _, _, _ => ⟨[], .nil⟩
  | answer :: rest, i, s, out, hprompt, hstop => by
    rw [InferenceRuntime.judge] at hstop
    rcases hverdict : rt.verdict params draft[i]? dists[i]? answer s.rng with ⟨_ | ⟨kept, t⟩, rng⟩
    · rw [hverdict] at hstop
      exact absurd rfl hstop
    · have hne := ne_nil_of_verdict hverdict
      obtain ⟨hn, hprompt'⟩ := generated_push (s := { s with rng := rng }) t hprompt
      rw [hverdict] at hstop
      simp only at hstop
      split at hstop
      · next hends => exact ⟨[t], .last hne hverdict (.inl hends)⟩
      split at hstop
      · next hkept =>
        exact ⟨[t], .last hne hverdict (.inr (.inl (by simpa using hkept)))⟩
      split at hstop
      · next hmax =>
        rw [hn] at hmax
        exact ⟨[t], .last hne hverdict (.inr (.inr hmax))⟩
      · next hends hkept hmax =>
        obtain rfl : kept = true := by simpa using hkept
        rw [hn] at hmax
        obtain ⟨tokens, hdrawn⟩ := exists_drawn draft dists rest (i + 1)
          ({ s with rng := rng }.push t) (out ++ [t]) hprompt' hstop
        rw [hn] at hdrawn
        exact ⟨t :: tokens, .more hne hverdict (Bool.eq_false_iff.mpr hends)
          (Nat.not_le.mp hmax) hdrawn⟩

variable (rt params) in
/-- A round of guesses is served: the model's pass over the context and the guesses succeeds, the
answers that the round comes to are not empty, and the cache takes the rollback to what they drew,
or the window is full indeed. -/
def SpeculationServed (s : Session σ Γ) (lookahead : Nat) (w : World σ κ) : Prop :=
  let ((guesses, dists), drafted, w) :=
    rt.draft params (rt.budget lookahead s).1 (rt.budget lookahead s).2 w
  let (res, seq, st) :=
    rt.backend.logitsMulti (s.context ++ guesses) s.seq (guesses.length + 1) w.storage
  ∃ answers tokens, res = .ok answers ∧
    Drawn rt params guesses dists 0 answers drafted.rng s.generated tokens ∧
    ((seq.truncate (s.context.length + tokens.length - 1) st).1 = .ok () ∨
      s.context.length + tokens.length = rt.maxContext)

/-- That a round is served is known before it is judged. -/
theorem speculationServed_iff (hb : rt.Bounded params s) (lookahead : Nat) (out : List Token)
    (w : World σ κ) :
    rt.SpeculationServed params s lookahead w ↔ ∃ round s₁ w',
      rt.speculate params lookahead s out w = (.ok round, s₁, w') ∧ rt.RoundServed round w' := by
  rw [rt.speculate_eq]
  unfold SpeculationServed
  obtain ⟨idle, ds, rng, hdrafted⟩ := rt.drafted_session params lookahead s w
  generalize rt.draft params (rt.budget lookahead s).1 (rt.budget lookahead s).2 w = drafted
    at hdrafted
  obtain ⟨⟨guesses, dists⟩, s₁, w₁⟩ := drafted
  obtain rfl : s₁ = { s with specIdle := idle, draftSeq := ds, rng := rng } := hdrafted
  rcases hpass : rt.backend.logitsMulti (s.context ++ guesses) s.seq (guesses.length + 1) w₁.storage
    with ⟨res, seq, st⟩
  simp only [verify, hpass]
  cases res with
  | error e =>
    constructor
    · rintro ⟨answers, tokens, hok, -⟩
      cases hok
    · rintro ⟨round, s₁, w', heq, -⟩
      cases (Prod.mk.inj heq).1
  | ok answers =>
    simp only
    obtain ⟨_, ⟨rng', hsession⟩, -⟩ := judge_verdicts rt params guesses dists answers 0
      { s with seq := seq, specIdle := idle, draftSeq := ds, rng := rng } out (Nat.zero_le _)
    have hseq := congrArg Session.seq hsession
    constructor
    · rintro ⟨_, tokens, hok, hdrawn, hcut⟩
      cases hok
      obtain ⟨hcontext, hstop⟩ := Drawn.judge hdrawn
        { s with seq := seq, specIdle := idle, draftSeq := ds, rng := rng } out rfl rfl hb.prompt
      refine ⟨_, _, _, rfl, hstop, ?_⟩
      simp only [keepOf, hseq, hcontext, List.length_append]
      exact hcut
    · rintro ⟨round, s₁, w', heq, hstop, hcut⟩
      obtain ⟨hround, hrest⟩ := Prod.mk.inj heq
      obtain rfl := Except.ok.inj hround
      obtain ⟨-, rfl⟩ := Prod.mk.inj hrest
      obtain ⟨tokens, hdrawn⟩ := exists_drawn guesses dists answers 0
        { s with seq := seq, specIdle := idle, draftSeq := ds, rng := rng } out hb.prompt hstop
      refine ⟨answers, tokens, rfl, hdrawn, ?_⟩
      obtain ⟨hcontext, -⟩ := Drawn.judge hdrawn
        { s with seq := seq, specIdle := idle, draftSeq := ds, rng := rng } out rfl rfl hb.prompt
      simp only [keepOf, hseq, hcontext, List.length_append] at hcut
      exact hcut

theorem speculative_reports (hb : rt.Bounded params s) (hspent : rt.spent params s = none)
    {lookahead : Nat} (hon : 0 < lookahead ∧ rt.backend.speculationSupported = true)
    (out : List Token) (w : World σ κ) :
    Reports rt params (reported (rt.nextTokensSpeculative params lookahead s out w).1)
      (rt.nextTokensSpeculative params lookahead s out w).2.2.1
      (rt.SpeculationServed params s lookahead w) := by
  rw [speculationServed_iff hb lookahead out w]
  rcases speculate_cases hspent lookahead out w with
    ⟨s₁, w', hfail, hcontext, hprompt⟩ | ⟨round, s₁, w', more, hround, hran⟩
  · have hcall : rt.nextTokensSpeculative params lookahead s out w
        = (.error .contextFull, out, s₁.finish, w') := by
      unfold nextTokensSpeculative
      rw [if_neg (by rw [hon.2]; simp; omega), hspent, hfail]
    rw [hcall]
    refine Reports.failed hb hspent hcontext hprompt ?_
    rintro ⟨round, s₂, w₂, hround, -⟩
    rw [hfail] at hround
    cases hround
  · rw [rt.nextTokensSpeculative_round params ⟨hon.1, hon.2, hspent⟩ hround]
    have hreports := settle_reports hb (of_spent_none hspent).1 hran w'
    refine ⟨hreports.bounded, hreports.finished, hreports.truthful.trans ?_⟩
    constructor
    · exact fun h => ⟨round, s₁, w', hround, h⟩
    · rintro ⟨round', s₂, w₂, hround', h⟩
      obtain ⟨heq, -, rfl⟩ := (Prod.mk.inj (hround.symm.trans hround')).imp_right Prod.mk.inj
      exact Except.ok.inj heq ▸ h

/-! ## One of several sessions -/

/-- How many lanes take part in the batched pass. -/
def liveCount (lanes : List (Lane σ K Γ)) : Nat := (lanes.filter fun l => l.stopped.isNone).length

omit [Weight K] in
theorem liveCount_stopped {l : Lane σ K Γ} {reason : StopReason} (h : l.stopped = some reason)
    (lanes : List (Lane σ K Γ)) : liveCount (l :: lanes) = liveCount lanes := by
  simp [liveCount, h]

omit [Weight K] in
theorem liveCount_live {l : Lane σ K Γ} (h : l.stopped = none) (lanes : List (Lane σ K Γ)) :
    liveCount (l :: lanes) = liveCount lanes + 1 := by
  simp [liveCount, h]

/-- A lane with the sequence that the pass gives back, if it took part. -/
def restore (l : Lane σ K Γ) (seq : Option (SeqState σ)) : Lane σ K Γ :=
  match l.stopped, seq with
  | none, some seq => { l with session := { l.session with seq := seq } }
  | _, _ => l

omit [Weight K] in
theorem restore_stopped {l : Lane σ K Γ} {reason : StopReason} (h : l.stopped = some reason)
    (seq : Option (SeqState σ)) : restore l seq = l := by
  unfold restore
  rw [h]

omit [Weight K] in
theorem restore_live {l : Lane σ K Γ} (h : l.stopped = none) (seq : Option (SeqState σ)) :
    restore l seq = { l with session := { l.session with seq := seq.getD l.session.seq } } := by
  obtain ⟨session, params, stopped⟩ := l
  subst h
  cases seq <;> rfl

omit [Weight K] in
/-- A lane gets back the sequence at its place among the live ones. -/
theorem takeBack_append : ∀ (ahead : List (Lane σ K Γ)) (l : Lane σ K Γ)
    (lanes : List (Lane σ K Γ)) (seqs : List (SeqState σ)), ∃ rest,
      takeBack (ahead ++ l :: lanes) seqs
        = takeBack ahead seqs ++ restore l seqs[liveCount ahead]? :: rest
  | [], l, lanes, seqs => by
    rw [List.nil_append, takeBack]
    cases hstopped : l.stopped with
    | some reason => exact ⟨takeBack lanes seqs, by simp [restore, hstopped, takeBack]⟩
    | none =>
      cases seqs with
      | nil => exact ⟨takeBack lanes [], by simp [restore, hstopped, takeBack, liveCount]⟩
      | cons seq seqs =>
        exact ⟨takeBack lanes seqs, by simp [restore, hstopped, takeBack, liveCount]⟩
  | a :: ahead, l, lanes, seqs => by
    rw [List.cons_append]
    cases hstopped : a.stopped with
    | some reason =>
      obtain ⟨rest, hrest⟩ := takeBack_append ahead l lanes seqs
      refine ⟨rest, ?_⟩
      rw [takeBack_stopped hstopped, takeBack_stopped hstopped, liveCount_stopped hstopped, hrest]
      rfl
    | none =>
      cases seqs with
      | nil =>
        obtain ⟨rest, hrest⟩ := takeBack_append ahead l lanes []
        refine ⟨rest, ?_⟩
        simp only [takeBack, hstopped, hrest]
        rfl
      | cons seq seqs =>
        obtain ⟨rest, hrest⟩ := takeBack_append ahead l lanes seqs
        refine ⟨rest, ?_⟩
        rw [liveCount_live hstopped, List.getElem?_cons_succ]
        simp only [takeBack, hstopped, hrest]
        rfl

omit [Weight K] in
theorem liveCount_takeBack : ∀ (lanes : List (Lane σ K Γ)) (seqs : List (SeqState σ)),
    liveCount (takeBack lanes seqs) = liveCount lanes
  | [], _ => rfl
  | l :: lanes, seqs => by
    cases hstopped : l.stopped with
    | some reason =>
      rw [takeBack_stopped hstopped, liveCount_stopped hstopped, liveCount_stopped hstopped,
        liveCount_takeBack lanes]
    | none =>
      cases seqs with
      | nil =>
        have hnil : takeBack (l :: lanes) [] = l :: takeBack lanes [] := by
          simp only [takeBack, hstopped]
        rw [hnil, liveCount_live hstopped, liveCount_live hstopped, liveCount_takeBack lanes]
      | cons seq seqs =>
        rw [takeBack_live hstopped, liveCount_live hstopped lanes, ← liveCount_takeBack lanes seqs]
        simp [liveCount, hstopped]

/-- The outcome of a lane that takes a step of its own. -/
theorem getElem?_stepAlone (rt : InferenceRuntime σ κ K Γ) :
    ∀ (ahead : List (Lane σ K Γ)) (l : Lane σ K Γ) (lanes : List (Lane σ K Γ)) (w : World σ κ),
      (∀ reason, l.stopped = some reason →
        (rt.stepAlone (ahead ++ l :: lanes) w).1[ahead.length]?
          = some (.error reason, l.session)) ∧
      (l.stopped = none → (rt.stepAlone (ahead ++ l :: lanes) w).1[ahead.length]?
        = some ((rt.nextToken l.params l.session (rt.stepAlone ahead w).2).1,
            (rt.nextToken l.params l.session (rt.stepAlone ahead w).2).2.1))
  | [], l, lanes, w => by
    rw [List.nil_append]
    refine ⟨fun reason hstopped => ?_, fun hlive => ?_⟩
    · simp only [stepAlone, hstopped]
      rfl
    · simp only [stepAlone, hlive]
      rfl
  | a :: ahead, l, lanes, w => by
    rw [List.cons_append]
    cases hstopped : a.stopped with
    | some reason =>
      have ih := getElem?_stepAlone rt ahead l lanes w
      simp only [stepAlone, hstopped, List.length_cons, List.getElem?_cons_succ]
      exact ih
    | none =>
      have ih := getElem?_stepAlone rt ahead l lanes (rt.nextToken a.params a.session w).2.2
      simp only [stepAlone, hstopped, List.length_cons, List.getElem?_cons_succ]
      exact ih

/-- The outcome of a lane in a pass that succeeded. -/
theorem getElem?_takeTokens : ∀ {ahead : List (Lane σ K Γ)} {l : Lane σ K Γ}
    {lanes : List (Lane σ K Γ)} {answers : List (List K)} {out : List (Stepped σ Γ)},
      rt.takeTokens (ahead ++ l :: lanes) answers = some out →
      (∀ reason, l.stopped = some reason →
        out[ahead.length]? = some (.error reason, l.session)) ∧
      (l.stopped = none → ∃ logits, answers[liveCount ahead]? = some logits ∧
        out[ahead.length]? = some (rt.takeToken l logits))
  | [], l, lanes, answers, out, h => by
    rw [List.nil_append] at h
    refine ⟨fun reason hstopped => ?_, fun hlive => ?_⟩
    · rw [takeTokens_stopped hstopped] at h
      obtain ⟨rest, -, rfl⟩ := Option.map_eq_some_iff.mp h
      rfl
    · cases answers with
      | nil => simp [takeTokens, hlive] at h
      | cons logits answers =>
        rw [takeTokens_live hlive] at h
        obtain ⟨rest, -, rfl⟩ := Option.map_eq_some_iff.mp h
        exact ⟨logits, rfl, rfl⟩
  | a :: ahead, l, lanes, answers, out, h => by
    rw [List.cons_append] at h
    cases hstopped : a.stopped with
    | some reason =>
      rw [takeTokens_stopped hstopped] at h
      obtain ⟨rest, hrest, rfl⟩ := Option.map_eq_some_iff.mp h
      rw [liveCount_stopped hstopped]
      exact getElem?_takeTokens hrest
    | none =>
      cases answers with
      | nil => simp [takeTokens, hstopped] at h
      | cons logits answers =>
        rw [takeTokens_live hstopped] at h
        obtain ⟨rest, hrest, rfl⟩ := Option.map_eq_some_iff.mp h
        rw [liveCount_live hstopped]
        exact getElem?_takeTokens hrest

omit [Weight K] in
theorem lane_spent {reason : StopReason} (h : rt.spent params s = some reason) :
    rt.lane (s, params) = { session := s.finish, params := params, stopped := some reason } := by
  simp only [lane, h]

omit [Weight K] in
theorem lane_live (h : rt.spent params s = none) :
    rt.lane (s, params) = { session := s, params := params, stopped := none } := by
  simp only [lane, h]

/-- Every way that a batch can go. -/
theorem nextTokenBatch_cases {slots : List (Session σ Γ × SamplingParams K)} {w w' : World σ κ}
    {out : List (Stepped σ Γ)} (h : rt.nextTokenBatch slots w = some (out, w')) :
    (((slots.map rt.lane).filter fun l => l.stopped.isNone) = [] ∧
        out = (rt.stepAlone (slots.map rt.lane) w).1) ∨
      ∃ res seqs st, rt.backend.logitsBatch
          (((slots.map rt.lane).filter fun l => l.stopped.isNone).map fun l => l.session.context)
          (((slots.map rt.lane).filter fun l => l.stopped.isNone).map fun l => l.session.seq)
          w.storage = (res, seqs, st) ∧
        ((∃ e, res = .error e ∧
            out = (rt.stepAlone (takeBack (slots.map rt.lane) seqs) { w with storage := st }).1) ∨
          ∃ answers, res = .ok answers ∧
            rt.takeTokens (takeBack (slots.map rt.lane) seqs) answers = some out) := by
  unfold nextTokenBatch at h
  simp only at h
  split at h
  · next hempty =>
    exact .inl ⟨List.isEmpty_iff.mp hempty, (Prod.mk.inj (Option.some.inj h)).1.symm⟩
  · right
    generalize rt.backend.logitsBatch _ _ w.storage = pass at h
    obtain ⟨res, seqs, st⟩ := pass
    refine ⟨res, seqs, st, rfl, ?_⟩
    cases res with
    | error e => exact .inl ⟨e, rfl, (Prod.mk.inj (Option.some.inj h)).1.symm⟩
    | ok answers =>
      obtain ⟨out', hout, heq⟩ := Option.map_eq_some_iff.mp h
      obtain ⟨rfl, -⟩ := Prod.mk.inj heq
      exact .inr ⟨answers, rfl, hout⟩

variable {before after : List (Session σ Γ × SamplingParams K)} {w w' : World σ κ}
  {out : List (Stepped σ Γ)}

omit [Weight K] in
theorem length_takeBack_map (rt : InferenceRuntime σ κ K Γ)
    (before : List (Session σ Γ × SamplingParams K)) (seqs : List (SeqState σ)) :
    (takeBack (before.map rt.lane) seqs).length = before.length := by
  rw [length_takeBack, List.length_map]

/-- A spent session in a batch says why. -/
theorem batch_spent {reason : StopReason} (hspent : rt.spent params s = some reason)
    (h : rt.nextTokenBatch (before ++ (s, params) :: after) w = some (out, w')) :
    out[before.length]? = some (.error reason, s.finish) := by
  have hmap : (before ++ (s, params) :: after).map rt.lane
      = before.map rt.lane ++ rt.lane (s, params) :: after.map rt.lane := by simp
  have hstopped : (rt.lane (s, params)).stopped = some reason := by rw [lane_spent hspent]
  have hsession : (rt.lane (s, params)).session = s.finish := by rw [lane_spent hspent]
  rcases nextTokenBatch_cases h with ⟨-, hout⟩ | ⟨res, seqs, st, -, hres⟩
  · rw [hmap] at hout
    have hstep := (getElem?_stepAlone rt (before.map rt.lane) _ (after.map rt.lane) w).1
      reason hstopped
    rw [List.length_map, hsession] at hstep
    rw [hout, hstep]
  · obtain ⟨rest, hback⟩ := takeBack_append (before.map rt.lane) (rt.lane (s, params))
      (after.map rt.lane) seqs
    rw [hmap, hback, restore_stopped hstopped] at hres
    rw [← length_takeBack_map rt before seqs, ← hsession]
    rcases hres with ⟨e, -, rfl⟩ | ⟨answers, -, htake⟩
    · exact (getElem?_stepAlone rt _ _ rest _).1 reason hstopped
    · exact (getElem?_takeTokens htake).1 reason hstopped

variable (rt params) in
/-- The logits that the session between `before` and `after` draws its token from. -/
def batchLogits (s : Session σ Γ) (before after : List (Session σ Γ × SamplingParams K))
    (w : World σ κ) : Option (List K) :=
  let ahead := before.map rt.lane
  let live := (ahead ++ rt.lane (s, params) :: after.map rt.lane).filter fun l => l.stopped.isNone
  match rt.backend.logitsBatch (live.map fun l => l.session.context)
      (live.map fun l => l.session.seq) w.storage with
  | (.ok answers, _, _) => answers[liveCount ahead]?
  | (.error _, seqs, st) =>
    -- the sessions ahead of it have taken their steps
    (rt.backend.logits s.context (seqs[liveCount ahead]?.getD s.seq)
      (rt.stepAlone (takeBack ahead seqs) { w with storage := st }).2.storage).1.toOption

/-- A batch gives a live session logits to sample from. -/
def BatchServed (rt : InferenceRuntime σ κ K Γ) (params : SamplingParams K) (s : Session σ Γ)
    (before after : List (Session σ Γ × SamplingParams K)) (w : World σ κ) : Prop :=
  ∃ logits, rt.batchLogits params s before after w = some logits ∧ logits ≠ []

theorem batch_reports (hb : rt.Bounded params s) (hspent : rt.spent params s = none)
    (h : rt.nextTokenBatch (before ++ (s, params) :: after) w = some (out, w')) :
    ∃ res s', out[before.length]? = some (res, s') ∧
      Reports rt params (reported res) s' (rt.BatchServed params s before after w) := by
  have hmap : (before ++ (s, params) :: after).map rt.lane
      = before.map rt.lane ++ rt.lane (s, params) :: after.map rt.lane := by simp
  have hlive : (rt.lane (s, params)).stopped = none := by rw [lane_live hspent]
  rcases nextTokenBatch_cases h with ⟨hempty, -⟩ | ⟨res, seqs, st, hpass, hres⟩
  · rw [hmap, List.filter_eq_nil_iff] at hempty
    exact absurd (by rw [hlive]; rfl)
      (hempty _ (List.mem_append_right _ List.mem_cons_self))
  · obtain ⟨rest, hback⟩ := takeBack_append (before.map rt.lane) (rt.lane (s, params))
      (after.map rt.lane) seqs
    have hrestore : restore (rt.lane (s, params)) seqs[liveCount (before.map rt.lane)]?
        = { session := { s with seq := seqs[liveCount (before.map rt.lane)]?.getD s.seq }
            params := params, stopped := none } := by
      rw [restore_live hlive, lane_live hspent]
    rw [hmap] at hpass hres
    rw [hback, hrestore] at hres
    rw [← length_takeBack_map rt before seqs]
    rcases hres with ⟨e, rfl, rfl⟩ | ⟨answers, rfl, htake⟩
    · refine ⟨_, _, (getElem?_stepAlone rt _ _ rest _).2 rfl, ?_⟩
      have hserved : rt.BatchServed params s before after w
          ↔ rt.Answers s.context (seqs[liveCount (before.map rt.lane)]?.getD s.seq)
            (rt.stepAlone (takeBack (before.map rt.lane) seqs) { w with storage := st }).2.storage := by
        unfold BatchServed batchLogits Answers
        simp only [hpass]
        generalize (rt.backend.logits s.context _ _).1 = answer
        cases answer with
        | error e => simp [Except.toOption]
        | ok logits => simp [Except.toOption]
      have hreports := nextToken_reports
        (s := { s with seq := seqs[liveCount (before.map rt.lane)]?.getD s.seq })
        (hb.extend [] (by simp) rfl hb.generated hb.room) hspent
        (rt.stepAlone (takeBack (before.map rt.lane) seqs) { w with storage := st }).2
      exact ⟨hreports.bounded, hreports.finished, hreports.truthful.trans hserved.symm⟩
    · obtain ⟨logits, hlogits, hout⟩ := (getElem?_takeTokens htake).2 rfl
      rw [liveCount_takeBack] at hlogits
      have hserved : rt.BatchServed params s before after w ↔ logits ≠ [] := by
        unfold BatchServed batchLogits
        simp only [hpass, hlogits, Option.some.injEq, exists_eq_left']
      have hreports := takeToken_reports hb hspent
        (seqs[liveCount (before.map rt.lane)]?.getD s.seq) logits
      exact ⟨_, _, hout, hreports.bounded, hreports.finished,
        hreports.truthful.trans hserved.symm⟩

end

end InferenceRuntime

end Garuda
