import Garuda.Runtime.Greedy
import Garuda.Runtime.StopReasons

/-!
# The stop reasons of a session

A session is called any number of times, in any of the three ways and whatever the other requests do
in between. Each call may report a reason to stop.

* `InferenceRuntime.Served` says that a call was not failed: by the model, or by the cache.
* `InferenceRuntime.callStep_honest` is what one more call does to the reports.
* `InferenceRuntime.stop_reasons_iff` says that the reasons of a run mean what they say exactly when
  every call of it was served, and a session is called again only after it has reported `Length`.
-/

namespace Garuda

open Infra

variable {σ κ K Γ : Type}

/-- A call on a session, in the world as the other requests have left it. -/
inductive SessionCall (σ κ K Γ : Type) where
  | nextToken (w : World σ κ)
  | speculate (lookahead : Nat) (out : List Token) (w : World σ κ)
  /-- `next_token_batch`, with the sessions before and after this one. -/
  | batch (before after : List (Session σ Γ × SamplingParams K)) (w : World σ κ)

namespace InferenceRuntime

section

variable [Weight K] {rt : InferenceRuntime σ κ K Γ} {params : SamplingParams K}
  {s s' : Session σ Γ}

/-! ## Calls -/

variable (rt params) in
/-- What a call reports, and the session after it. `none` is a panic. -/
def call (s : Session σ Γ) : SessionCall σ κ K Γ →
    Option (Option StopReason × Session σ Γ)
  | .nextToken w =>
    let stepped := rt.nextToken params s w
    some (reported stepped.1, stepped.2.1)
  | .speculate lookahead out w =>
    let stepped := rt.nextTokensSpeculative params lookahead s out w
    some (reported stepped.1, stepped.2.2.1)
  | .batch before after w =>
    match rt.nextTokenBatch (before ++ (s, params) :: after) w with
    | none => none
    | some (out, _) => out[before.length]?.map fun stepped => (reported stepped.1, stepped.2)

variable (rt params) in
/-- The call of a live session is failed neither by the model nor by the cache. -/
def Served (s : Session σ Γ) : SessionCall σ κ K Γ → Prop
  | .nextToken w => rt.Answers s.context s.seq w.storage
  | .speculate lookahead _ w =>
    if 0 < lookahead ∧ rt.backend.speculationSupported = true then
      rt.SpeculationServed params s lookahead w
    else rt.Answers s.context s.seq w.storage
  | .batch before after w => rt.BatchServed params s before after w

/-- A call of a session that has no step to take. -/
theorem call_spent {reason : StopReason} (hspent : rt.spent params s = some reason)
    {c : SessionCall σ κ K Γ} {report : Option StopReason}
    (h : rt.call params s c = some (report, s')) : report = some reason ∧ s' = s.finish := by
  have hplain : ∀ w, rt.nextToken params s w = (.error reason, s.finish, w) := by
    intro w
    unfold nextToken
    rw [hspent]
  cases c with
  | nextToken w =>
    rw [call, hplain] at h
    obtain ⟨rfl, rfl⟩ := Prod.mk.inj (Option.some.inj h)
    exact ⟨rfl, rfl⟩
  | speculate lookahead out w =>
    have hspeculative : rt.nextTokensSpeculative params lookahead s out w
        = (.error reason, out, s.finish, w) := by
      unfold nextTokensSpeculative
      rw [hplain, hspent]
      split <;> rfl
    rw [call, hspeculative] at h
    obtain ⟨rfl, rfl⟩ := Prod.mk.inj (Option.some.inj h)
    exact ⟨rfl, rfl⟩
  | batch before after w =>
    rw [call] at h
    cases hbatch : rt.nextTokenBatch (before ++ (s, params) :: after) w with
    | none =>
      rw [hbatch] at h
      cases h
    | some stepped =>
      obtain ⟨out, w'⟩ := stepped
      rw [hbatch] at h
      simp only [batch_spent hspent hbatch, Option.map_some] at h
      obtain ⟨rfl, rfl⟩ := Prod.mk.inj (Option.some.inj h)
      exact ⟨rfl, rfl⟩

/-- **A call of a live session** tells the truth just when it is served. -/
theorem call_reports (hb : rt.Bounded params s) (hspent : rt.spent params s = none)
    {c : SessionCall σ κ K Γ} {report : Option StopReason}
    (h : rt.call params s c = some (report, s')) :
    Reports rt params report s' (rt.Served params s c) := by
  cases c with
  | nextToken w =>
    rw [call] at h
    obtain ⟨rfl, rfl⟩ := Prod.mk.inj (Option.some.inj h)
    exact nextToken_reports hb hspent w
  | speculate lookahead out w =>
    rw [call] at h
    obtain ⟨rfl, rfl⟩ := Prod.mk.inj (Option.some.inj h)
    by_cases hon : 0 < lookahead ∧ rt.backend.speculationSupported = true
    · rw [Served, if_pos hon]
      exact speculative_reports hb hspent hon out w
    · rw [Served, if_neg hon]
      have hoff : lookahead = 0 ∨ ¬ rt.backend.speculationSupported = true := by
        rw [not_and_or] at hon
        exact hon.imp_left Nat.eq_zero_of_not_pos
      have hreports := nextToken_reports hb hspent w
      unfold nextTokensSpeculative
      rw [if_pos hoff]
      generalize rt.nextToken params s w = stepped at hreports
      obtain ⟨res, s', w'⟩ := stepped
      cases res with
      | error reason => exact hreports
      | ok t => exact hreports
  | batch before after w =>
    rw [call] at h
    cases hbatch : rt.nextTokenBatch (before ++ (s, params) :: after) w with
    | none =>
      rw [hbatch] at h
      cases h
    | some stepped =>
      obtain ⟨out, w'⟩ := stepped
      obtain ⟨res, s₁, hout, hreports⟩ := batch_reports hb hspent hbatch
      rw [hbatch] at h
      simp only [hout, Option.map_some] at h
      obtain ⟨rfl, rfl⟩ := Prod.mk.inj (Option.some.inj h)
      exact hreports

/-! ## Runs -/

/-- A session, what every call on it has reported so far, and the session as that call left it. -/
structure Reporting (σ Γ : Type) where
  session : Session σ Γ
  reports : List (Option StopReason × Session σ Γ)

variable (rt params) in
def callStep (d : Reporting σ Γ) (c : SessionCall σ κ K Γ) : Option (Reporting σ Γ) :=
  (rt.call params d.session c).map fun r => { session := r.2, reports := d.reports ++ [r] }

variable (rt params) in
/-- Every reason that was reported is the truth, and every call after it has reported the same. -/
def Honest (reports : List (Option StopReason × Session σ Γ)) : Prop :=
  ∀ pre reason s post, reports = pre ++ (some reason, s) :: post →
    rt.Truthful params s reason ∧ ∀ r ∈ post, r.1 = some reason

variable (rt params) in
/-- The model and the cache serve the call, if the session has a step to take; and it is called
again after a reason only if that was `Length`. -/
def Allowed (d : Reporting σ Γ) (c : SessionCall σ κ K Γ) : Prop :=
  (∀ r ∈ d.reports, r.1 = none ∨ r.1 = some .length) ∧
    (rt.spent params d.session = none → rt.Served params d.session c)

/-- A session that has reported a reason is finished, and stays as it was. -/
structure Followed (rt : InferenceRuntime σ κ K Γ) (params : SamplingParams K)
    (d : Reporting σ Γ) : Prop where
  bounded : rt.Bounded params d.session
  ended : ∀ r ∈ d.reports, r.1 ≠ none → d.session.finished = true ∧ r.2 = d.session
  reported : d.session.finished = true → ∃ r ∈ d.reports, r.1 ≠ none

omit [Weight K] in
theorem honest_concat {reports : List (Option StopReason × Session σ Γ)}
    {r : Option StopReason × Session σ Γ} :
    rt.Honest params (reports ++ [r]) ↔ rt.Honest params reports ∧
      (∀ q ∈ reports, ∀ reason, q.1 = some reason → r.1 = some reason) ∧
      ∀ reason, r.1 = some reason → rt.Truthful params r.2 reason := by
  constructor
  · intro h
    refine ⟨fun pre reason s post heq => ?_, fun q hq reason hreason => ?_, fun reason hr => ?_⟩
    · obtain ⟨htrue, hpost⟩ := h pre reason s (post ++ [r]) (by rw [heq]; simp)
      exact ⟨htrue, fun q hq => hpost q (List.mem_append_left _ hq)⟩
    · obtain ⟨pre, post, heq⟩ := List.append_of_mem hq
      obtain ⟨found, s⟩ := q
      obtain rfl : found = some reason := hreason
      exact (h pre reason s (post ++ [r]) (by rw [heq]; simp)).2 r
        (List.mem_append_right _ List.mem_cons_self)
    · obtain ⟨found, s⟩ := r
      obtain rfl : found = some reason := hr
      exact (h reports reason s [] rfl).1
  · rintro ⟨hold, hsame, htrue⟩ pre reason s post heq
    rcases concat_eq_append_cons heq with ⟨rfl, heq', rfl⟩ | ⟨post', rfl, heq'⟩
    · refine ⟨?_, by simp⟩
      have := htrue reason (by rw [← heq'])
      rwa [← heq'] at this
    · obtain ⟨hs, hpost⟩ := hold pre reason s post' heq'
      refine ⟨hs, fun q hq => ?_⟩
      rcases List.mem_append.mp hq with hq | hq
      · exact hpost q hq
      · rw [List.mem_singleton.mp hq]
        exact hsame (some reason, s) (by rw [heq']; simp) reason rfl

omit [Weight K] in
/-- A call of a session that had not reported a reason yet. -/
theorem Followed.first {d : Reporting σ Γ} (h : ∀ q ∈ d.reports, q.1 = none)
    {report : Option StopReason} {s' : Session σ Γ} (hb : rt.Bounded params s')
    (hfinished : s'.finished = report.isSome) :
    Followed rt params { session := s', reports := d.reports ++ [(report, s')] } where
  bounded := hb
  ended q hq hsome := by
    rcases List.mem_append.mp hq with hq | hq
    · exact absurd (h q hq) hsome
    · obtain rfl := List.mem_singleton.mp hq
      exact ⟨hfinished.trans (Option.isSome_iff_ne_none.mpr hsome), rfl⟩
  reported hf := by
    refine ⟨(report, s'), by simp, Option.isSome_iff_ne_none.mp ?_⟩
    exact hfinished.symm.trans hf

/-- **One more call**: what it reports keeps a run honest just when it is allowed. -/
theorem callStep_honest {d d' : Reporting σ Γ} {c : SessionCall σ κ K Γ} (h : Followed rt params d)
    (hstep : rt.callStep params d c = some d') :
    Followed rt params d' ∧ (rt.Honest params d'.reports ↔
      rt.Honest params d.reports ∧ rt.Allowed params d c) := by
  obtain ⟨⟨report, s'⟩, hcall, rfl⟩ := Option.map_eq_some_iff.mp hstep
  rw [honest_concat]
  cases hfinished : d.session.finished with
  | true =>
    -- the session says `Length` and stays as it is
    have hspent : rt.spent params d.session = some .length := spent_of_finished hfinished
    obtain ⟨rfl, rfl⟩ := call_spent hspent hcall
    rw [finish_of_finished hfinished]
    obtain ⟨q, hq, hreported⟩ := h.reported hfinished
    refine ⟨⟨h.bounded, fun r hr hsome => ?_, fun _ => ⟨q, List.mem_append_left _ hq, hreported⟩⟩,
      and_congr_right fun hhonest => ⟨fun ⟨hsame, _⟩ => ⟨fun r hr => ?_, fun hnone => ?_⟩,
        fun ⟨hlength, _⟩ => ⟨fun r hr reason hreason => ?_, fun reason hreason => ?_⟩⟩⟩
    · rcases List.mem_append.mp hr with hr | hr
      · exact h.ended r hr hsome
      · rw [List.mem_singleton.mp hr]
        exact ⟨hfinished, rfl⟩
    · cases hr' : r.1 with
      | none => exact .inl rfl
      | some reason => exact .inr (hsame r hr reason hr').symm
    · rw [hspent] at hnone
      cases hnone
    · rcases hlength r hr with hnone | hsome
      · rw [hnone] at hreason
        cases hreason
      · exact hsome.symm.trans hreason
    · obtain rfl := Option.some.inj hreason
      have hq1 := (hlength q hq).resolve_left hreported
      obtain ⟨pre, post, heq⟩ := List.append_of_mem hq
      obtain ⟨found, s⟩ := q
      obtain rfl : found = some .length := hq1
      obtain rfl : s = d.session := (h.ended _ hq hreported).2
      exact (hhonest pre .length _ post heq).1
  | false =>
    have hnone : ∀ q ∈ d.reports, q.1 = none := by
      intro q hq
      by_contra hsome
      rw [(h.ended q hq hsome).1] at hfinished
      cases hfinished
    have hsame : ∀ q ∈ d.reports, ∀ reason, q.1 = some reason → report = some reason := by
      intro q hq reason hreason
      rw [hnone q hq] at hreason
      cases hreason
    have hlength : ∀ r ∈ d.reports, r.1 = none ∨ r.1 = some .length := fun r hr =>
      .inl (hnone r hr)
    cases hspent : rt.spent params d.session with
    | some reason =>
      obtain ⟨rfl, rfl⟩ := call_spent hspent hcall
      have hb := h.bounded
      refine ⟨Followed.first hnone ⟨hb.nonempty, hb.prompt, hb.generated, hb.room⟩ rfl,
        and_congr_right fun _ => iff_of_true ⟨hsame, fun reason' hreason => ?_⟩
          ⟨hlength, fun h => ?_⟩⟩
      · obtain rfl := Option.some.inj hreason
        exact spent_truthful hb hfinished hspent
      · rw [hspent] at h
        cases h
    | none =>
      have hreports := call_reports h.bounded hspent hcall
      refine ⟨Followed.first hnone hreports.bounded hreports.finished,
        and_congr_right fun _ => ⟨fun ⟨_, htrue⟩ => ⟨hlength, fun _ => ?_⟩,
          fun ⟨_, hserved⟩ => ⟨hsame, hreports.truthful.mpr (hserved hspent)⟩⟩⟩
      exact hreports.truthful.mp htrue

theorem run_honest {s : Session σ Γ} (hb : rt.Bounded params s) (hrunning : s.finished = false)
    (calls : List (SessionCall σ κ K Γ)) {d : Reporting σ Γ}
    (hrun : runList (rt.callStep params) calls { session := s, reports := [] } = some d) :
    Followed rt params d ∧ (rt.Honest params d.reports ↔
      EachStep (rt.callStep params) (rt.Allowed params) calls { session := s, reports := [] }) := by
  induction calls using List.reverseRecOn generalizing d with
  | nil =>
    obtain rfl := Option.some.inj hrun
    refine ⟨⟨hb, by simp, fun hf => ?_⟩, iff_of_true ?_ ?_⟩
    · rw [hrunning] at hf
      cases hf
    · intro pre reason s post heq
      simp at heq
    · intro pre c post m heq
      simp at heq
  | append_singleton calls c ih =>
    obtain ⟨m, hm, hstep⟩ := runList_concat.mp hrun
    obtain ⟨hfollowed, hhonest⟩ := ih hm
    obtain ⟨hfollowed', hmore⟩ := callStep_honest hfollowed hstep
    exact ⟨hfollowed', by rw [hmore, hhonest, eachStep_concat hm]⟩

/-! ## From a prompt -/

variable [DecidableEq κ] {prompt : List Token} {p : Pending σ} {w w' : World σ κ}

variable (rt params prompt) in
/-- A prompt that was begun, and has had any number of pieces taken in. -/
inductive Begun : Pending σ → Prop where
  | start {w w' : World σ κ} {p : Pending σ}
      (h : rt.startIncremental params prompt w = (.ok p, w')) : Begun p
  | advance {w : World σ κ} {p : Pending σ} (h : Begun p) (maxTokens : Nat) :
      Begun (rt.advancePrefill p maxTokens w).2.1

omit [Weight K] [DecidableEq κ] in
theorem bounded_finishPrefill (hne : p.context ≠ []) (hroom : p.context.length < rt.maxContext) :
    rt.Bounded params (rt.finishPrefill p) where
  nonempty := hne
  prompt := Nat.le_refl _
  generated := by
    show p.context.length - p.context.length ≤ params.maxTokens
    omega
  room := hroom.le

theorem startIncremental_context (h : rt.startIncremental params prompt w = (.ok p, w')) :
    p.context = prompt ∧ prompt ≠ [] ∧ prompt.length < rt.maxContext := by
  unfold startIncremental at h
  split at h
  · cases (Prod.mk.inj h).1
  split at h
  · cases (Prod.mk.inj h).1
  split at h
  · cases (Prod.mk.inj h).1
  next hne hroom =>
  refine ⟨?_, by simpa using hne, Nat.lt_of_not_le hroom⟩
  simp only [freshSeqId] at h
  split at h
  · rw [← Except.ok.inj (Prod.mk.inj h).1]
  generalize w.promptCache.get rt.promptKey prompt.dropLast w.nextSeq.toNat = got at h
  obtain ⟨hit, cache⟩ := got
  cases hit with
  | none => rw [← Except.ok.inj (Prod.mk.inj h).1]
  | some cached => rw [← Except.ok.inj (Prod.mk.inj h).1]

omit [Weight K] in
theorem advancePrefill_context (p : Pending σ) (maxTokens : Nat) (w : World σ κ) :
    (rt.advancePrefill p maxTokens w).2.1.context = p.context := by
  unfold advancePrefill
  simp only
  split
  · rfl
  · generalize rt.backend.hidden _ p.seq w.storage = out
    obtain ⟨res, seq, st⟩ := out
    cases res with
    | error e => rfl
    | ok hidden =>
      simp only
      split
      · rfl
      · rfl

theorem Begun.bounded (h : Begun rt params prompt p) :
    rt.Bounded params (rt.finishPrefill p) := by
  have hcontext : p.context = prompt ∧ prompt ≠ [] ∧ prompt.length < rt.maxContext := by
    induction h with
    | start h => exact startIncremental_context h
    | advance h maxTokens ih =>
      rw [advancePrefill_context]
      exact ih
  obtain ⟨rfl, hne, hroom⟩ := hcontext
  exact bounded_finishPrefill hne hroom

/--
**The reasons of a run mean what they say exactly when every call is served, and none follows a
reason other than `Length`.**

A pass that fails, logits that are empty and a rollback that the cache refuses are all reported as
`ContextFull`, and a finished session says `Length` whatever it was finished by.
-/
theorem stop_reasons_iff (rt : InferenceRuntime σ κ K Γ) (params : SamplingParams K)
    (prompt : List Token) (p : Pending σ) (hp : Begun rt params prompt p)
    (calls : List (SessionCall σ κ K Γ)) (d : Reporting σ Γ)
    (hrun : runList (rt.callStep params) calls { session := rt.finishPrefill p, reports := [] }
      = some d) :
    rt.Honest params d.reports ↔ EachStep (rt.callStep params) (rt.Allowed params) calls
      { session := rt.finishPrefill p, reports := [] } :=
  (run_honest hp.bounded rfl calls hrun).2

end

/-- A model that ends every turn at once, and the same with passes that fail. -/
def endingRuntime (failing : Bool) :
    InferenceRuntime (Path → Option Bytes) (List Token) Int Nat :=
  let rt := stubRuntime { tinyCfg 4 2 none memoryStorage with storage := none } fun _ => 0
  if failing then
    { rt with backend := { rt.backend with
        logits := fun _ seq st => (.error (.inference "out of memory"), seq, st) } }
  else rt

/-- A prompt of one token, which leaves nothing to take in. -/
def onePending (rt : InferenceRuntime (Path → Option Bytes) (List Token) Int Nat) :
    Pending (Path → Option Bytes) where
  seq := .new rt.kvTemplate 1
  context := [3]
  consumed := 0
  seed := 7
  cacheOnFinish := false

/-- Three tokens, and then the limit. -/
theorem stop_reasons_iff_counting :
    Begun countingRuntime (greedyParams 3) [3] (onePending countingRuntime) ∧
    ∃ d, runList (countingRuntime.callStep (greedyParams 3))
        (List.replicate 5 (.nextToken emptyWorld))
        { session := countingRuntime.finishPrefill (onePending countingRuntime), reports := [] }
          = some d ∧
      d.reports.map Prod.fst = [none, none, none, some .length, some .length] ∧
      (countingRuntime.Honest (greedyParams 3) d.reports ↔
        EachStep (countingRuntime.callStep (greedyParams 3))
          (countingRuntime.Allowed (greedyParams 3)) (List.replicate 5 (.nextToken emptyWorld))
          { session := countingRuntime.finishPrefill (onePending countingRuntime)
            reports := [] }) := by
  have hp : Begun countingRuntime (greedyParams 3) [3] (onePending countingRuntime) :=
    .start (w := emptyWorld) rfl
  refine ⟨hp, ?_⟩
  have hsome : (runList (countingRuntime.callStep (greedyParams 3))
      (List.replicate 5 (.nextToken emptyWorld))
      { session := countingRuntime.finishPrefill (onePending countingRuntime), reports := [] }).any
        (fun d => decide (d.reports.map Prod.fst
          = [none, none, none, some .length, some .length])) = true := by
    decide +kernel
  obtain ⟨d, hd, hreports⟩ := (Option.any_eq_true _ _).mp hsome
  exact ⟨d, hd, of_decide_eq_true hreports,
    stop_reasons_iff countingRuntime (greedyParams 3) [3] _ hp _ d hd⟩

/-- A turn that ended is reported as too long when it is asked again, after one token of eight; and
a pass that fails in a window with room for more as a full window. -/
theorem stop_reasons_misreport :
    (Begun (endingRuntime false) (greedyParams 8) [3] (onePending (endingRuntime false)) ∧
      ∃ d, runList ((endingRuntime false).callStep (greedyParams 8))
          [.nextToken emptyWorld, .nextToken emptyWorld]
          { session := (endingRuntime false).finishPrefill (onePending (endingRuntime false))
            reports := [] } = some d ∧
        d.reports.map (fun r => (r.1, r.2.context))
          = [(some .eos, [3, 0]), (some .length, [3, 0])] ∧
        ¬ (endingRuntime false).Honest (greedyParams 8) d.reports) ∧
    Begun (endingRuntime true) (greedyParams 8) [3] (onePending (endingRuntime true)) ∧
      ∃ d, runList ((endingRuntime true).callStep (greedyParams 8)) [.nextToken emptyWorld]
          { session := (endingRuntime true).finishPrefill (onePending (endingRuntime true))
            reports := [] } = some d ∧
        d.reports.map (fun r => (r.1, r.2.context)) = [(some .contextFull, [3])] ∧
        (endingRuntime true).maxContext = 64 ∧
        ¬ (endingRuntime true).Honest (greedyParams 8) d.reports := by
  refine ⟨⟨.start (w := emptyWorld) rfl, ?_⟩, .start (w := emptyWorld) rfl, ?_⟩
  · have hsome : (runList ((endingRuntime false).callStep (greedyParams 8))
        [.nextToken emptyWorld, .nextToken emptyWorld]
        { session := (endingRuntime false).finishPrefill (onePending (endingRuntime false))
          reports := [] }).any (fun d => decide (d.reports.map (fun r => (r.1, r.2.context))
            = [(some .eos, [3, 0]), (some .length, [3, 0])])) = true := by
      decide +kernel
    obtain ⟨d, hd, hout⟩ := (Option.any_eq_true _ _).mp hsome
    have hreports := of_decide_eq_true hout
    refine ⟨d, hd, hreports, fun h => ?_⟩
    obtain ⟨⟨found, s⟩, post, hcons, hfirst, hpost⟩ := List.map_eq_cons_iff.mp hreports
    obtain rfl : found = some .eos := (Prod.mk.inj hfirst).1
    obtain ⟨r, rest, rfl, hsecond, -⟩ := List.map_eq_cons_iff.mp hpost
    have hsame := (h [] .eos s (r :: rest) hcons).2 r List.mem_cons_self
    rw [(Prod.mk.inj hsecond).1] at hsame
    cases hsame
  · have hsome : (runList ((endingRuntime true).callStep (greedyParams 8)) [.nextToken emptyWorld]
        { session := (endingRuntime true).finishPrefill (onePending (endingRuntime true))
          reports := [] }).any (fun d => decide (d.reports.map (fun r => (r.1, r.2.context))
            = [(some .contextFull, [3])])) = true := by
      decide +kernel
    obtain ⟨d, hd, hout⟩ := (Option.any_eq_true _ _).mp hsome
    have hreports := of_decide_eq_true hout
    refine ⟨d, hd, hreports, rfl, fun h => ?_⟩
    obtain ⟨⟨found, s⟩, post, hcons, hfirst, -⟩ := List.map_eq_cons_iff.mp hreports
    obtain ⟨hfound, hcontext⟩ := Prod.mk.inj hfirst
    obtain rfl : found = some .contextFull := hfound
    have hfull : s.context.length = 64 := (h [] .contextFull s post hcons).1
    simp only at hcontext
    rw [hcontext] at hfull
    cases hfull

end InferenceRuntime

end Garuda
