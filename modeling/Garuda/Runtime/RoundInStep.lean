import Garuda.Runtime.InStep

/-!
# A speculative round keeps session and cache in step

The draft model works on a sequence of its own, the verdicts keep guesses from the front of the
draft, and the rollback cuts the cache back to the tokens before the last one produced. A refused
rollback ends the session.

* `judge_kept` — what the verdicts leave of the draft
* `nextTokensSpeculative_inStep` — **a round**, however it ends
-/

namespace Garuda

open Infra SeqState

variable {σ κ K Γ : Type} [Weight K]

/-! ## Verdicts -/

/-- A guess that survives is the token emitted. -/
theorem resample_kept {G : Type} {draw : G → K × G} {cands : List (Token × K)} {guess t : Token}
    {dist : Option (List (Token × K))} {g : G}
    (h : (resample draw cands guess dist g).1 = (true, t)) : t = guess := by
  unfold resample at h
  simp only at h
  split at h
  · exact (Prod.mk.inj h).2.symm
  · split at h
    · cases (Prod.mk.inj h).1
    · cases (Prod.mk.inj h).1

theorem verifyAgainst_kept {G : Type} {draw : G → K × G} {cands : List (Token × K)}
    {guess t : Token} {dist : Option (List (Token × K))} {g : G}
    (h : (verifyAgainst draw cands guess dist g).1 = (true, t)) : t = guess := by
  unfold verifyAgainst at h
  simp only at h
  split at h
  · cases (Prod.mk.inj h).1
  cases dist with
  | none =>
    simp only at h
    split at h
    · split at h
      · exact (Prod.mk.inj h).2.symm
      · exact resample_kept h
    · exact resample_kept h
  | some q =>
    simp only at h
    split at h
    · cases (Prod.mk.inj h).1
    split at h
    · split at h
      · exact (Prod.mk.inj h).2.symm
      · exact resample_kept h
    · exact resample_kept h

namespace InferenceRuntime

section

variable {rt : InferenceRuntime σ κ K Γ} {params : SamplingParams K}

theorem verdict_kept {guess : Option Token} {dist : Option (List (Token × K))} {answer : List K}
    {rng : Rng} {t : Token} (h : (rt.verdict params guess dist answer rng).1 = some (true, t)) :
    guess = some t := by
  unfold verdict at h
  cases guess with
  | none =>
    simp only at h
    split at h
    · cases (Prod.mk.inj (Option.some.inj h)).1
    · cases h
  | some guess =>
    simp only at h
    split at h
    · split at h
      · next t' rng' _ =>
        obtain ⟨hkept, rfl⟩ := Prod.mk.inj (Option.some.inj h)
        rw [beq_iff_eq.mp hkept]
      · cases h
    · split at h
      · cases h
      · rw [verifyAgainst_kept (Option.some.inj h)]

/-- What a loop over the answers has made of a session that stood at `base`: it has taken over
guesses from the front of the draft, and then one token that is not one of them. A loop that stops
short of that has a reason to. -/
def Kept (base draft : List Token) (s s' : Session σ Γ) (stop : Option StopReason) : Prop :=
  (∃ rng context, s' = { s with rng := rng, context := context }) ∧
    ∃ k, k ≤ draft.length ∧
      ((∃ t, s'.context = base ++ draft.take k ++ [t]) ∨
        (stop ≠ none ∧ s'.context = base ++ draft.take k))

/-- **The verdicts** keep guesses from the front. -/
theorem judge_kept {base draft : List Token} (dists : List (List (Token × K))) :
    ∀ (answers : List (List K)) (i : Nat) (s : Session σ Γ) (out : List Token),
      answers.length + i = draft.length + 1 → i ≤ draft.length →
      s.context = base ++ draft.take i →
      Kept base draft s (rt.judge params draft dists i answers s out).1
        (rt.judge params draft dists i answers s out).2.2
  | [], i, s, out, hlen, hi, _ => by
    rw [List.length_nil] at hlen
    omega
  | answer :: rest, i, s, out, hlen, hi, hcontext => by
    rw [List.length_cons] at hlen
    have hkept : ∀ t, (rt.verdict params draft[i]? dists[i]? answer s.rng).1 = some (true, t) →
        draft[i]? = some t := fun t => verdict_kept
    rw [judge]
    generalize rt.verdict params draft[i]? dists[i]? answer s.rng = v at hkept
    obtain ⟨v, rng⟩ := v
    cases v with
    | none => exact ⟨⟨rng, s.context, rfl⟩, i, hi, Or.inr ⟨by simp, hcontext⟩⟩
    | some v =>
      obtain ⟨kept, token⟩ := v
      have hone : ∀ stop, Kept base draft s ({ s with rng := rng }.push token) stop := fun _ =>
        ⟨⟨rng, _, rfl⟩, i, hi, Or.inl ⟨token, by rw [← hcontext]; rfl⟩⟩
      simp only
      split
      · exact hone _
      split
      · exact hone _
      split
      · exact hone _
      · next hk _ =>
        obtain rfl : kept = true := by simpa using hk
        have hguess := hkept token rfl
        have hlt := (List.getElem?_eq_some_iff.mp hguess).1
        obtain ⟨⟨rng', context', hs⟩, hrest⟩ := judge_kept dists rest (i + 1)
          ({ s with rng := rng }.push token) (out ++ [token]) (by omega) hlt (by
            show s.context ++ [token] = _
            rw [hcontext, List.take_add_one, hguess, List.append_assoc]
            rfl)
        exact ⟨⟨rng', context', hs⟩, hrest⟩

end

/-! ## The draft model -/

section

variable (rt : InferenceRuntime σ κ K Γ) (law : ReadsBack rt.kvTemplate.storage)

omit [Weight K] in
/-- A sequence of the draft model, over the same files. -/
def DraftHeld (seqId : Nat) (seq : SeqState σ) (st : σ) : Prop :=
  ∃ (drafter : InferenceBackend σ K) (kv : KvConfig σ) (lawD : ReadsBack kv.storage),
    rt.drafter = some (drafter, kv) ∧ lawD.content = law.content ∧
    ∃ vs, Layers lawD seqId (seq, st) vs

omit [Weight K] in
/-- The draft model keeps to the files of the sequence it is given. -/
def DraftsApart : Prop :=
  ∀ (drafter : InferenceBackend σ K) (kv : KvConfig σ), rt.drafter = some (drafter, kv) →
    (∃ lawD : ReadsBack kv.storage, lawD.content = law.content) ∧
    ∀ (seqId : Nat) (ctx : List Token) (seq : SeqState σ) (st : σ), rt.DraftHeld law seqId seq st →
      rt.DraftHeld law seqId (drafter.logits ctx seq st).2.1 (drafter.logits ctx seq st).2.2 ∧
        OnlySequence law seqId st (drafter.logits ctx seq st).2.2

variable {rt} {law} {m : TokenModel K} {params : SamplingParams K} {main draftId : Nat}
variable {s : Session σ Γ} {st : σ} {seq : SeqState σ}

omit [Weight K] in
theorem DraftsApart.new (hd : rt.DraftsApart law) {drafter : InferenceBackend σ K}
    {kv : KvConfig σ} (h : rt.drafter = some (drafter, kv)) (seqId : Nat) (st : σ) :
    rt.DraftHeld law seqId (.new kv seqId) st := by
  obtain ⟨lawD, hlaw⟩ := (hd drafter kv h).1
  exact ⟨drafter, kv, lawD, h, hlaw, _, layers_new rfl seqId st⟩

omit [Weight K] in
theorem DraftHeld.apart (h : rt.DraftHeld law draftId seq st) {st' : σ} {ids : List Nat}
    (honly : OnlyThose law ids st st') (hid : draftId ∉ ids) : rt.DraftHeld law draftId seq st' := by
  obtain ⟨drafter, kv, lawD, hdrafter, hlaw, vs, hvs⟩ := h
  refine ⟨drafter, kv, lawD, hdrafter, hlaw, vs, hvs.apart (fun q hq => ?_) hid⟩
  rw [hlaw]
  exact honly q hq

omit [Weight K] in
theorem DraftHeld.truncate (h : rt.DraftHeld law draftId seq st) (n : Nat) :
    rt.DraftHeld law draftId (seq.truncate n st).2.1 (seq.truncate n st).2.2 ∧
      OnlySequence law draftId st (seq.truncate n st).2.2 := by
  obtain ⟨drafter, kv, lawD, hdrafter, hlaw, vs, hvs⟩ := h
  obtain ⟨hcut, hown⟩ := hvs.anyCut n
  refine ⟨⟨drafter, kv, lawD, hdrafter, hlaw, _, hcut⟩, fun q hq => ?_⟩
  rw [← hlaw]
  exact hown q hq

omit [Weight K] in
theorem DraftHeld.drop_own (h : rt.DraftHeld law draftId seq st) :
    OnlySequence law draftId st (seq.drop st) := by
  obtain ⟨drafter, kv, lawD, hdrafter, hlaw, vs, hvs⟩ := h
  intro q hq
  rw [← hlaw]
  exact hvs.drop_own q hq

/-- The draft model works in its own sequence. -/
theorem proposeWithModel_held (num : Numerics K) (params : SamplingParams K)
    {drafter : InferenceBackend σ K}
    (hd : ∀ (ctx : List Token) (seq : SeqState σ) (st : σ), rt.DraftHeld law draftId seq st →
      rt.DraftHeld law draftId (drafter.logits ctx seq st).2.1 (drafter.logits ctx seq st).2.2 ∧
        OnlySequence law draftId st (drafter.logits ctx seq st).2.2) :
    ∀ (n : Nat) (probe : List Token) (seq : SeqState σ) (rng : Rng) (st : σ),
      rt.DraftHeld law draftId seq st →
      rt.DraftHeld law draftId (proposeWithModel num drafter params n probe seq rng st).2.1
          (proposeWithModel num drafter params n probe seq rng st).2.2.2 ∧
        OnlyThose law [draftId] st (proposeWithModel num drafter params n probe seq rng st).2.2.2
  | 0, _, _, _, _, h => ⟨h, OnlyThose.refl _ _⟩
  | n + 1, probe, seq, rng, st, h => by
    obtain ⟨hheld, hown⟩ := hd probe seq st h
    replace hown := hown.those (List.mem_singleton_self draftId)
    rw [proposeWithModel]
    generalize drafter.logits probe seq st = answer at hheld hown
    obtain ⟨res, seq, st₁⟩ := answer
    -- what follows the first guess
    have hmore : ∀ (token : Token) (rng : Rng),
        rt.DraftHeld law draftId
            (proposeWithModel num drafter params n (probe ++ [token]) seq rng st₁).2.1
            (proposeWithModel num drafter params n (probe ++ [token]) seq rng st₁).2.2.2 ∧
          OnlyThose law [draftId] st
            (proposeWithModel num drafter params n (probe ++ [token]) seq rng st₁).2.2.2 := by
      intro token rng
      obtain ⟨hheld', hown'⟩ :=
        proposeWithModel_held num params hd n (probe ++ [token]) seq rng st₁ hheld
      exact ⟨hheld', hown.trans hown'⟩
    cases res with
    | error e => exact ⟨hheld, hown⟩
    | ok logits =>
      simp only
      split
      · split
        · exact ⟨hheld, hown⟩
        · exact hmore _ _
      · split
        · exact ⟨hheld, hown⟩
        · exact hmore _ _

variable (rt law draftId) in
/-- What a call leaves of the draft model's sequence, which it may have begun. -/
structure Drafts (ids : List Nat) (s s' : Session σ Γ) (w w' : World σ κ) : Prop where
  held : ∀ ds, s'.draftSeq = some ds → rt.DraftHeld law draftId ds w'.storage
  own : OnlyThose law ids w.storage w'.storage
  promptCache : w'.promptCache = w.promptCache
  nextSeq : w'.nextSeq = w.nextSeq ∨ s.draftSeq = none ∧ w'.nextSeq = w.nextSeq + 1
  begun : s'.draftSeq ≠ none → s.draftSeq ≠ none ∨ w'.nextSeq = w.nextSeq + 1

variable (params) in
/-- **The guesses of a round** are made in the draft model's own sequence. -/
theorem draft_drafts (hd : rt.DraftsApart law) {w : World σ κ}
    (hheld : ∀ ds, s.draftSeq = some ds → rt.DraftHeld law draftId ds w.storage)
    (hfresh : s.draftSeq = none → draftId = w.nextSeq.toNat) (budget : Nat) :
    Drafts rt law draftId [draftId] s (rt.draft params budget s w).2.1 w
      (rt.draft params budget s w).2.2 := by
  have hsame : Drafts rt law draftId [draftId] s s w w :=
    ⟨hheld, OnlyThose.refl _ _, rfl, Or.inl rfl, Or.inl⟩
  unfold draft
  split
  · next drafter kv hdrafter =>
    split
    · -- the sequence, begun on first use
      have hseq : rt.DraftHeld law draftId (draftSeqOf kv s w).1 (draftSeqOf kv s w).2.storage ∧
          (draftSeqOf kv s w).2.storage = w.storage ∧
          (draftSeqOf kv s w).2.promptCache = w.promptCache ∧
          ((draftSeqOf kv s w).2.nextSeq = w.nextSeq ∧ s.draftSeq ≠ none ∨
            s.draftSeq = none ∧ (draftSeqOf kv s w).2.nextSeq = w.nextSeq + 1) := by
        unfold draftSeqOf
        cases hds : s.draftSeq with
        | some ds => exact ⟨hheld ds hds, rfl, rfl, Or.inl ⟨rfl, by simp⟩⟩
        | none =>
          simp only [freshSeqId]
          refine ⟨?_, trivial, trivial, Or.inr ⟨trivial, trivial⟩⟩
          rw [hfresh hds]
          exact hd.new hdrafter _ _
      generalize draftSeqOf kv s w = begun at hseq
      obtain ⟨seq, w₁⟩ := begun
      obtain ⟨hseq, hst, hcache, hnext⟩ := hseq
      obtain ⟨hheld', hown⟩ := proposeWithModel_held rt.num params
        ((hd drafter kv hdrafter).2 draftId) (min budget (rt.room params s)) s.context seq s.rng
        w₁.storage hseq
      simp only
      generalize proposeWithModel rt.num drafter params (min budget (rt.room params s)) s.context
        seq s.rng w₁.storage = out at hheld' hown
      obtain ⟨res, seq, rng, st⟩ := out
      have hdrafts : Drafts rt law draftId [draftId] s
          { s with draftSeq := some seq, rng := rng } w { w₁ with storage := st } := by
        refine ⟨?_, hst ▸ hown, hcache, ?_, fun _ => ?_⟩
        · intro ds hds
          rw [← Option.some.inj hds]
          exact hheld'
        · exact hnext.imp And.left id
        · exact hnext.imp And.right And.right
      cases res with
      | error e => exact hdrafts
      | ok guesses => exact hdrafts
    · exact hsame
  · exact hsame

omit [Weight K] in
/-- The draft model's sequence is cut back, or started over. -/
theorem settleDraft_drafts {w : World σ κ}
    (hheld : ∀ ds, s.draftSeq = some ds → rt.DraftHeld law draftId ds w.storage)
    (round : Round σ Γ) :
    (∀ ds, (settleDraft round s w).1.draftSeq = some ds →
        rt.DraftHeld law draftId ds (settleDraft round s w).2.storage) ∧
      OnlySequence law draftId w.storage (settleDraft round s w).2.storage ∧
      (settleDraft round s w).2 = { w with storage := (settleDraft round s w).2.storage } ∧
      (s.draftSeq = none → (settleDraft round s w).1.draftSeq = none) := by
  unfold settleDraft
  cases hds : s.draftSeq with
  | none => exact ⟨fun ds h => absurd h (by simp [hds]), OnlySequence.refl _ _, rfl, fun _ => hds⟩
  | some ds =>
    obtain ⟨hcut, hown⟩ := (hheld ds hds).truncate
      (round.base + min (round.out.length - 1) round.draft.length)
    simp only
    generalize ds.truncate (round.base + min (round.out.length - 1) round.draft.length) w.storage
      = out at hcut hown
    obtain ⟨res, ds', st⟩ := out
    cases res with
    | ok _ =>
      refine ⟨fun ds'' h => ?_, hown, rfl, fun h => by cases h⟩
      rw [← Option.some.inj h]
      exact hcut
    | error e =>
      refine ⟨?_, fun q hq => (hcut.drop_own q hq).trans (hown q hq), rfl, fun _ => rfl⟩
      intro ds'' h
      cases h

/-! ## The round -/

omit [Weight K] in
/-- The pass over the guesses. -/
theorem InStep.pass (hb : rt.backend.Conforms m law) (hon : rt.backend.speculationSupported = true)
    (h : rt.InStep law m params main s st) (hrunning : s.finished = false) (guesses : List Token) :
    (∃ vs, Layers law main
        (rt.backend.logitsMulti (s.context ++ guesses) s.seq (guesses.length + 1) st).2 vs) ∧
      OnlySequence law main st
        (rt.backend.logitsMulti (s.context ++ guesses) s.seq (guesses.length + 1) st).2.2 ∧
      ∀ answers, (rt.backend.logitsMulti (s.context ++ guesses) s.seq (guesses.length + 1) st).1
          = .ok answers → answers.length = guesses.length + 1 ∧ Stands law m main
        (rt.backend.logitsMulti (s.context ++ guesses) s.seq (guesses.length + 1) st).2
        (s.context ++ guesses) := by
  obtain ⟨feed, hfeed⟩ : ∃ feed : Feed σ, feed = { feedOf main s with
      new := (feedOf main s).new ++ guesses } := ⟨_, rfl⟩
  have hcontext : feed.context = s.context ++ guesses := by
    rw [hfeed, Feed.context, ← List.append_assoc]
    exact congrArg (· ++ guesses) (feedOf_context main s)
  have hnew : feed.new.length = guesses.length + 1 := by
    rw [hfeed, List.length_append, length_feedOf_new main h.bounded.nonempty, Nat.add_comm]
  have hseq : feed.seq = s.seq ∧ feed.seqId = main ∧ feed.seen = s.context.dropLast := by
    rw [hfeed]
    exact ⟨rfl, rfl, rfl⟩
  obtain ⟨⟨k, _, hall, hstands⟩, hown, hanswers⟩ := hb.logitsMulti feed (guesses.length + 1) st hon
    (by rw [hseq.1, hseq.2.1, hseq.2.2]; exact h.stands hrunning) (Nat.succ_pos _)
    (Nat.le_of_eq hnew.symm)
  have hwhole : feed.seen ++ feed.new = s.context ++ guesses := hcontext
  rw [hcontext, hseq.1] at hall hstands hown hanswers
  rw [hseq.2.1] at hstands hown
  refine ⟨⟨_, hstands.layers⟩, hown, fun answers hok => ⟨?_, ?_⟩⟩
  · rw [hanswers answers hok, List.length_map, List.length_range]
  · rw [hall ⟨answers, hok⟩, List.take_length, hwhole] at hstands
    exact hstands

variable (rt law m params main) in
/-- A round that has come as far as the rollback: the cache holds the whole draft, the session has
taken over the front of it. -/
structure RoundReady (base : List Token) (round : Round σ Γ) (st : σ) : Prop where
  bounded : rt.Bounded params round.session
  stands : Stands law m main (round.session.seq, st) (base ++ round.draft)
  kept : ∃ k, k ≤ round.draft.length ∧
    ((∃ t, round.session.context = base ++ round.draft.take k ++ [t]) ∨
      (round.stop ≠ none ∧ round.session.context = base ++ round.draft.take k))

omit [Weight K] in
/-- A rollback that is accepted leaves the tokens before the last one produced. -/
theorem RoundReady.rollback {base : List Token} {round : Round σ Γ}
    (h : rt.RoundReady law m params main base round st)
    (hok : (round.session.seq.truncate (keepOf round) st).1 = .ok ())
    (hstop : round.stop = none) :
    Stands law m main (round.session.seq.truncate (keepOf round) st).2
      round.session.context.dropLast := by
  obtain ⟨k, hk, ⟨t, hcontext⟩ | ⟨hne, _⟩⟩ := h.kept
  · have hkeep : keepOf round = base.length + k := by
      rw [keepOf, hcontext, List.length_append, List.length_append, List.length_take,
        List.length_singleton]
      omega
    have hcut := h.stands.truncate (by rw [hkeep, List.length_append]; omega) hok
    rw [hkeep, List.take_append, List.take_of_length_le (by omega), Nat.add_sub_cancel_left,
      ← hkeep] at hcut
    rw [hcontext, List.dropLast_concat]
    exact hcut
  · exact absurd hstop hne

omit [Weight K] in
/-- **The rollback.** -/
theorem RoundReady.settle {base : List Token} {round : Round σ Γ} {w : World σ κ}
    (h : rt.RoundReady law m params main base round w.storage)
    (hheld : ∀ ds, round.session.draftSeq = some ds → rt.DraftHeld law draftId ds w.storage)
    (hne : main ≠ draftId) :
    rt.InStep law m params main (rt.settle round w).2.1 (rt.settle round w).2.2.storage ∧
      (∀ ds, (rt.settle round w).2.1.draftSeq = some ds →
        rt.DraftHeld law draftId ds (rt.settle round w).2.2.storage) ∧
      OnlyThose law [main, draftId] w.storage (rt.settle round w).2.2.storage ∧
      (rt.settle round w).2.2 = { w with storage := (rt.settle round w).2.2.storage } ∧
      (round.session.draftSeq = none → (rt.settle round w).2.1.draftSeq = none) := by
  obtain ⟨hcut, hown⟩ := h.stands.layers.anyCut (keepOf round)
  have hrollback : (round.session.seq.truncate (keepOf round) w.storage).1 = .ok () → round.stop = none →
      Stands law m main (round.session.seq.truncate (keepOf round) w.storage).2
        round.session.context.dropLast := h.rollback
  obtain ⟨gain, hscore⟩ := rt.score_session round
  unfold InferenceRuntime.settle
  simp only [hscore]
  generalize round.session.seq.truncate (keepOf round) w.storage = out at hcut hown hrollback
  obtain ⟨res, seq, st⟩ := out
  replace hown : OnlyThose law [main] w.storage st := hown.those (List.mem_singleton_self main)
  have hheld' : ∀ ds, round.session.draftSeq = some ds → rt.DraftHeld law draftId ds st :=
    fun ds hds => (hheld ds hds).apart hown (by simpa using hne.symm)
  have hsub : [main] ⊆ [main, draftId] := by simp
  have hbounded : ∀ s' : Session σ Γ, s'.context = round.session.context →
      s'.promptLen = round.session.promptLen → rt.Bounded params s' := by
    intro s' hc hp
    exact h.bounded.extend [] (by rw [hc, List.append_nil]) hp h.bounded.generated h.bounded.room
  cases res with
  | error e =>
    refine ⟨?_, hheld', hown.mono hsub, rfl, id⟩
    exact (hbounded { round.session with specGain := gain, seq := seq } rfl rfl).finish ⟨_, hcut⟩
  | ok _ =>
    obtain ⟨hdraft, hdown, hworld, hnone⟩ := settleDraft_drafts
      (s := { round.session with specGain := gain, seq := seq }) (w := { w with storage := st })
      hheld' round
    obtain ⟨ds, hsession⟩ := settleDraft_session round
      { round.session with specGain := gain, seq := seq } { w with storage := st }
    simp only
    generalize settleDraft round { round.session with specGain := gain, seq := seq }
      { w with storage := st } = settled at hdraft hdown hworld hnone hsession
    obtain ⟨s', w'⟩ := settled
    replace hdown : OnlyThose law [draftId] st w'.storage :=
      SeqState.OnlySequence.those hdown (List.mem_singleton_self draftId)
    have hboth : OnlyThose law [main, draftId] w.storage w'.storage :=
      (hown.mono hsub).trans (hdown.mono (by simp))
    have hlayers := (hcut.apart hdown (by simpa using hne))
    obtain rfl : s' = { round.session with specGain := gain, seq := seq, draftSeq := ds } := hsession
    have hworld' : w' = { w with storage := w'.storage } := hworld
    cases hstop : round.stop with
    | some reason =>
      refine ⟨?_, hdraft, hboth, hworld', hnone⟩
      exact (hbounded { round.session with specGain := gain, seq := seq, draftSeq := ds } rfl
        rfl).finish ⟨_, hlayers⟩
    | none =>
      refine ⟨⟨hbounded _ rfl rfl, ⟨_, hlayers⟩, fun _ => ?_⟩, hdraft, hboth, hworld', hnone⟩
      exact (hrollback rfl hstop).apart hdown (by simpa using hne)

/-- Everything up to the rollback: the session is finished, or the round is ready. -/
theorem verify_ready (hb : rt.backend.Conforms m law)
    (hon : rt.backend.speculationSupported = true) {w : World σ κ}
    (h : rt.InStep law m params main s w.storage) (hspent : rt.spent params s = none)
    {guesses : List Token} (hroom : guesses.length ≤ rt.room params s)
    (dists : List (List (Token × K))) (out : List Token) :
    OnlySequence law main w.storage (rt.verify params guesses dists s out w).2.2.storage ∧
      (rt.verify params guesses dists s out w).2.2
        = { w with storage := (rt.verify params guesses dists s out w).2.2.storage } ∧
      (∀ reason, (rt.verify params guesses dists s out w).1 = .error reason →
        rt.InStep law m params main (rt.verify params guesses dists s out w).2.1
            (rt.verify params guesses dists s out w).2.2.storage ∧
          (rt.verify params guesses dists s out w).2.1.draftSeq = s.draftSeq) ∧
      ∀ round, (rt.verify params guesses dists s out w).1 = .ok round →
        rt.RoundReady law m params main s.context round
            (rt.verify params guesses dists s out w).2.2.storage ∧
          round.session.draftSeq = s.draftSeq := by
  obtain ⟨hrunning, hgen, hwindow⟩ := of_spent_none hspent
  obtain ⟨hheld, hown, hanswers⟩ := h.pass hb hon hrunning guesses
  unfold verify
  generalize rt.backend.logitsMulti (s.context ++ guesses) s.seq (guesses.length + 1) w.storage
    = pass at hheld hown hanswers
  obtain ⟨res, seq, st⟩ := pass
  cases res with
  | error e =>
    refine ⟨hown, rfl, fun reason _ => ⟨?_, rfl⟩, fun round hround => by cases hround⟩
    exact (show rt.Bounded params { s with seq := seq } from
      ⟨h.bounded.nonempty, h.bounded.prompt, h.bounded.generated, h.bounded.room⟩).finish hheld
  | ok answers =>
    obtain ⟨hlen, hstands⟩ := hanswers answers rfl
    have hkept : Kept s.context guesses { s with seq := seq }
        (rt.judge params guesses dists 0 answers { s with seq := seq } out).1
        (rt.judge params guesses dists 0 answers { s with seq := seq } out).2.2 :=
      judge_kept dists answers 0 { s with seq := seq } out (by omega) (Nat.zero_le _) (by simp)
    simp only
    generalize rt.judge params guesses dists 0 answers { s with seq := seq } out = judged at hkept
    obtain ⟨s', out', stop⟩ := judged
    obtain ⟨⟨rng, context, rfl⟩, k, hk, hcontext⟩ := hkept
    refine ⟨hown, trivial, ?_, fun round hround => ?_⟩
    · intro reason hreason
      cases hreason
    rw [← Except.ok.inj hround]
    refine ⟨⟨?_, hstands, k, hk, hcontext⟩, rfl⟩
    unfold room at hroom
    -- the guesses and the token after them fit
    have hlen : (guesses.take k).length + 1 ≤ params.maxTokens - s.generated ∧
        (guesses.take k).length + 1 ≤ rt.maxContext - s.context.length := by
      rw [List.length_take]
      omega
    rcases hcontext with ⟨t, hcontext⟩ | ⟨_, hcontext⟩
    · refine h.bounded.extend (guesses.take k ++ [t]) (hcontext.trans (List.append_assoc ..)) rfl ?_ ?_
      · rw [List.length_append, List.length_singleton]
        omega
      · rw [List.length_append, List.length_singleton]
        omega
    · refine h.bounded.extend (guesses.take k) hcontext rfl ?_ ?_
      · omega
      · omega

theorem nextTokensSpeculative_finished (h : s.finished = true) (lookahead : Nat) (out : List Token)
    (w : World σ κ) :
    rt.nextTokensSpeculative params lookahead s out w = (.error .length, out, s, w) := by
  unfold nextTokensSpeculative
  rw [nextToken_finished h, spent_of_finished h, finish_of_finished h]
  split
  · rfl
  · rfl

/-- **A call that may speculate**, however it ends. -/
theorem nextTokensSpeculative_inStep (hb : rt.backend.Conforms m law) (hd : rt.DraftsApart law)
    {w : World σ κ} (h : rt.InStep law m params main s w.storage)
    (hheld : ∀ ds, s.draftSeq = some ds → rt.DraftHeld law draftId ds w.storage)
    (hfresh : s.draftSeq = none → draftId = w.nextSeq.toNat) (hne : main ≠ draftId)
    (lookahead : Nat) (out : List Token) :
    rt.InStep law m params main (rt.nextTokensSpeculative params lookahead s out w).2.2.1
        (rt.nextTokensSpeculative params lookahead s out w).2.2.2.storage ∧
      Drafts rt law draftId [main, draftId] s (rt.nextTokensSpeculative params lookahead s out w).2.2.1
        w (rt.nextTokensSpeculative params lookahead s out w).2.2.2 := by
  unfold nextTokensSpeculative
  split
  · obtain ⟨hleaves, hown, hworld⟩ := nextToken_inStep hb h
    have hdrafts : Drafts rt law draftId [main, draftId] s (rt.nextToken params s w).2.1 w
        (rt.nextToken params s w).2.2 := by
      refine ⟨fun ds hds => ?_, hown.those List.mem_cons_self, by rw [hworld], Or.inl (by rw [hworld]),
        fun hsome => Or.inl (hleaves.draftSeq ▸ hsome)⟩
      rw [hleaves.draftSeq] at hds
      exact (hheld ds hds).apart (hown.those (List.mem_singleton_self main)) (by simpa using hne.symm)
    generalize rt.nextToken params s w = stepped at hleaves hdrafts
    obtain ⟨res, s', w'⟩ := stepped
    cases res with
    | ok t => exact ⟨hleaves.inStep, hdrafts⟩
    | error reason => exact ⟨hleaves.inStep, hdrafts⟩
  next hon =>
  cases hspent : rt.spent params s with
  | some reason =>
    exact ⟨h.bounded.finish h.held, ⟨hheld, OnlyThose.refl _ _, rfl, Or.inl rfl, Or.inl⟩⟩
  | none =>
    have hon : rt.backend.speculationSupported = true := by
      rw [not_or, not_not] at hon
      exact hon.2
    rw [rt.speculate_eq]
    simp only
    obtain ⟨idle, hbudget⟩ := rt.budget_session lookahead s
    generalize rt.budget lookahead s = b at hbudget
    obtain ⟨budget, s₀⟩ := b
    obtain rfl : s₀ = { s with specIdle := idle } := hbudget
    -- the guesses
    have hdraft := draft_drafts params hd (s := { s with specIdle := idle }) hheld hfresh budget
    have hroom := rt.draft_length params budget { s with specIdle := idle } w
    obtain ⟨ds, rng, hdrafted⟩ := rt.draft_session params budget { s with specIdle := idle } w
    generalize rt.draft params budget { s with specIdle := idle } w = drafted at hdraft hroom hdrafted
    obtain ⟨⟨guesses, dists⟩, s₁, w₁⟩ := drafted
    obtain rfl : s₁ = { s with specIdle := idle, draftSeq := ds, rng := rng } := hdrafted
    have hin : rt.InStep law m params main
        { s with specIdle := idle, draftSeq := ds, rng := rng } w₁.storage := by
      have h' := h.elsewhere hdraft.own (by simpa using hne)
      exact ⟨⟨h'.bounded.nonempty, h'.bounded.prompt, h'.bounded.generated, h'.bounded.room⟩,
        h'.held, h'.stands⟩
    -- the verdicts
    obtain ⟨hown₂, hworld₂, hended, hready⟩ := verify_ready hb hon hin hspent hroom dists out
    simp only
    generalize rt.verify params guesses dists
      { s with specIdle := idle, draftSeq := ds, rng := rng } out w₁ = verified
      at hown₂ hworld₂ hended hready
    obtain ⟨res, s₂, w₂⟩ := verified
    replace hown₂ : OnlyThose law [main] w₁.storage w₂.storage :=
      SeqState.OnlySequence.those hown₂ (List.mem_singleton_self main)
    have hboth : OnlyThose law [main, draftId] w.storage w₂.storage :=
      (hdraft.own.mono (by simp)).trans (hown₂.mono (by simp))
    have hheld₂ : ∀ seq, ds = some seq → rt.DraftHeld law draftId seq w₂.storage := fun seq hseq =>
      (hdraft.held seq hseq).apart hown₂ (by simpa using hne.symm)
    replace hworld₂ : w₂ = { w₁ with storage := w₂.storage } := hworld₂
    have hcache : w₂.promptCache = w.promptCache := by
      rw [hworld₂]
      exact hdraft.promptCache
    have hnext : w₂.nextSeq = w₁.nextSeq := by rw [hworld₂]
    cases res with
    | error reason =>
      obtain ⟨hin₂, hds⟩ := hended reason rfl
      refine ⟨hin₂, ⟨fun seq hseq => hheld₂ seq (hds.symm.trans hseq), hboth, hcache, ?_, ?_⟩⟩
      · exact hnext ▸ hdraft.nextSeq
      · exact fun hsome => hnext ▸ hdraft.begun fun hnone => hsome (hds.trans hnone)
    | ok round =>
      obtain ⟨hround, hds⟩ := hready round rfl
      obtain ⟨hin₃, hheld₃, hown₃, hworld₃, hnone⟩ :=
        hround.settle (fun seq hseq => hheld₂ seq (hds.symm.trans hseq)) hne
      simp only
      generalize rt.settle round w₂ = settled at hin₃ hheld₃ hown₃ hworld₃ hnone
      obtain ⟨res, s₃, w₃⟩ := settled
      replace hworld₃ : w₃ = { w₂ with storage := w₃.storage } := hworld₃
      have hnext₃ : w₃.nextSeq = w₁.nextSeq := by rw [hworld₃, ← hnext]
      refine ⟨hin₃, ⟨hheld₃, hboth.trans hown₃, ?_, ?_, ?_⟩⟩
      · rw [hworld₃]
        exact hcache
      · exact hnext₃ ▸ hdraft.nextSeq
      · refine fun hsome => hnext₃ ▸ hdraft.begun fun hds' => hsome (hnone ?_)
        exact hds.trans hds'

end

end InferenceRuntime

end Garuda
