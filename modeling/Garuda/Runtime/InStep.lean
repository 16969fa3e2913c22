import Garuda.Runtime.Stands
import Garuda.Runtime.Speculative
import Garuda.Runtime.Batch

/-!
# Session and cache in step

Between calls the caches of an unfinished session hold all of its context but the last token,
whichever of the three ways of decoding was used, and whether calls succeeded or failed.

* `InferenceRuntime.InStep` — the invariant of a session
* `nextToken_inStep`, `nextTokensSpeculative_inStep`, `nextTokenBatch_inStep` — each call keeps it
-/

namespace Garuda

open Infra SeqState

variable {σ κ K Γ : Type}

namespace InferenceRuntime

section

variable (rt : InferenceRuntime σ κ K Γ) {law : ReadsBack rt.kvTemplate.storage}
variable {m : TokenModel K} {params : SamplingParams K} {seqId : Nat} {s : Session σ Γ} {st : σ}

/-- The bounds on what a session has produced. -/
structure Bounded (params : SamplingParams K) (s : Session σ Γ) : Prop where
  nonempty : s.context ≠ []
  prompt : s.promptLen ≤ s.context.length
  generated : s.generated ≤ params.maxTokens
  room : s.context.length ≤ rt.maxContext

variable (law m params seqId) in
/-- A session between calls: until it is finished, its caches hold all of its context but the last
token. -/
structure InStep (s : Session σ Γ) (st : σ) : Prop where
  bounded : rt.Bounded params s
  held : ∃ vs, Layers law seqId (s.seq, st) vs
  stands : s.finished = false → Stands law m seqId (s.seq, st) s.context.dropLast

variable (law m params seqId) in
/-- A session in the middle of a call, with a token to produce: its last token may have gone in
already. -/
structure Ready (s : Session σ Γ) (st : σ) : Prop where
  bounded : rt.Bounded params s
  spent : rt.spent params s = none
  stands : Stands law m seqId (s.seq, st) s.context.dropLast ∨
    Stands law m seqId (s.seq, st) s.context

variable {rt}

theorem InStep.elsewhere (h : rt.InStep law m params seqId s st) {st' : σ} {ids : List Nat}
    (honly : OnlyThose law ids st st') (hid : seqId ∉ ids) :
    rt.InStep law m params seqId s st' := by
  obtain ⟨vs, hvs⟩ := h.held
  exact ⟨h.bounded, ⟨vs, hvs.apart honly hid⟩, fun hf => (h.stands hf).apart honly hid⟩

theorem Ready.elsewhere (h : rt.Ready law m params seqId s st) {st' : σ} {ids : List Nat}
    (honly : OnlyThose law ids st st') (hid : seqId ∉ ids) :
    rt.Ready law m params seqId s st' :=
  ⟨h.bounded, h.spent, h.stands.imp (fun h => h.apart honly hid) fun h => h.apart honly hid⟩

theorem Ready.held (h : rt.Ready law m params seqId s st) :
    ∃ vs, Layers law seqId (s.seq, st) vs := by
  rcases h.stands with h | h
  · exact ⟨_, h.layers⟩
  · exact ⟨_, h.layers⟩

/-- What a session with a token to produce has room for. -/
theorem of_spent_none (h : rt.spent params s = none) :
    s.finished = false ∧ s.generated < params.maxTokens ∧ s.context.length < rt.maxContext := by
  unfold spent at h
  split at h
  · cases h
  split at h
  · cases h
  split at h
  · cases h
  next hf hg hc => exact ⟨by simpa using hf, Nat.lt_of_not_le hg, Nat.lt_of_not_le hc⟩

/-- A finished session has no further step to take. -/
theorem spent_of_finished (h : s.finished = true) : rt.spent params s = some .length := by
  unfold spent
  rw [if_pos h]

theorem finish_of_finished (h : s.finished = true) : s.finish = s := by
  obtain ⟨_, _, _, _, _, _, _, _⟩ := s
  simp only at h
  subst h
  rfl

/-- Finishing is always in step. -/
theorem Bounded.finish (h : rt.Bounded params s)
    (hheld : ∃ vs, Layers law seqId (s.seq, st) vs) :
    rt.InStep law m params seqId s.finish st where
  bounded := ⟨h.nonempty, h.prompt, h.generated, h.room⟩
  held := hheld
  stands := fun hf => absurd hf (by simp [Session.finish])

/-- The bounds after `n` more tokens, when there was room for them. -/
theorem Bounded.extend (h : rt.Bounded params s) {s' : Session σ Γ} (more : List Token)
    (hcontext : s'.context = s.context ++ more) (hprompt : s'.promptLen = s.promptLen)
    (hgen : s.generated + more.length ≤ params.maxTokens)
    (hroom : s.context.length + more.length ≤ rt.maxContext) : rt.Bounded params s' := by
  have hp := h.prompt
  unfold Session.generated at hgen
  have hlen : s'.context.length = s.context.length + more.length := by
    rw [hcontext, List.length_append]
  refine ⟨?_, ?_, ?_, ?_⟩
  · rw [hcontext]
    exact fun hnil => h.nonempty (List.append_eq_nil_iff.mp hnil).1
  · rw [hprompt, hlen]
    omega
  · unfold Session.generated
    rw [hprompt, hlen]
    omega
  · rw [hlen]
    exact hroom

/-- A token is pushed once everything before it has gone in. -/
theorem Bounded.push (h : rt.Bounded params s) (hspent : rt.spent params s = none)
    (hstands : Stands law m seqId (s.seq, st) s.context) (rng : Rng) (t : Token) :
    rt.InStep law m params seqId ({ s with rng := rng }.push t) st where
  bounded := by
    obtain ⟨_, hgen, hroom⟩ := of_spent_none hspent
    refine h.extend [t] rfl rfl ?_ ?_
    · rw [List.length_singleton]
      omega
    · rw [List.length_singleton]
      omega
  held := ⟨_, hstands.layers⟩
  stands := fun _ => by
    show Stands law m seqId (s.seq, st) (s.context ++ [t]).dropLast
    rw [List.dropLast_concat]
    exact hstands

end

/-! ## One token -/

section

variable [Weight K] {rt : InferenceRuntime σ κ K Γ} {law : ReadsBack rt.kvTemplate.storage}
variable {m : TokenModel K} {params : SamplingParams K} {seqId : Nat} {s : Session σ Γ} {st : σ}

/-- What is still to go in of a session's context. -/
def feedOf (seqId : Nat) (s : Session σ Γ) : Feed σ where
  seqId := seqId
  seq := s.seq
  seen := s.context.dropLast
  new := s.context.drop (s.context.length - 1)

omit [Weight K] in
theorem feedOf_context (seqId : Nat) (s : Session σ Γ) : (feedOf seqId s).context = s.context := by
  rw [Feed.context, feedOf, List.dropLast_eq_take]
  exact List.take_append_drop ..

omit [Weight K] in
theorem length_feedOf_new (seqId : Nat) (hne : s.context ≠ []) :
    (feedOf seqId s).new.length = 1 := by
  have := List.length_pos_iff.mpr hne
  simp only [feedOf, List.length_drop]
  omega

omit [Weight K] in
/-- A session that was to be fed its last token has been fed it or not. -/
theorem took_feedOf (hne : s.context ≠ []) {succeeded : Prop} {seq : SeqState σ}
    (h : (feedOf seqId s).Took law m succeeded (seq, st)) :
    (Stands law m seqId (seq, st) s.context.dropLast ∨ Stands law m seqId (seq, st) s.context) ∧
      (succeeded → Stands law m seqId (seq, st) s.context) := by
  obtain ⟨k, hk, hall, hstands⟩ := h
  have hone := length_feedOf_new (s := s) seqId hne
  have hwhole : k = 1 → Stands law m seqId (seq, st) s.context := by
    rintro rfl
    rw [List.take_of_length_le (Nat.le_of_eq hone)] at hstands
    exact feedOf_context seqId s ▸ hstands
  refine ⟨?_, fun hs => hwhole (by rw [hall hs, hone])⟩
  rcases Nat.eq_zero_or_pos k with rfl | hpos
  · rw [List.take_zero, List.append_nil] at hstands
    exact Or.inl hstands
  · exact Or.inr (hwhole (by omega))

omit [Weight K] in
/-- The pass of a single step. A sequence that has seen its last token already is refused. -/
theorem Ready.logits (hb : rt.backend.Conforms m law) (h : rt.Ready law m params seqId s st) :
    (∃ vs, Layers law seqId (rt.backend.logits s.context s.seq st).2 vs) ∧
      OnlySequence law seqId st (rt.backend.logits s.context s.seq st).2.2 ∧
      ∀ v, (rt.backend.logits s.context s.seq st).1 = .ok v →
        Stands law m seqId (s.seq, st) s.context.dropLast ∧ v = m.logits s.context ∧
          Stands law m seqId (rt.backend.logits s.context s.seq st).2 s.context := by
  rcases h.stands with hstands | hstands
  · obtain ⟨htook, hown, hvalue⟩ := hb.logits (feedOf seqId s) st hstands
    rw [feedOf_context] at htook hown hvalue
    obtain ⟨hsome, hall⟩ := took_feedOf h.bounded.nonempty htook
    refine ⟨?_, hown, fun v hv => ⟨hstands, (hvalue v hv).2, hall ⟨v, hv⟩⟩⟩
    rcases hsome with hs | hs
    · exact ⟨_, hs.layers⟩
    · exact ⟨_, hs.layers⟩
  · obtain ⟨⟨k, _, _, hs⟩, hown, hvalue⟩ :=
      hb.logits ⟨seqId, s.seq, s.context, []⟩ st hstands
    rw [Feed.context, List.append_nil] at hs hown hvalue
    exact ⟨⟨_, hs.layers⟩, hown, fun v hv => absurd rfl (hvalue v hv).1⟩

/-- What a step of one token leaves: the session in step, and everything else as it was. -/
structure Leaves (rt : InferenceRuntime σ κ K Γ) (law : ReadsBack rt.kvTemplate.storage)
    (m : TokenModel K) (params : SamplingParams K) (seqId : Nat) (s s' : Session σ Γ) (st : σ) :
    Prop where
  inStep : rt.InStep law m params seqId s' st
  draftSeq : s'.draftSeq = s.draftSeq
  finished : s.finished = true → s'.finished = true ∧ s'.context = s.context

/-- **A step from a session that is ready.** -/
theorem Ready.nextToken (hb : rt.backend.Conforms m law) {w : World σ κ}
    (h : rt.Ready law m params seqId s w.storage) :
    Leaves rt law m params seqId s (rt.nextToken params s w).2.1
        (rt.nextToken params s w).2.2.storage ∧
      OnlySequence law seqId w.storage (rt.nextToken params s w).2.2.storage ∧
      (rt.nextToken params s w).2.2
        = { w with storage := (rt.nextToken params s w).2.2.storage } := by
  obtain ⟨hheld, hown, hvalue⟩ := h.logits hb
  have hrunning : s.finished = false := (of_spent_none h.spent).1
  unfold InferenceRuntime.nextToken
  simp only [h.spent]
  generalize rt.backend.logits s.context s.seq w.storage = out at hheld hown hvalue
  obtain ⟨res, seq, st⟩ := out
  have hbounded : ∀ s' : Session σ Γ, s'.context = s.context → s'.promptLen = s.promptLen →
      rt.Bounded params s' := by
    intro s' hc hp
    exact h.bounded.extend [] (by rw [hc, List.append_nil]) hp
      h.bounded.generated h.bounded.room
  cases res with
  | error e =>
    refine ⟨⟨?_, rfl, fun hf => absurd hf (by simp [hrunning])⟩, hown, rfl⟩
    exact (hbounded { s with seq := seq } rfl rfl).finish hheld
  | ok logits =>
    obtain ⟨_, rfl, hstands⟩ := hvalue logits rfl
    have hne : m.logits s.context ≠ [] := by
      rw [← List.length_pos_iff, m.logits_length]
      exact m.vocab_pos
    obtain ⟨t, ht⟩ := sample_ok rt.num hne params s.rng
    simp only
    generalize sample rt.num (m.logits s.context) params s.rng = sampled at ht
    obtain ⟨res, rng⟩ := sampled
    subst ht
    have hpushed : rt.InStep law m params seqId ({ s with seq := seq, rng := rng }.push t) st :=
      (hbounded { s with seq := seq } rfl rfl).push h.spent hstands rng t
    simp only
    split
    · refine ⟨⟨?_, rfl, fun hf => absurd hf (by simp [hrunning])⟩, hown, rfl⟩
      exact hpushed.bounded.finish hpushed.held
    · exact ⟨⟨hpushed, rfl, fun hf => absurd hf (by simp [hrunning])⟩, hown, rfl⟩

theorem nextToken_finished (h : s.finished = true) (w : World σ κ) :
    rt.nextToken params s w = (.error .length, s, w) := by
  unfold InferenceRuntime.nextToken
  rw [spent_of_finished h, finish_of_finished h]

omit [Weight K] in
theorem InStep.ready (h : rt.InStep law m params seqId s st) (hspent : rt.spent params s = none) :
    rt.Ready law m params seqId s st :=
  ⟨h.bounded, hspent, Or.inl (h.stands (of_spent_none hspent).1)⟩

/-- **One token.** -/
theorem nextToken_inStep (hb : rt.backend.Conforms m law) {w : World σ κ}
    (h : rt.InStep law m params seqId s w.storage) :
    Leaves rt law m params seqId s (rt.nextToken params s w).2.1
        (rt.nextToken params s w).2.2.storage ∧
      OnlySequence law seqId w.storage (rt.nextToken params s w).2.2.storage ∧
      (rt.nextToken params s w).2.2
        = { w with storage := (rt.nextToken params s w).2.2.storage } := by
  cases hspent : rt.spent params s with
  | none => exact (h.ready hspent).nextToken hb
  | some reason =>
    unfold InferenceRuntime.nextToken
    simp only [hspent]
    exact ⟨⟨h.bounded.finish h.held, rfl, fun _ => ⟨rfl, rfl⟩⟩, OnlySequence.refl _ _, trivial⟩

/-! ## Several sessions -/

variable (rt law m) in
/-- A lane between the batched pass and what follows it: stopped, or ready for a token. -/
structure LaneReady (seqId : Nat) (l : Lane σ K Γ) (st : σ) : Prop where
  stopped : l.stopped ≠ none →
    rt.InStep law m l.params seqId l.session st ∧ l.session.finished = true
  running : l.stopped = none → rt.Ready law m l.params seqId l.session st

omit [Weight K] in
theorem LaneReady.elsewhere {l : Lane σ K Γ} (h : LaneReady rt law m seqId l st) {st' : σ}
    {ids : List Nat} (honly : OnlyThose law ids st st') (hid : seqId ∉ ids) :
    LaneReady rt law m seqId l st' where
  stopped hs := ⟨(h.stopped hs).1.elsewhere honly hid, (h.stopped hs).2⟩
  running hr := (h.running hr).elsewhere honly hid

omit [Weight K] in
/-- The lane of a session in step. -/
theorem InStep.lane (h : rt.InStep law m params seqId s st) :
    LaneReady rt law m seqId (rt.lane (s, params)) st ∧
      ((rt.lane (s, params)).stopped = none → Stands law m seqId
        ((rt.lane (s, params)).session.seq, st) (rt.lane (s, params)).session.context.dropLast) ∧
      (rt.lane (s, params)).params = params := by
  unfold InferenceRuntime.lane
  cases hspent : rt.spent params s with
  | none =>
    exact ⟨⟨fun hs => absurd rfl hs, fun _ => h.ready hspent⟩,
      fun _ => h.stands (of_spent_none hspent).1, rfl⟩
  | some reason =>
    refine ⟨⟨fun _ => ⟨h.bounded.finish h.held, rfl⟩, fun hr => ?_⟩, fun hr => ?_, rfl⟩
    · cases hr
    · cases hr

/-- Step each live lane alone. -/
theorem stepAlone_leaves (hb : rt.backend.Conforms m law) :
    ∀ (lanes : List (Nat × Lane σ K Γ)) (w : World σ κ), (lanes.map Prod.fst).Nodup →
      (∀ l ∈ lanes, LaneReady rt law m l.1 l.2 w.storage) →
      List.Forall₂ (fun (l : Nat × Lane σ K Γ) (out : Stepped σ Γ) =>
          Leaves rt law m l.2.params l.1 l.2.session out.2
            (rt.stepAlone (lanes.map Prod.snd) w).2.storage)
        lanes (rt.stepAlone (lanes.map Prod.snd) w).1 ∧
      OnlyThose law (lanes.map Prod.fst) w.storage
        (rt.stepAlone (lanes.map Prod.snd) w).2.storage ∧
      (rt.stepAlone (lanes.map Prod.snd) w).2
        = { w with storage := (rt.stepAlone (lanes.map Prod.snd) w).2.storage } := by
  intro lanes
  induction lanes with
  | nil => exact fun w _ _ => ⟨.nil, OnlyThose.refl _ _, rfl⟩
  | cons l lanes ih =>
    intro w hnodup hready
    obtain ⟨id, l⟩ := l
    rw [List.map_cons, List.nodup_cons] at hnodup
    rw [List.forall_mem_cons] at hready
    obtain ⟨hl, hrest⟩ := hready
    have hlater : ∀ (w₁ : World σ κ) {w₂ : World σ κ} {s' : Session σ Γ},
        Leaves rt law m l.params id l.session s' w₁.storage →
        OnlyThose law (lanes.map Prod.fst) w₁.storage w₂.storage →
        Leaves rt law m l.params id l.session s' w₂.storage := fun _ _ _ h honly =>
      ⟨h.inStep.elsewhere honly hnodup.1, h.draftSeq, h.finished⟩
    rw [List.map_cons, stepAlone]
    cases hstopped : l.stopped with
    | some reason =>
      obtain ⟨hall, hown, hworld⟩ := ih w hnodup.2 hrest
      obtain ⟨hin, hfin⟩ := hl.stopped (by simp [hstopped])
      simp only
      refine ⟨.cons (hlater w ⟨hin, rfl, fun _ => ⟨hfin, rfl⟩⟩ hown) hall, ?_, hworld⟩
      exact hown.mono (List.subset_cons_self _ _)
    | none =>
      obtain ⟨hleaves, hown, hworld⟩ := (hl.running hstopped).nextToken hb
      simp only
      generalize rt.nextToken l.params l.session w = out at hleaves hown hworld
      obtain ⟨outcome, s', w₁⟩ := out
      replace hown : OnlySequence law id w.storage w₁.storage := hown
      have hothers : ∀ x ∈ lanes, LaneReady rt law m x.1 x.2 w₁.storage := by
        intro x hx
        refine (hrest x hx).elsewhere (hown.those (List.mem_singleton_self id)) ?_
        rw [List.mem_singleton]
        exact fun heq => hnodup.1 (List.mem_map.mpr ⟨x, hx, heq⟩)
      obtain ⟨hall, hown₁, hworld₁⟩ := ih w₁ hnodup.2 hothers
      refine ⟨.cons (hlater w₁ hleaves hown₁) hall, ?_, ?_⟩
      · refine (hown.those List.mem_cons_self).trans ?_
        exact hown₁.mono (List.subset_cons_self _ _)
      · simp only at hworld ⊢
        rw [hworld₁, hworld]

omit [Weight K] in
variable (σ K Γ) in
/-- The sequences of the live lanes. -/
def feedsOf (lanes : List (Nat × Lane σ K Γ)) : List (Feed σ) :=
  (lanes.filter fun l => l.2.stopped.isNone).map fun l => feedOf l.1 l.2.session

omit [Weight K] in
theorem feedsOf_seqId_sublist (lanes : List (Nat × Lane σ K Γ)) :
    ((feedsOf σ K Γ lanes).map Feed.seqId).Sublist (lanes.map Prod.fst) := by
  rw [feedsOf, List.map_map]
  exact List.filter_sublist.map _

omit [Weight K] in
/-- A stopped lane is not fed. -/
theorem not_mem_feedsOf {lanes : List (Nat × Lane σ K Γ)} (hnodup : (lanes.map Prod.fst).Nodup)
    {l : Nat × Lane σ K Γ} (hl : l ∈ lanes) (hstopped : l.2.stopped ≠ none) :
    l.1 ∉ (feedsOf σ K Γ lanes).map Feed.seqId := by
  intro hmem
  rw [feedsOf, List.map_map] at hmem
  obtain ⟨l', hl', hid⟩ := List.mem_map.mp hmem
  obtain ⟨hl', hlive⟩ := List.mem_filter.mp hl'
  obtain rfl : l' = l := List.inj_on_of_nodup_map hnodup hl' hl hid
  exact hstopped (by simpa using hlive)

omit [Weight K] in
theorem feedsOf_stopped {l : Nat × Lane σ K Γ} {reason : StopReason}
    (h : l.2.stopped = some reason) (lanes : List (Nat × Lane σ K Γ)) :
    feedsOf σ K Γ (l :: lanes) = feedsOf σ K Γ lanes := by
  rw [feedsOf, List.filter_cons_of_neg (by simp [h])]
  rfl

omit [Weight K] in
theorem feedsOf_live {l : Nat × Lane σ K Γ} (h : l.2.stopped = none)
    (lanes : List (Nat × Lane σ K Γ)) :
    feedsOf σ K Γ (l :: lanes) = feedOf l.1 l.2.session :: feedsOf σ K Γ lanes := by
  rw [feedsOf, List.filter_cons_of_pos (by simp [h])]
  rfl

omit [Weight K] in
/-- What the source hands the batched pass. -/
theorem feedsOf_inputs (lanes : List (Nat × Lane σ K Γ)) :
    (feedsOf σ K Γ lanes).map Feed.context
        = ((lanes.map Prod.snd).filter fun l => l.stopped.isNone).map (·.session.context) ∧
      (feedsOf σ K Γ lanes).map Feed.seq
        = ((lanes.map Prod.snd).filter fun l => l.stopped.isNone).map (·.session.seq) := by
  rw [feedsOf, List.filter_map, List.map_map, List.map_map, List.map_map, List.map_map]
  exact ⟨List.map_congr_left fun l _ => feedOf_context l.1 l.2.session, rfl⟩

variable (rt law m) in
/-- A lane that has got its sequence back from a pass. -/
structure LaneFed (st : σ) (succeeded : Prop) (l : Nat × Lane σ K Γ) (l' : Lane σ K Γ) : Prop where
  params : l'.params = l.2.params
  stopped : l'.stopped = l.2.stopped
  draftSeq : l'.session.draftSeq = l.2.session.draftSeq
  context : l'.session.context = l.2.session.context
  finished : l'.session.finished = l.2.session.finished
  ready : LaneReady rt law m l.1 l' st
  fed : succeeded → l'.stopped = none → Stands law m l.1 (l'.session.seq, st) l'.session.context

omit [Weight K] in
/-- What a step leaves of the lane it leaves of the session the lane was made from. -/
theorem LaneFed.leaves {succeeded : Prop} {l : Nat × Lane σ K Γ} {l' : Lane σ K Γ}
    (hl : LaneFed rt law m st succeeded l l') {s' : Session σ Γ} {st' : σ}
    (h : Leaves rt law m l'.params l.1 l'.session s' st') :
    Leaves rt law m l.2.params l.1 l.2.session s' st' where
  inStep := hl.params ▸ h.inStep
  draftSeq := h.draftSeq.trans hl.draftSeq
  finished := fun hf => hl.context ▸ h.finished (hl.finished.trans hf)

omit [Weight K] in
theorem takeBack_stopped {l : Lane σ K Γ} {reason : StopReason} (h : l.stopped = some reason)
    (lanes : List (Lane σ K Γ)) (seqs : List (SeqState σ)) :
    takeBack (l :: lanes) seqs = l :: takeBack lanes seqs := by
  simp only [takeBack, h]

omit [Weight K] in
theorem takeBack_live {l : Lane σ K Γ} (h : l.stopped = none) (lanes : List (Lane σ K Γ))
    (seq : SeqState σ) (seqs : List (SeqState σ)) :
    takeBack (l :: lanes) (seq :: seqs)
      = { l with session := { l.session with seq := seq } } :: takeBack lanes seqs := by
  simp only [takeBack, h]

omit [Weight K] in
/-- The live lanes get their sequences back, the others are as they were. -/
theorem takeBack_fed : ∀ (lanes : List (Nat × Lane σ K Γ)) (seqs : List (SeqState σ)) (st : σ)
    {succeeded : Prop},
    (∀ l ∈ lanes, l.2.stopped ≠ none →
      rt.InStep law m l.2.params l.1 l.2.session st ∧ l.2.session.finished = true) →
    (∀ l ∈ lanes, l.2.stopped = none → rt.Bounded l.2.params l.2.session ∧
      rt.spent l.2.params l.2.session = none) →
    List.Forall₂ (fun f seq => f.Took law m succeeded (seq, st)) (feedsOf σ K Γ lanes) seqs →
    List.Forall₂ (LaneFed rt law m st succeeded) lanes (takeBack (lanes.map Prod.snd) seqs) := by
  intro lanes
  induction lanes with
  | nil => exact fun _ _ _ _ _ _ => .nil
  | cons l lanes ih =>
    intro seqs st succeeded hstop hlive htook
    obtain ⟨id, l⟩ := l
    rw [List.forall_mem_cons] at hstop hlive
    rw [List.map_cons]
    cases hstopped : l.stopped with
    | some reason =>
      rw [feedsOf_stopped hstopped] at htook
      rw [takeBack_stopped hstopped]
      have hl : LaneReady rt law m id l st :=
        ⟨hstop.1, fun hnone => by cases hstopped.symm.trans hnone⟩
      refine .cons ⟨rfl, rfl, rfl, rfl, rfl, hl, fun _ hnone => ?_⟩
        (ih seqs st hstop.2 hlive.2 htook)
      cases hstopped.symm.trans hnone
    | none =>
      rw [feedsOf_live hstopped] at htook
      cases htook with
      | @cons _ seq _ seqs hseq hseqs =>
        obtain ⟨hb, hspent⟩ := hlive.1 hstopped
        obtain ⟨hsome, hall⟩ := took_feedOf hb.nonempty hseq
        rw [takeBack_live hstopped]
        have hready' : rt.Ready law m l.params id { l.session with seq := seq } st :=
          ⟨⟨hb.nonempty, hb.prompt, hb.generated, hb.room⟩, hspent, hsome⟩
        refine .cons ⟨rfl, rfl, rfl, rfl, rfl,
          ⟨fun hne => absurd hstopped hne, fun _ => hready'⟩, fun hs _ => hall hs⟩
          (ih seqs st hstop.2 hlive.2 hseqs)

omit [Weight K] in
/-- Lanes that have their sequences back, with the identities they had. -/
theorem fed_paired {lanes : List (Nat × Lane σ K Γ)} {lanes' : List (Lane σ K Γ)}
    {succeeded : Prop} (h : List.Forall₂ (LaneFed rt law m st succeeded) lanes lanes') :
    ∃ ls : List (Nat × Lane σ K Γ), lanes' = ls.map Prod.snd ∧ ls.map Prod.fst = lanes.map Prod.fst ∧
      (∀ l ∈ ls, LaneReady rt law m l.1 l.2 st) ∧
      ∀ {st' : σ} (out : List (Stepped σ Γ)),
        List.Forall₂ (fun (l : Nat × Lane σ K Γ) (out : Stepped σ Γ) =>
          Leaves rt law m l.2.params l.1 l.2.session out.2 st') ls out →
        List.Forall₂ (fun (l : Nat × Lane σ K Γ) (out : Stepped σ Γ) =>
          Leaves rt law m l.2.params l.1 l.2.session out.2 st') lanes out := by
  induction h with
  | nil => exact ⟨[], rfl, rfl, by simp, fun _ h => h⟩
  | @cons l l' lanes lanes' hl _ ih =>
    obtain ⟨ls, rfl, hids, hready, hrel⟩ := ih
    refine ⟨(l.1, l') :: ls, rfl, by rw [List.map_cons, List.map_cons, hids],
      List.forall_mem_cons.mpr ⟨hl.ready, hready⟩, fun out hout => ?_⟩
    cases hout with
    | cons hfirst hothers => exact .cons (hl.leaves hfirst) (hrel _ hothers)

/-- The token drawn in a live lane. -/
theorem Ready.takeToken {l : Lane σ K Γ} (h : rt.Ready law m l.params seqId l.session st)
    (hstands : Stands law m seqId (l.session.seq, st) l.session.context) :
    Leaves rt law m l.params seqId l.session (rt.takeToken l (m.logits l.session.context)).2 st := by
  have hrunning : l.session.finished = false := (of_spent_none h.spent).1
  have hne : m.logits l.session.context ≠ [] := by
    rw [← List.length_pos_iff, m.logits_length]
    exact m.vocab_pos
  obtain ⟨t, ht⟩ := sample_ok rt.num hne l.params l.session.rng
  unfold InferenceRuntime.takeToken
  generalize sample rt.num (m.logits l.session.context) l.params l.session.rng = sampled at ht
  obtain ⟨res, rng⟩ := sampled
  subst ht
  have hpushed := h.bounded.push h.spent hstands rng t
  simp only
  split
  · refine ⟨?_, rfl, fun hf => absurd hf (by simp [hrunning])⟩
    exact hpushed.bounded.finish hpushed.held
  · exact ⟨hpushed, rfl, fun hf => absurd hf (by simp [hrunning])⟩

theorem takeTokens_stopped {l : Lane σ K Γ} {reason : StopReason} (h : l.stopped = some reason)
    (lanes : List (Lane σ K Γ)) (answers : List (List K)) :
    rt.takeTokens (l :: lanes) answers
      = (rt.takeTokens lanes answers).map ((.error reason, l.session) :: ·) := by
  simp only [takeTokens, h]

theorem takeTokens_live {l : Lane σ K Γ} (h : l.stopped = none) (lanes : List (Lane σ K Γ))
    (logits : List K) (answers : List (List K)) :
    rt.takeTokens (l :: lanes) (logits :: answers)
      = (rt.takeTokens lanes answers).map (rt.takeToken l logits :: ·) := by
  simp only [takeTokens, h]

/-- A token is drawn in each live lane. -/
theorem takeTokens_leaves {st : σ} {lanes : List (Nat × Lane σ K Γ)}
    {lanes' : List (Lane σ K Γ)} (h : List.Forall₂ (LaneFed rt law m st True) lanes lanes') :
    ∃ out, rt.takeTokens lanes' ((feedsOf σ K Γ lanes).map fun f => m.logits f.context) = some out ∧
      List.Forall₂ (fun (l : Nat × Lane σ K Γ) (out : Stepped σ Γ) =>
        Leaves rt law m l.2.params l.1 l.2.session out.2 st) lanes out := by
  induction h with
  | nil => exact ⟨[], rfl, .nil⟩
  | @cons l l' lanes lanes' hl _ ih =>
    obtain ⟨out, hout, hall⟩ := ih
    cases hstopped : l.2.stopped with
    | some reason =>
      have hstopped' := hl.stopped.trans hstopped
      obtain ⟨hin, hfin⟩ := hl.ready.stopped (by simp [hstopped'])
      refine ⟨(.error reason, l'.session) :: out, ?_,
        .cons (hl.leaves ⟨hin, rfl, fun _ => ⟨hfin, rfl⟩⟩) hall⟩
      rw [feedsOf_stopped hstopped, takeTokens_stopped hstopped', hout]
      rfl
    | none =>
      have hstopped' := hl.stopped.trans hstopped
      have htoken := (hl.ready.running hstopped').takeToken (hl.fed trivial hstopped')
      refine ⟨rt.takeToken l' (m.logits l'.session.context) :: out, ?_, .cons (hl.leaves htoken) hall⟩
      rw [feedsOf_live hstopped, List.map_cons, feedOf_context, ← hl.context,
        takeTokens_live hstopped', hout]
      rfl

omit [Weight K] in
theorem Leaves.ofLane {s' : Session σ Γ}
    (h : Leaves rt law m (rt.lane (s, params)).params seqId (rt.lane (s, params)).session s' st) :
    Leaves rt law m params seqId s s' st := by
  unfold InferenceRuntime.lane at h
  cases hspent : rt.spent params s with
  | none =>
    simp only [hspent] at h
    exact h
  | some reason =>
    simp only [hspent] at h
    exact ⟨h.inStep, h.draftSeq, fun _ => h.finished rfl⟩

omit [Weight K] in
/-- A live lane has a token to produce. -/
theorem LaneReady.live {l : Lane σ K Γ} (h : LaneReady rt law m seqId l st) (hl : l.stopped = none) :
    rt.Bounded l.params l.session ∧ rt.spent l.params l.session = none :=
  ⟨(h.running hl).bounded, (h.running hl).spent⟩

/-- **A batch**: every session is left in step, with nothing but its own files touched. -/
theorem nextTokenBatch_inStep (hb : rt.backend.Conforms m law)
    {slots : List (Nat × Session σ Γ × SamplingParams K)} {w : World σ κ}
    (hnodup : (slots.map Prod.fst).Nodup)
    (hall : ∀ x ∈ slots, rt.InStep law m x.2.2 x.1 x.2.1 w.storage) :
    ∃ out w', rt.nextTokenBatch (slots.map Prod.snd) w = some (out, w') ∧
      List.Forall₂ (fun (x : Nat × Session σ Γ × SamplingParams K) (out : Stepped σ Γ) =>
        Leaves rt law m x.2.2 x.1 x.2.1 out.2 w'.storage) slots out ∧
      OnlyThose law (slots.map Prod.fst) w.storage w'.storage ∧
      w' = { w with storage := w'.storage } := by
  generalize hlanes : slots.map (fun x => (x.1, rt.lane x.2)) = lanes
  have hids : lanes.map Prod.fst = slots.map Prod.fst := by
    rw [← hlanes, List.map_map]
    rfl
  have hsnd : (slots.map Prod.snd).map rt.lane = lanes.map Prod.snd := by
    rw [← hlanes, List.map_map, List.map_map]
    rfl
  have hlane : ∀ l ∈ lanes, LaneReady rt law m l.1 l.2 w.storage ∧ (l.2.stopped = none →
      Stands law m l.1 (l.2.session.seq, w.storage) l.2.session.context.dropLast) := by
    intro l hl
    rw [← hlanes] at hl
    obtain ⟨x, hx, rfl⟩ := List.mem_map.mp hl
    exact ⟨(hall x hx).lane.1, (hall x hx).lane.2.1⟩
  -- a lane is the session, or the session finished
  have hback : ∀ {out : List (Stepped σ Γ)} {st : σ},
      List.Forall₂ (fun (l : Nat × Lane σ K Γ) (out : Stepped σ Γ) =>
        Leaves rt law m l.2.params l.1 l.2.session out.2 st) lanes out →
      List.Forall₂ (fun (x : Nat × Session σ Γ × SamplingParams K) (out : Stepped σ Γ) =>
        Leaves rt law m x.2.2 x.1 x.2.1 out.2 st) slots out := by
    intro out st h
    rw [← hlanes, List.forall₂_map_left_iff] at h
    refine h.imp fun x out hx => ?_
    exact hx.ofLane
  have hlive : ∀ l ∈ lanes, l.2.stopped = none →
      rt.Bounded l.2.params l.2.session ∧ rt.spent l.2.params l.2.session = none :=
    fun l hl => (hlane l hl).1.live
  rw [← hids] at hnodup ⊢
  unfold nextTokenBatch
  simp only [hsnd]
  split
  · obtain ⟨hleaves, hown, hworld⟩ := stepAlone_leaves hb lanes w hnodup fun l hl => (hlane l hl).1
    exact ⟨_, _, rfl, hback hleaves, hown, hworld⟩
  -- the pass over the live lanes
  rw [← (feedsOf_inputs lanes).1, ← (feedsOf_inputs lanes).2]
  obtain ⟨htook, hown, hanswers⟩ := hb.logitsBatch (feedsOf σ K Γ lanes) w.storage
    (hnodup.sublist (feedsOf_seqId_sublist lanes))
    (by
      intro f hf
      obtain ⟨l, hl, rfl⟩ := List.mem_map.mp hf
      obtain ⟨hl, hstopped⟩ := List.mem_filter.mp hl
      exact (hlane l hl).2 (by simpa using hstopped))
  generalize rt.backend.logitsBatch ((feedsOf σ K Γ lanes).map Feed.context)
    ((feedsOf σ K Γ lanes).map Feed.seq) w.storage = pass at htook hown hanswers
  obtain ⟨res, seqs, st⟩ := pass
  have hstop : ∀ l ∈ lanes, l.2.stopped ≠ none →
      rt.InStep law m l.2.params l.1 l.2.session st ∧ l.2.session.finished = true := by
    intro l hl hstopped
    obtain ⟨hin, hfin⟩ := (hlane l hl).1.stopped hstopped
    exact ⟨hin.elsewhere hown (not_mem_feedsOf hnodup hl hstopped), hfin⟩
  have hown' : OnlyThose law (lanes.map Prod.fst) w.storage st :=
    hown.mono (feedsOf_seqId_sublist lanes).subset
  have hfed := takeBack_fed lanes seqs st hstop hlive htook
  cases res with
  | error e =>
    -- whatever the failed pass has left, the lanes are ready to step alone
    obtain ⟨lanes', hsnd', hids', hready, hrel⟩ := fed_paired hfed
    obtain ⟨hleaves, hown₁, hworld⟩ := stepAlone_leaves hb lanes' { w with storage := st }
      (hids' ▸ hnodup) hready
    simp only
    rw [hsnd']
    refine ⟨_, _, rfl, hback (hrel _ hleaves), ?_, ?_⟩
    · rw [hids'] at hown₁
      exact hown'.trans hown₁
    · rw [hworld]
  | ok answers =>
    obtain ⟨hnew, rfl⟩ := hanswers answers rfl
    obtain ⟨out, hout, hleaves⟩ := takeTokens_leaves
      (hfed.imp fun l l' h => { h with fed := fun _ => h.fed ⟨_, rfl⟩ })
    simp only
    rw [hout]
    exact ⟨out, { w with storage := st }, rfl, hback hleaves, hown', rfl⟩

end

end InferenceRuntime

end Garuda
