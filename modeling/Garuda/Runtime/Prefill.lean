import Garuda.Runtime.RoundInStep
import Garuda.Runtime.SharedStorage

/-!
# Prompts that go in piece by piece

A prompt begins from what the prompt cache has for it, or from nothing, and goes in in pieces of
any size. What has gone in is what the sequence stands for, also when it began as a copy.

* `startIncremental_filling`, `advancePrefill_filling` — a prompt begins and goes on
* `Filling.inStep` — a prompt that is in makes a session in step
-/

namespace Garuda

open Infra SeqState

variable {σ κ K Γ : Type}

namespace InferenceRuntime

section

variable (rt : InferenceRuntime σ κ K Γ) (law : ReadsBack rt.kvTemplate.storage)
variable (m : TokenModel K) (used : Set (List Token))

/-- An entry of the prompt cache: nothing on disk, and it stands for whatever prefix in use has
its key. -/
def Cached (key : κ) (seq : SeqState σ) : Prop :=
  PromptCache.Unspilled rt.kvTemplate.storage seq ∧
    ∀ ts ∈ used, rt.promptKey ts = key → ∃ seqId, ∀ st, Stands law m seqId (seq, st) ts

/-- A prompt that is going in: the sequence stands for the part consumed. -/
structure Filling (seqId : Nat) (p : Pending σ) (st : σ) : Prop where
  nonempty : p.context ≠ []
  room : p.context.length < rt.maxContext
  used : p.context.dropLast ∈ used
  consumed : p.consumed ≤ p.context.length - 1
  stands : Stands law m seqId (p.seq, st) (p.context.take p.consumed)
  /-- No recurrent layer has a state before the first token. -/
  fresh : p.consumed = 0 → ∀ o ∈ p.seq.linear, o = none

variable {rt law m used} {seqId : Nat} {p : Pending σ} {st : σ}

theorem Filling.elsewhere (h : rt.Filling law m used seqId p st) {st' : σ} {ids : List Nat}
    (honly : OnlyThose law ids st st') (hid : seqId ∉ ids) : rt.Filling law m used seqId p st' :=
  { h with stands := h.stands.apart honly hid }

/-- What the sequence of an absorbed prompt stands for. -/
theorem Filling.whole (h : rt.Filling law m used seqId p st) (hin : p.remaining = 0) :
    Stands law m seqId (p.seq, st) p.context.dropLast := by
  have hstands := h.stands
  have hc := h.consumed
  unfold Pending.remaining at hin
  rw [show p.consumed = p.context.length - 1 by omega, ← List.dropLast_eq_take] at hstands
  exact hstands

/-- A prompt that is in makes a session in step. -/
theorem Filling.inStep (h : rt.Filling law m used seqId p st) (hin : p.remaining = 0)
    (params : SamplingParams K) :
    rt.InStep law m params seqId (rt.finishPrefill p) st where
  bounded := by
    refine ⟨h.nonempty, Nat.le_refl _, ?_, Nat.le_of_lt h.room⟩
    rw [Session.generated, finishPrefill, Nat.sub_self]
    exact Nat.zero_le _
  held := ⟨_, (h.whole hin).layers⟩
  stands := fun _ => h.whole hin

theorem unspilled_of_stands {seq : SeqState σ} {ts : List Token}
    (h : Stands law m seqId (seq, st) ts) (hspill : seq.hasSpill = false) :
    PromptCache.Unspilled rt.kvTemplate.storage seq := by
  refine ⟨hspill, fun kv hkv => ?_⟩
  obtain ⟨l, hl⟩ := List.mem_iff_getElem?.mp hkv
  exact h.layers.storage_eq l kv hl

end

section

variable [Weight K] [DecidableEq κ] {rt : InferenceRuntime σ κ K Γ}
variable {law : ReadsBack rt.kvTemplate.storage} {m : TokenModel K} {used : Set (List Token)}
variable {params : SamplingParams K} {prompt : List Token} {seqId : Nat} {p : Pending σ}
variable {w w' : World σ κ}

/-- A prompt that is turned away leaves no trace. -/
theorem startIncremental_error {e : GarudaError}
    (h : rt.startIncremental params prompt w = (.error e, w')) : w' = w := by
  unfold startIncremental at h
  split at h
  · exact (Prod.mk.inj h).2.symm
  split at h
  · exact (Prod.mk.inj h).2.symm
  split at h
  · exact (Prod.mk.inj h).2.symm
  simp only [freshSeqId] at h
  split at h
  · cases (Prod.mk.inj h).1
  generalize w.promptCache.get rt.promptKey prompt.dropLast w.nextSeq.toNat = got at h
  obtain ⟨hit, cache⟩ := got
  cases hit with
  | none => cases (Prod.mk.inj h).1
  | some cached => cases (Prod.mk.inj h).1

/-- **A prompt begins**, from a copy or from nothing. -/
theorem startIncremental_filling (hcache : w.promptCache.Keeps (rt.Cached law m used))
    (hused : prompt.dropLast ∈ used) (hroom : w.nextSeq.toNat + 1 < 2 ^ 64)
    (h : rt.startIncremental params prompt w = (.ok p, w')) :
    rt.Filling law m used w.nextSeq.toNat p w.storage ∧ p.context = prompt ∧
      w'.storage = w.storage ∧ w'.nextSeq.toNat = w.nextSeq.toNat + 1 ∧
      w'.promptCache.Keeps (rt.Cached law m used) := by
  have hnext : (w.nextSeq + 1).toNat = w.nextSeq.toNat + 1 := by
    rw [UInt64.toNat_add]
    exact Nat.mod_eq_of_lt hroom
  unfold startIncremental at h
  split at h
  · simp at h
  split at h
  · simp at h
  next hne =>
  replace hne : prompt ≠ [] := by simpa using hne
  split at h
  · simp at h
  next hlen =>
  replace hlen := Nat.lt_of_not_le hlen
  have hdrop : prompt.dropLast.length = prompt.length - 1 := List.length_dropLast
  -- a sequence that begins from nothing
  have hnew : ∀ cacheOnFinish, rt.Filling law m used w.nextSeq.toNat
      { seq := .new rt.kvTemplate w.nextSeq.toNat, context := prompt, consumed := 0,
        seed := params.seed.getD (UInt64.ofNat w.nextSeq.toNat), cacheOnFinish := cacheOnFinish }
      w.storage := fun _ =>
    { nonempty := hne
      room := hlen
      used := hused
      consumed := Nat.zero_le _
      stands := by
        show Stands law m _ _ (prompt.take 0)
        rw [List.take_zero]
        exact stands_new law m _ _
      fresh := fun _ o ho => List.eq_of_mem_replicate ho }
  simp only [freshSeqId] at h
  split at h
  · obtain ⟨h₁, rfl⟩ := Prod.mk.inj h
    rw [← Except.ok.inj h₁]
    exact ⟨hnew false, rfl, rfl, hnext, hcache⟩
  next hbefore =>
  have hkeeps := PromptCache.get_keeps rt.promptKey prompt.dropLast w.nextSeq.toNat hcache
  have hsome : ∀ seq, (w.promptCache.get rt.promptKey prompt.dropLast w.nextSeq.toNat).1 = some seq →
      Stands law m w.nextSeq.toNat (seq, w.storage) prompt.dropLast := by
    intro seq hseq
    obtain ⟨entry, ⟨hunspilled, hstands⟩, rfl⟩ := PromptCache.get_some hcache hseq
    obtain ⟨_, hstands⟩ := hstands _ hused rfl
    exact (hstands w.storage).rekey hunspilled.1 _ _
  generalize w.promptCache.get rt.promptKey prompt.dropLast w.nextSeq.toNat = got at h hkeeps hsome
  obtain ⟨hit, cache⟩ := got
  cases hit with
  | none =>
    obtain ⟨h₁, rfl⟩ := Prod.mk.inj h
    rw [← Except.ok.inj h₁]
    exact ⟨hnew true, rfl, rfl, hnext, hkeeps⟩
  | some cached =>
    obtain ⟨h₁, rfl⟩ := Prod.mk.inj h
    rw [← Except.ok.inj h₁]
    refine ⟨{ nonempty := hne, room := hlen, used := hused, consumed := Nat.le_of_eq hdrop, stands := ?_,
              fresh := fun hzero => ?_ }, rfl, rfl, hnext, hkeeps⟩
    · show Stands law m _ _ (prompt.take prompt.dropLast.length)
      rw [hdrop, ← List.dropLast_eq_take]
      exact hsome cached rfl
    · rw [List.isEmpty_iff, ← List.length_eq_zero_iff] at hbefore
      exact absurd hzero hbefore

omit [Weight K] in
/-- **A piece of a prompt goes in**, or fails to. -/
theorem advancePrefill_filling (hb : rt.backend.Conforms m law)
    (hcache : w.promptCache.Keeps (rt.Cached law m used)) (hinj : Set.InjOn rt.promptKey used)
    (h : rt.Filling law m used seqId p w.storage) (n : Nat) :
    (∃ vs, Layers law seqId
        ((rt.advancePrefill p n w).2.1.seq, (rt.advancePrefill p n w).2.2.storage) vs) ∧
      (∀ done, (rt.advancePrefill p n w).1 = .ok done → rt.Filling law m used seqId
        (rt.advancePrefill p n w).2.1 (rt.advancePrefill p n w).2.2.storage) ∧
      OnlySequence law seqId w.storage (rt.advancePrefill p n w).2.2.storage ∧
      (rt.advancePrefill p n w).2.2.nextSeq = w.nextSeq ∧
      (rt.advancePrefill p n w).2.2.promptCache.Keeps (rt.Cached law m used) := by
  unfold advancePrefill
  by_cases hin : p.context.length - 1 ≤ p.consumed
  · rw [if_pos hin]
    exact ⟨⟨_, h.stands.layers⟩, fun _ _ => h, OnlySequence.refl _ _, rfl, hcache⟩
  rw [if_neg hin]
  simp only
  generalize htarget : min (p.context.length - 1) (p.consumed + max n 1) = target
  obtain ⟨feed, hfeed⟩ : ∃ feed : Feed σ, feed = ⟨seqId, p.seq, p.context.take p.consumed,
      (p.context.take target).drop p.consumed⟩ := ⟨_, rfl⟩
  have hcontext : feed.context = p.context.take target := by
    rw [hfeed, Feed.context]
    conv => rhs; rw [← List.take_append_drop p.consumed (p.context.take target)]
    rw [List.take_take, Nat.min_eq_left (by omega)]
  obtain ⟨⟨k, _, hall, hstands⟩, hown⟩ := hb.hidden feed w.storage (hfeed ▸ h.stands)
  have hwhole : feed.seen ++ feed.new = p.context.take target := hcontext
  have hseq : feed.seq = p.seq ∧ feed.seqId = seqId := by
    rw [hfeed]
    exact ⟨rfl, rfl⟩
  rw [hcontext, hseq.1] at hall hstands hown
  rw [hseq.2] at hstands hown
  generalize rt.backend.hidden (p.context.take target) p.seq w.storage = out at hall hstands hown
  obtain ⟨res, seq, st⟩ := out
  cases res with
  | error e =>
    exact ⟨⟨_, hstands.layers⟩, fun done hdone => (by cases hdone), hown, rfl, hcache⟩
  | ok v =>
    rw [hall ⟨v, rfl⟩, List.take_length, hwhole] at hstands
    have hfilling : rt.Filling law m used seqId { p with seq := seq, consumed := target } st :=
      { nonempty := h.nonempty
        room := h.room
        used := h.used
        consumed := by show target ≤ p.context.length - 1; omega
        stands := hstands
        fresh := fun hzero => absurd hzero (by show target ≠ 0; omega) }
    simp only
    split
    · next hdone =>
      obtain ⟨hdone, _, hspill⟩ := hdone
      have hspill : seq.hasSpill = false := by simpa using hspill
      have hunspilled := unspilled_of_stands hstands hspill
      have htarget : target = p.context.length - 1 := by
        have := of_decide_eq_true hdone
        omega
      rw [htarget, ← List.dropLast_eq_take] at hstands
      have hcontent : law.content (w.promptCache.insert rt.promptKey
          (p.context.take (p.context.length - 1)) seq st).2 = law.content st :=
        PromptCache.insert_content law rt.promptKey hunspilled (fun e he => (hcache e he).1) st
      refine ⟨⟨_, hstands.layers.sameFiles hcontent⟩, fun _ _ => ?_, ?_, rfl, ?_⟩
      · exact { hfilling with stands := hfilling.stands.sameFiles fun l b => congrFun hcontent _ }
      · intro q hq
        exact (congrFun hcontent q).trans (hown q hq)
      · refine PromptCache.insert_keeps rt.promptKey ⟨hunspilled, fun ts hts hkey => ?_⟩ hcache st
        rw [← List.dropLast_eq_take] at hkey
        rw [hinj hts h.used hkey]
        exact ⟨seqId, hstands.anywhere hspill⟩
    · exact ⟨⟨_, hstands.layers⟩, fun _ _ => hfilling, hown, rfl, hcache⟩

end

end InferenceRuntime

end Garuda
