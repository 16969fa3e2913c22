import Garuda.Runtime.RoundInStep
import Garuda.Runtime.Greedy

/-!
# A backend that conforms

The stub backend, made to refuse a sequence with no new token, conforms over any storage: a pass
that runs into an error is not begun.

* `refusing_conforms` — **it conforms**
* `refusing_reproducible` — without a storage it answers wherever there is room
-/

namespace Garuda

open Infra SeqState

variable {σ : Type}

/-! ## Attention steps -/

section

variable {storage : Option (StorageBackend σ)} {law : ReadsBack storage} {seqId : Nat}

/-- What a pass through attention layers leaves as it was. -/
structure Attended (law : ReadsBack storage) (seqId : Nat) (s s' : SeqState σ × σ) : Prop where
  size : s'.1.kvs.length = s.1.kvs.length
  linear : s'.1.linear = s.1.linear
  shape : ∀ (l : Nat) (kv' : KVCacheState σ), s'.1.kvs[l]? = some kv' →
    ∃ kv, s.1.kvs[l]? = some kv ∧ KVCacheState.SameShape kv kv'
  own : OnlySequence law seqId s.2 s'.2

theorem Attended.refl (s : SeqState σ × σ) : Attended law seqId s s where
  size := rfl
  linear := rfl
  shape := fun _ kv hkv => ⟨kv, hkv, KVCacheState.SameShape.refl _⟩
  own := OnlySequence.refl _ _

theorem Attended.trans {s₁ s₂ s₃ : SeqState σ × σ} (h : Attended law seqId s₁ s₂)
    (h' : Attended law seqId s₂ s₃) : Attended law seqId s₁ s₃ where
  size := h'.size.trans h.size
  linear := h'.linear.trans h.linear
  shape := by
    intro l kv₃ hkv₃
    obtain ⟨kv₂, hkv₂, hshape₂⟩ := h'.shape l kv₃ hkv₃
    obtain ⟨kv₁, hkv₁, hshape₁⟩ := h.shape l kv₂ hkv₂
    exact ⟨kv₁, hkv₁, hshape₁.trans hshape₂⟩
  own := fun q hq => (h'.own q hq).trans (h.own q hq)

theorem consume_attended {s s' : SeqState σ × σ} {vs : Nat → List KvPair}
    (h : Layers law seqId s vs) {l : Nat} {key value : List F32}
    (hstep : SeqState.consume s (.attend l key value) = some s') : Attended law seqId s s' := by
  obtain ⟨kv, hkv, hok, rfl⟩ := consume_attend_cases hstep
  obtain ⟨_, he⟩ := KVCacheState.attend_ok hok
  have hst := h.storage_eq l kv hkv
  have hstA := (KVCacheState.append_shape key value kv s.2).storage.trans hst
  refine { size := List.length_set .., linear := rfl, shape := ?_, own := ?_ }
  · intro j kv' hkv'
    rcases set_getElem?_cases hkv hkv' with ⟨rfl, rfl⟩ | ⟨_, hj⟩
    · exact ⟨kv, hkv, KVCacheState.attend_shape key value kv s.2⟩
    · exact ⟨kv', hj, KVCacheState.SameShape.refl _⟩
  · have honly : OnlySequence law kv.seqId s.2 (kv.append key value s.2).2.2 :=
      (append_onlyLayer key value hst s.2).onlySequence
    rw [h.seqId_eq l kv hkv] at honly
    intro q hq
    show law.content (kv.attend key value s.2).2.2 q = _
    rw [he, ensureResident_content _ _ hstA]
    exact honly q hq

theorem run_attended : ∀ {steps : List PassStep} {s s' : SeqState σ × σ} {vs : Nat → List KvPair},
    Layers law seqId s vs → (∀ p ∈ steps, p.isFold = false) →
    runList SeqState.consume steps s = some s' → Attended law seqId s s' := by
  intro steps
  induction steps with
  | nil =>
    intro s s' vs _ _ hrun
    rw [← Option.some.inj hrun]
    exact Attended.refl s
  | cons p steps ih =>
    intro s s' vs h hkind hrun
    rw [List.forall_mem_cons] at hkind
    obtain ⟨mid, hmid, hrun⟩ := runList_cons.mp hrun
    have hrest := ih (h.consume hmid) hkind.2 hrun
    cases p with
    | attend l key value => exact (consume_attended h hmid).trans hrest
    | fold l convLen stateLen conv state => cases hkind.1

end

/-! ## The backend -/

/-- The stub, made to refuse a sequence with no new token. -/
def refusingBackend (next : List Token → Token) (vocab width : Nat) : InferenceBackend σ Int where
  hidden := (stubBackend next vocab width).hidden
  logits ctx seq st :=
    if ctx.length ≤ seq.len then (.error (.inference "no new tokens to process"), seq, st)
    else (stubBackend next vocab width).logits ctx seq st
  logitsMulti := (stubBackend next vocab width).logitsMulti
  speculationSupported := true

section

variable {next : List Token → Token} {width : Nat} {cfg : KvConfig σ}
variable {law : ReadsBack cfg.storage} {seqId : Nat}

theorem stub_kvOf (l : Nat) (ts : List Token) : (stubModel next width).kvOf l ts
    = .replicate ts.length (.replicate width ⟨0⟩, .replicate width ⟨0⟩) := by
  rw [TokenModel.kvOf]
  refine List.eq_replicate_iff.mpr ⟨by simp, fun p hp => ?_⟩
  obtain ⟨i, _, rfl⟩ := List.mem_map.mp hp
  rfl

theorem stored_stubSteps {layers n l : Nat} (hl : l < layers) :
    stored l (stubSteps width layers n)
      = .replicate n (.replicate width ⟨0⟩, .replicate width ⟨0⟩) := by
  refine List.eq_replicate_iff.mpr ⟨?_, ?_⟩
  · rw [length_stored]
    exact stubSteps_count width layers n hl
  · intro p hp
    obtain ⟨step, hstep, rfl⟩ := List.mem_map.mp hp
    have hmem := (List.mem_filter.mp hstep).1
    clear hstep hp
    induction n with
    | zero => cases hmem
    | succ n ih =>
      rcases List.mem_append.mp hmem with hmem | hmem
      · obtain ⟨_, _, rfl⟩ := List.mem_map.mp hmem
        rfl
      · exact ih hmem

/-- A pass of the stub that succeeds has taken in the new tokens. -/
theorem stubPass_stands {seq : SeqState σ} {st : σ} {ts new : List Token} {s' : SeqState σ × σ}
    (h : Stands law (stubModel next width) seqId (seq, st) ts)
    (hpass : stubPass width (ts ++ new) seq st = some s') :
    Stands law (stubModel next width) seqId s' (ts ++ new) ∧ OnlySequence law seqId st s'.2 := by
  obtain ⟨t, hrun, rfl⟩ := Option.map_eq_some_iff.mp hpass
  have hlen : seq.len = ts.length := h.len_eq
  rw [hlen, List.length_append, Nat.add_sub_cancel_left] at hrun
  have hattended := run_attended h.layers (stubSteps_isFold width _ _) hrun
  have hrunLayers := h.layers.run hrun
  have hkvOf : ∀ (l : Nat) (kv : KVCacheState σ), t.1.kvs[l]? = some kv →
      (stubModel next width).kvOf l ts ++ stored l (stubSteps width seq.kvs.length new.length)
        = (stubModel next width).kvOf l (ts ++ new) := by
    intro l kv hkv
    have hl : l < seq.kvs.length := by
      rw [← hattended.size]
      exact (List.getElem?_eq_some_iff.mp hkv).1
    rw [stored_stubSteps hl, stub_kvOf, stub_kvOf, List.replicate_append_replicate,
      List.length_append]
  refine ⟨?_, hattended.own⟩
  exact
    { size := hattended.size.trans h.size
      sizeLinear := by
        show t.1.linear.length = t.1.kvs.length
        rw [hattended.linear, hattended.size]
        exact h.sizeLinear
      shape := by
        intro l kv' hkv'
        obtain ⟨kv, hkv, hshape⟩ := hattended.shape l kv' hkv'
        exact (h.shape l kv hkv).trans hshape
      layers :=
        { seqId_eq := hrunLayers.seqId_eq
          layer_eq := hrunLayers.layer_eq
          storage_eq := hrunLayers.storage_eq
          holds := fun l kv hkv => by
            rw [← hkvOf l kv hkv]
            exact hrunLayers.holds l kv hkv }
      linear := by
        intro l o ho
        replace ho : t.1.linear[l]? = some o := ho
        rw [hattended.linear] at ho
        have hnone : o = none := (h.linear l o ho).plain rfl
        subst hnone
        exact TokenModel.recalls_none fun hr => absurd hr (by simp [stubModel]) }

/-- A call that runs the pass or does nothing. -/
theorem took_of_stubPass {f : Feed σ} {st : σ} {α : Type} {v : α}
    (h : Stands law (stubModel next width) f.seqId (f.seq, st) f.seen)
    (out : Except GarudaError α × SeqState σ × σ)
    (hout : out = match stubPass width f.context f.seq st with
      | none => (.error (.inference "pass failed"), f.seq, st)
      | some s => (.ok v, s)) :
    f.Took law (stubModel next width) (Succeeds out.1) out.2 ∧
      OnlySequence law f.seqId st out.2.2 ∧ ∀ u, out.1 = .ok u → u = v := by
  cases hpass : stubPass width f.context f.seq st with
  | none =>
    rw [hpass] at hout
    subst hout
    refine ⟨h.took ?_, OnlySequence.refl _ _, fun u hu => by cases hu⟩
    rintro ⟨_, hok⟩
    cases hok
  | some s =>
    rw [hpass] at hout
    subst hout
    obtain ⟨hstands, hown⟩ := stubPass_stands h hpass
    refine ⟨⟨f.new.length, Nat.le_refl _, fun _ => rfl, ?_⟩, hown, fun u hu => (Except.ok.inj hu).symm⟩
    rw [List.take_length]
    exact hstands

/-- **The backend conforms**, over any storage. -/
theorem refusing_conforms (next : List Token → Token) (width : Nat) (law : ReadsBack cfg.storage) :
    (refusingBackend next 8 width : InferenceBackend σ Int).Conforms (stubModel next width) law := by
  have hlogits : ∀ (f : Feed σ) (st : σ),
      Stands law (stubModel next width) f.seqId (f.seq, st) f.seen →
      f.Took law (stubModel next width)
          (Succeeds ((refusingBackend next 8 width).logits f.context f.seq st).1)
          ((refusingBackend next 8 width).logits f.context f.seq st).2 ∧
        OnlySequence law f.seqId st ((refusingBackend next 8 width).logits f.context f.seq st).2.2 ∧
        ∀ v, ((refusingBackend next 8 width).logits f.context f.seq st).1 = .ok v →
          f.new ≠ [] ∧ v = (stubModel next width).logits f.context := by
    intro f st h
    have hlen : f.seq.len = f.seen.length := h.len_eq
    unfold refusingBackend
    simp only
    split
    · refine ⟨h.took ?_, OnlySequence.refl _ _, fun v hv => by cases hv⟩
      rintro ⟨_, hok⟩
      cases hok
    · next hnew =>
      obtain ⟨htook, hown, hvalue⟩ := took_of_stubPass (v := oneHot 8 (next f.context)) h
        ((stubBackend next 8 width).logits f.context f.seq st) rfl
      refine ⟨htook, hown, fun v hv => ⟨?_, hvalue v hv⟩⟩
      rintro hnil
      rw [Feed.context, hnil, List.append_nil] at hnew
      omega
  refine { hidden := ?_, logits := hlogits, logitsMulti := ?_, logitsBatch := ?_ }
  · intro f st h
    obtain ⟨htook, hown, _⟩ := took_of_stubPass (v := []) h
      ((stubBackend next 8 width).hidden f.context f.seq st) rfl
    exact ⟨htook, hown⟩
  · intro f n st _ h _ _
    exact took_of_stubPass h ((stubBackend next 8 width).logitsMulti f.context f.seq n st) rfl
  · intro fs st hnodup hall
    have hfed := logitsInTurn_feeds hlogits fs st hnodup hall
    have hlen : (fs.map Feed.context).length = (fs.map Feed.seq).length := by simp
    show FedAll law _ fs st (defaultLogitsBatch (refusingBackend next 8 width).logits _ _ st)
    rw [defaultLogitsBatch, if_neg (by simp [hlen])]
    exact hfed

theorem Stands.describes {seq : SeqState σ} {st : σ} {ts : List Token} {m : TokenModel Int}
    (h : Stands law m seqId (seq, st) ts) (hlaw : ∀ st q, law.content st q = none) :
    Describes m cfg seq ts where
  size := h.size
  sizeLinear := h.sizeLinear
  layers := by
    refine ⟨seqId, fun l kv hkv => ⟨h.shape l kv hkv, ?_⟩⟩
    exact (h.layers.holds l kv hkv).disk_congr fun b _ => (hlaw st _).symm
  linear := h.linear

/-- Without a storage the backend answers exactly where the context fits. -/
theorem refusing_answers_iff (hs : cfg.storage = none)
    (hwidth : ∀ seqId l, (KVCacheState.forLayer cfg seqId l).kvDim = width)
    (hpos : 0 < cfg.maxPositions.toNat) (hlaw : ∀ st q, law.content st q = none) {f : Feed σ} {st : σ}
    (h : Stands law (stubModel next width) f.seqId (f.seq, st) f.seen) (hnew : f.new ≠ []) :
    Succeeds ((refusingBackend next 8 width : InferenceBackend σ Int).logits f.context f.seq st).1 ↔
      f.context.length ≤ cfg.maxPositions.toNat := by
  have hlen : f.seq.len = f.seen.length := h.len_eq
  constructor
  · intro hok
    obtain ⟨⟨k, _, hall, hstands⟩, _⟩ := (refusing_conforms next width law).logits f st h
    rw [hall hok, List.take_length] at hstands
    generalize (refusingBackend next 8 width : InferenceBackend σ Int).logits f.context f.seq st
      = out at hstands
    have hkvs : 0 < out.2.1.kvs.length := by rw [hstands.size]; omega
    have hkv := List.getElem?_eq_getElem hkvs
    have hholds := hstands.layers.holds 0 _ hkv
    have hle := hholds.len_le
    rw [hholds.len_eq, TokenModel.length_kvOf, (hstands.shape 0 _ hkv).maxPositions] at hle
    simp only [KVCacheState.forLayer] at hle
    rw [Feed.context]
    omega
  · intro hroom
    obtain ⟨seq', _, hrun⟩ := stub_tokens hs hwidth st f.new f.seen f.seq (h.describes hlaw) hroom
    have hpass : stubPass width f.context f.seq st = some (seq'.endRecording, st) := by
      rw [stubPass, hlen, Feed.context, List.length_append, Nat.add_sub_cancel_left, hrun]
      rfl
    have hmore : ¬ f.context.length ≤ f.seq.len := by
      have := List.length_pos_iff.mpr hnew
      rw [hlen, Feed.context, List.length_append]
      omega
    refine ⟨oneHot 8 (next f.context), ?_⟩
    unfold refusingBackend
    simp only [if_neg hmore, stubBackend, hpass]

/-- **So whether it answers depends on the context alone.** -/
theorem refusing_reproducible (next : List Token → Token) (hs : cfg.storage = none)
    (hwidth : ∀ seqId l, (KVCacheState.forLayer cfg seqId l).kvDim = width)
    (hpos : 0 < cfg.maxPositions.toNat) (hlaw : ∀ st q, law.content st q = none) :
    (refusingBackend next 8 width : InferenceBackend σ Int).Reproducible (stubModel next width)
      law := by
  intro f f' st st' h h' hcontext hnew hnew' hok
  rw [refusing_answers_iff hs hwidth hpos hlaw h hnew, hcontext] at hok
  exact (refusing_answers_iff hs hwidth hpos hlaw h' hnew').mpr hok

end

/-- A runtime over it, without a draft model. -/
def refusingRuntime (cfg : KvConfig σ) (next : List Token → Token) :
    InferenceRuntime σ (List Token) Int Nat :=
  { stubRuntime cfg next with backend := refusingBackend next 8 1 }

theorem refusingRuntime_draftsApart (cfg : KvConfig σ) (next : List Token → Token)
    (law : ReadsBack cfg.storage) : (refusingRuntime cfg next).DraftsApart law := by
  intro drafter kv h
  cases h

end Garuda
