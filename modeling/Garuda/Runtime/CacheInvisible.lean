import Garuda.Runtime.Service

/-!
# The prompt cache is invisible

Whatever a runtime has done before, a prompt that has gone in leaves the caches it would have left
on a runtime that has done nothing, and the greedy reply that follows is the same.

* `Stands.sameCaches` — sequences that stand for the same tokens
* `drain_twins` — sessions with the same context reply alike
* `prompt_cache_invisible` — **histories do not show**
-/

namespace Garuda

open Infra SeqState

variable {σ κ K Γ : Type}

/-! ## Equal caches -/

/-- What a recurrent layer goes on from. -/
def LinearState.contents (s : LinearState) : List F32 × List F32 × Nat := (s.conv, s.state, s.folded)

/-- Two sequences hold the same keys and values, position by position, resident or on disk, and the
same recurrent states. -/
structure SameCaches {storage : Option (StorageBackend σ)} (law : ReadsBack storage)
    (s₁ s₂ : SeqState σ × σ) : Prop where
  size : s₁.1.kvs.length = s₂.1.kvs.length
  len : s₁.1.len = s₂.1.len
  kv : ∀ (l : Nat) (kv₁ kv₂ : KVCacheState σ), s₁.1.kvs[l]? = some kv₁ → s₂.1.kvs[l]? = some kv₂ →
    kv₁.len = kv₂.len ∧
      ∃ vs, kv₁.Holds (law.content s₁.2) vs ∧ kv₂.Holds (law.content s₂.2) vs
  linear : s₁.1.linear.map (Option.map LinearState.contents)
    = s₂.1.linear.map (Option.map LinearState.contents)

section

variable {cfg : KvConfig σ} {law : ReadsBack cfg.storage} {m : TokenModel K} {ts : List Token}

theorem TokenModel.Recalls.contents_eq {l : Nat} {o₁ o₂ : Option LinearState}
    (h₁ : m.Recalls l ts o₁) (h₂ : m.Recalls l ts o₂)
    (hfresh : ts = [] → o₁ = none ∧ o₂ = none) :
    o₁.map LinearState.contents = o₂.map LinearState.contents := by
  cases hr : m.recurrent l with
  | false => rw [h₁.plain hr, h₂.plain hr]
  | true =>
    by_cases hts : ts = []
    · rw [(hfresh hts).1, (hfresh hts).2]
    · have hpos := List.length_pos_iff.mpr hts
      -- a layer that has folded a token has a state
      have hsome : ∀ {o : Option LinearState}, m.Recalls l ts o →
          o.map LinearState.contents = some ((m.summary l ts).1, (m.summary l ts).2, ts.length) := by
        intro o h
        have hfolded := h.folded hr
        cases o with
        | none =>
          rw [SeqState.foldedOf] at hfolded
          simp only [Option.map_none, Option.getD_none] at hfolded
          omega
        | some s =>
          have hstate := h.state s rfl
          have hfolded : s.folded = ts.length := hfolded
          rw [Option.map_some, LinearState.contents, ← hstate, hfolded]
      rw [hsome h₁, hsome h₂]

/-- **Sequences that stand for the same tokens** hold the same. -/
theorem Stands.sameCaches {id₁ id₂ : Nat} {s₁ s₂ : SeqState σ × σ} (h₁ : Stands law m id₁ s₁ ts)
    (h₂ : Stands law m id₂ s₂ ts)
    (hfresh : ts = [] → (∀ o ∈ s₁.1.linear, o = none) ∧ ∀ o ∈ s₂.1.linear, o = none) :
    SameCaches law s₁ s₂ where
  size := h₁.size.trans h₂.size.symm
  len := h₁.len_eq.trans h₂.len_eq.symm
  kv := by
    intro l kv₁ kv₂ hkv₁ hkv₂
    have hholds₁ := h₁.layers.holds l kv₁ hkv₁
    have hholds₂ := h₂.layers.holds l kv₂ hkv₂
    exact ⟨hholds₁.len_eq.trans hholds₂.len_eq.symm, _, hholds₁, hholds₂⟩
  linear := by
    have hlen : s₁.1.linear.length = s₂.1.linear.length := by
      rw [h₁.sizeLinear, h₂.sizeLinear, h₁.size, h₂.size]
    refine List.ext_getElem (by simp [hlen]) fun l hl₁ hl₂ => ?_
    rw [List.length_map] at hl₁ hl₂
    rw [List.getElem_map, List.getElem_map]
    exact (h₁.linear l _ (List.getElem?_eq_getElem hl₁)).contents_eq
      (h₂.linear l _ (List.getElem?_eq_getElem hl₂))
      fun hts => ⟨(hfresh hts).1 _ (List.getElem_mem hl₁), (hfresh hts).2 _ (List.getElem_mem hl₂)⟩

end

/-! ## Equal replies -/

/-- Sessions that differ in nothing a greedy reply depends on. -/
structure Twins (s₁ s₂ : Session σ Γ) : Prop where
  context : s₁.context = s₂.context
  promptLen : s₁.promptLen = s₂.promptLen
  finished : s₁.finished = s₂.finished

namespace InferenceRuntime

variable [Weight K] {rt : InferenceRuntime σ κ K Γ} {law : ReadsBack rt.kvTemplate.storage}
variable {m : TokenModel K} {params : SamplingParams K} {id₁ id₂ : Nat}

omit [Weight K] in
theorem Twins.spent {s₁ s₂ : Session σ Γ} (h : Twins s₁ s₂) :
    rt.spent params s₁ = rt.spent params s₂ := by
  unfold InferenceRuntime.spent Session.generated
  rw [h.context, h.promptLen, h.finished]

omit [Weight K] in
/-- Whether the pass of a step answers depends on the context alone. -/
theorem logits_twins (hr : rt.backend.Reproducible m law) {s₁ s₂ : Session σ Γ} {st₁ st₂ : σ}
    (h₁ : rt.InStep law m params id₁ s₁ st₁) (h₂ : rt.InStep law m params id₂ s₂ st₂)
    (hf₁ : s₁.finished = false) (hf₂ : s₂.finished = false) (hcontext : s₁.context = s₂.context)
    (hok : Succeeds (rt.backend.logits s₁.context s₁.seq st₁).1) :
    Succeeds (rt.backend.logits s₂.context s₂.seq st₂).1 := by
  have hnew : ∀ (id : Nat) {s : Session σ Γ}, s.context ≠ [] → (feedOf id s).new ≠ [] := by
    intro id s hne hnil
    have hone := length_feedOf_new (s := s) id hne
    rw [hnil] at hone
    cases hone
  have h := hr (feedOf id₁ s₁) (feedOf id₂ s₂) st₁ st₂ (h₁.stands hf₁) (h₂.stands hf₂)
    (by rw [feedOf_context, feedOf_context, hcontext]) (hnew id₁ h₁.bounded.nonempty)
    (hnew id₂ h₂.bounded.nonempty)
  rw [feedOf_context, feedOf_context] at h
  exact h hok

/-- **One greedy step**: the same outcome, and twins again. -/
theorem nextToken_twins (hb : rt.backend.Conforms m law) (hr : rt.backend.Reproducible m law)
    (ht : (params.temperature == 0) = true) {s₁ s₂ : Session σ Γ} {w₁ w₂ : World σ κ}
    (h₁ : rt.InStep law m params id₁ s₁ w₁.storage) (h₂ : rt.InStep law m params id₂ s₂ w₂.storage)
    (h : Twins s₁ s₂) :
    (rt.nextToken params s₁ w₁).1 = (rt.nextToken params s₂ w₂).1 ∧
      Twins (rt.nextToken params s₁ w₁).2.1 (rt.nextToken params s₂ w₂).2.1 := by
  unfold InferenceRuntime.nextToken
  cases hspent : rt.spent params s₁ with
  | some reason =>
    rw [Twins.spent h] at hspent
    simp only [hspent]
    exact ⟨trivial, ⟨h.context, h.promptLen, rfl⟩⟩
  | none =>
    have hspent₂ := hspent
    rw [Twins.spent h] at hspent₂
    simp only [hspent₂]
    have hf₁ := (of_spent_none hspent).1
    have hf₂ := (of_spent_none hspent₂).1
    have hto := logits_twins hr h₁ h₂ hf₁ hf₂ h.context
    have hfrom := logits_twins hr h₂ h₁ hf₂ hf₁ h.context.symm
    obtain ⟨_, _, hvalue₁⟩ := (h₁.ready hspent).logits hb
    obtain ⟨_, _, hvalue₂⟩ := (h₂.ready hspent₂).logits hb
    generalize rt.backend.logits s₁.context s₁.seq w₁.storage = out₁ at hto hfrom hvalue₁
    generalize rt.backend.logits s₂.context s₂.seq w₂.storage = out₂ at hto hfrom hvalue₂
    obtain ⟨res₁, seq₁, st₁⟩ := out₁
    obtain ⟨res₂, seq₂, st₂⟩ := out₂
    cases res₁ with
    | error e₁ =>
      cases res₂ with
      | error e₂ => exact ⟨rfl, ⟨h.context, h.promptLen, rfl⟩⟩
      | ok v₂ =>
        obtain ⟨_, hno⟩ := hfrom ⟨v₂, rfl⟩
        cases hno
    | ok v₁ =>
      cases res₂ with
      | error e₂ =>
        obtain ⟨_, hno⟩ := hto ⟨v₁, rfl⟩
        cases hno
      | ok v₂ =>
        obtain ⟨_, rfl, _⟩ := hvalue₁ v₁ rfl
        obtain ⟨_, rfl, _⟩ := hvalue₂ v₂ rfl
        have hne : ∀ ts, m.logits ts ≠ [] := by
          intro ts
          rw [← List.length_pos_iff, m.logits_length]
          exact m.vocab_pos
        simp only [sample_greedy rt.num (hne _) ht, h.context]
        split
        · exact ⟨rfl, ⟨by simp only [Session.finish, Session.push], h.promptLen, rfl⟩⟩
        · exact ⟨rfl, ⟨by simp only [Session.push], h.promptLen, h.finished⟩⟩

/-- **A greedy reply**, token by token. -/
theorem drain_twins (hb : rt.backend.Conforms m law) (hr : rt.backend.Reproducible m law)
    (ht : (params.temperature == 0) = true) : ∀ (n : Nat) {s₁ s₂ : Session σ Γ} {w₁ w₂ : World σ κ},
    rt.InStep law m params id₁ s₁ w₁.storage → rt.InStep law m params id₂ s₂ w₂.storage →
    Twins s₁ s₂ →
    (drain (rt.plainCall params) n s₁ w₁).1 = (drain (rt.plainCall params) n s₂ w₂).1 ∧
      (drain (rt.plainCall params) n s₁ w₁).2.1 = (drain (rt.plainCall params) n s₂ w₂).2.1
  | 0, _, _, _, _, _, _, _ => ⟨rfl, rfl⟩
  | n + 1, s₁, s₂, w₁, w₂, h₁, h₂, h => by
    obtain ⟨houtcome, htwins⟩ := nextToken_twins hb hr ht h₁ h₂ h
    obtain ⟨hleaves₁, _⟩ := nextToken_inStep hb h₁
    obtain ⟨hleaves₂, _⟩ := nextToken_inStep hb h₂
    rw [drain, drain]
    unfold plainCall
    generalize rt.nextToken params s₁ w₁ = out₁ at houtcome htwins hleaves₁
    generalize rt.nextToken params s₂ w₂ = out₂ at houtcome htwins hleaves₂
    obtain ⟨res₁, s₁', w₁'⟩ := out₁
    obtain ⟨res₂, s₂', w₂'⟩ := out₂
    obtain rfl : res₁ = res₂ := houtcome
    cases res₁ with
    | error reason => exact ⟨rfl, rfl⟩
    | ok t =>
      obtain ⟨htokens, hreason⟩ := drain_twins hb hr ht n hleaves₁.inStep hleaves₂.inStep htwins
      exact ⟨congrArg ([t] ++ ·) htokens, hreason⟩

end InferenceRuntime

/-! ## Histories do not show -/

namespace Service

variable [Weight K] [DecidableEq κ] (rt : InferenceRuntime σ κ K Γ)
variable (law : ReadsBack rt.kvTemplate.storage) (m : TokenModel K)

/-- **The prompt cache is invisible.** Take any two histories of a runtime, of prompts that went in
piece by piece, copies that were shared, and whatever was done with them. A prompt that is in after
the one and after the other has the same caches, and the same greedy reply. -/
theorem prompt_cache_invisible (hb : rt.backend.Conforms m law) (hr : rt.backend.Reproducible m law)
    (hd : rt.DraftsApart law) {w₁ w₂ : World σ κ} (hempty₁ : w₁.promptCache.entries = [])
    (hempty₂ : w₂.promptCache.entries = []) {actions₁ actions₂ : List (ServiceAction K)}
    (hids₁ : w₁.nextSeq.toNat + actions₁.length < 2 ^ 64)
    (hids₂ : w₂.nextSeq.toNat + actions₂.length < 2 ^ 64)
    (hkeys₁ : Set.InjOn rt.promptKey (prefixes actions₁))
    (hkeys₂ : Set.InjOn rt.promptKey (prefixes actions₂)) {svc₁ svc₂ : Service σ κ K Γ}
    (hrun₁ : runList (Service.step rt) actions₁ (Service.new w₁) = some svc₁)
    (hrun₂ : runList (Service.step rt) actions₂ (Service.new w₂) = some svc₂) {h₁ h₂ : Nat}
    {params : SamplingParams K} {p₁ p₂ : Pending σ}
    (hseat₁ : svc₁.seats h₁ = some ⟨params, .prompt p₁⟩)
    (hseat₂ : svc₂.seats h₂ = some ⟨params, .prompt p₂⟩) (hin₁ : p₁.remaining = 0)
    (hin₂ : p₂.remaining = 0) (hcontext : p₁.context = p₂.context) :
    SameCaches law (p₁.seq, svc₁.world.storage) (p₂.seq, svc₂.world.storage) ∧
      p₁.seq.len = p₁.context.length - 1 ∧
      ((params.temperature == 0) = true → ∀ n,
        (drain (rt.plainCall params) n (rt.finishPrefill p₁) svc₁.world).1
            = (drain (rt.plainCall params) n (rt.finishPrefill p₂) svc₂.world).1 ∧
          (drain (rt.plainCall params) n (rt.finishPrefill p₁) svc₁.world).2.1
            = (drain (rt.plainCall params) n (rt.finishPrefill p₂) svc₂.world).2.1) := by
  obtain ⟨ids₁, ho₁, _⟩ := (Orderly.new (fun _ _ => 0) hempty₁).run hb hd hkeys₁ hids₁
    (fun _ h => h) hrun₁
  obtain ⟨ids₂, ho₂, _⟩ := (Orderly.new (fun _ _ => 0) hempty₂).run hb hd hkeys₂ hids₂
    (fun _ h => h) hrun₂
  have hfill₁ : rt.Filling law m (prefixes actions₁) (ids₁ h₁ false) p₁ svc₁.world.storage :=
    ho₁.seat h₁ _ hseat₁
  have hfill₂ : rt.Filling law m (prefixes actions₂) (ids₂ h₂ false) p₂ svc₂.world.storage :=
    ho₂.seat h₂ _ hseat₂
  have hstands₁ := hfill₁.whole hin₁
  have hstands₂ := hfill₂.whole hin₂
  rw [← hcontext] at hstands₂
  -- with nothing before the last token, nothing has gone in
  have hzero : ∀ {p : Pending σ} {used : Set (List Token)} {id : Nat} {st : σ},
      rt.Filling law m used id p st → p.context.dropLast = [] → ∀ o ∈ p.seq.linear, o = none := by
    intro p used id st hfill hnil
    refine hfill.fresh ?_
    have hlen : p.context.length - 1 = 0 := by rw [← List.length_dropLast, hnil]; rfl
    have := hfill.consumed
    omega
  refine ⟨hstands₁.sameCaches hstands₂ fun hnil => ⟨hzero hfill₁ hnil, hzero hfill₂ ?_⟩, ?_, ?_⟩
  · rw [← hcontext]
    exact hnil
  · rw [← List.length_dropLast]
    exact hstands₁.len_eq
  · intro ht n
    exact InferenceRuntime.drain_twins hb hr ht n (hfill₁.inStep hin₁ params)
      (hfill₂.inStep hin₂ params) ⟨hcontext, congrArg List.length hcontext, rfl⟩

end Service

/-! ## A hit and a cold start -/

deriving instance DecidableEq for SamplingParams

def cachingRuntime : InferenceRuntime (Path → Option Bytes) (List Token) Int Nat :=
  refusingRuntime { tinyCfg 4 2 none memoryStorage with storage := none } counting

def cachingWorld : World (Path → Option Bytes) (List Token) where
  storage := fun _ => none
  nextSeq := 1
  promptCache := .new 4 1000

/-- A request goes in in two pieces and decodes; a second with the same prompt finds the copy. -/
def sharedHistory : List (ServiceAction Int) :=
  [.start 0 [3, 4, 5, 3, 4, 5, 3] (greedyParams 8), .advance 0 2, .advance 0 9, .finish 0,
    .nextToken 0, .speculate 0 2, .start 1 [3, 4, 5, 3, 4, 5, 3] (greedyParams 8)]

/-- The same prompt with nothing before it, in three pieces. -/
def coldHistory : List (ServiceAction Int) :=
  [.start 0 [3, 4, 5, 3, 4, 5, 3] (greedyParams 8), .advance 0 3, .advance 0 1, .advance 0 9]

def serviceAfter (actions : List (ServiceAction Int)) :
    Option (Service (Path → Option Bytes) (List Token) Int Nat) :=
  runList (Service.step cachingRuntime) actions (.new cachingWorld)

/-- The prompt of a request that is in. -/
def absorbedAt (svc : Service (Path → Option Bytes) (List Token) Int Nat) (h : Nat) :
    Option (Pending (Path → Option Bytes)) :=
  match svc.seats h with
  | some ⟨params, .prompt p⟩ =>
    if params = greedyParams 8 ∧ p.remaining = 0 ∧ p.context = [3, 4, 5, 3, 4, 5, 3] then some p
    else none
  | _ => none

theorem absorbedAt_eq {svc : Service (Path → Option Bytes) (List Token) Int Nat} {h : Nat}
    {p : Pending (Path → Option Bytes)} (hp : absorbedAt svc h = some p) :
    svc.seats h = some ⟨greedyParams 8, .prompt p⟩ ∧ p.remaining = 0 ∧
      p.context = [3, 4, 5, 3, 4, 5, 3] := by
  unfold absorbedAt at hp
  split at hp
  · next params p' hseat =>
    split at hp
    · next hin =>
      obtain rfl := Option.some.inj hp
      obtain ⟨rfl, hin⟩ := hin
      exact ⟨hseat, hin⟩
    · cases hp
  · cases hp

theorem prompt_cache_invisible_hit : ∃ svc₁ svc₂ p₁ p₂, serviceAfter sharedHistory = some svc₁ ∧
    serviceAfter coldHistory = some svc₂ ∧ absorbedAt svc₁ 1 = some p₁ ∧
    absorbedAt svc₂ 0 = some p₂ ∧ svc₁.world.promptCache.hits = 1 ∧
    svc₂.world.promptCache.hits = 0 ∧
    SameCaches noDisk (p₁.seq, svc₁.world.storage) (p₂.seq, svc₂.world.storage) ∧
    ∀ n, (drain (cachingRuntime.plainCall (greedyParams 8)) n (cachingRuntime.finishPrefill p₁)
        svc₁.world).1
      = (drain (cachingRuntime.plainCall (greedyParams 8)) n (cachingRuntime.finishPrefill p₂)
        svc₂.world).1 := by
  have hshared : (serviceAfter sharedHistory).any (fun svc =>
      (absorbedAt svc 1).isSome && decide (svc.world.promptCache.hits = 1)) = true := by
    decide +kernel
  have hcold : (serviceAfter coldHistory).any (fun svc =>
      (absorbedAt svc 0).isSome && decide (svc.world.promptCache.hits = 0)) = true := by
    decide +kernel
  obtain ⟨svc₁, hrun₁, hfacts₁⟩ := (Option.any_eq_true _ _).mp hshared
  obtain ⟨svc₂, hrun₂, hfacts₂⟩ := (Option.any_eq_true _ _).mp hcold
  rw [Bool.and_eq_true, decide_eq_true_eq] at hfacts₁ hfacts₂
  obtain ⟨p₁, hp₁⟩ := Option.isSome_iff_exists.mp hfacts₁.1
  obtain ⟨p₂, hp₂⟩ := Option.isSome_iff_exists.mp hfacts₂.1
  obtain ⟨hseat₁, hin₁, hcontext₁⟩ := absorbedAt_eq hp₁
  obtain ⟨hseat₂, hin₂, hcontext₂⟩ := absorbedAt_eq hp₂
  obtain ⟨hsame, _, hreply⟩ := Service.prompt_cache_invisible cachingRuntime noDisk
    (stubModel counting 1) (refusing_conforms counting 1 _)
    (refusing_reproducible counting rfl (fun _ _ => rfl) (by decide) (fun _ _ => rfl))
    (refusingRuntime_draftsApart _ _ _) rfl rfl (by decide) (by decide)
    (fun _ _ _ _ h => h) (fun _ _ _ _ h => h) hrun₁ hrun₂ hseat₁ hseat₂ hin₁ hin₂
    (hcontext₁.trans hcontext₂.symm)
  exact ⟨svc₁, svc₂, p₁, p₂, hrun₁, hrun₂, hp₁, hp₂, hfacts₁.2, hfacts₂.2, hsame,
    fun n => (hreply rfl n).1⟩

end Garuda
