import Garuda.Infra.Runs
import Garuda.Runtime.Prefill
import Garuda.Runtime.StubConforms

/-!
# Requests on one runtime

Any number of requests share a runtime: its storage, its counter of identities and its prompt
cache. Their prompts go in piece by piece and their sessions are decoded in any of the three ways,
in any order.

* `Service.Orderly` — the invariant: every sequence has an identity of its own, and is in step
* `session_in_step` — **session and cache stay in step**
-/

namespace Garuda

open Infra SeqState

variable {σ κ K Γ : Type}

/-! ## Actions -/

/-- How far a request has come. -/
inductive Stage (σ Γ : Type) where
  | prompt (p : Pending σ)
  | decoding (s : Session σ Γ)

/-- A request, with the parameters that all its calls are made with. -/
structure Seat (σ K Γ : Type) where
  params : SamplingParams K
  stage : Stage σ Γ

/-- Whether the request has a sequence of the model (`false`) or of the draft model (`true`). -/
def Seat.uses (t : Seat σ K Γ) : Bool → Bool
  | false => true
  | true =>
    match t.stage with
    | .prompt _ => false
    | .decoding s => s.draftSeq.isSome

/-- A runtime and the requests on it, under handles. -/
structure Service (σ κ K Γ : Type) where
  world : World σ κ
  seats : Nat → Option (Seat σ K Γ)

inductive ServiceAction (K : Type) where
  /-- `start_incremental` -/
  | start (h : Nat) (prompt : List Token) (params : SamplingParams K)
  /-- `advance_prefill`; a prompt that fails is given up. -/
  | advance (h maxTokens : Nat)
  /-- `finish_prefill`, once the prompt is in. -/
  | finish (h : Nat)
  | nextToken (h : Nat)
  | speculate (h lookahead : Nat)
  /-- `next_token_batch` over distinct sessions. -/
  | batch (hs : List Nat)
  | drop (h : Nat)

namespace Service

def new (w : World σ κ) : Service σ κ K Γ where
  world := w
  seats := fun _ => none

/-- One request changes, or goes. -/
def put (svc : Service σ κ K Γ) (h : Nat) (t : Option (Seat σ K Γ)) (w : World σ κ) :
    Service σ κ K Γ :=
  { world := w, seats := Function.update svc.seats h t }

@[simp] theorem put_seats_self (svc : Service σ κ K Γ) (h : Nat) (t : Option (Seat σ K Γ))
    (w : World σ κ) : (svc.put h t w).seats h = t := Function.update_self ..

theorem put_seats_of_ne (svc : Service σ κ K Γ) {h j : Nat} (hne : j ≠ h)
    (t : Option (Seat σ K Γ)) (w : World σ κ) : (svc.put h t w).seats j = svc.seats j :=
  Function.update_of_ne hne ..

/-- The session of a request that has one. -/
def session (svc : Service σ κ K Γ) (h : Nat) : Option (Session σ Γ × SamplingParams K) :=
  match svc.seats h with
  | some ⟨params, .decoding s⟩ => some (s, params)
  | _ => none

/-- The sessions after a batch. -/
def putAll (svc : Service σ κ K Γ) (out : List (Nat × Stepped σ Γ)) (w : World σ κ) :
    Service σ κ K Γ where
  world := w
  seats := fun h =>
    match out.lookup h with
    | some (_, s) => (svc.seats h).map fun t => { t with stage := .decoding s }
    | none => svc.seats h

section

variable [Weight K] [DecidableEq κ] (rt : InferenceRuntime σ κ K Γ)

/-- `none`: the request is not at the stage that the action is for. -/
def step (svc : Service σ κ K Γ) : ServiceAction K → Option (Service σ κ K Γ)
  | .start h prompt params =>
    match svc.seats h with
    | some _ => none
    | none =>
      match rt.startIncremental params prompt svc.world with
      | (.error _, w) => some { svc with world := w }
      | (.ok p, w) => some (svc.put h (some ⟨params, .prompt p⟩) w)
  | .advance h maxTokens =>
    match svc.seats h with
    | some ⟨params, .prompt p⟩ =>
      match rt.advancePrefill p maxTokens svc.world with
      | (.error _, p, w) => some (svc.put h none { w with storage := p.seq.drop w.storage })
      | (.ok _, p, w) => some (svc.put h (some ⟨params, .prompt p⟩) w)
    | _ => none
  | .finish h =>
    match svc.seats h with
    | some ⟨params, .prompt p⟩ =>
      if p.remaining = 0 then
        some (svc.put h (some ⟨params, .decoding (rt.finishPrefill p)⟩) svc.world)
      else none
    | _ => none
  | .nextToken h =>
    match svc.session h with
    | some (s, params) =>
      let (_, s, w) := rt.nextToken params s svc.world
      some (svc.put h (some ⟨params, .decoding s⟩) w)
    | none => none
  | .speculate h lookahead =>
    match svc.session h with
    | some (s, params) =>
      let (_, _, s, w) := rt.nextTokensSpeculative params lookahead s [] svc.world
      some (svc.put h (some ⟨params, .decoding s⟩) w)
    | none => none
  | .batch hs =>
    if hs.Nodup ∧ ∀ h ∈ hs, (svc.session h).isSome then
      match rt.nextTokenBatch (hs.filterMap svc.session) svc.world with
      | none => none
      | some (out, w) => some (svc.putAll (hs.zip out) w)
    else none
  | .drop h =>
    match svc.seats h with
    | some ⟨_, .prompt p⟩ =>
      some (svc.put h none { svc.world with storage := p.seq.drop svc.world.storage })
    | some ⟨_, .decoding s⟩ =>
      let st := s.seq.drop svc.world.storage
      let st := match s.draftSeq with
        | some ds => ds.drop st
        | none => st
      some (svc.put h none { svc.world with storage := st })
    | none => none

end

/-! ## The invariant -/

section

variable {rt : InferenceRuntime σ κ K Γ} {law : ReadsBack rt.kvTemplate.storage} {m : TokenModel K}
variable {used : Set (List Token)} {svc svc' : Service σ κ K Γ}

variable (rt law m used) in
/-- A request is in order under the identities `ids` of its two sequences. -/
def SeatOk (ids : Bool → Nat) (t : Seat σ K Γ) (st : σ) : Prop :=
  match t.stage with
  | .prompt p => rt.Filling law m used (ids false) p st
  | .decoding s => rt.InStep law m t.params (ids false) s st ∧
      ∀ ds, s.draftSeq = some ds → rt.DraftHeld law (ids true) ds st

variable (rt law m used) in
/-- Every request is in order, and no two sequences share an identity. -/
structure Orderly (ids : Nat → Bool → Nat) (svc : Service σ κ K Γ) : Prop where
  seat : ∀ h t, svc.seats h = some t → SeatOk rt law m used (ids h) t svc.world.storage
  issued : ∀ h t b, svc.seats h = some t → t.uses b = true →
    ids h b < svc.world.nextSeq.toNat
  apart : ∀ h t b h' t' b', svc.seats h = some t → svc.seats h' = some t' → t.uses b = true →
    t'.uses b' = true → ids h b = ids h' b' → h = h' ∧ b = b'
  entries : svc.world.promptCache.Keeps (rt.Cached law m used)

variable {ids ids' : Nat → Bool → Nat}

theorem Orderly.new (ids : Nat → Bool → Nat) {w : World σ κ} (h : w.promptCache.entries = []) :
    Orderly rt law m used ids (Service.new w) where
  seat := by intro h t ht; cases ht
  issued := by intro h t b ht; cases ht
  apart := by intro h t b h' t' b' ht; cases ht
  entries := by
    intro e he
    rw [show (Service.new w : Service σ κ K Γ).world.promptCache.entries = [] from h] at he
    cases he

/-- A request whose own files are left alone stays in order. -/
theorem SeatOk.elsewhere {own : Bool → Nat} {t : Seat σ K Γ} {st st' : σ}
    (h : SeatOk rt law m used own t st) {changed : List Nat} (honly : OnlyThose law changed st st')
    (hown : ∀ b, t.uses b = true → own b ∉ changed) : SeatOk rt law m used own t st' := by
  obtain ⟨params, stage⟩ := t
  cases stage with
  | prompt p => exact InferenceRuntime.Filling.elsewhere h honly (hown false rfl)
  | decoding s =>
    refine ⟨h.1.elsewhere honly (hown false rfl), fun ds hds => ?_⟩
    exact (h.2 ds hds).apart honly (hown true (by simp [Seat.uses, hds]))

variable (svc svc' ids ids') in
/-- What an action does: it changes the requests `hs`, and files of their sequences or of ones that
begin with it. -/
structure Changes (rt : InferenceRuntime σ κ K Γ) (law : ReadsBack rt.kvTemplate.storage)
    (m : TokenModel K) (used : Set (List Token)) (hs : List Nat) : Prop where
  others : ∀ h, h ∉ hs → svc'.seats h = svc.seats h ∧ ids' h = ids h
  seat : ∀ h t, h ∈ hs → svc'.seats h = some t → SeatOk rt law m used (ids' h) t svc'.world.storage
  /-- A sequence has the identity it had, or it is the one that has begun. -/
  identity : ∃ fresh : Nat × Bool, ∀ h t b, h ∈ hs → svc'.seats h = some t → t.uses b = true →
    (∃ t₀, svc.seats h = some t₀ ∧ t₀.uses b = true ∧ ids' h b = ids h b) ∨
      ((h, b) = fresh ∧ ids' h b = svc.world.nextSeq.toNat ∧
        svc'.world.nextSeq.toNat = svc.world.nextSeq.toNat + 1)
  files : ∃ changed, OnlyThose law changed svc.world.storage svc'.world.storage ∧
    ∀ i ∈ changed, svc.world.nextSeq.toNat ≤ i ∨
      ∃ h t b, h ∈ hs ∧ svc.seats h = some t ∧ t.uses b = true ∧ ids h b = i
  nextSeq : svc.world.nextSeq.toNat ≤ svc'.world.nextSeq.toNat ∧
    svc'.world.nextSeq.toNat ≤ svc.world.nextSeq.toNat + 1
  entries : svc'.world.promptCache.Keeps (rt.Cached law m used)

/-- **Such an action keeps order.** -/
theorem Orderly.changed (ho : Orderly rt law m used ids svc) (hs : List Nat)
    (hc : Changes svc svc' ids ids' rt law m used hs) : Orderly rt law m used ids' svc' := by
  obtain ⟨changed, honly, hchanged⟩ := hc.files
  obtain ⟨fresh, hfresh⟩ := hc.identity
  -- a sequence after the action is one from before, or the one that has begun
  have hcases : ∀ h t b, svc'.seats h = some t → t.uses b = true →
      (∃ t₀, svc.seats h = some t₀ ∧ t₀.uses b = true ∧ ids' h b = ids h b) ∨
        ((h, b) = fresh ∧ ids' h b = svc.world.nextSeq.toNat ∧
          svc'.world.nextSeq.toNat = svc.world.nextSeq.toNat + 1) := by
    intro h t b ht hb
    by_cases hh : h ∈ hs
    · exact hfresh h t b hh ht hb
    · obtain ⟨hseat, hid⟩ := hc.others h hh
      exact Or.inl ⟨t, hseat ▸ ht, hb, by rw [hid]⟩
  refine { seat := ?_, issued := ?_, apart := ?_, entries := hc.entries }
  · intro h t ht
    by_cases hh : h ∈ hs
    · exact hc.seat h t hh ht
    · obtain ⟨hseat, hid⟩ := hc.others h hh
      rw [hseat] at ht
      rw [hid]
      refine (ho.seat h t ht).elsewhere honly fun b hb hmem => ?_
      rcases hchanged _ hmem with hle | ⟨h', t', b', hh', ht', hb', heq⟩
      · exact absurd (ho.issued h t b ht hb) (Nat.not_lt.mpr hle)
      · exact hh ((ho.apart h' t' b' h t b ht' ht hb' hb heq).1 ▸ hh')
  · intro h t b ht hb
    rcases hcases h t b ht hb with ⟨t₀, ht₀, hb₀, hid⟩ | ⟨_, hid, hnext⟩
    · rw [hid]
      exact Nat.lt_of_lt_of_le (ho.issued h t₀ b ht₀ hb₀) hc.nextSeq.1
    · rw [hid, hnext]
      exact Nat.lt_succ_self _
  · intro h t b h' t' b' ht ht' hb hb' heq
    rcases hcases h t b ht hb with ⟨t₀, ht₀, hb₀, hid⟩ | ⟨hf, hid, _⟩
    · have hlt := ho.issued h t₀ b ht₀ hb₀
      rcases hcases h' t' b' ht' hb' with ⟨t₁, ht₁, hb₁, hid'⟩ | ⟨_, hid', _⟩
      · rw [hid, hid'] at heq
        exact ho.apart h t₀ b h' t₁ b' ht₀ ht₁ hb₀ hb₁ heq
      · omega
    · rcases hcases h' t' b' ht' hb' with ⟨t₁, ht₁, hb₁, hid'⟩ | ⟨hf', _, _⟩
      · have hlt := ho.issued h' t₁ b' ht₁ hb₁
        omega
      · exact Prod.mk.inj (hf.trans hf'.symm)

/-- One request changes. -/
theorem Orderly.put (ho : Orderly rt law m used ids svc) {h : Nat} {t' : Option (Seat σ K Γ)}
    {w' : World σ κ} (own : Bool → Nat) (begun : Bool)
    (hseat : ∀ t, t' = some t → SeatOk rt law m used own t w'.storage)
    (hid : ∀ t b, t' = some t → t.uses b = true →
      (∃ t₀, svc.seats h = some t₀ ∧ t₀.uses b = true ∧ own b = ids h b) ∨
        (b = begun ∧ own b = svc.world.nextSeq.toNat ∧
          w'.nextSeq.toNat = svc.world.nextSeq.toNat + 1))
    (hfiles : ∃ changed, OnlyThose law changed svc.world.storage w'.storage ∧
      ∀ i ∈ changed, svc.world.nextSeq.toNat ≤ i ∨
        ∃ t b, svc.seats h = some t ∧ t.uses b = true ∧ ids h b = i)
    (hnext : svc.world.nextSeq.toNat ≤ w'.nextSeq.toNat ∧
      w'.nextSeq.toNat ≤ svc.world.nextSeq.toNat + 1)
    (hentries : w'.promptCache.Keeps (rt.Cached law m used)) :
    Orderly rt law m used (Function.update ids h own) (svc.put h t' w') := by
  refine ho.changed [h]
    { others := ?_
      seat := ?_
      identity := ⟨(h, begun), ?_⟩
      files := ?_
      nextSeq := hnext
      entries := hentries }
  · intro j hj
    have hne : j ≠ h := by simpa using hj
    exact ⟨put_seats_of_ne _ hne _ _, Function.update_of_ne hne _ _⟩
  · intro j t hj ht
    obtain rfl : j = h := by simpa using hj
    rw [Function.update_self]
    rw [put_seats_self] at ht
    exact hseat t ht
  · intro j t b hj ht hb
    obtain rfl : j = h := by simpa using hj
    rw [Function.update_self]
    rw [put_seats_self] at ht
    refine (hid t b ht hb).imp id ?_
    rintro ⟨rfl, hown, hone⟩
    exact ⟨rfl, hown, hone⟩
  · obtain ⟨changed, honly, hchanged⟩ := hfiles
    refine ⟨changed, honly, fun i hi => (hchanged i hi).imp id ?_⟩
    rintro ⟨t, b, ht, hb, hid⟩
    exact ⟨h, t, b, List.mem_singleton_self h, ht, hb, hid⟩

/-- One request goes on with the sequences it has, or goes. -/
theorem Orderly.goesOn (ho : Orderly rt law m used ids svc) {h : Nat} {t : Seat σ K Γ}
    (ht : svc.seats h = some t) {t' : Option (Seat σ K Γ)} {w' : World σ κ}
    (hseat : ∀ u, t' = some u → SeatOk rt law m used (ids h) u w'.storage ∧
      ∀ b, u.uses b = true → t.uses b = true)
    {changed : List Nat} (honly : OnlyThose law changed svc.world.storage w'.storage)
    (hchanged : ∀ i ∈ changed, ∃ b, t.uses b = true ∧ ids h b = i)
    (hnext : w'.nextSeq = svc.world.nextSeq)
    (hentries : w'.promptCache.Keeps (rt.Cached law m used)) :
    Orderly rt law m used ids (svc.put h t' w') := by
  have hput : Orderly rt law m used (Function.update ids h (ids h)) (svc.put h t' w') :=
    ho.put (ids h) false (fun u hu => (hseat u hu).1)
      (fun u b hu hb => Or.inl ⟨t, ht, (hseat u hu).2 b hb, rfl⟩)
      ⟨changed, honly, fun i hi => by
        obtain ⟨b, hb, hid⟩ := hchanged i hi
        exact Or.inr ⟨t, b, ht, hb, hid⟩⟩
      (by rw [hnext]; exact ⟨Nat.le_refl _, Nat.le_succ _⟩) hentries
  rwa [Function.update_eq_self] at hput

end

/-! ## Every action keeps the invariant -/

section

variable [Weight K] [DecidableEq κ] {rt : InferenceRuntime σ κ K Γ}
variable {law : ReadsBack rt.kvTemplate.storage} {m : TokenModel K} {used : Set (List Token)}
variable {svc svc' : Service σ κ K Γ} {ids : Nat → Bool → Nat}

theorem Orderly.start (ho : Orderly rt law m used ids svc)
    (hroom : svc.world.nextSeq.toNat + 1 < 2 ^ 64) {h : Nat} {prompt : List Token}
    {params : SamplingParams K} (hused : prompt.dropLast ∈ used)
    (hstep : step rt svc (.start h prompt params) = some svc') :
    ∃ ids', Orderly rt law m used ids' svc' ∧
      svc'.world.nextSeq.toNat ≤ svc.world.nextSeq.toNat + 1 := by
  cases hseat : svc.seats h with
  | some t => simp [step, hseat] at hstep
  | none =>
    cases hstart : rt.startIncremental params prompt svc.world with
    | mk res w' =>
      simp only [step, hseat, hstart] at hstep
      cases res with
      | error e =>
        obtain rfl := Option.some.inj hstep
        rw [InferenceRuntime.startIncremental_error hstart]
        exact ⟨ids, ho, Nat.le_succ _⟩
      | ok p =>
        obtain rfl := Option.some.inj hstep
        obtain ⟨hfill, _, hst, hnext, hentries⟩ :=
          InferenceRuntime.startIncremental_filling ho.entries hused hroom hstart
        refine ⟨_, ho.put (fun _ => svc.world.nextSeq.toNat) false ?_ ?_ ?_ ?_ hentries,
          Nat.le_of_eq hnext⟩
        · intro t ht
          obtain rfl := Option.some.inj ht
          rw [hst]
          exact hfill
        · intro t b ht hb
          obtain rfl := Option.some.inj ht
          cases b with
          | false => exact Or.inr ⟨rfl, rfl, hnext⟩
          | true => cases hb
        · exact ⟨[], by rw [hst]; exact OnlyThose.refl _ _, by simp⟩
        · omega

theorem Orderly.advance (hb : rt.backend.Conforms m law) (hinj : Set.InjOn rt.promptKey used)
    (ho : Orderly rt law m used ids svc) {h maxTokens : Nat}
    (hstep : step rt svc (.advance h maxTokens) = some svc') :
    Orderly rt law m used ids svc' ∧ svc'.world.nextSeq = svc.world.nextSeq := by
  cases hseat : svc.seats h with
  | none => simp [step, hseat] at hstep
  | some t =>
    obtain ⟨params, stage⟩ := t
    cases stage with
    | decoding s => simp [step, hseat] at hstep
    | prompt p =>
      obtain ⟨⟨vs, hheld⟩, hfill, hown, hnext, hentries⟩ :=
        InferenceRuntime.advancePrefill_filling hb ho.entries hinj (ho.seat h _ hseat) maxTokens
      have hmine : ∀ i ∈ [ids h false], ∃ b, (Seat.mk params (.prompt p : Stage σ Γ)).uses b = true ∧
          ids h b = i := fun i hi => ⟨false, rfl, (List.mem_singleton.mp hi).symm⟩
      simp only [step, hseat] at hstep
      generalize rt.advancePrefill p maxTokens svc.world = out
        at hstep hheld hfill hown hnext hentries
      obtain ⟨res, p', w'⟩ := out
      replace hown : OnlySequence law (ids h false) svc.world.storage w'.storage := hown
      cases res with
      | ok done =>
        obtain rfl := Option.some.inj hstep
        refine ⟨ho.goesOn hseat (fun u hu => ?_) (hown.those (List.mem_singleton_self _)) hmine hnext
          hentries, hnext⟩
        obtain rfl := Option.some.inj hu
        exact ⟨hfill done rfl, fun b hb => hb⟩
      | error e =>
        obtain rfl := Option.some.inj hstep
        have hgone : OnlySequence law (ids h false) svc.world.storage (p'.seq.drop w'.storage) :=
          fun q hq => (hheld.drop_own q hq).trans (hown q hq)
        exact ⟨ho.goesOn hseat (fun u hu => by cases hu) (hgone.those (List.mem_singleton_self _))
          hmine hnext hentries, hnext⟩

omit [DecidableEq κ] [Weight K] in
theorem session_eq_some {h : Nat} {s : Session σ Γ} {params : SamplingParams K}
    (hs : svc.session h = some (s, params)) : svc.seats h = some ⟨params, .decoding s⟩ := by
  unfold session at hs
  split at hs
  · next params' s' hseat =>
    obtain ⟨rfl, rfl⟩ := Prod.mk.inj (Option.some.inj hs)
    exact hseat
  · cases hs

theorem Orderly.finish (ho : Orderly rt law m used ids svc) {h : Nat}
    (hstep : step rt svc (.finish h) = some svc') :
    Orderly rt law m used ids svc' ∧ svc'.world.nextSeq = svc.world.nextSeq := by
  cases hseat : svc.seats h with
  | none => simp [step, hseat] at hstep
  | some t =>
    obtain ⟨params, stage⟩ := t
    cases stage with
    | decoding s => simp [step, hseat] at hstep
    | prompt p =>
      simp only [step, hseat] at hstep
      split at hstep
      · next hin =>
        obtain rfl := Option.some.inj hstep
        refine ⟨ho.goesOn hseat (fun u hu => ?_) (OnlyThose.refl [] _) (by simp) rfl ho.entries, rfl⟩
        obtain rfl := Option.some.inj hu
        refine ⟨⟨InferenceRuntime.Filling.inStep (ho.seat h _ hseat) hin params,
          fun ds hds => by cases hds⟩, fun b hb => ?_⟩
        cases b with
        | false => rfl
        | true => cases hb
      · cases hstep

theorem Orderly.nextToken (hb : rt.backend.Conforms m law) (ho : Orderly rt law m used ids svc)
    {h : Nat} (hstep : step rt svc (.nextToken h) = some svc') :
    Orderly rt law m used ids svc' ∧ svc'.world.nextSeq = svc.world.nextSeq := by
  cases hs : svc.session h with
  | none => simp [step, hs] at hstep
  | some slot =>
    obtain ⟨s, params⟩ := slot
    have hseat := session_eq_some hs
    obtain ⟨hin, hdraft⟩ := ho.seat h _ hseat
    obtain ⟨hleaves, hown, hworld⟩ := InferenceRuntime.nextToken_inStep hb hin
    simp only [step, hs] at hstep
    generalize rt.nextToken params s svc.world = out at hstep hleaves hown hworld
    obtain ⟨res, s', w'⟩ := out
    obtain rfl := Option.some.inj hstep
    replace hown : OnlySequence law (ids h false) svc.world.storage w'.storage := hown
    replace hworld : w' = { svc.world with storage := w'.storage } := hworld
    have honly := hown.those (List.mem_singleton_self (ids h false))
    have hsame : s'.draftSeq = s.draftSeq := hleaves.draftSeq
    have hnext : w'.nextSeq = svc.world.nextSeq := by rw [hworld]
    refine ⟨ho.goesOn hseat (fun u hu => ?_) honly
      (fun i hi => ⟨false, rfl, (List.mem_singleton.mp hi).symm⟩) hnext
      (by rw [hworld]; exact ho.entries), hnext⟩
    obtain rfl := Option.some.inj hu
    refine ⟨⟨hleaves.inStep, fun ds hds => ?_⟩, fun b hb => ?_⟩
    · rw [hsame] at hds
      refine (hdraft ds hds).apart honly ?_
      rw [List.mem_singleton]
      intro heq
      cases (ho.apart h _ true h _ false hseat hseat (by simp [Seat.uses, hds]) rfl heq).2
    · cases b with
      | false => rfl
      | true => simpa [Seat.uses, hsame] using hb

theorem Orderly.speculate (hb : rt.backend.Conforms m law) (hd : rt.DraftsApart law)
    (hroom : svc.world.nextSeq.toNat + 1 < 2 ^ 64) (ho : Orderly rt law m used ids svc)
    {h lookahead : Nat} (hstep : step rt svc (.speculate h lookahead) = some svc') :
    ∃ ids', Orderly rt law m used ids' svc' ∧
      svc'.world.nextSeq.toNat ≤ svc.world.nextSeq.toNat + 1 := by
  cases hs : svc.session h with
  | none => simp [step, hs] at hstep
  | some slot =>
    obtain ⟨s, params⟩ := slot
    have hseat := session_eq_some hs
    obtain ⟨hin, hdraft⟩ := ho.seat h _ hseat
    have huses : ∀ {ds}, s.draftSeq = some ds →
        (Seat.mk params (.decoding s : Stage σ Γ)).uses true = true := by
      intro ds hds
      simp [Seat.uses, hds]
    -- the identity of the draft model's sequence, old or new
    obtain ⟨draftId, hold, hfresh⟩ : ∃ draftId, (∀ ds, s.draftSeq = some ds → draftId = ids h true) ∧
        (s.draftSeq = none → draftId = svc.world.nextSeq.toNat) := by
      cases hds : s.draftSeq with
      | none =>
        refine ⟨svc.world.nextSeq.toNat, ?_, fun _ => rfl⟩
        intro ds hds
        cases hds
      | some ds =>
        refine ⟨ids h true, fun _ _ => rfl, ?_⟩
        intro hnone
        cases hnone
    have hheld : ∀ ds, s.draftSeq = some ds → rt.DraftHeld law draftId ds svc.world.storage := by
      intro ds hds
      rw [hold ds hds]
      exact hdraft ds hds
    have hne : ids h false ≠ draftId := by
      intro heq
      cases hds : s.draftSeq with
      | none =>
        have hlt := ho.issued h _ false hseat rfl
        rw [heq, hfresh hds] at hlt
        exact Nat.lt_irrefl _ hlt
      | some ds =>
        rw [hold ds hds] at heq
        cases (ho.apart h _ false h _ true hseat hseat rfl (huses hds) heq).2
    obtain ⟨hin', hdrafts⟩ :=
      InferenceRuntime.nextTokensSpeculative_inStep hb hd hin hheld hfresh hne lookahead []
    simp only [step, hs] at hstep
    generalize rt.nextTokensSpeculative params lookahead s [] svc.world = out at hstep hin' hdrafts
    obtain ⟨res, out, s', w'⟩ := out
    obtain rfl := Option.some.inj hstep
    have hone : (svc.world.nextSeq + 1).toNat = svc.world.nextSeq.toNat + 1 := by
      rw [UInt64.toNat_add]
      exact Nat.mod_eq_of_lt hroom
    have hle : svc.world.nextSeq.toNat ≤ w'.nextSeq.toNat ∧
        w'.nextSeq.toNat ≤ svc.world.nextSeq.toNat + 1 := by
      rcases hdrafts.nextSeq with hnext | ⟨_, hnext⟩
      · replace hnext : w'.nextSeq = svc.world.nextSeq := hnext
        rw [hnext]
        exact ⟨Nat.le_refl _, Nat.le_succ _⟩
      · replace hnext : w'.nextSeq = svc.world.nextSeq + 1 := hnext
        rw [hnext, hone]
        exact ⟨Nat.le_succ _, Nat.le_refl _⟩
    refine ⟨_, ho.put (fun b => if b then draftId else ids h false) true ?_ ?_ ?_ hle
      (hdrafts.promptCache ▸ ho.entries), hle.2⟩
    · intro t ht
      obtain rfl := Option.some.inj ht
      exact ⟨hin', hdrafts.held⟩
    · intro t b ht hb'
      obtain rfl := Option.some.inj ht
      cases b with
      | false => exact Or.inl ⟨_, hseat, rfl, rfl⟩
      | true =>
        have hsome : s'.draftSeq ≠ none := by
          intro hnone
          simp [Seat.uses, hnone] at hb'
        cases hds : s.draftSeq with
        | some ds => exact Or.inl ⟨_, hseat, huses hds, hold ds hds⟩
        | none =>
          refine Or.inr ⟨rfl, hfresh hds, ?_⟩
          rcases hdrafts.begun hsome with hbefore | hnext
          · exact absurd hds hbefore
          · exact (congrArg UInt64.toNat hnext).trans hone
    · refine ⟨[ids h false, draftId], hdrafts.own, fun i hi => ?_⟩
      rcases List.mem_cons.mp hi with rfl | hi
      · exact Or.inr ⟨_, false, hseat, rfl, rfl⟩
      · obtain rfl := List.mem_singleton.mp hi
        cases hds : s.draftSeq with
        | none => exact Or.inl (Nat.le_of_eq (hfresh hds).symm)
        | some ds => exact Or.inr ⟨_, true, hseat, huses hds, (hold ds hds).symm⟩

omit [DecidableEq κ] [Weight K] in
theorem Orderly.session (ho : Orderly rt law m used ids svc) {h : Nat} {s : Session σ Γ}
    {params : SamplingParams K} (hs : svc.session h = some (s, params)) :
    rt.InStep law m params (ids h false) s svc.world.storage ∧
      ∀ ds, s.draftSeq = some ds → rt.DraftHeld law (ids h true) ds svc.world.storage :=
  ho.seat h _ (session_eq_some hs)

omit [DecidableEq κ] [Weight K] in
/-- The sessions of a batch, with their identities. -/
theorem Orderly.slots (ho : Orderly rt law m used ids svc) : ∀ {hs : List Nat},
    (∀ h ∈ hs, (svc.session h).isSome) →
    ∃ slots : List (Nat × Session σ Γ × SamplingParams K),
      slots.map Prod.snd = hs.filterMap svc.session ∧ slots.map Prod.fst = hs.map (ids · false) ∧
      (∀ x ∈ slots, rt.InStep law m x.2.2 x.1 x.2.1 svc.world.storage) ∧
      ∀ {st : σ} {out : List (Stepped σ Γ)},
        List.Forall₂ (fun (x : Nat × Session σ Γ × SamplingParams K) (o : Stepped σ Γ) =>
          rt.Leaves law m x.2.2 x.1 x.2.1 o.2 st) slots out →
        List.Forall₂ (fun h (o : Stepped σ Γ) => ∃ s params, svc.session h = some (s, params) ∧
          rt.Leaves law m params (ids h false) s o.2 st) hs out := by
  intro hs
  induction hs with
  | nil => exact fun _ => ⟨[], rfl, rfl, by simp, fun h => by cases h; exact .nil⟩
  | cons h hs ih =>
    intro hsome
    rw [List.forall_mem_cons] at hsome
    obtain ⟨slots, hsnd, hfst, hin, hrel⟩ := ih hsome.2
    obtain ⟨⟨s, params⟩, hs'⟩ := Option.isSome_iff_exists.mp hsome.1
    refine ⟨(ids h false, s, params) :: slots, ?_, ?_, ?_, ?_⟩
    · rw [List.map_cons, List.filterMap_cons, hs', hsnd]
    · rw [List.map_cons, List.map_cons, hfst]
    · exact List.forall_mem_cons.mpr ⟨(ho.session hs').1, hin⟩
    · intro st out hout
      cases hout with
      | cons hfirst hothers => exact .cons ⟨s, params, hs', hfirst⟩ (hrel hothers)

omit [DecidableEq κ] [Weight K] in
/-- What a batch leaves under a handle. -/
theorem putAll_seats {hs : List Nat} {out : List (Stepped σ Γ)} (hlen : hs.length = out.length)
    (w : World σ κ) (h : Nat) :
    (h ∉ hs → (svc.putAll (hs.zip out) w).seats h = svc.seats h) ∧
      (h ∈ hs → ∃ o, (h, o) ∈ hs.zip out ∧ (svc.putAll (hs.zip out) w).seats h
        = (svc.seats h).map fun t => { t with stage := .decoding o.2 }) := by
  unfold putAll
  cases hlookup : (hs.zip out).lookup h with
  | some o =>
    obtain ⟨_, _, hzip, _⟩ := List.lookup_eq_some_iff.mp hlookup
    have hmem : (h, o) ∈ hs.zip out := by rw [hzip]; simp
    exact ⟨fun hh => absurd (List.of_mem_zip hmem).1 hh, fun _ => ⟨o, hmem, by simp only [hlookup]⟩⟩
  | none =>
    refine ⟨fun _ => by simp only [hlookup], fun hh => ?_⟩
    rw [← List.map_fst_zip (Nat.le_of_eq hlen)] at hh
    obtain ⟨p, hp, rfl⟩ := List.mem_map.mp hh
    exact absurd (List.lookup_eq_none_iff.mp hlookup p hp) (by simp)

theorem Orderly.batch (hb : rt.backend.Conforms m law) (ho : Orderly rt law m used ids svc)
    {hs : List Nat} (hstep : step rt svc (.batch hs) = some svc') :
    Orderly rt law m used ids svc' ∧ svc'.world.nextSeq = svc.world.nextSeq ∧
      ∃ out w', svc' = svc.putAll (hs.zip out) w' ∧
        List.Forall₂ (fun h (o : Stepped σ Γ) => ∃ s params, svc.session h = some (s, params) ∧
          rt.Leaves law m params (ids h false) s o.2 w'.storage) hs out := by
  simp only [step] at hstep
  split at hstep
  · next hready =>
    obtain ⟨hnodup, hsome⟩ := hready
    obtain ⟨slots, hsnd, hfst, hin, hrel⟩ := ho.slots hsome
    have hids : (slots.map Prod.fst).Nodup := by
      rw [hfst]
      refine List.Nodup.map_on ?_ hnodup
      intro h hh h' hh' heq
      obtain ⟨x, hx⟩ := Option.isSome_iff_exists.mp (hsome h hh)
      obtain ⟨x', hx'⟩ := Option.isSome_iff_exists.mp (hsome h' hh')
      exact (ho.apart h _ false h' _ false (session_eq_some hx) (session_eq_some hx') rfl rfl heq).1
    obtain ⟨out, w', hout, hleaves, hown, hworld⟩ :=
      InferenceRuntime.nextTokenBatch_inStep hb hids hin
    rw [hsnd] at hout
    rw [hfst] at hown
    simp only [hout] at hstep
    obtain rfl := Option.some.inj hstep
    have hpaired := hrel hleaves
    have hnext : w'.nextSeq = svc.world.nextSeq := by rw [hworld]
    refine ⟨?_, hnext, out, w', rfl, hpaired⟩
    obtain ⟨hlen, hzip⟩ := List.forall₂_iff_zip.mp hpaired
    -- a session after the batch
    have hafter : ∀ h t, h ∈ hs → (svc.putAll (hs.zip out) w').seats h = some t →
        ∃ s params o, svc.session h = some (s, params) ∧
          rt.Leaves law m params (ids h false) s o w'.storage ∧ t = ⟨params, .decoding o⟩ := by
      intro h t hh ht
      obtain ⟨o, hmem, hseat⟩ := (putAll_seats hlen w' h).2 hh
      obtain ⟨s, params, hs', hleaves⟩ := hzip hmem
      rw [hseat, session_eq_some hs'] at ht
      exact ⟨s, params, o.2, hs', hleaves, (Option.some.inj ht).symm⟩
    refine ho.changed hs
      { others := fun h hh => ⟨(putAll_seats hlen w' h).1 hh, rfl⟩
        seat := ?_
        identity := ⟨(0, false), fun h t b hh ht hb' => Or.inl ?_⟩
        files := ⟨hs.map (ids · false), hown, fun i hi => Or.inr ?_⟩
        nextSeq := by
          show _ ≤ w'.nextSeq.toNat ∧ w'.nextSeq.toNat ≤ _
          rw [hnext]
          exact ⟨Nat.le_refl _, Nat.le_succ _⟩
        entries := by
          show w'.promptCache.Keeps _
          rw [hworld]
          exact ho.entries }
    · intro h t hh ht
      obtain ⟨s, params, s', hs', hleaves, rfl⟩ := hafter h t hh ht
      refine ⟨hleaves.inStep, fun ds hds => ?_⟩
      rw [hleaves.draftSeq] at hds
      refine ((ho.session hs').2 ds hds).apart hown fun hmem => ?_
      obtain ⟨j, hj, heq⟩ := List.mem_map.mp hmem
      obtain ⟨x, hx⟩ := Option.isSome_iff_exists.mp (hsome j hj)
      cases (ho.apart j _ false h _ true (session_eq_some hx) (session_eq_some hs') rfl
        (by simp [Seat.uses, hds]) heq).2
    · obtain ⟨s, params, s', hs', hleaves, rfl⟩ := hafter h t hh ht
      refine ⟨_, session_eq_some hs', ?_, rfl⟩
      cases b with
      | false => rfl
      | true => simpa [Seat.uses, hleaves.draftSeq] using hb'
    · obtain ⟨h, hh, rfl⟩ := List.mem_map.mp hi
      obtain ⟨x, hx⟩ := Option.isSome_iff_exists.mp (hsome h hh)
      exact ⟨h, _, false, hh, session_eq_some hx, rfl, rfl⟩
  · cases hstep

theorem Orderly.drop (ho : Orderly rt law m used ids svc) {h : Nat}
    (hstep : step rt svc (.drop h) = some svc') :
    Orderly rt law m used ids svc' ∧ svc'.world.nextSeq = svc.world.nextSeq := by
  cases hseat : svc.seats h with
  | none => simp [step, hseat] at hstep
  | some t =>
    obtain ⟨params, stage⟩ := t
    cases stage with
    | prompt p =>
      simp only [step, hseat] at hstep
      obtain rfl := Option.some.inj hstep
      have hfill : rt.Filling law m used (ids h false) p svc.world.storage := ho.seat h _ hseat
      exact ⟨ho.goesOn hseat (fun u hu => by cases hu)
        (hfill.stands.layers.drop_own.those (List.mem_singleton_self _))
        (fun i hi => ⟨false, rfl, (List.mem_singleton.mp hi).symm⟩) rfl ho.entries, rfl⟩
    | decoding s =>
      obtain ⟨hin, hdraft⟩ : rt.InStep law m params (ids h false) s svc.world.storage ∧
        ∀ ds, s.draftSeq = some ds → rt.DraftHeld law (ids h true) ds svc.world.storage :=
        ho.seat h _ hseat
      obtain ⟨vs, hheld⟩ := hin.held
      have hown := hheld.drop_own
      simp only [step, hseat] at hstep
      cases hds : s.draftSeq with
      | none =>
        simp only [hds] at hstep
        obtain rfl := Option.some.inj hstep
        exact ⟨ho.goesOn hseat (fun u hu => by cases hu) (hown.those (List.mem_singleton_self _))
          (fun i hi => ⟨false, rfl, (List.mem_singleton.mp hi).symm⟩) rfl ho.entries, rfl⟩
      | some ds =>
        simp only [hds] at hstep
        obtain rfl := Option.some.inj hstep
        have huses : (Seat.mk params (.decoding s : Stage σ Γ)).uses true = true := by
          simp [Seat.uses, hds]
        have hne : ids h true ∉ [ids h false] := by
          rw [List.mem_singleton]
          intro heq
          cases (ho.apart h _ true h _ false hseat hseat huses rfl heq).2
        have hdown := ((hdraft ds hds).apart (hown.those (List.mem_singleton_self _)) hne).drop_own
        have hboth : OnlyThose law [ids h false, ids h true] svc.world.storage
            (ds.drop (s.seq.drop svc.world.storage)) :=
          (hown.those List.mem_cons_self).trans (hdown.those (by simp))
        refine ⟨ho.goesOn hseat (fun u hu => by cases hu) hboth (fun i hi => ?_) rfl ho.entries, rfl⟩
        rcases List.mem_cons.mp hi with rfl | hi
        · exact ⟨false, rfl, rfl⟩
        · exact ⟨true, huses, (List.mem_singleton.mp hi).symm⟩

/-- The prefixes of the prompts that are started, which are what the prompt cache is asked for. -/
def prefixes (actions : List (ServiceAction K)) : Set (List Token) :=
  { ts | ∃ h prompt params, .start h prompt params ∈ actions ∧ ts = prompt.dropLast }

/-- **Any action** keeps order, and takes at most one identity. -/
theorem Orderly.step (hb : rt.backend.Conforms m law) (hd : rt.DraftsApart law)
    (hinj : Set.InjOn rt.promptKey used) (ho : Orderly rt law m used ids svc)
    (hroom : svc.world.nextSeq.toNat + 1 < 2 ^ 64) {a : ServiceAction K}
    (hused : prefixes [a] ⊆ used) (hstep : step rt svc a = some svc') :
    ∃ ids', Orderly rt law m used ids' svc' ∧
      svc'.world.nextSeq.toNat ≤ svc.world.nextSeq.toNat + 1 := by
  have hsame : Orderly rt law m used ids svc' ∧ svc'.world.nextSeq = svc.world.nextSeq →
      ∃ ids', Orderly rt law m used ids' svc' ∧
        svc'.world.nextSeq.toNat ≤ svc.world.nextSeq.toNat + 1 := by
    rintro ⟨ho', hnext⟩
    exact ⟨ids, ho', by rw [hnext]; exact Nat.le_succ _⟩
  cases a with
  | start h prompt params =>
    exact ho.start hroom (hused ⟨h, prompt, params, List.mem_singleton_self _, rfl⟩) hstep
  | advance h maxTokens => exact hsame (ho.advance hb hinj hstep)
  | finish h => exact hsame (ho.finish hstep)
  | nextToken h => exact hsame (ho.nextToken hb hstep)
  | speculate h lookahead => exact ho.speculate hb hd hroom hstep
  | batch hs => exact hsame ⟨(ho.batch hb hstep).1, (ho.batch hb hstep).2.1⟩
  | drop h => exact hsame (ho.drop hstep)

/-- **Any run** keeps order. -/
theorem Orderly.run (hb : rt.backend.Conforms m law) (hd : rt.DraftsApart law)
    (hinj : Set.InjOn rt.promptKey used) : ∀ {actions : List (ServiceAction K)}
    {svc svc' : Service σ κ K Γ} {ids : Nat → Bool → Nat}, Orderly rt law m used ids svc →
    svc.world.nextSeq.toNat + actions.length < 2 ^ 64 → prefixes actions ⊆ used →
    runList (Service.step rt) actions svc = some svc' → ∃ ids', Orderly rt law m used ids' svc' ∧
      svc'.world.nextSeq.toNat ≤ svc.world.nextSeq.toNat + actions.length := by
  intro actions
  induction actions with
  | nil =>
    intro svc svc' ids ho _ _ hrun
    rw [← Option.some.inj hrun]
    exact ⟨ids, ho, Nat.le_refl _⟩
  | cons a actions ih =>
    intro svc svc' ids ho hroom hused hrun
    obtain ⟨mid, hmid, hrun⟩ := runList_cons.mp hrun
    rw [List.length_cons] at hroom ⊢
    obtain ⟨ids₁, ho₁, hnext₁⟩ := ho.step hb hd hinj (by omega)
      (fun ts ⟨h, prompt, params, hmem, hts⟩ => hused ⟨h, prompt, params,
        List.mem_cons.mpr (Or.inl (List.mem_singleton.mp hmem)), hts⟩) hmid
    obtain ⟨ids₂, ho₂, hnext₂⟩ := ih ho₁ (by omega)
      (fun ts ⟨h, prompt, params, hmem, hts⟩ => hused ⟨h, prompt, params,
        List.mem_cons_of_mem _ hmem, hts⟩) hrun
    exact ⟨ids₂, ho₂, by omega⟩

/-- A finished session stays as it is, until it is dropped. -/
theorem Orderly.finished_step (hb : rt.backend.Conforms m law)
    (ho : Orderly rt law m used ids svc) {h : Nat} {params : SamplingParams K} {s : Session σ Γ}
    (hseat : svc.seats h = some ⟨params, .decoding s⟩) (hf : s.finished = true)
    {a : ServiceAction K} (ha : a ≠ .drop h) (hstep : Service.step rt svc a = some svc') :
    ∃ s' : Session σ Γ, svc'.seats h = some ⟨params, .decoding s'⟩ ∧ s'.finished = true ∧
      s'.context = s.context := by
  have hsession : svc.session h = some (s, params) := by
    unfold Service.session
    rw [hseat]
  have hother : ∀ {j : Nat} (t : Option (Seat σ K Γ)) (w : World σ κ), h ≠ j →
      ∃ s' : Session σ Γ, (svc.put j t w).seats h = some ⟨params, .decoding s'⟩ ∧
        s'.finished = true ∧ s'.context = s.context := by
    intro j t w hne
    exact ⟨s, by rw [put_seats_of_ne svc hne, hseat], hf, rfl⟩
  have hapart : ∀ {j : Nat}, svc.seats j ≠ some ⟨params, .decoding s⟩ → h ≠ j := by
    rintro j hj rfl
    exact hj hseat
  cases a with
  | start j prompt params' =>
    cases hj : svc.seats j with
    | some t => simp [Service.step, hj] at hstep
    | none =>
      have hne : h ≠ j := hapart (by rw [hj]; nofun)
      simp only [Service.step, hj] at hstep
      split at hstep
      · obtain rfl := Option.some.inj hstep
        exact ⟨s, hseat, hf, rfl⟩
      · obtain rfl := Option.some.inj hstep
        exact hother _ _ hne
  | advance j maxTokens =>
    simp only [Service.step] at hstep
    split at hstep
    · next params' p hj =>
      have hne : h ≠ j := hapart (by rw [hj]; nofun)
      split at hstep
      · obtain rfl := Option.some.inj hstep
        exact hother _ _ hne
      · obtain rfl := Option.some.inj hstep
        exact hother _ _ hne
    · cases hstep
  | finish j =>
    simp only [Service.step] at hstep
    split at hstep
    · next params' p hj =>
      have hne : h ≠ j := hapart (by rw [hj]; nofun)
      split at hstep
      · obtain rfl := Option.some.inj hstep
        exact hother _ _ hne
      · cases hstep
    · cases hstep
  | nextToken j =>
    simp only [Service.step] at hstep
    split at hstep
    · next s₁ params' hj =>
      obtain rfl := Option.some.inj hstep
      by_cases hne : h = j
      · subst hne
        obtain ⟨rfl, rfl⟩ := Prod.mk.inj (Option.some.inj (hsession.symm.trans hj))
        rw [InferenceRuntime.nextToken_finished hf]
        exact ⟨s, put_seats_self .., hf, rfl⟩
      · exact hother _ _ hne
    · cases hstep
  | speculate j lookahead =>
    simp only [Service.step] at hstep
    split at hstep
    · next s₁ params' hj =>
      obtain rfl := Option.some.inj hstep
      by_cases hne : h = j
      · subst hne
        obtain ⟨rfl, rfl⟩ := Prod.mk.inj (Option.some.inj (hsession.symm.trans hj))
        rw [InferenceRuntime.nextTokensSpeculative_finished hf]
        exact ⟨s, put_seats_self .., hf, rfl⟩
      · exact hother _ _ hne
    · cases hstep
  | batch hs =>
    obtain ⟨_, _, out, w', rfl, hpaired⟩ := ho.batch hb hstep
    obtain ⟨hlen, hzip⟩ := List.forall₂_iff_zip.mp hpaired
    by_cases hh : h ∈ hs
    · obtain ⟨o, hmem, hafter⟩ := (putAll_seats hlen w' h).2 hh
      obtain ⟨s₁, params', hs', hleaves⟩ := hzip hmem
      obtain ⟨rfl, rfl⟩ := Prod.mk.inj (Option.some.inj (hsession.symm.trans hs'))
      obtain ⟨hf', hcontext⟩ := hleaves.finished hf
      exact ⟨o.2, by rw [hafter, hseat]; rfl, hf', hcontext⟩
    · exact ⟨s, by rw [(putAll_seats hlen w' h).1 hh, hseat], hf, rfl⟩
  | drop j =>
    have hne : h ≠ j := fun heq => ha (heq ▸ rfl)
    simp only [Service.step] at hstep
    split at hstep
    · obtain rfl := Option.some.inj hstep
      exact hother _ _ hne
    · obtain rfl := Option.some.inj hstep
      exact hother _ _ hne
    · cases hstep

/-- It stays so over any run without that drop. -/
theorem Orderly.finished_run (hb : rt.backend.Conforms m law) (hd : rt.DraftsApart law)
    (hinj : Set.InjOn rt.promptKey used) {h : Nat} {params : SamplingParams K} :
    ∀ {actions : List (ServiceAction K)} {svc svc' : Service σ κ K Γ} {ids : Nat → Bool → Nat}
      {s : Session σ Γ}, Orderly rt law m used ids svc →
      svc.world.nextSeq.toNat + actions.length < 2 ^ 64 → prefixes actions ⊆ used →
      svc.seats h = some ⟨params, .decoding s⟩ → s.finished = true → .drop h ∉ actions →
      runList (Service.step rt) actions svc = some svc' →
      ∃ s' : Session σ Γ, svc'.seats h = some ⟨params, .decoding s'⟩ ∧ s'.finished = true ∧
        s'.context = s.context := by
  intro actions
  induction actions with
  | nil =>
    intro svc svc' ids s _ _ _ hseat hf _ hrun
    rw [← Option.some.inj hrun]
    exact ⟨s, hseat, hf, rfl⟩
  | cons a actions ih =>
    intro svc svc' ids s ho hroom hused hseat hf hdrop hrun
    obtain ⟨mid, hmid, hrun⟩ := runList_cons.mp hrun
    rw [List.length_cons] at hroom
    rw [List.mem_cons, not_or] at hdrop
    obtain ⟨ids₁, ho₁, hnext₁⟩ := ho.step hb hd hinj (by omega)
      (fun ts ⟨j, prompt, params, hmem, hts⟩ => hused ⟨j, prompt, params,
        List.mem_cons.mpr (Or.inl (List.mem_singleton.mp hmem)), hts⟩) hmid
    obtain ⟨s₁, hseat₁, hf₁, hcontext₁⟩ := ho.finished_step hb hseat hf (Ne.symm hdrop.1) hmid
    obtain ⟨s₂, hseat₂, hf₂, hcontext₂⟩ := ih ho₁ (by omega)
      (fun ts ⟨j, prompt, params, hmem, hts⟩ => hused ⟨j, prompt, params,
        List.mem_cons_of_mem _ hmem, hts⟩) hseat₁ hf₁ hdrop.2 hrun
    exact ⟨s₂, hseat₂, hf₂, hcontext₂.trans hcontext₁⟩

/-! ## Session and cache stay in step -/

variable (rt law m) in
/-- **Session and cache stay in step.** In every state that actions on a runtime lead to, in any
order: the caches of an unfinished session hold its context but for the last token, its bounds are
kept, and a finished session stays finished with the context it has, whatever follows. -/
theorem session_in_step (hb : rt.backend.Conforms m law) (hd : rt.DraftsApart law)
    (w : World σ κ) (hempty : w.promptCache.entries = []) (actions more : List (ServiceAction K))
    (hids : w.nextSeq.toNat + (actions ++ more).length < 2 ^ 64)
    (hkeys : Set.InjOn rt.promptKey (prefixes (actions ++ more)))
    (hrun : runList (Service.step rt) actions (Service.new w) = some svc) {h : Nat}
    {params : SamplingParams K} {s : Session σ Γ}
    (hseat : svc.seats h = some ⟨params, .decoding s⟩) :
    (s.finished = false → s.seq.len = s.context.length - 1 ∧
      ∃ seqId, Stands law m seqId (s.seq, svc.world.storage) s.context.dropLast) ∧
    s.generated ≤ params.maxTokens ∧ s.context.length ≤ rt.maxContext ∧
    (s.finished = true → .drop h ∉ more →
      ∀ svc', runList (Service.step rt) more svc = some svc' →
        ∃ s' : Session σ Γ, svc'.seats h = some ⟨params, .decoding s'⟩ ∧ s'.finished = true ∧
          s'.context = s.context) := by
  rw [List.length_append] at hids
  obtain ⟨ids, ho, hnext⟩ := (Orderly.new (fun _ _ => 0) hempty).run hb hd hkeys
    (show w.nextSeq.toNat + actions.length < 2 ^ 64 by omega)
    (fun ts ⟨j, prompt, params, hmem, hts⟩ =>
      ⟨j, prompt, params, List.mem_append_left _ hmem, hts⟩) hrun
  replace hnext : svc.world.nextSeq.toNat ≤ w.nextSeq.toNat + actions.length := hnext
  obtain ⟨hin, _⟩ : rt.InStep law m params (ids h false) s svc.world.storage ∧
    ∀ ds, s.draftSeq = some ds → rt.DraftHeld law (ids h true) ds svc.world.storage :=
    ho.seat h _ hseat
  refine ⟨fun hf => ⟨?_, _, hin.stands hf⟩, hin.bounded.generated, hin.bounded.room, ?_⟩
  · rw [← List.length_dropLast]
    exact (hin.stands hf).len_eq
  · intro hf hdrop svc' hrun'
    exact ho.finished_run hb hd hkeys (by omega) (fun ts ⟨j, prompt, params, hmem, hts⟩ =>
      ⟨j, prompt, params, List.mem_append_right _ hmem, hts⟩) hseat hf hdrop hrun'

end

end Service

/-! ## Two requests that spill -/

/-- Two requests with one prompt, decoded in all three ways. -/
def spillingActions : List (ServiceAction Int) :=
  [.start 0 [3, 4, 5, 3, 4, 5, 3] (greedyParams 8), .advance 0 2, .advance 0 9, .finish 0,
    .nextToken 0, .start 1 [3, 4, 5, 3, 4, 5, 3] (greedyParams 8), .advance 1 9, .finish 1,
    .batch [1, 0], .speculate 1 2]

def spillingRuntime : InferenceRuntime (Path → Option Bytes) (List Token) Int Nat :=
  refusingRuntime (tinyCfg 2 1 (some 2) memoryStorage) counting

def spillingService : Option (Service (Path → Option Bytes) (List Token) Int Nat) :=
  runList (Service.step spillingRuntime) spillingActions (.new emptyWorld)

def spillingLaw : ReadsBack spillingRuntime.kvTemplate.storage := memoryStorage_reliable.toReadsBack

/-- The second has got ahead of the first, both with blocks on disk. -/
theorem session_in_step_spilling : ∃ svc params s, spillingService = some svc ∧
    svc.seats 1 = some ⟨params, .decoding s⟩ ∧ s.seq.hasSpill = true ∧
    s.context = [3, 4, 5, 3, 4, 5, 3, 4, 5, 3, 4] ∧ s.seq.len = s.context.length - 1 ∧
    ∃ seqId, Stands spillingLaw (stubModel counting 1) seqId (s.seq, svc.world.storage)
      s.context.dropLast := by
  have hsome : spillingService.any (fun svc => (svc.session 1).any fun slot =>
      decide (slot.1.finished = false ∧ slot.1.seq.hasSpill = true ∧
        slot.1.context = [3, 4, 5, 3, 4, 5, 3, 4, 5, 3, 4])) = true := by
    decide +kernel
  obtain ⟨svc, hrun, hfacts⟩ := (Option.any_eq_true _ _).mp hsome
  obtain ⟨⟨s, params⟩, hs, hfacts⟩ := (Option.any_eq_true _ _).mp hfacts
  obtain ⟨hf, hspill, hcontext⟩ := of_decide_eq_true hfacts
  have hseat := Service.session_eq_some hs
  obtain ⟨hstep, _⟩ := Service.session_in_step spillingRuntime spillingLaw
    (stubModel counting 1) (refusing_conforms counting 1 _)
    (refusingRuntime_draftsApart _ _ _) emptyWorld rfl spillingActions [] (by decide)
    (fun _ _ _ _ h => h) hrun hseat
  exact ⟨svc, params, s, hrun, hseat, hspill, hcontext, hstep hf⟩

end Garuda
