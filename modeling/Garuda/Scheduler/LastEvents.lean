import Garuda.Scheduler.Conservation

/-!
# The last event of a request

A request that runs is told how it ended. One that is cancelled while it waits is dropped without
a word.

* `Ledger.Told` — what has been sent to a request at each stage of its life
* `Scheduler.last_event_iff` — when a request gets its last event
* `last_event_missing` — a run in which one does not
-/

namespace Garuda

open Infra

variable {σ κ K Γ : Type}

namespace Ledger

/-- Only tokens. -/
def Tokens (events : List StreamEvent) : Prop := ∀ e ∈ events, ∃ t, e = .token t

/-- Tokens, and one last event. -/
def Ended (events : List StreamEvent) : Prop :=
  ∃ tokens last, events = tokens ++ [last] ∧ Tokens tokens ∧ Last last

theorem tokens_nil : Tokens [] := fun _ he => absurd he List.not_mem_nil

theorem Tokens.concat {events : List StreamEvent} (h : Tokens events) (t : Token) :
    Tokens (events ++ [.token t]) := by
  intro e he
  rcases List.mem_append.mp he with he | he
  · exact h e he
  · exact ⟨t, List.mem_singleton.mp he⟩

theorem not_ended_nil : ¬ Ended [] := by
  rintro ⟨tokens, last, h, _⟩
  simp at h

/-- What each request has been told; `F` are the requests cancelled while they waited. -/
structure Told (F : Nat → Prop) (l : Ledger K) : Prop where
  fresh : ∀ i ∉ l.book.accepted,
    (l.streams i).events = [] ∧ (l.streams i).cancelled = false ∧ ¬ F i
  waiting : ∀ i ∈ ids l.waiting,
    (l.streams i).events = [] ∧ ((l.streams i).cancelled = true ↔ F i)
  running : ∀ i ∈ ids l.running, Tokens (l.streams i).events ∧ ¬ F i
  outbox : ∀ i event, l.outbox = some (i, event) →
    i ∈ ids l.leaving ∧ Last event ∧ Tokens (l.streams i).events ∧ ¬ F i
  counted : ∀ i ∈ l.countedIds, (l.streams i).closed = false →
    F i ∧ (l.streams i).events = [] ∨
      ¬ F i ∧ ((∃ event, l.outbox = some (i, event)) ∨ Ended (l.streams i).events)

variable {cfg : SchedulerConfig} {l m : Ledger K} {F : Nat → Prop}

/-! ## Streams -/

theorem onStream_of_ne {id i : Nat} (f : Stream → Stream) (h : i ≠ id) :
    (l.onStream id f).streams i = l.streams i := Function.update_of_ne h _ _

theorem onStream_self (id : Nat) (f : Stream → Stream) :
    (l.onStream id f).streams id = f (l.streams id) := Function.update_self _ _ _

theorem tell_of_ne {id i : Nat} (event : StreamEvent) (h : i ≠ id) :
    (l.tell id event).streams i = l.streams i := by
  unfold tell
  split
  · rfl
  · exact onStream_of_ne _ h

theorem tell_of_closed {id : Nat} (event : StreamEvent) (h : (l.streams id).closed = true) :
    l.tell id event = l := by
  unfold tell
  rw [if_pos h]

theorem tell_self {id : Nat} (event : StreamEvent) (h : (l.streams id).closed = false) :
    (l.tell id event).streams id = (l.streams id).push event := by
  unfold tell
  rw [h, if_neg Bool.false_ne_true]
  exact onStream_self id _

theorem tell_cancelled (id i : Nat) (event : StreamEvent) :
    ((l.tell id event).streams i).cancelled = (l.streams i).cancelled := by
  by_cases hi : i = id
  · rw [hi]
    cases hclosed : (l.streams id).closed with
    | true => rw [tell_of_closed event hclosed]
    | false =>
      rw [tell_self event hclosed]
      rfl
  · rw [tell_of_ne event hi]

theorem tell_closed (id i : Nat) (event : StreamEvent) :
    ((l.tell id event).streams i).closed = (l.streams i).closed := by
  by_cases hi : i = id
  · rw [hi]
    cases hclosed : (l.streams id).closed with
    | true => rw [tell_of_closed event hclosed, hclosed]
    | false =>
      rw [tell_self event hclosed]
      exact hclosed
  · rw [tell_of_ne event hi]

/-- Nothing the scheduler does sets a cancel flag. -/
theorem serve_cancelled (hserve : Serve l m) (i : Nat) :
    (m.streams i).cancelled = (l.streams i).cancelled := by
  cases hserve with
  | token _ t _ => exact tell_cancelled _ i _
  | flush _ => exact tell_cancelled (l := { l with outbox := none }) _ i _
  | _ => rfl

/-! ## What has been told, step by step -/

theorem Balanced.ready_fresh (h : l.Balanced) {i : Nat} (hi : i ∈ ids l.ready) :
    i ∉ l.book.accepted := by
  have hone := h.fresh i
  have hpos := Multiset.count_pos.mpr hi
  rw [← Multiset.mem_coe, ← Multiset.count_eq_zero]
  split at hone <;> omega

theorem Balanced.leaving_counted (h : l.Balanced) {i : Nat} (hi : i ∈ ids l.leaving) :
    i ∈ l.countedIds := by
  have hcounted := h.counted i
  have hpos := Multiset.count_pos.mpr hi
  exact Multiset.count_pos.mp (by omega)

/-- Nobody has been told anything else, and no cancel flag has changed. -/
theorem Told.congr_streams (h : l.Told F) {streams : Nat → Stream}
    (hevents : ∀ i, (streams i).events = (l.streams i).events)
    (hflags : ∀ i, (streams i).cancelled = (l.streams i).cancelled)
    (hclosed : ∀ i, (streams i).closed = false → (l.streams i).closed = false) :
    Told F { l with streams := streams } := by
  constructor
  · intro i hi
    show (streams i).events = [] ∧ (streams i).cancelled = false ∧ ¬ F i
    rw [hevents, hflags]
    exact h.fresh i hi
  · intro i hi
    show (streams i).events = [] ∧ ((streams i).cancelled = true ↔ F i)
    rw [hevents, hflags]
    exact h.waiting i hi
  · intro i hi
    show Tokens (streams i).events ∧ ¬ F i
    rw [hevents]
    exact h.running i hi
  · intro i event hi
    show i ∈ ids l.leaving ∧ Last event ∧ Tokens (streams i).events ∧ ¬ F i
    rw [hevents]
    exact h.outbox i event hi
  · intro i hi hopen
    show F i ∧ (streams i).events = [] ∨
      ¬ F i ∧ ((∃ event, l.outbox = some (i, event)) ∨ Ended (streams i).events)
    rw [hevents]
    exact h.counted i hi (hclosed i hopen)

/-- Callers other than one who cancels. -/
theorem Told.call (h : l.Told F) (hl : l.Balanced) (hcall : Call l m)
    (hflags : ∀ i, (m.streams i).cancelled = (l.streams i).cancelled) : m.Told F := by
  cases hcall with
  | @accept r rest hready =>
    have hnew : r.id ∉ l.book.accepted :=
      hl.ready_fresh (by rw [hready, ids_cons]; exact Multiset.mem_cons_self r.id (ids rest))
    obtain ⟨hevents, hcancelled, hF⟩ := h.fresh r.id hnew
    refine ⟨fun i hi => h.fresh i (fun hi' => hi (List.mem_cons_of_mem r.id hi')), ?_,
      h.running, h.outbox, h.counted⟩
    intro i hi
    rw [ids_cons] at hi
    rcases Multiset.mem_cons.mp hi with rfl | hi
    · refine ⟨hevents, ?_⟩
      show (l.streams r.id).cancelled = true ↔ F r.id
      rw [hcancelled]
      exact ⟨fun hf => absurd hf Bool.false_ne_true, fun hf => absurd hf hF⟩
    · exact h.waiting i hi
  | @cancel id hid =>
    refine h.congr_streams (fun i => ?_) hflags fun i => ?_
    · by_cases hi : i = id
      · rw [hi, Function.update_self]
        rfl
      · rw [Function.update_of_ne hi]
    · by_cases hi : i = id
      · rw [hi, Function.update_self]
        exact fun hopen => hopen
      · rw [Function.update_of_ne hi]
        exact fun hopen => hopen
  | @close id hid =>
    refine h.congr_streams (fun i => ?_) hflags fun i => ?_
    · by_cases hi : i = id
      · rw [hi, Function.update_self]
        rfl
      · rw [Function.update_of_ne hi]
    · by_cases hi : i = id
      · rw [hi, Function.update_self]
        exact fun hopen => absurd hopen Bool.noConfusion
      · rw [Function.update_of_ne hi]
        exact fun hopen => hopen
  | _ => exact ⟨h.fresh, h.waiting, h.running, h.outbox, h.counted⟩

/-- A caller cancels: who waits, will not be told. -/
theorem Told.cancel (h : l.Told F) (hl : l.Balanced) {id : Nat} (hid : id ∈ l.book.accepted) :
    (l.onStream id Stream.cancel).Told (fun i => F i ∨ i = id ∧ id ∈ ids l.waiting) := by
  have hevents : ∀ i, ((l.onStream id Stream.cancel).streams i).events = (l.streams i).events ∧
      ((l.onStream id Stream.cancel).streams i).closed = (l.streams i).closed := by
    intro i
    by_cases hi : i = id
    · rw [hi, onStream_self]
      exact ⟨rfl, rfl⟩
    · rw [onStream_of_ne _ hi]
      exact ⟨rfl, rfl⟩
  -- who does not wait is not concerned
  have hother : ∀ i, i ∉ ids l.waiting → ((F i ∨ i = id ∧ id ∈ ids l.waiting) ↔ F i) := by
    intro i hi
    refine ⟨?_, Or.inl⟩
    rintro (hF | ⟨rfl, hwaiting⟩)
    · exact hF
    · exact absurd hwaiting hi
  have hnot : ∀ i ∈ l.countedIds, i ∉ ids l.waiting :=
    fun i hi hwaiting => (hl.waiting_alone hwaiting).2 hi
  constructor
  · intro i hi
    have hne : i ≠ id := fun heq => hi (heq ▸ hid)
    have hwaiting : i ∉ ids l.waiting := fun hw => hi (hl.mem_accepted (Or.inl hw))
    rw [hother i hwaiting, onStream_of_ne _ hne]
    exact h.fresh i hi
  · intro i hi
    refine ⟨(hevents i).1.trans (h.waiting i hi).1, ?_⟩
    by_cases heq : i = id
    · rw [heq, onStream_self]
      exact ⟨fun _ => Or.inr ⟨rfl, heq ▸ hi⟩, fun _ => rfl⟩
    · rw [onStream_of_ne _ heq, (h.waiting i hi).2]
      exact ⟨Or.inl, fun hF => hF.resolve_right fun hF => heq hF.1⟩
  · intro i hi
    rw [(hevents i).1, hother i (hl.running_alone hi).1]
    exact h.running i hi
  · intro i event hi
    obtain ⟨hleaving, hlast, htokens, hF⟩ := h.outbox i event hi
    rw [(hevents i).1, hother i (hnot i (hl.leaving_counted hleaving))]
    exact ⟨hleaving, hlast, htokens, hF⟩
  · intro i hi hclosed
    rw [(hevents i).2] at hclosed
    rw [(hevents i).1, hother i (hnot i hi)]
    exact h.counted i hi hclosed

theorem Told.enter (h : l.Told F) (henter : Admit cfg l m) : m.Told F := by
  obtain @⟨r, rest, hwaiting, _, _, hhere⟩ := henter
  have hr : r.id ∈ ids l.waiting := by
    rw [hwaiting, ids_cons]
    exact Multiset.mem_cons_self r.id (ids rest)
  refine ⟨h.fresh, ?_, ?_, h.outbox, h.counted⟩
  · intro i hi
    refine h.waiting i ?_
    rw [hwaiting, ids_cons]
    exact Multiset.mem_cons_of_mem hi
  · intro i hi
    rw [ids_cons] at hi
    rcases Multiset.mem_cons.mp hi with rfl | hi
    · obtain ⟨hevents, hF⟩ := h.waiting r.id hr
      show Tokens (l.streams r.id).events ∧ ¬ F r.id
      rw [hevents, ← hF, hhere]
      exact ⟨tokens_nil, Bool.false_ne_true⟩
    · exact h.running i hi

/-- A request is counted; `hr` is what it has been told by then. -/
theorem Told.mark (h : l.Told F) (hquiet : l.outbox = none) {r : Request K}
    {waiting running : Multiset (Request K)} (o : Outcome) (outbox : Option (Nat × StreamEvent))
    (hwaiting : ∀ i ∈ ids waiting, i ∈ ids l.waiting)
    (hrunning : ∀ i ∈ ids running, i ∈ ids l.running)
    (houtbox : ∀ i event, outbox = some (i, event) →
      i = r.id ∧ Last event ∧ Tokens (l.streams i).events ∧ ¬ F i)
    (hr : (l.streams r.id).closed = false →
      F r.id ∧ (l.streams r.id).events = [] ∨ ¬ F r.id ∧ ∃ event, outbox = some (r.id, event)) :
    Told F { ({ l with waiting := waiting, running := running, leaving := r ::ₘ l.leaving }.mark
      r o) with outbox := outbox } := by
  refine ⟨h.fresh, fun i hi => h.waiting i (hwaiting i hi),
    fun i hi => h.running i (hrunning i hi), ?_, ?_⟩
  · intro i event hi
    obtain ⟨rfl, hlast, htokens, hF⟩ := houtbox i event hi
    refine ⟨?_, hlast, htokens, hF⟩
    show r.id ∈ ids (r ::ₘ l.leaving)
    rw [ids_cons]
    exact Multiset.mem_cons_self r.id _
  · intro i hi hclosed
    have hi' : i = r.id ∨ i ∈ l.countedIds := by
      rcases List.mem_cons.mp (Multiset.mem_coe.mp hi) with hi | hi
      · exact Or.inl hi
      · exact Or.inr (Multiset.mem_coe.mpr hi)
    rcases hi' with rfl | hi'
    · rcases hr hclosed with hF | ⟨hF, hevent⟩
      · exact Or.inl hF
      · exact Or.inr ⟨hF, Or.inl hevent⟩
    · rcases h.counted i hi' hclosed with hF | ⟨hF, ⟨event, hevent⟩ | hended⟩
      · exact Or.inl hF
      · rw [hquiet] at hevent
        cases hevent
      · exact Or.inr ⟨hF, Or.inr hended⟩

theorem Told.token (h : l.Told F) (hl : l.Balanced) {r : Request K} (hr : r ∈ l.running)
    (t : Token) (hquiet : l.outbox = none) : (l.tell r.id (.token t)).Told F := by
  have hid : r.id ∈ ids l.running := Multiset.mem_map_of_mem Request.id hr
  obtain ⟨hwaiting, hcounted⟩ := hl.running_alone hid
  have hmem := hl.mem_accepted (Or.inr (Or.inl hid))
  have hcongr := tell_eq l r.id (.token t)
  constructor
  · intro i hi
    rw [hcongr] at hi
    have hne : i ≠ r.id := fun heq => hi (heq ▸ hmem)
    rw [tell_of_ne _ hne]
    exact h.fresh i hi
  · intro i hi
    rw [hcongr] at hi
    have hne : i ≠ r.id := fun heq => hwaiting (heq ▸ hi)
    rw [tell_of_ne _ hne]
    exact h.waiting i hi
  · intro i hi
    rw [hcongr] at hi
    obtain ⟨htokens, hF⟩ := h.running i hi
    refine ⟨?_, hF⟩
    by_cases heq : i = r.id
    · subst heq
      cases hclosed : (l.streams r.id).closed with
      | true =>
        rw [tell_of_closed _ hclosed]
        exact htokens
      | false =>
        rw [tell_self _ hclosed]
        exact htokens.concat t
    · rw [tell_of_ne _ heq]
      exact htokens
  · intro i event hi
    rw [hcongr] at hi
    rw [show l.outbox = some (i, event) from hi] at hquiet
    cases hquiet
  · intro i hi hclosed
    rw [hcongr] at hi
    have hne : i ≠ r.id := fun heq => hcounted (heq ▸ hi)
    rw [tell_of_ne _ hne] at hclosed ⊢
    have hout : (l.tell r.id (.token t)).outbox = l.outbox := by rw [hcongr]
    rw [hout]
    exact h.counted i hi hclosed

/-- The last event goes out. -/
theorem Told.flush (h : l.Told F) (hl : l.Balanced) {id : Nat} {event : StreamEvent}
    (hout : l.outbox = some (id, event)) :
    (Ledger.tell { l with outbox := none } id event).Told F := by
  obtain ⟨hleaving, hlast, htokens, hF⟩ := h.outbox id event hout
  have hcounted := hl.leaving_counted hleaving
  have hmem := hl.mem_accepted (Or.inr (Or.inr hcounted))
  have hcongr := tell_eq { l with outbox := none } id event
  constructor
  · intro i hi
    rw [hcongr] at hi
    have hne : i ≠ id := fun heq => hi (heq ▸ hmem)
    rw [tell_of_ne _ hne]
    exact h.fresh i hi
  · intro i hi
    rw [hcongr] at hi
    have hne : i ≠ id := fun heq => (hl.waiting_alone (heq ▸ hi)).2 hcounted
    rw [tell_of_ne _ hne]
    exact h.waiting i hi
  · intro i hi
    rw [hcongr] at hi
    have hne : i ≠ id := fun heq => (hl.running_alone (heq ▸ hi)).2 hcounted
    rw [tell_of_ne _ hne]
    exact h.running i hi
  · intro i e hi
    rw [hcongr] at hi
    cases hi
  · intro i hi hclosed
    rw [hcongr] at hi
    rw [tell_closed] at hclosed
    by_cases heq : i = id
    · subst heq
      rw [tell_self _ hclosed]
      exact Or.inr ⟨hF, Or.inr ⟨_, event, rfl, htokens, hlast⟩⟩
    · rw [tell_of_ne _ heq]
      rcases h.counted i hi hclosed with hnone | ⟨hF, ⟨e, he⟩ | hended⟩
      · exact Or.inl hnone
      · rw [hout] at he
        exact absurd (congrArg Prod.fst (Option.some.inj he)).symm heq
      · exact Or.inr ⟨hF, Or.inr hended⟩

theorem Told.serve (h : l.Told F) (hl : l.Balanced) (hserve : Serve l m) : m.Told F := by
  cases hserve with
  | @abandon r rest hwaiting hquiet hgone =>
    have hr : r.id ∈ ids l.waiting := by
      rw [hwaiting, ids_cons]
      exact Multiset.mem_cons_self r.id (ids rest)
    obtain ⟨hevents, hF⟩ := h.waiting r.id hr
    refine h.mark hquiet .cancelled none ?_ (fun i hi => hi) (fun i e he => nomatch he) ?_
    · intro i hi
      rw [hwaiting, ids_cons]
      exact Multiset.mem_cons_of_mem hi
    · intro hopen
      refine Or.inl ⟨hF.mp (hgone.resolve_right ?_), hevents⟩
      rw [hopen]
      exact Bool.false_ne_true
  | @token r hr t hquiet => exact h.token hl hr t hquiet
  | @hangUp r rest hrunning hquiet hclosed =>
    refine h.mark hquiet .cancelled none (fun i hi => hi) ?_ (fun i e he => nomatch he) ?_
    · intro i hi
      rw [hrunning, ids_cons]
      exact Multiset.mem_cons_of_mem hi
    · intro hopen
      rw [hclosed] at hopen
      cases hopen
  | @retire r rest hrunning o event hlast hquiet =>
    have hr : r.id ∈ ids l.running := by
      rw [hrunning, ids_cons]
      exact Multiset.mem_cons_self r.id (ids rest)
    obtain ⟨htokens, hF⟩ := h.running r.id hr
    refine h.mark hquiet o _ (fun i hi => hi) ?_ ?_ fun _ => Or.inr ⟨hF, event, rfl⟩
    · intro i hi
      rw [hrunning, ids_cons]
      exact Multiset.mem_cons_of_mem hi
    · intro i e he
      obtain ⟨rfl, rfl⟩ := Prod.mk.inj (Option.some.inj he)
      exact ⟨rfl, hlast, htokens, hF⟩
  | @flush id event hout => exact h.flush hl hout
  | release _ hquiet =>
    refine ⟨h.fresh, h.waiting, h.running, ?_, h.counted⟩
    intro i e he
    rw [show l.outbox = some (i, e) from he] at hquiet
    cases hquiet
  | idle => exact h

end Ledger

namespace Scheduler

open Ledger

variable [Weight K] [DecidableEq κ] {rt : InferenceRuntime σ κ K Γ}
variable {cfg : SchedulerConfig} {w : World σ κ} {as : List (Action K)}
variable {s m : Scheduler σ κ K Γ}

/-! ## Every run -/

/-- Only `Handle::cancel` sets a cancel flag. -/
theorem step_cancelled {a : Action K} (hs : s.Shaped) (hm : s.step cfg rt a = some m)
    (ha : ∀ id, a ≠ .cancel id) (i : Nat) :
    (m.streams i).cancelled = (s.streams i).cancelled := by
  cases a with
  | submit spec =>
    rw [← Option.some.inj hm]
    rfl
  | next j =>
    simp only [step] at hm
    split at hm
    · cases hm
    · next t _ =>
      unfold submitNext at hm
      split at hm
      · split at hm
        · rw [← Option.some.inj hm]
        · rw [← Option.some.inj hm]
      · rw [← Option.some.inj hm]
      · rw [← Option.some.inj hm]
      · split at hm
        · rw [← Option.some.inj hm]
        · rw [← Option.some.inj hm]
      · rw [← Option.some.inj hm]
      · cases hm
  | cancel id => exact absurd rfl (ha id)
  | close id =>
    simp only [step] at hm
    split at hm
    · rw [← Option.some.inj hm]
      by_cases hi : i = id
      · rw [hi]
        simp only [onStream, Function.update_self]
        rfl
      · simp only [onStream, Function.update_of_ne hi]
    · cases hm
  | tick d =>
    rw [← Option.some.inj hm]
  | pace chunk =>
    simp only [step] at hm
    split at hm
    · rw [← Option.some.inj hm]
    · cases hm
  | loop =>
    obtain ⟨hserve | ⟨_, q, henter⟩, _⟩ := loopNext_serve hs hm
    · exact Ledger.serve_cancelled hserve i
    · obtain ⟨l, heap, _, _, rfl⟩ := henter
      rfl

/-- Nobody calls `Handle::cancel` for `id` while it waits, in the channel or in the heap. -/
def SparesWaiting (id : Nat) (s : Scheduler σ κ K Γ) (a : Action K) : Prop :=
  a = .cancel id → id ∉ s.waiting.map Request.id

theorem told_step {F : Nat → Prop} {a : Action K} (hs : s.Sound cfg) (h : s.ledger.Told F)
    (hm : s.step cfg rt a = some m) :
    m.ledger.Told fun i => F i ∨ ¬ SparesWaiting i s a := by
  by_cases ha : ∃ id, a = .cancel id
  · obtain ⟨id, rfl⟩ := ha
    simp only [step] at hm
    split at hm
    · next hid =>
      rw [← Option.some.inj hm]
      have htold := hs.balanced.told id
      have hhandle : 0 < s.ledger.handles.count id :=
        Multiset.count_pos.mpr (Multiset.mem_coe.mpr hid)
      have hmem : id ∈ s.book.accepted :=
        Multiset.mem_coe.mp (Multiset.count_pos.mp (by
          show 0 < (s.ledger.book.accepted : Multiset Nat).count id
          omega))
      have hF : (fun i => F i ∨ ¬ SparesWaiting i s (.cancel id))
          = fun i => F i ∨ i = id ∧ id ∈ ids s.ledger.waiting := by
        funext i
        have hiff : ¬ SparesWaiting i s (.cancel id) ↔ i = id ∧ id ∈ ids s.ledger.waiting := by
          unfold SparesWaiting
          push Not
          constructor
          · rintro ⟨heq, hwaiting⟩
            cases heq
            exact ⟨rfl, Multiset.mem_coe.mpr hwaiting⟩
          · rintro ⟨rfl, hwaiting⟩
            exact ⟨rfl, Multiset.mem_coe.mp hwaiting⟩
        rw [hiff]
      rw [hF]
      exact h.cancel hs.balanced hmem
    · cases hm
  · have hF : (fun i => F i ∨ ¬ SparesWaiting i s a) = F := by
      funext i
      have hspares : SparesWaiting i s a := fun hi => absurd ⟨i, hi⟩ ha
      simp only [hspares, not_true_eq_false, or_false]
    rw [hF]
    obtain ⟨⟨spec, _, hlook⟩ | hcall | hserve | ⟨henter, _⟩, _⟩ := step_ledger hs.shaped hm
    · rw [hlook]
      exact ⟨h.fresh, h.waiting, h.running, h.outbox, h.counted⟩
    · exact h.call hs.balanced hcall
        (step_cancelled hs.shaped hm fun id hid => ha ⟨id, hid⟩)
    · exact h.serve hs.balanced hserve
    · exact h.enter henter

/-- Who has been cancelled while waiting is known from the run, and so is what everybody has been
told. -/
theorem run_told (as : List (Action K)) : ∀ {s : Scheduler σ κ K Γ}, run cfg rt w as = some s →
    s.ledger.Told fun i => ¬ EachStep (step cfg rt) (SparesWaiting i) as (init w) := by
  induction as using List.reverseRecOn with
  | nil =>
    intro s h
    rw [← Option.some.inj h]
    have hspares : ∀ i, EachStep (step cfg rt) (SparesWaiting i) [] (init w) :=
      fun i pre a post m hnil => absurd hnil.symm (List.append_ne_nil_of_right_ne_nil pre
        (List.cons_ne_nil a post))
    exact ⟨fun i _ => ⟨rfl, rfl, fun h => h (hspares i)⟩, fun i hi => absurd hi List.not_mem_nil,
      fun i hi => absurd hi List.not_mem_nil, fun i e he => (nomatch he),
      fun i hi => absurd hi List.not_mem_nil⟩
  | append_singleton as a ih =>
    intro s h
    obtain ⟨m, hm, hstep⟩ := runList_concat.mp h
    have htold := told_step (run_sound hm) (ih hm) hstep
    have hF : (fun i => ¬ EachStep (step cfg rt) (SparesWaiting i) (as ++ [a]) (init w))
        = fun i => ¬ EachStep (step cfg rt) (SparesWaiting i) as (init w) ∨
          ¬ SparesWaiting i m a := by
      funext i
      rw [eachStep_concat hm, not_and_or]
    rw [hF]
    exact htold

/-- A request whose receiver is kept and that has been dropped: it was told how it ended, or it was
cancelled while it waited and told nothing. -/
theorem run_released (h : run cfg rt w as = some s) {id : Nat}
    (hkept : (s.streams id).closed = false) (hreleased : id ∈ s.book.released) :
    EachStep (step cfg rt) (SparesWaiting id) as (init w) ∧ Ended (s.streams id).events ∨
      ¬ EachStep (step cfg rt) (SparesWaiting id) as (init w) ∧ (s.streams id).events = [] := by
  have htold := run_told as h
  obtain ⟨hleaving, hcounted⟩ := (run_sound h).balanced.released_alone hreleased
  rcases htold.counted id hcounted hkept with ⟨hF, hnil⟩ | ⟨hF, ⟨event, hout⟩ | hended⟩
  · exact .inr ⟨hF, hnil⟩
  · exact absurd (htold.outbox id event hout).1 hleaving
  · exact .inl ⟨not_not.mp hF, hended⟩

/-- **The last event**: a request whose receiver is kept has been sent tokens, or tokens and one
last event; when it is dropped, and so its channel closed, it has its last event exactly when
nobody cancelled it while it waited. -/
theorem last_event_iff (h : run cfg rt w as = some s) {id : Nat} (hid : id ∈ s.book.accepted)
    (hkept : (s.streams id).closed = false) :
    (Tokens (s.streams id).events ∨ Ended (s.streams id).events) ∧
    (id ∈ s.book.released →
      (Ended (s.streams id).events ↔
        EachStep (step cfg rt) (SparesWaiting id) as (init w))) := by
  have hs := run_sound h
  have htold := run_told as h
  have hempty : (s.streams id).events = [] → Tokens (s.streams id).events := by
    intro hnil
    rw [hnil]
    exact tokens_nil
  constructor
  · have hpos : 0 < (s.ledger.book.accepted : Multiset Nat).count id :=
      Multiset.count_pos.mpr (Multiset.mem_coe.mpr hid)
    have hwhere : id ∈ ids s.ledger.waiting ∨ id ∈ ids s.ledger.running ∨
        id ∈ s.ledger.countedIds := by
      rw [hs.balanced.accepted id] at hpos
      rw [← Multiset.count_pos, ← Multiset.count_pos, ← Multiset.count_pos]
      omega
    rcases hwhere with hw | hr | hc
    · exact Or.inl (hempty (htold.waiting id hw).1)
    · exact Or.inl (htold.running id hr).1
    · rcases htold.counted id hc hkept with ⟨_, hnil⟩ | ⟨_, ⟨event, hout⟩ | hended⟩
      · exact Or.inl (hempty hnil)
      · exact Or.inl (htold.outbox id event hout).2.2.1
      · exact Or.inr hended
  · intro hreleased
    rcases run_released h hkept hreleased with ⟨hspares, hended⟩ | ⟨hcancelled, hnil⟩
    · exact iff_of_true hended hspares
    · refine iff_of_false (fun hended => ?_) hcancelled
      rw [hnil] at hended
      exact not_ended_nil hended

end Scheduler

/-- A request is cancelled while it waits, and its receiver kept: its channel closes empty. -/
theorem last_event_missing : ∃ s,
    Scheduler.run smallConfig tightRuntime emptyWorld cancelledRun = some s ∧
      0 ∈ s.book.released ∧ (s.streams 0).closed = false ∧ ¬ Ledger.Ended (s.streams 0).events := by
  have hrun : (Scheduler.run smallConfig tightRuntime emptyWorld cancelledRun).any (fun s =>
      decide (0 ∈ s.book.released ∧ (s.streams 0).closed = false ∧ (s.streams 0).events = []))
        = true := by
    decide
  obtain ⟨s, hs, hfacts⟩ := (Option.any_eq_true _ _).mp hrun
  obtain ⟨hreleased, hopen, hevents⟩ := of_decide_eq_true hfacts
  refine ⟨s, hs, hreleased, hopen, ?_⟩
  rw [hevents]
  exact Ledger.not_ended_nil

/-- A request waits until its time is over. -/
def lateRun : List (Action Int) :=
  submitAll "ada" .normal ++ [.tick 200] ++ List.replicate 11 .loop

theorem last_event_late : ∃ s,
    Scheduler.run smallConfig tightRuntime emptyWorld lateRun = some s ∧
      0 ∈ s.book.released ∧ Ledger.Ended (s.streams 0).events := by
  have hrun : (Scheduler.run smallConfig tightRuntime emptyWorld lateRun).any (fun s =>
      decide (0 ∈ s.book.accepted ∧ 0 ∈ s.book.released ∧ (s.streams 0).closed = false))
        = true := by
    decide
  obtain ⟨s, hs, hfacts⟩ := (Option.any_eq_true _ _).mp hrun
  obtain ⟨haccepted, hreleased, hopen⟩ := of_decide_eq_true hfacts
  refine ⟨s, hs, hreleased, ((Scheduler.last_event_iff hs haccepted hopen).2 hreleased).mpr ?_⟩
  intro pre a post m has _ ha
  -- nobody cancels in this run
  have hmem : Action.cancel 0 ∈ lateRun := by
    rw [has, ha]
    exact List.mem_append_right pre List.mem_cons_self
  simp [lateRun, submitAll] at hmem

end Garuda
