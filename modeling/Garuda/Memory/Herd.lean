import Garuda.Cache.ExpertLru
import Garuda.Infra.Runs
import Garuda.Memory.Counts

/-!
# Loads from many threads

The atomic steps of `load` interleaved in any order: any number of calls, each one begun at any
time, each taking its next step when it is chosen. What the calls of one thread are is left open:
every program of every number of threads makes such a sequence of steps.

* `LoadPhase` is where a call is, and `MemoryManager.Loads.step` what it does next.
* `MemoryManager.Loads.Inv` is the invariant of the load lock: the weights of an expert are in the
  cache or on their way there in the one call that holds its lock.
* `MemoryManager.fetched_once` is what it comes to over any interleaving.
-/

namespace Garuda

open Infra

/-- Where a call of `load` is. The result is in hand from `insert` on. -/
inductive LoadPhase where
  /-- The check of the id and the first look in L1 -/
  | look
  /-- `lock.lock()` -/
  | lock
  /-- The second look -/
  | again
  /-- `load_uncached` -/
  | fetch
  /-- `l1.insert` -/
  | insert (expert : Expert)
  /-- The guard is dropped. -/
  | release (result : Except GarudaError Expert)
  | done (result : Except GarudaError Expert)
  deriving DecidableEq

namespace LoadPhase

/-- Between taking the load lock and dropping the guard. -/
def holds : LoadPhase → Bool
  | .again | .fetch | .insert _ | .release _ => true
  | _ => false

/-- The weights that the call has. -/
def weights : LoadPhase → Option Expert
  | .insert e | .release (.ok e) | .done (.ok e) => some e
  | _ => none

def failed : LoadPhase → Bool
  | .release (.error _) | .done (.error _) => true
  | _ => false

def completed : LoadPhase → Bool
  | .done _ => true
  | _ => false

end LoadPhase

structure LoadCall where
  id : ExpertId
  phase : LoadPhase
  deriving DecidableEq

/-! ## The load lock -/

/-- A call that holds a lock has taken it, and no two calls hold the lock of one id. -/
structure Guarded (calls : List LoadCall) (locked : List ExpertId) : Prop where
  held : ∀ c ∈ calls, c.phase.holds = true → c.id ∈ locked
  alone : ∀ (i j : Nat) (c d : LoadCall), calls[i]? = some c → calls[j]? = some d →
    c.phase.holds = true → d.phase.holds = true → c.id = d.id → i = j

section

variable {calls : List LoadCall} {locked : List ExpertId} {i j : Nat} {c d : LoadCall}
  {phase : LoadPhase}

/-- What is at `j` after the call at `i` has moved. -/
theorem getElem?_move (h : (calls.set i ⟨c.id, phase⟩)[j]? = some d) :
    (j = i ∧ d = ⟨c.id, phase⟩) ∨ (j ≠ i ∧ calls[j]? = some d) := by
  rw [List.getElem?_set] at h
  split at h
  · next heq =>
    split at h
    · exact .inl ⟨heq.symm, (Option.some.inj h).symm⟩
    · cases h
  · next hne => exact .inr ⟨Ne.symm hne, h⟩

theorem mem_move (h : d ∈ calls.set i ⟨c.id, phase⟩) :
    d = ⟨c.id, phase⟩ ∨ ∃ j, j ≠ i ∧ calls[j]? = some d := by
  obtain ⟨j, hj⟩ := List.getElem?_of_mem h
  rcases getElem?_move hj with ⟨-, rfl⟩ | ⟨hne, hj⟩
  · exact .inl rfl
  · exact .inr ⟨j, hne, hj⟩

theorem guarded_nil : Guarded [] [] where
  held := by simp
  alone := by simp

theorem Guarded.add (h : Guarded calls locked) (id : ExpertId) :
    Guarded (calls ++ [⟨id, .look⟩]) locked where
  held c hc hholds := by
    rcases List.mem_append.mp hc with hc | hc
    · exact h.held c hc hholds
    · rw [List.mem_singleton.mp hc] at hholds
      cases hholds
  alone i j c d hi hj hc hd hid := by
    have hold : ∀ {k : Nat} {e : LoadCall}, (calls ++ [⟨id, .look⟩])[k]? = some e →
        e.phase.holds = true → calls[k]? = some e := by
      intro k e hk he
      by_cases hlt : k < calls.length
      · rwa [List.getElem?_append_left hlt] at hk
      · rw [List.getElem?_append_right (Nat.le_of_not_lt hlt)] at hk
        rw [List.mem_singleton.mp (List.mem_of_getElem? hk)] at he
        cases he
    exact h.alone i j c d (hold hi hc) (hold hj hd) hc hd hid

/-- Two calls apart from each other do not hold the same lock. -/
theorem Guarded.apart (h : Guarded calls locked) (hc : calls[i]? = some c)
    (hd : calls[j]? = some d) (hne : j ≠ i) (hholds : c.phase.holds = true)
    (hdholds : d.phase.holds = true) : d.id ≠ c.id :=
  fun hid => hne (h.alone j i d c hd hc hdholds hholds hid)

/-- The call at `i` moves, into what it holds and the others leave alone. -/
theorem Guarded.move {locked' : List ExpertId} (h : Guarded calls locked)
    (hc : calls[i]? = some c) (hheld : phase.holds = true → c.id ∈ locked')
    (hothers : ∀ (j : Nat) (d : LoadCall), j ≠ i → calls[j]? = some d → d.phase.holds = true →
      d.id ∈ locked' ∧ (phase.holds = true → d.id ≠ c.id)) :
    Guarded (calls.set i ⟨c.id, phase⟩) locked' where
  held d hd hholds := by
    rcases mem_move hd with rfl | ⟨j, hne, hj⟩
    · exact hheld hholds
    · exact (hothers j d hne hj hholds).1
  alone j k d e hj hk hd he hid := by
    rcases getElem?_move hj with ⟨rfl, rfl⟩ | ⟨hne, hj'⟩
    · rcases getElem?_move hk with ⟨rfl, rfl⟩ | ⟨hne, hk'⟩
      · rfl
      · exact absurd hid.symm ((hothers k e hne hk' he).2 hd)
    · rcases getElem?_move hk with ⟨rfl, rfl⟩ | ⟨-, hk'⟩
      · exact absurd hid ((hothers j d hne hj' hd).2 he)
      · exact h.alone j k d e hj' hk' hd he hid

/-- A move under a lock that is held already, or under none. -/
theorem Guarded.stay (h : Guarded calls locked) (hc : calls[i]? = some c)
    (hholds : phase.holds = true → c.phase.holds = true) :
    Guarded (calls.set i ⟨c.id, phase⟩) locked :=
  h.move hc (fun hp => h.held c (List.mem_of_getElem? hc) (hholds hp))
    fun _ d hne hd hdholds => ⟨h.held d (List.mem_of_getElem? hd) hdholds,
      fun hp => h.apart hc hd hne (hholds hp) hdholds⟩

theorem Guarded.take (h : Guarded calls locked) (hc : calls[i]? = some c)
    (hfree : c.id ∉ locked) : Guarded (calls.set i ⟨c.id, phase⟩) (c.id :: locked) := by
  refine h.move hc (fun _ => List.mem_cons_self) fun j d hne hd hdholds => ?_
  have hmem := h.held d (List.mem_of_getElem? hd) hdholds
  exact ⟨List.mem_cons_of_mem _ hmem, fun _ hid => hfree (hid ▸ hmem)⟩

theorem Guarded.drop (h : Guarded calls locked) (hc : calls[i]? = some c)
    (hholds : c.phase.holds = true) (hphase : phase.holds = false) :
    Guarded (calls.set i ⟨c.id, phase⟩) (locked.erase c.id) := by
  have hnot : phase.holds ≠ true := by
    rw [hphase]
    exact Bool.false_ne_true
  refine h.move hc (fun hp => absurd hp hnot) fun j d hne hd hdholds => ?_
  refine ⟨?_, fun hp => absurd hp hnot⟩
  have hmem := h.held d (List.mem_of_getElem? hd) hdholds
  exact (List.mem_erase_of_ne (h.apart hc hd hne hholds hdholds)).mpr hmem

end

namespace MemoryManager

variable {σ τ : Type}

/-- The store, the load locks that are held, and the calls. -/
structure Loads (σ τ : Type) where
  store : MemoryState σ τ
  /-- The load locks are made on demand, one for each id, and never thrown away. -/
  locked : List ExpertId
  calls : List LoadCall
  /-- What the lower tiers were asked for and answered, for the theorems only. -/
  fetched : List (ExpertId × Except GarudaError Expert)

inductive LoadAction where
  /-- Some thread calls `load`. -/
  | call (id : ExpertId)
  /-- The call at this index takes its next step. -/
  | step (i : Nat)
  deriving DecidableEq, Repr

namespace Loads

def start (l1Budget : Nat) (l2 : σ) (l3 : τ) : Loads σ τ where
  store := MemoryManager.start l1Budget l2 l3
  locked := []
  calls := []
  fetched := []

def moveTo (s : Loads σ τ) (i : Nat) (id : ExpertId) (phase : LoadPhase) : Loads σ τ :=
  { s with calls := s.calls.set i ⟨id, phase⟩ }

variable (m : MemoryManager σ τ)

/-- The next step of the call at `i`; `none` while it waits for the lock, and when it is done. -/
def stepCall (s : Loads σ τ) (i : Nat) (id : ExpertId) : LoadPhase → Option (Loads σ τ)
  | .look =>
    if m.dims.nExperts ≤ id.toNat then
      some (s.moveTo i id (.done (.error
        (.model s!"expert {id.toNat} does not exist (model has {m.dims.nExperts})"))))
    else
      match lookL1 id s.store with
      | (some e, store) => some ({ s with store := store }.moveTo i id (.done (.ok e)))
      | (none, store) => some ({ s with store := store }.moveTo i id .lock)
  | .lock =>
    if id ∈ s.locked then none
    else some ({ s with locked := id :: s.locked }.moveTo i id .again)
  | .again =>
    match lookL1 id s.store with
    | (some e, store) => some ({ s with store := store }.moveTo i id (.release (.ok e)))
    | (none, store) => some ({ s with store := store }.moveTo i id .fetch)
  | .fetch =>
    match m.loadUncached id s.store with
    | (answer, store) =>
      some ({ s with store := store, fetched := (id, answer) :: s.fetched }.moveTo i id
        (match answer with
        | .error e => .release (.error e)
        | .ok expert => .insert expert))
  | .insert expert =>
    some ({ s with store := { s.store with l1 := (s.store.l1.insert id expert).2 } }.moveTo i id
      (.release (.ok expert)))
  | .release result => some ({ s with locked := s.locked.erase id }.moveTo i id (.done result))
  | .done _ => none

def step (s : Loads σ τ) : LoadAction → Option (Loads σ τ)
  | .call id => some { s with calls := s.calls ++ [⟨id, .look⟩] }
  | .step i =>
    match s.calls[i]? with
    | none => none
    | some c => s.stepCall m i c.id c.phase

/-! ## The invariant -/

variable {m} {s s' : Loads σ τ}

/-- Nothing has been evicted and no call has failed. -/
structure Smooth (s : Loads σ τ) : Prop where
  kept : s.store.l1.evictions = 0
  succeeded : ∀ c ∈ s.calls, c.phase.failed = false

/-- What was fetched is in the cache, or in the hands of the call that is to insert it. -/
def Placed (s : Loads σ τ) (id : ExpertId) (answer : Except GarudaError Expert) : Prop :=
  ∃ e, answer = .ok e ∧
    (s.store.l1.loaded.lookup id = some e ∨ ∃ c ∈ s.calls, c.id = id ∧ c.phase = .insert e)

structure Inv (s : Loads σ τ) : Prop where
  guarded : Guarded s.calls s.locked
  inStep : s.store.l1.InStep s.store.l1.lru
  budget : 1 ≤ s.store.l1.budgetBytes
  nodup : (s.fetched.map Prod.fst).Nodup
  cached : ∀ id e, s.store.l1.loaded.lookup id = some e → (id, .ok e) ∈ s.fetched
  placed : ∀ f ∈ s.fetched, s.Placed f.1 f.2
  fetching : ∀ c ∈ s.calls, c.phase = .fetch → c.id ∉ s.fetched.map Prod.fst
  answered : ∀ c ∈ s.calls, ∀ e, c.phase.weights = some e → (c.id, .ok e) ∈ s.fetched
  counted : s.store.stats.l1 + s.store.stats.deeper
    = s.calls.countP fun c => c.phase.weights.isSome

theorem inv_start (l1Budget : Nat) (l2 : σ) (l3 : τ) : Inv (start l1Budget l2 l3) where
  guarded := guarded_nil
  inStep := .nil _
  budget := Nat.le_max_right _ _
  nodup := .nil
  cached id e h := by cases h
  placed := by simp [start]
  fetching := by simp [start]
  answered := by simp [start]
  counted := rfl

/-- A call that has begun. -/
theorem Inv.call (h : Inv s) (id : ExpertId) :
    Inv { s with calls := s.calls ++ [⟨id, .look⟩] } where
  guarded := h.guarded.add id
  inStep := h.inStep
  budget := h.budget
  nodup := h.nodup
  cached := h.cached
  placed f hf := by
    obtain ⟨e, he, hplaced⟩ := h.placed f hf
    refine ⟨e, he, hplaced.imp_right ?_⟩
    rintro ⟨c, hc, hid, hphase⟩
    exact ⟨c, List.mem_append_left _ hc, hid, hphase⟩
  fetching c hc hphase := by
    rcases List.mem_append.mp hc with hc | hc
    · exact h.fetching c hc hphase
    · rw [List.mem_singleton.mp hc] at hphase
      cases hphase
  answered c hc e he := by
    rcases List.mem_append.mp hc with hc | hc
    · exact h.answered c hc e he
    · rw [List.mem_singleton.mp hc] at he
      cases he
  counted := by
    rw [List.countP_append, ← h.counted]
    rfl

/-- The count of the calls that have their weights, when one moves. -/
theorem countP_move {calls : List LoadCall} {i : Nat} {c : LoadCall} (phase : LoadPhase)
    (hc : calls[i]? = some c) :
    (calls.set i ⟨c.id, phase⟩).countP (fun c => c.phase.weights.isSome)
        + (if c.phase.weights.isSome then 1 else 0)
      = calls.countP (fun c => c.phase.weights.isSome)
        + (if phase.weights.isSome then 1 else 0) := by
  obtain ⟨hlt, rfl⟩ := List.getElem?_eq_some_iff.mp hc
  have hset := List.countP_set (p := fun c : LoadCall => c.phase.weights.isSome)
    (a := ⟨calls[i].id, phase⟩) hlt
  simp only at hset
  rw [hset]
  have hpos : calls[i].phase.weights.isSome = true →
      0 < calls.countP fun c => c.phase.weights.isSome := fun hp =>
    List.countP_pos_iff.mpr ⟨calls[i], List.getElem_mem hlt, hp⟩
  split
  · next hp =>
    have := hpos hp
    omega
  · omega

/-- A step that fetches nothing and inserts nothing. -/
theorem Inv.move (h : Inv s) {i : Nat} {c : LoadCall} {phase : LoadPhase}
    (hc : s.calls[i]? = some c) {store : MemoryState σ τ} {locked : List ExpertId}
    (hguarded : Guarded (s.calls.set i ⟨c.id, phase⟩) locked)
    (hloaded : store.l1.loaded = s.store.l1.loaded) (hinStep : store.l1.InStep store.l1.lru)
    (hbudget : store.l1.budgetBytes = s.store.l1.budgetBytes)
    (hinsert : ∀ e, c.phase ≠ .insert e)
    (hfetch : phase = .fetch → c.id ∉ s.fetched.map Prod.fst)
    (hweights : ∀ e, phase.weights = some e → (c.id, .ok e) ∈ s.fetched)
    (hcount : store.stats.l1 + store.stats.deeper + (if c.phase.weights.isSome then 1 else 0)
      = s.store.stats.l1 + s.store.stats.deeper + (if phase.weights.isSome then 1 else 0)) :
    Inv ({ s with store := store, locked := locked }.moveTo i c.id phase) where
  guarded := hguarded
  inStep := hinStep
  budget := by
    show 1 ≤ store.l1.budgetBytes
    rw [hbudget]
    exact h.budget
  nodup := h.nodup
  cached id e he := h.cached id e (by rw [← hloaded]; exact he)
  placed f hf := by
    obtain ⟨e, he, hplaced⟩ := h.placed f hf
    refine ⟨e, he, hplaced.imp (fun hl => by rw [← hl, ← hloaded]; rfl) ?_⟩
    rintro ⟨d, hd, hid, hphase⟩
    obtain ⟨j, hj⟩ := List.getElem?_of_mem hd
    have hne : i ≠ j := by
      rintro rfl
      rw [hc] at hj
      exact hinsert e (Option.some.inj hj ▸ hphase)
    refine ⟨d, List.mem_of_getElem? (i := j) ?_, hid, hphase⟩
    show (s.calls.set i _)[j]? = some d
    rwa [List.getElem?_set_ne hne]
  fetching d hd hphase := by
    rcases mem_move hd with rfl | ⟨j, -, hj⟩
    · exact hfetch hphase
    · exact h.fetching d (List.mem_of_getElem? hj) hphase
  answered d hd e he := by
    rcases mem_move hd with rfl | ⟨j, -, hj⟩
    · exact hweights e he
    · exact h.answered d (List.mem_of_getElem? hj) e he
  counted := by
    have hmove := countP_move phase hc
    have := h.counted
    show store.stats.l1 + store.stats.deeper = (s.calls.set i ⟨c.id, phase⟩).countP _
    omega

/-- The other calls are where they were. -/
theorem mem_move_of_ne {calls : List LoadCall} {i : Nat} {c d : LoadCall} {phase : LoadPhase}
    (hc : calls[i]? = some c) (hd : d ∈ calls) (hne : d ≠ c) :
    d ∈ calls.set i ⟨c.id, phase⟩ := by
  obtain ⟨j, hj⟩ := List.getElem?_of_mem hd
  have hij : i ≠ j := by
    rintro rfl
    exact hne (Option.some.inj (hj.symm.trans hc))
  exact List.mem_of_getElem? (i := j) (by rwa [List.getElem?_set_ne hij])

/-- A fetch that succeeds: nobody else has fetched this expert, or is about to. -/
theorem Inv.fetch (h : Inv s) {i : Nat} {c : LoadCall} (hc : s.calls[i]? = some c)
    (hphase : c.phase = .fetch) {store : MemoryState σ τ} {e : Expert}
    (hl1 : store.l1 = s.store.l1) (hserved : store.stats.l1 = s.store.stats.l1)
    (hdeeper : store.stats.deeper = s.store.stats.deeper + 1) :
    Inv ({ s with store := store, fetched := (c.id, .ok e) :: s.fetched }.moveTo i c.id
      (.insert e)) := by
  have hmem := List.mem_of_getElem? hc
  have hnew := h.fetching c hmem hphase
  have hholds : c.phase.holds = true := by
    rw [hphase]
    rfl
  refine {
    guarded := h.guarded.stay hc fun _ => hholds
    inStep := ?_, budget := ?_, nodup := List.nodup_cons.mpr ⟨hnew, h.nodup⟩, cached := ?_
    placed := ?_, fetching := ?_, answered := ?_, counted := ?_ }
  · show store.l1.InStep store.l1.lru
    rw [hl1]
    exact h.inStep
  · show 1 ≤ store.l1.budgetBytes
    rw [hl1]
    exact h.budget
  · intro id e' he'
    refine List.mem_cons_of_mem _ (h.cached id e' ?_)
    rw [← hl1]
    exact he'
  · intro f hf
    rcases List.mem_cons.mp hf with rfl | hf
    · refine ⟨e, rfl, .inr ⟨⟨c.id, .insert e⟩, ?_, rfl, rfl⟩⟩
      exact List.mem_set (List.getElem?_eq_some_iff.mp hc).1 _
    · obtain ⟨e', he', hplaced⟩ := h.placed f hf
      refine ⟨e', he', hplaced.imp (fun hl => by rw [← hl, ← hl1]; rfl) ?_⟩
      rintro ⟨d, hd, hid, hdphase⟩
      refine ⟨d, mem_move_of_ne hc hd ?_, hid, hdphase⟩
      rintro rfl
      rw [hphase] at hdphase
      cases hdphase
  · intro d hd hdphase
    rcases mem_move hd with rfl | ⟨j, hne, hj⟩
    · cases hdphase
    · have hdholds : d.phase.holds = true := by
        rw [hdphase]
        rfl
      have hid := h.guarded.apart hc hj hne hholds hdholds
      rw [show (Loads.moveTo _ i c.id (.insert e)).fetched = (c.id, .ok e) :: s.fetched from rfl,
        List.map_cons, List.mem_cons, not_or]
      exact ⟨hid, h.fetching d (List.mem_of_getElem? hj) hdphase⟩
  · intro d hd e' he'
    rcases mem_move hd with rfl | ⟨j, -, hj⟩
    · cases he'
      exact List.mem_cons_self
    · exact List.mem_cons_of_mem _ (h.answered d (List.mem_of_getElem? hj) e' he')
  · have hmove := countP_move (.insert e) hc
    have := h.counted
    have hbefore : c.phase.weights = none := by
      rw [hphase]
      rfl
    have hafter : (LoadPhase.insert e).weights = some e := rfl
    rw [hbefore, hafter] at hmove
    simp only [Option.isSome_none, Option.isSome_some, if_true, Bool.false_eq_true,
      if_false] at hmove
    show store.stats.l1 + store.stats.deeper = (s.calls.set i ⟨c.id, .insert e⟩).countP _
    omega

/-- An insert that evicts nothing. -/
theorem Inv.insert (h : Inv s) {i : Nat} {c : LoadCall} {e : Expert}
    (hc : s.calls[i]? = some c) (hphase : c.phase = .insert e)
    (hkept : (s.store.l1.insert c.id e).2.evictions = s.store.l1.evictions) :
    Inv ({ s with store := { s.store with l1 := (s.store.l1.insert c.id e).2 } }.moveTo i c.id
      (.release (.ok e))) := by
  have hmem := List.mem_of_getElem? hc
  have hanswered := h.answered c hmem e (by rw [hphase]; rfl)
  have hlookup := ExpertCache.insert_lookup h.budget h.inStep hkept
  obtain ⟨-, hinStep, -, hbudget, -⟩ := ExpertCache.insert_evicts
    (Nat.max_eq_left h.budget).symm h.inStep c.id e
  refine {
    guarded := h.guarded.stay hc fun _ => by rw [hphase]; rfl
    inStep := hinStep
    budget := hbudget ▸ h.budget
    nodup := h.nodup, cached := ?_, placed := ?_, fetching := ?_, answered := ?_, counted := ?_ }
  · intro id e' he'
    have heq := (hlookup id).symm.trans he'
    split at heq
    · next hid =>
      obtain rfl := Option.some.inj heq
      rw [hid]
      exact hanswered
    · exact h.cached id e' heq
  · intro f hf
    obtain ⟨e', he', hplaced⟩ := h.placed f hf
    by_cases hid : f.1 = c.id
    · -- the fetch of this id is the one that this call inserts
      obtain rfl := List.inj_on_of_nodup_map h.nodup hf hanswered hid
      exact ⟨e, rfl, .inl ((hlookup c.id).trans (if_pos rfl))⟩
    · refine ⟨e', he', hplaced.imp (fun hl => ?_) ?_⟩
      · exact (hlookup f.1).trans ((if_neg hid).trans hl)
      · rintro ⟨d, hd, hdid, hdphase⟩
        refine ⟨d, mem_move_of_ne hc hd ?_, hdid, hdphase⟩
        rintro rfl
        exact hid hdid.symm
  · intro d hd hdphase
    rcases mem_move hd with rfl | ⟨j, -, hj⟩
    · cases hdphase
    · exact h.fetching d (List.mem_of_getElem? hj) hdphase
  · intro d hd e' he'
    rcases mem_move hd with rfl | ⟨j, -, hj⟩
    · cases he'
      exact hanswered
    · exact h.answered d (List.mem_of_getElem? hj) e' he'
  · have hmove := countP_move (.release (.ok e)) hc
    have := h.counted
    have hbefore : c.phase.weights = some e := by
      rw [hphase]
      rfl
    have hafter : (LoadPhase.release (.ok e)).weights = some e := rfl
    rw [hbefore, hafter] at hmove
    show s.store.stats.l1 + s.store.stats.deeper
      = (s.calls.set i ⟨c.id, .release (.ok e)⟩).countP _
    omega

/-! ## Every step -/

/-- What a look in the cache leaves, in both of its cases. -/
theorem lookL1_store (h : Inv s) (id : ExpertId) :
    (lookL1 id s.store).2.l1.loaded = s.store.l1.loaded ∧
      (lookL1 id s.store).2.l1.InStep (lookL1 id s.store).2.l1.lru ∧
      (lookL1 id s.store).2.l1.budgetBytes = s.store.l1.budgetBytes ∧
      (lookL1 id s.store).2.l1.evictions = s.store.l1.evictions ∧
      (lookL1 id s.store).2.stats.deeper = s.store.stats.deeper := by
  obtain ⟨hinStep, -, hbudget, hevictions, hloaded⟩ := ExpertCache.InStep.get h.inStep id
  unfold lookL1
  generalize s.store.l1.get id = out at *
  obtain ⟨hit, l1⟩ := out
  cases hit with
  | some e => exact ⟨hloaded, hinStep, hbudget, hevictions, rfl⟩
  | none => exact ⟨hloaded, hinStep, hbudget, hevictions, rfl⟩

/-- A look that finds the expert: a load served by the cache. -/
theorem Inv.found (h : Inv s) {i : Nat} {c : LoadCall} {phase : LoadPhase} {e : Expert}
    {store : MemoryState σ τ} (hc : s.calls[i]? = some c) (hlook : c.phase.weights = none)
    (hphase : phase.weights = some e) (hholds : phase.holds = c.phase.holds)
    (hfound : lookL1 c.id s.store = (some e, store)) :
    Inv ({ s with store := store }.moveTo i c.id phase) := by
  obtain ⟨hloaded, hinStep, hbudget, -, hdeeper⟩ := lookL1_store h c.id
  have hmem : s.store.l1.loaded.lookup c.id = some e := by
    cases hl : s.store.l1.loaded.lookup c.id with
    | none =>
      rw [lookL1_none hl] at hfound
      cases hfound
    | some e' =>
      have := (lookL1_some hl).1
      rw [hfound] at this
      exact this.symm
  have hserved := (lookL1_some hmem).2.2.2
  rw [hfound] at hloaded hinStep hbudget hdeeper hserved
  refine h.move hc (h.guarded.stay hc fun hp => hholds ▸ hp) hloaded hinStep hbudget ?_ ?_ ?_ ?_
  · intro e' he'
    rw [he'] at hlook
    cases hlook
  · rintro rfl
    cases hphase
  · intro e' he'
    rw [hphase, Option.some.injEq] at he'
    exact he' ▸ h.cached c.id e hmem
  · simp only at hdeeper hserved
    rw [hlook, hphase, hdeeper, hserved]
    simp only [Option.isSome_none, Option.isSome_some, if_true, Bool.false_eq_true, if_false]
    omega

/-- What is not in the cache, and in no other call's hands, has not been fetched. -/
theorem Inv.not_fetched (h : Inv s) {i : Nat} {c : LoadCall} (hc : s.calls[i]? = some c)
    (hholds : c.phase.holds = true) (hlook : c.phase.weights = none)
    (hnone : s.store.l1.loaded.lookup c.id = none) : c.id ∉ s.fetched.map Prod.fst := by
  intro hmem
  obtain ⟨f, hf, hid⟩ := List.mem_map.mp hmem
  obtain ⟨e, -, hl | ⟨d, hd, hdid, hdphase⟩⟩ := h.placed f hf
  · rw [hid, hnone] at hl
    cases hl
  · obtain ⟨j, hj⟩ := List.getElem?_of_mem hd
    have hne : j ≠ i := by
      rintro rfl
      rw [Option.some.inj (hj.symm.trans hc)] at hdphase
      rw [hdphase] at hlook
      cases hlook
    exact h.guarded.apart hc hj hne hholds (by rw [hdphase]; rfl) (hdid.trans hid)

/-- A look that finds nothing. -/
theorem Inv.missed (h : Inv s) {i : Nat} {c : LoadCall} {phase : LoadPhase}
    {store : MemoryState σ τ} (hc : s.calls[i]? = some c) (hlook : c.phase.weights = none)
    (hphase : phase.weights = none) (hholds : phase.holds = c.phase.holds)
    (hfetch : phase = .fetch → c.phase.holds = true)
    (hmissed : lookL1 c.id s.store = (none, store)) :
    Inv ({ s with store := store }.moveTo i c.id phase) := by
  obtain ⟨hloaded, hinStep, hbudget, -, hdeeper⟩ := lookL1_store h c.id
  have hnone : s.store.l1.loaded.lookup c.id = none := by
    cases hl : s.store.l1.loaded.lookup c.id with
    | none => rfl
    | some e =>
      have := (lookL1_some hl).1
      rw [hmissed] at this
      cases this
  have hserved := lookL1_none hnone
  rw [hmissed] at hloaded hinStep hbudget hdeeper hserved
  obtain rfl := (Prod.mk.inj hserved).2
  refine h.move hc (h.guarded.stay hc fun hp => hholds ▸ hp) hloaded hinStep hbudget ?_ ?_ ?_ ?_
  · intro e he
    rw [he] at hlook
    cases hlook
  · exact fun hf => h.not_fetched hc (hfetch hf) hlook hnone
  · intro e he
    rw [hphase] at he
    cases he
  · rw [hlook, hphase]

/-- What the next step of a call makes of the invariant, if nothing is evicted and nothing fails. -/
theorem stepCall_inv (h : Inv s) {i : Nat} {c : LoadCall} (hc : s.calls[i]? = some c)
    (hstep : s.stepCall m i c.id c.phase = some s') (hsmooth : Smooth s')
    (hkept : s.store.l1.evictions = 0) : Inv s' := by
  have hlt := (List.getElem?_eq_some_iff.mp hc).1
  cases hphase : c.phase with
  | look =>
    rw [hphase, stepCall] at hstep
    split at hstep
    · obtain rfl := Option.some.inj hstep
      have hfailed := hsmooth.succeeded _ (List.mem_set hlt _)
      cases hfailed
    · split at hstep
      · next e store hl =>
        obtain rfl := Option.some.inj hstep
        exact h.found hc (by rw [hphase]; rfl) rfl (by rw [hphase]; rfl) hl
      · next store hl =>
        obtain rfl := Option.some.inj hstep
        exact h.missed hc (by rw [hphase]; rfl) rfl (by rw [hphase]; rfl) nofun hl
  | lock =>
    rw [hphase, stepCall] at hstep
    split at hstep
    · cases hstep
    · next hfree =>
      obtain rfl := Option.some.inj hstep
      refine h.move hc (h.guarded.take hc hfree) rfl h.inStep rfl ?_ nofun nofun ?_
      · rw [hphase]
        nofun
      · rw [hphase]
        rfl
  | again =>
    rw [hphase, stepCall] at hstep
    split at hstep
    · next e store hl =>
      obtain rfl := Option.some.inj hstep
      exact h.found hc (by rw [hphase]; rfl) rfl (by rw [hphase]; rfl) hl
    · next store hl =>
      obtain rfl := Option.some.inj hstep
      exact h.missed hc (by rw [hphase]; rfl) rfl (by rw [hphase]; rfl)
        (fun _ => by rw [hphase]; rfl) hl
  | fetch =>
    rw [hphase, stepCall] at hstep
    have hfetch := loadUncached_fetch m c.id s.store
    generalize m.loadUncached c.id s.store = out at hstep hfetch
    obtain ⟨answer, store⟩ := out
    obtain rfl := Option.some.inj hstep
    cases answer with
    | error e =>
      have hfailed := hsmooth.succeeded _ (List.mem_set hlt _)
      cases hfailed
    | ok e => exact h.fetch hc hphase hfetch.l1 hfetch.served hfetch.deeper
  | insert e =>
    rw [hphase, stepCall] at hstep
    obtain rfl := Option.some.inj hstep
    exact h.insert hc hphase (hsmooth.kept.trans hkept.symm)
  | release result =>
    rw [hphase, stepCall] at hstep
    obtain rfl := Option.some.inj hstep
    have hsame : (LoadPhase.done result).weights = c.phase.weights := by
      rw [hphase]
      cases result <;> rfl
    refine h.move hc (h.guarded.drop hc (by rw [hphase]; rfl) rfl) rfl h.inStep rfl ?_ nofun ?_ ?_
    · rw [hphase]
      nofun
    · intro e he
      exact h.answered c (List.mem_of_getElem? hc) e (hsame ▸ he)
    · rw [hsame]
  | done result =>
    rw [hphase, stepCall] at hstep
    cases hstep

/-! ## Evictions and failures stay -/

theorem evict_evictions_le (size : Nat) (lru : List ExpertId) (c : ExpertCache) :
    c.evictions ≤ (ExpertCache.evict size lru c).2.evictions := by
  induction lru generalizing c with
  | nil => exact Nat.le_refl _
  | cons victim rest ih =>
    rw [ExpertCache.evict]
    split
    · split
      · have hrest := ih { c.take victim with evictions := c.evictions + 1 }
        exact (Nat.le_succ _).trans hrest
      · exact ih c
    · exact Nat.le_refl _

theorem lookL1_evictions (id : ExpertId) (store : MemoryState σ τ) :
    (lookL1 id store).2.l1.evictions = store.l1.evictions := by
  unfold lookL1 ExpertCache.get
  cases store.l1.loaded.lookup id <;> rfl

theorem stepCall_evictions {i : Nat} {id : ExpertId} {phase : LoadPhase}
    (hstep : s.stepCall m i id phase = some s') :
    s.store.l1.evictions ≤ s'.store.l1.evictions := by
  cases phase with
  | look =>
    have hlook := lookL1_evictions id s.store
    rw [stepCall] at hstep
    split at hstep
    · obtain rfl := Option.some.inj hstep
      exact Nat.le_refl _
    · split at hstep
      all_goals
        next hl =>
        obtain rfl := Option.some.inj hstep
        rw [hl] at hlook
        exact hlook.ge
  | lock =>
    rw [stepCall] at hstep
    split at hstep
    · cases hstep
    · obtain rfl := Option.some.inj hstep
      exact Nat.le_refl _
  | again =>
    have hlook := lookL1_evictions id s.store
    rw [stepCall] at hstep
    split at hstep
    all_goals
      next hl =>
      obtain rfl := Option.some.inj hstep
      rw [hl] at hlook
      exact hlook.ge
  | fetch =>
    have hl1 := (loadUncached_fetch m id s.store).l1
    rw [stepCall] at hstep
    generalize m.loadUncached id s.store = out at hstep hl1
    obtain ⟨answer, store⟩ := out
    obtain rfl := Option.some.inj hstep
    exact (congrArg ExpertCache.evictions hl1).ge
  | insert e =>
    obtain rfl := Option.some.inj hstep
    have htake : (s.store.l1.take id).evictions = s.store.l1.evictions :=
      ExpertCache.take_evictions id
    exact htake.ge.trans (evict_evictions_le _ _ _)
  | release result =>
    obtain rfl := Option.some.inj hstep
    exact Nat.le_refl _
  | done result => cases hstep

/-- The call that takes a step is where it was to be, and the others stay. -/
theorem stepCall_calls {i : Nat} {id : ExpertId} {phase : LoadPhase}
    (hstep : s.stepCall m i id phase = some s') :
    ∃ phase', s'.calls = s.calls.set i ⟨id, phase'⟩ ∧
      (phase.failed = true → phase'.failed = true) := by
  cases phase with
  | look =>
    rw [stepCall] at hstep
    split at hstep
    · obtain rfl := Option.some.inj hstep
      exact ⟨_, rfl, nofun⟩
    · split at hstep
      all_goals
        obtain rfl := Option.some.inj hstep
        exact ⟨_, rfl, nofun⟩
  | lock =>
    rw [stepCall] at hstep
    split at hstep
    · cases hstep
    · obtain rfl := Option.some.inj hstep
      exact ⟨_, rfl, nofun⟩
  | again =>
    rw [stepCall] at hstep
    split at hstep
    all_goals
      obtain rfl := Option.some.inj hstep
      exact ⟨_, rfl, nofun⟩
  | fetch =>
    obtain rfl := Option.some.inj hstep
    exact ⟨_, rfl, nofun⟩
  | insert e =>
    obtain rfl := Option.some.inj hstep
    exact ⟨_, rfl, nofun⟩
  | release result =>
    obtain rfl := Option.some.inj hstep
    refine ⟨_, rfl, fun hf => ?_⟩
    cases result with
    | error e => rfl
    | ok e => cases hf
  | done result => cases hstep

/-- What has gone well up to a step has gone well before it. -/
theorem Smooth.before {a : LoadAction} (hsmooth : Smooth s') (hstep : s.step m a = some s') :
    Smooth s := by
  cases a with
  | call id =>
    obtain rfl := Option.some.inj hstep
    exact ⟨hsmooth.kept, fun c hc => hsmooth.succeeded c (List.mem_append_left _ hc)⟩
  | step i =>
    rw [step] at hstep
    split at hstep
    · cases hstep
    · next c hc =>
      obtain ⟨phase', hcalls, hfailed⟩ := stepCall_calls hstep
      refine ⟨Nat.le_zero.mp (hsmooth.kept ▸ stepCall_evictions hstep), fun d hd => ?_⟩
      by_cases hdc : d = c
      · have hmoved := hsmooth.succeeded ⟨c.id, phase'⟩ (by
          rw [hcalls]
          exact List.mem_set (List.getElem?_eq_some_iff.mp hc).1 _)
        rw [hdc]
        cases hcf : c.phase.failed with
        | false => rfl
        | true => exact absurd (hfailed hcf) (by rw [hmoved]; exact Bool.false_ne_true)
      · exact hsmooth.succeeded d (hcalls ▸ mem_move_of_ne hc hd hdc)

theorem step_inv {a : LoadAction} (hstep : s.step m a = some s') (h : Inv s)
    (hsmooth : Smooth s') : Inv s' := by
  have hkept := (hsmooth.before hstep).kept
  cases a with
  | call id =>
    obtain rfl := Option.some.inj hstep
    exact h.call id
  | step i =>
    rw [step] at hstep
    split at hstep
    · cases hstep
    · next c hc => exact stepCall_inv h hc hstep hsmooth hkept

theorem run_inv {as : List LoadAction} (hrun : runList (step m) as s = some s') (h : Inv s)
    (hsmooth : Smooth s') : Inv s' :=
  runList_invariant (P := fun s => Smooth s → Inv s)
    (fun _ _ _ hstep hbefore hsmooth =>
      step_inv hstep (hbefore (hsmooth.before hstep)) hsmooth) hrun (fun _ => h) hsmooth

/-- A call that has completed has the weights of the fetch. -/
theorem Inv.completed (h : Inv s) (hsmooth : Smooth s) {c : LoadCall} (hc : c ∈ s.calls)
    (hdone : c.phase.completed = true) :
    ∃ e, c.phase = .done (.ok e) ∧ (c.id, .ok e) ∈ s.fetched := by
  have hok := hsmooth.succeeded c hc
  have hanswered := h.answered c hc
  cases hphase : c.phase with
  | done result =>
    cases result with
    | error e =>
      rw [hphase] at hok
      cases hok
    | ok e => exact ⟨e, rfl, hanswered e (by rw [hphase]; rfl)⟩
  | look | lock | again | fetch | insert | release =>
    rw [hphase] at hdone
    cases hdone

/-- While no lock is held, the calls that have their weights are the completed ones. -/
theorem Inv.countP_completed (h : Inv s) (hsmooth : Smooth s) (hfree : s.locked = []) :
    s.calls.countP (fun c => c.phase.weights.isSome)
      = s.calls.countP fun c => c.phase.completed := by
  refine List.countP_congr fun c hc => ⟨fun hweights => ?_, fun hdone => ?_⟩
  · have hnot : c.phase.holds ≠ true := by
      intro hholds
      have hmem := h.guarded.held c hc hholds
      rw [hfree] at hmem
      cases hmem
    cases hphase : c.phase with
    | done result => rfl
    | insert e => exact absurd (by rw [hphase]; rfl) hnot
    | release result => exact absurd (by rw [hphase]; rfl) hnot
    | look | lock | again | fetch =>
      rw [hphase] at hweights
      cases hweights
  · obtain ⟨e, hphase, -⟩ := h.completed hsmooth hc hdone
    rw [hphase]
    rfl

end Loads

/--
**An expert is fetched once**, in every interleaving that evicts nothing and in which no call
fails.

Every call that has completed has the weights of that fetch. The counters of the tiers add up to
the calls that have their weights, and these are the completed calls whenever no load lock is held.
-/
theorem fetched_once {σ τ : Type} (m : MemoryManager σ τ) (l1Budget : Nat) (l2 : σ) (l3 : τ)
    (as : List LoadAction) (s : Loads σ τ)
    (hrun : runList (Loads.step m) as (Loads.start l1Budget l2 l3) = some s)
    (hkept : s.store.l1.evictions = 0) (hok : ∀ c ∈ s.calls, c.phase.failed = false) :
    (s.fetched.map Prod.fst).Nodup ∧
      (∀ c ∈ s.calls, c.phase.completed = true →
        ∃ e, c.phase = .done (.ok e) ∧ (c.id, .ok e) ∈ s.fetched) ∧
      s.store.stats.l1 + s.store.stats.l2 + s.store.stats.l3 + s.store.stats.synthesised
        = s.calls.countP (fun c => c.phase.weights.isSome) ∧
      (s.locked = [] →
        s.store.stats.l1 + s.store.stats.l2 + s.store.stats.l3 + s.store.stats.synthesised
          = s.calls.countP fun c => c.phase.completed) := by
  have hsmooth : Loads.Smooth s := ⟨hkept, hok⟩
  have hinv := Loads.run_inv hrun (Loads.inv_start l1Budget l2 l3) hsmooth
  have hsum : s.store.stats.l1 + s.store.stats.l2 + s.store.stats.l3 + s.store.stats.synthesised
      = s.calls.countP fun c => c.phase.weights.isSome := by
    rw [← hinv.counted, TierCounts.deeper]
    omega
  exact ⟨hinv.nodup, fun c hc hdone => hinv.completed hsmooth hc hdone, hsum,
    fun hfree => hsum.trans (hinv.countP_completed hsmooth hfree)⟩

/-- Two threads that both see the expert missing: the one that comes second to the lock finds it
in the cache. -/
theorem fetched_once_two :
    (runList (Loads.step smallStore)
      [.call 0, .call 0, .step 0, .step 1, .step 1, .step 1, .step 1, .step 1, .step 1,
        .step 0, .step 0, .step 0]
      (Loads.start 24 (fun _ => none) smallArchive)).any
      (fun s => decide (s.calls = [⟨0, .done (.ok (smallExpert 0))⟩,
          ⟨0, .done (.ok (smallExpert 0))⟩] ∧
        (s.fetched.map Prod.fst).Nodup ∧
        s.store.stats.l1 + s.store.stats.l2 + s.store.stats.l3 + s.store.stats.synthesised = 2))
      = true := by
  have hsome : (runList (Loads.step smallStore)
      [.call 0, .call 0, .step 0, .step 1, .step 1, .step 1, .step 1, .step 1, .step 1,
        .step 0, .step 0, .step 0]
      (Loads.start 24 (fun _ => none) smallArchive)).isSome = true := by rfl
  obtain ⟨s, hrun⟩ := Option.isSome_iff_exists.mp hsome
  have hkept : s.store.l1.evictions = 0 ∧ s.locked = [] ∧
      s.calls = [⟨0, .done (.ok (smallExpert 0))⟩, ⟨0, .done (.ok (smallExpert 0))⟩] := by
    have := Option.some.inj hrun
    subst this
    exact ⟨rfl, rfl, rfl⟩
  obtain ⟨hevictions, hfree, hcalls⟩ := hkept
  obtain ⟨hnodup, -, -, hsum⟩ := fetched_once smallStore 24 (fun _ => none) smallArchive _ s hrun
    hevictions (by rw [hcalls]; decide)
  rw [hrun]
  have htwo := hsum hfree
  rw [hcalls] at htwo
  simp only [Option.any_some, decide_eq_true_eq]
  exact ⟨hcalls, hnodup, htwo⟩

end MemoryManager

end Garuda
