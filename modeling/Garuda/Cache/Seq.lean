import Garuda.Infra.Runs
import Garuda.Cache.KvRun

/-!
# Sequence state

`SeqState` of `cache/mod.rs`: one attention cache per layer, and for the layers that have it
a recurrent state that can only be put back from a copy.

* `LinearState.rewindTo_fst` — a recurrent state is put back exactly when a copy is held
* `SeqState.truncateLayers_ok_iff` — a cut succeeds exactly when no layer refuses it
* `SeqState.truncate_ok_iff` — the same for the whole sequence
* `SeqState.Layers.set` — a step on one layer leaves the other layers as they were
* `SeqState.Layers.rekey` — a copy under another identity stands for the same lists
-/

namespace Garuda

open Infra

variable {σ : Type}

/-! ## Recurrent state -/

/-- A copy taken before a token was folded in. -/
structure Snapshot where
  folded : Nat
  conv : List F32
  state : List F32
  deriving DecidableEq

/-- What a linear-attention layer carries between tokens. -/
structure LinearState where
  conv : List F32
  state : List F32
  /-- Tokens folded into `state` so far. -/
  folded : Nat
  /-- Copies taken before folding a token, oldest first. -/
  history : List Snapshot
  deriving DecidableEq

namespace LinearState

def zeros (convLen stateLen : Nat) : LinearState where
  conv := List.replicate convLen ⟨0⟩
  state := List.replicate stateLen ⟨0⟩
  folded := 0
  history := []

/-- Copy the state as it stands, before the next token is folded into it. -/
def snapshot (s : LinearState) : LinearState :=
  { s with history := s.history ++ [{ folded := s.folded, conv := s.conv, state := s.state }] }

/-- Account for a token having been folded in. -/
def advance (s : LinearState) : LinearState := { s with folded := s.folded + 1 }

/-- Put the state back to what it was after `len` tokens, if a copy from then is still held. -/
def rewindTo (len : Nat) (s : LinearState) : Bool × LinearState :=
  if len = s.folded then (true, { s with history := [] })
  else
    match s.history.find? (fun e => e.folded == len) with
    | none => (false, s)
    | some e =>
      (true, { conv := e.conv, state := e.state, folded := e.folded, history := [] })

/-- A copy from `len` is held, or none is needed. -/
def recoverable (len : Nat) (s : LinearState) : Bool :=
  s.folded == len || s.history.any (fun e => e.folded == len)

theorem rewindTo_fst (len : Nat) (s : LinearState) :
    (s.rewindTo len).1 = s.recoverable len := by
  unfold rewindTo recoverable
  by_cases h : len = s.folded
  · simp [h]
  · have hne : (s.folded == len) = false := by simpa using Ne.symm h
    rw [if_neg h, hne, Bool.false_or]
    cases hf : s.history.find? (fun e => e.folded == len) with
    | none =>
      rw [List.find?_eq_none] at hf
      exact (List.any_eq_false.mpr (by simpa using hf)).symm
    | some e =>
      have hp := List.find?_some hf
      exact (List.any_eq_true.mpr ⟨e, List.mem_of_find?_eq_some hf, hp⟩).symm

end LinearState

/-! ## The sequence -/

/-- Everything one in-flight sequence carries between decode steps. -/
structure SeqState (σ : Type) where
  kvs : List (KVCacheState σ)
  /-- Recurrent state, indexed like `kvs`; `none` for an ordinary attention layer. -/
  linear : List (Option LinearState)
  /-- Set while a round of speculated tokens is being verified. -/
  recording : Bool

namespace SeqState

def new (cfg : KvConfig σ) (seqId : Nat) : SeqState σ where
  kvs := (List.range (max cfg.nLayers.toNat 1)).map (KVCacheState.forLayer cfg seqId)
  linear := List.replicate (max cfg.nLayers.toNat 1) none
  recording := false

/-- The length of the first layer, which speaks for all of them. -/
def len (seq : SeqState σ) : Nat := ((seq.kvs.head?).map KVCacheState.len).getD 0

def hasLinearState (seq : SeqState σ) : Bool := seq.linear.any Option.isSome

def hasSpill (seq : SeqState σ) : Bool := seq.kvs.any KVCacheState.hasSpill

/-- This layer's recurrent state, allocated zeroed on first use. -/
def linearAt (l convLen stateLen : Nat) (seq : SeqState σ) :
    Except GarudaError LinearState × SeqState σ :=
  match seq.linear[l]? with
  | none =>
    (.error (.cache s!"layer {l} is out of range for a {seq.linear.length}-layer sequence"), seq)
  | some (some s) =>
    if s.conv.length ≠ convLen ∨ s.state.length ≠ stateLen then
      (.error (.cache s!"layer {l} holds a {s.conv.length}/{s.state.length} recurrent state but {convLen}/{stateLen} was asked for"),
        seq)
    else (.ok s, seq)
  | some none =>
    (.ok (.zeros convLen stateLen),
      { seq with linear := seq.linear.set l (some (.zeros convLen stateLen)) })

/-- Start keeping a copy of each recurrent layer's state per token consumed. -/
def beginRecording (seq : SeqState σ) : SeqState σ :=
  { seq with
    linear := seq.linear.map (Option.map fun s => { s with history := [] })
    recording := true }

def endRecording (seq : SeqState σ) : SeqState σ := { seq with recording := false }

/-! ## Truncate -/

def truncateLayers (len : Nat) : List (KVCacheState σ) → σ →
    Except GarudaError Unit × List (KVCacheState σ) × σ
  | [], st => (.ok (), [], st)
  | kv :: rest, st =>
    match kv.truncate len st with
    | (.error e, kv, st) => (.error e, kv :: rest, st)
    | (.ok (), kv, st) =>
      let out := truncateLayers len rest st
      (out.1, kv :: out.2.1, out.2.2)

/-- A copy from `len` is held by every recurrent layer that needs one. -/
def recoverable (len : Nat) (seq : SeqState σ) : Bool :=
  seq.linear.all fun s => (s.map (LinearState.recoverable len)).getD true

def rewindAll (len : Nat) (seq : SeqState σ) : List (Option LinearState) :=
  seq.linear.map (Option.map fun s => (s.rewindTo len).2)

/-- Drop every position at or after `len`, across every layer. -/
def truncate (len : Nat) (seq : SeqState σ) (st : σ) :
    Except GarudaError Unit × SeqState σ × σ :=
  if len < seq.len ∧ seq.hasLinearState ∧ ¬ seq.recoverable len then
    (.error (.cache s!"cannot truncate to {len}: this sequence carries recurrent state, which summarises every token it has read, and no copy of it from that position is held"),
      seq, st)
  else
    let out := truncateLayers len seq.kvs st
    (out.1, { seq with kvs := out.2.1, linear := seq.rewindAll len }, out.2.2)

/-! ## Identity and clean-up -/

def rekeyLayers (seqId : Nat) : List (KVCacheState σ) →
    Except GarudaError Unit × List (KVCacheState σ)
  | [] => (.ok (), [])
  | kv :: rest =>
    match kv.rekey seqId with
    | (.error e, kv) => (.error e, kv :: rest)
    | (.ok (), kv) =>
      let out := rekeyLayers seqId rest
      (out.1, kv :: out.2)

/-- Give every layer a fresh sequence identity. Fails if anything is spilled. -/
def rekey (seqId : Nat) (seq : SeqState σ) : Except GarudaError Unit × SeqState σ :=
  let out := rekeyLayers seqId seq.kvs
  (out.1, { seq with kvs := out.2 })

def purgeLayers : List (KVCacheState σ) → σ → List (KVCacheState σ) × σ
  | [], st => ([], st)
  | kv :: rest, st =>
    let one := kv.purgeSpillFiles st
    let out := purgeLayers rest one.2
    (one.1 :: out.1, out.2)

def purgeSpillFiles (seq : SeqState σ) (st : σ) : SeqState σ × σ :=
  let out := purgeLayers seq.kvs st
  ({ seq with kvs := out.1 }, out.2)

/-- Dropping a sequence: it takes its spill files with it. -/
def drop (seq : SeqState σ) (st : σ) : σ := (seq.purgeSpillFiles st).2

/-! ## What a cut does -/

/-- No layer refuses the cut. -/
def cuttable (len : Nat) (kvs : List (KVCacheState σ)) : Prop :=
  ∀ kv ∈ kvs, len < kv.len → kv.cutSpilled len = false

theorem truncate_layer_ok_iff (len : Nat) (kv : KVCacheState σ) (st : σ) :
    (kv.truncate len st).1 = .ok () ↔ (len < kv.len → kv.cutSpilled len = false) := by
  rcases KVCacheState.truncate_cases len kv st with ⟨hle, he⟩ | ⟨hlt, hc, ⟨e, he⟩, _⟩ | ⟨_, hc, he⟩
  · rw [he]
    exact ⟨fun _ hlt => absurd hlt (Nat.not_lt.mpr hle), fun _ => rfl⟩
  · rw [he, hc]
    exact ⟨fun h => by simp at h, fun h => by simpa using h hlt⟩
  · rw [he, hc]
    exact ⟨fun _ _ => rfl, fun _ => rfl⟩

/-- **A cut of every layer succeeds exactly when no layer refuses it.** -/
theorem truncateLayers_ok_iff (len : Nat) : ∀ (kvs : List (KVCacheState σ)) (st : σ),
    (truncateLayers len kvs st).1 = .ok () ↔ cuttable len kvs
  | [], st => by simp [truncateLayers, cuttable]
  | kv :: rest, st => by
    have hone := truncate_layer_ok_iff len kv st
    unfold cuttable
    rw [truncateLayers, List.forall_mem_cons]
    split
    · next e kv' st' h =>
      rw [h] at hone
      constructor
      · intro hc; simp at hc
      · intro hc; exact absurd (hone.mpr hc.1) (by simp)
    · next kv' st' h =>
      rw [h] at hone
      show (truncateLayers len rest st').1 = .ok () ↔ _
      rw [truncateLayers_ok_iff len rest st']
      exact ⟨fun hc => ⟨hone.mp rfl, hc⟩, fun hc => hc.2⟩

theorem truncate_ok_iff (len : Nat) (seq : SeqState σ) (st : σ) :
    (seq.truncate len st).1 = .ok () ↔
      (len < seq.len → seq.hasLinearState = true → seq.recoverable len = true) ∧
        cuttable len seq.kvs := by
  unfold truncate
  by_cases h : len < seq.len ∧ seq.hasLinearState ∧ ¬ seq.recoverable len
  · rw [if_pos h]
    constructor
    · intro hc; simp at hc
    · intro hc; exact absurd (hc.1 h.1 h.2.1) h.2.2
  · rw [if_neg h, truncateLayers_ok_iff len seq.kvs st]
    refine ⟨fun hc => ⟨?_, hc⟩, fun hc => hc.2⟩
    intro hlt hlin
    by_contra hr
    exact h ⟨hlt, hlin, hr⟩

/-! ## Layers -/

theorem new_getElem? {cfg : KvConfig σ} {seqId l : Nat} {kv : KVCacheState σ}
    (h : (new cfg seqId).kvs[l]? = some kv) : kv = KVCacheState.forLayer cfg seqId l := by
  simp only [new, List.getElem?_map, Option.map_eq_some_iff] at h
  obtain ⟨n, hn, rfl⟩ := h
  obtain ⟨_, hget⟩ := List.getElem?_eq_some_iff.mp hn
  rw [← hget, List.getElem_range]

theorem set_getElem?_cases {α : Type} {xs : List α} {i j : Nat} {x y z : α}
    (hi : xs[i]? = some z) (h : (xs.set i x)[j]? = some y) :
    (j = i ∧ y = x) ∨ (j ≠ i ∧ xs[j]? = some y) := by
  rw [List.getElem?_set] at h
  by_cases hij : i = j
  · subst hij
    obtain ⟨hlt, _⟩ := List.getElem?_eq_some_iff.mp hi
    rw [if_pos rfl, if_pos hlt] at h
    exact Or.inl ⟨rfl, (Option.some.inj h).symm⟩
  · rw [if_neg hij] at h
    exact Or.inr ⟨Ne.symm hij, h⟩

/-- From `st` to `st'` no file changes but those of layer `layer` of sequence `seqId`. -/
def OnlyLayer {storage : Option (StorageBackend σ)} (law : ReadsBack storage)
    (seqId layer : Nat) (st st' : σ) : Prop :=
  ∀ q, (∀ b, q ≠ spillPath seqId layer b) → law.content st' q = law.content st q

section Layers

variable {storage : Option (StorageBackend σ)} {law : ReadsBack storage}

open KVCacheState

/-- An append touches no file of another layer. -/
theorem append_onlyLayer (k v : List F32) {kv : KVCacheState σ} (hs : kv.storage = storage)
    (st : σ) : OnlyLayer law kv.seqId kv.layer st (kv.append k v st).2.2 := by
  intro q hq
  rcases append_cases k v kv st with ⟨_, he, _⟩ | ⟨_, _, _, he⟩
  · rw [he]
  · rw [he]
    rcases enforceResidency_cases (kv.len / kv.blockSize) (kv.push k v) st with
      ⟨_, he'⟩ | ⟨b, _, hsome, he'⟩
    · rw [he']
    · have hb : storage = some b := by rw [← hs]; exact hsome
      rw [he']
      refine (enforceLoop_rule
        (P := fun kv' st' => SameShape (kv.push k v) kv' ∧ law.content st' q = law.content st q)
        ?_ ?_ (kv.push k v).resident.size (kv.push k v) st ⟨SameShape.refl _, rfl⟩).2
      · rintro kv' st' victim block _ _ ⟨hshape, hc⟩
        refine ⟨hshape.trans (spillOut_shape _ _), ?_⟩
        rw [law.write_frame b hb _ _ _ q (by rw [hshape.seqId, hshape.layer]; exact hq victim)]
        exact hc
      · rintro kv' st' victim block e _ _ ⟨hshape, hc⟩
        refine ⟨hshape, ?_⟩
        rw [law.write_frame b hb _ _ _ q (by rw [hshape.seqId, hshape.layer]; exact hq victim)]
        exact hc

/-- Reading back touches no file at all. -/
theorem ensureResident_content (start stop : Nat) {kv : KVCacheState σ} (hs : kv.storage = storage)
    (st : σ) : law.content (kv.ensureResident start stop st).2.2 = law.content st := by
  refine (ensureResident_rule
    (P := fun kv' st' => kv'.storage = storage ∧ law.content st' = law.content st)
    ?_ start stop kv st ⟨hs, rfl⟩).2
  rintro b kv' st' ⟨hs', hc⟩
  refine ⟨(reload_shape b kv' st').storage.trans hs', ?_⟩
  rcases reload_cases b kv' st' with ⟨_, _, hst | ⟨s, path, hsome, _, hst⟩⟩ |
    ⟨s, path, bytes, hsome, _, _, he⟩
  · rw [hst]; exact hc
  · rw [hst, law.read_frame s (by rw [← hs', hsome])]; exact hc
  · rw [he, law.read_frame s (by rw [← hs', hsome])]; exact hc

/-- A cut touches no file of another layer. -/
theorem truncate_onlyLayer (m : Nat) {kv : KVCacheState σ} (hs : kv.storage = storage) {st : σ}
    {vs : List KvPair} (h : Holds kv (law.content st) vs) :
    OnlyLayer law kv.seqId kv.layer st (kv.truncate m st).2.2 := by
  intro q hq
  rcases truncate_cases m kv st with ⟨_, he⟩ | ⟨_, _, _, he⟩ | ⟨_, _, he⟩
  · rw [he]
  · rw [he]
  · rw [he]
    exact removeStale_disk law _ { kv with resident := kv.cutResident m } st q hs
      fun b _ hget => hq b (h.spilled_path b q hget)

/-- Every layer `l` of the sequence stands for the list `vs l`. -/
structure Layers (law : ReadsBack storage) (seqId : Nat) (s : SeqState σ × σ)
    (vs : Nat → List KvPair) : Prop where
  seqId_eq : ∀ (l : Nat) (kv : KVCacheState σ), s.1.kvs[l]? = some kv → kv.seqId = seqId
  layer_eq : ∀ (l : Nat) (kv : KVCacheState σ), s.1.kvs[l]? = some kv → kv.layer = l
  storage_eq : ∀ (l : Nat) (kv : KVCacheState σ), s.1.kvs[l]? = some kv → kv.storage = storage
  holds : ∀ (l : Nat) (kv : KVCacheState σ),
    s.1.kvs[l]? = some kv → Holds kv (law.content s.2) (vs l)

theorem layers_new {cfg : KvConfig σ} (hs : cfg.storage = storage) (seqId : Nat) (st : σ) :
    Layers law seqId (new cfg seqId, st) (fun _ => []) where
  seqId_eq := by intro l kv h; rw [new_getElem? h]; rfl
  layer_eq := by intro l kv h; rw [new_getElem? h]; rfl
  storage_eq := by intro l kv h; rw [new_getElem? h]; exact hs
  holds := by intro l kv h; rw [new_getElem? h]; exact holds_forLayer cfg seqId l _

/-- **A step on one layer leaves the other layers as they were.** -/
theorem Layers.set {seqId l : Nat} {s : SeqState σ × σ} {vs : Nat → List KvPair}
    (h : Layers law seqId s vs) {kv kv' : KVCacheState σ} (hkv : s.1.kvs[l]? = some kv) {st' : σ}
    {ws : List KvPair} (hshape : SameShape kv kv') (hholds : Holds kv' (law.content st') ws)
    (honly : OnlyLayer law kv.seqId kv.layer s.2 st') (linear : List (Option LinearState))
    (recording : Bool) :
    Layers law seqId ({ kvs := s.1.kvs.set l kv', linear := linear, recording := recording }, st')
      (Function.update vs l ws) := by
  rw [h.seqId_eq l kv hkv, h.layer_eq l kv hkv] at honly
  refine
    { seqId_eq := ?_
      layer_eq := ?_
      storage_eq := ?_
      holds := ?_ }
  · intro j kvj hj
    rcases set_getElem?_cases hkv hj with ⟨_, rfl⟩ | ⟨_, hj⟩
    · rw [hshape.seqId]; exact h.seqId_eq l kv hkv
    · exact h.seqId_eq j kvj hj
  · intro j kvj hj
    rcases set_getElem?_cases hkv hj with ⟨he, rfl⟩ | ⟨_, hj⟩
    · rw [hshape.layer, he]; exact h.layer_eq l kv hkv
    · exact h.layer_eq j kvj hj
  · intro j kvj hj
    rcases set_getElem?_cases hkv hj with ⟨_, rfl⟩ | ⟨_, hj⟩
    · rw [hshape.storage]; exact h.storage_eq l kv hkv
    · exact h.storage_eq j kvj hj
  · intro j kvj hj
    rcases set_getElem?_cases hkv hj with ⟨he, rfl⟩ | ⟨hne, hj⟩
    · rw [he, Function.update_self]; exact hholds
    · rw [Function.update_of_ne hne]
      refine (h.holds j kvj hj).disk_congr fun b _ => honly _ fun c hc => hne ?_
      rw [h.seqId_eq j kvj hj, h.layer_eq j kvj hj] at hc
      exact (spillPath_inj.mp hc).2.1

end Layers

/-! ## A copy under another identity -/

theorem rekeyLayers_ok (seqId : Nat) : ∀ {kvs : List (KVCacheState σ)},
    (∀ kv ∈ kvs, kv.hasSpill = false) →
      rekeyLayers seqId kvs = (.ok (), kvs.map fun kv => { kv with seqId := seqId })
  | [], _ => rfl
  | kv :: rest, h => by
    obtain ⟨hkv, hrest⟩ := List.forall_mem_cons.mp h
    rw [rekeyLayers, KVCacheState.rekey, if_neg (by simp [hkv]), rekeyLayers_ok seqId hrest]
    rfl

/-- A sequence with nothing on disk can be given another identity. -/
theorem rekey_ok (seqId : Nat) {seq : SeqState σ} (h : seq.hasSpill = false) :
    seq.rekey seqId
      = (.ok (), { seq with kvs := seq.kvs.map fun kv => { kv with seqId := seqId } }) := by
  unfold rekey
  rw [rekeyLayers_ok seqId (by simpa [hasSpill] using h)]

theorem Layers.rekey {storage : Option (StorageBackend σ)} {law : ReadsBack storage}
    {seqId : Nat} {s : SeqState σ × σ} {vs : Nat → List KvPair} (h : Layers law seqId s vs)
    (hs : s.1.hasSpill = false) (seqId' : Nat) (st' : σ) :
    Layers law seqId' ((s.1.rekey seqId').2, st') vs := by
  rw [rekey_ok seqId' hs]
  have hold : ∀ (l : Nat) (kv : KVCacheState σ),
      (s.1.kvs.map fun kv => { kv with seqId := seqId' })[l]? = some kv →
      ∃ kv₀, s.1.kvs[l]? = some kv₀ ∧ kv₀.hasSpill = false ∧ kv = { kv₀ with seqId := seqId' } := by
    intro l kv hl
    rw [List.getElem?_map, Option.map_eq_some_iff] at hl
    obtain ⟨kv₀, h₀, rfl⟩ := hl
    exact ⟨kv₀, h₀, by simpa using List.any_eq_false.mp hs kv₀ (List.mem_of_getElem? h₀), rfl⟩
  refine
    { seqId_eq := ?_
      layer_eq := ?_
      storage_eq := ?_
      holds := ?_ }
  · intro l kv hl
    obtain ⟨_, _, _, rfl⟩ := hold l kv hl
    rfl
  · intro l kv hl
    obtain ⟨kv₀, h₀, _, rfl⟩ := hold l kv hl
    exact h.layer_eq l kv₀ h₀
  · intro l kv hl
    obtain ⟨kv₀, h₀, _, rfl⟩ := hold l kv hl
    exact h.storage_eq l kv₀ h₀
  · intro l kv hl
    obtain ⟨kv₀, h₀, hspill, rfl⟩ := hold l kv hl
    exact (h.holds l kv₀ h₀).rekey hspill seqId' _

/-! ## Calls -/

/-- One call on one layer, whether it succeeds or is refused; a layer that does not exist
panics in the source. -/
def apply (s : SeqState σ × σ) (step : Nat × KvOp) : Option (SeqState σ × σ) :=
  match s.1.kvs[step.1]? with
  | none => none
  | some kv =>
    let out := step.2.apply kv s.2
    some ({ s.1 with kvs := s.1.kvs.set step.1 out.2.1 }, out.2.2)

theorem apply_cases {s s' : SeqState σ × σ} {step : Nat × KvOp} (h : apply s step = some s') :
    ∃ kv, s.1.kvs[step.1]? = some kv ∧
      s' = ({ s.1 with kvs := s.1.kvs.set step.1 (step.2.apply kv s.2).2.1 },
        (step.2.apply kv s.2).2.2) := by
  unfold apply at h
  cases hk : s.1.kvs[step.1]? with
  | none => rw [hk] at h; simp at h
  | some kv =>
    rw [hk] at h
    exact ⟨kv, rfl, (Option.some.inj h).symm⟩

/-- The layers of a sequence stay where they are. -/
theorem apply_length {s s' : SeqState σ × σ} {step : Nat × KvOp} (h : apply s step = some s') :
    s'.1.kvs.length = s.1.kvs.length := by
  obtain ⟨kv, _, rfl⟩ := apply_cases h
  exact List.length_set

theorem runList_length {steps : List (Nat × KvOp)} {s s' : SeqState σ × σ}
    (h : runList apply steps s = some s') : s'.1.kvs.length = s.1.kvs.length :=
  runList_invariant (P := fun t => t.1.kvs.length = s.1.kvs.length)
    (fun _ _ _ hstep hlen => (apply_length hstep).trans hlen) h rfl

end SeqState

end Garuda
