import Garuda.Cache.Pass

/-!
# Cuts that are refused

`SeqState::truncate` asks the recurrent layers before it changes anything, and then cuts one
attention layer after the other, each of which may refuse. `rekey` goes through them the same way.

* `SeqState.refused_whole_iff` — when a refusal leaves the sequence as it was
* `refused_cut_rewinds` — a round after which it does not
-/

namespace Garuda

open Infra

variable {σ : Type}

/-- Putting the state back to `m` changes nothing: it is there already and holds no copies, or no
copy is from `m`. -/
def LinearState.Unmoved (m : Nat) (s : LinearState) : Prop :=
  (m = s.folded → s.history = []) ∧ (m ≠ s.folded → ∀ e ∈ s.history, e.folded ≠ m)

theorem LinearState.rewindTo_eq_iff (m : Nat) (s : LinearState) :
    (s.rewindTo m).2 = s ↔ s.Unmoved m := by
  unfold rewindTo Unmoved
  by_cases hm : m = s.folded
  · rw [if_pos hm]
    constructor
    · intro h
      exact ⟨fun _ => (congrArg LinearState.history h).symm, fun hne => absurd hm hne⟩
    · rintro ⟨h, _⟩
      rw [← h hm]
  · rw [if_neg hm]
    cases hf : s.history.find? (fun e => e.folded == m) with
    | none =>
      rw [List.find?_eq_none] at hf
      exact ⟨fun _ => ⟨fun h => absurd h hm, fun _ e he => by simpa using hf e he⟩, fun _ => rfl⟩
    | some e =>
      have hem : e.folded = m := by simpa using List.find?_some hf
      constructor
      · intro h
        exact absurd (hem.symm.trans (congrArg LinearState.folded h)) hm
      · rintro ⟨_, h⟩
        exact absurd hem (h hm e (List.mem_of_find?_eq_some hf))

namespace SeqState

/-- The first layer that refuses the cut comes before any that it would shorten. -/
def FirstRefuses (m : Nat) (kvs : List (KVCacheState σ)) : Prop :=
  ∃ pre kv post, kvs = pre ++ kv :: post ∧ m < kv.len ∧ kv.cutSpilled m = true ∧
    ∀ k ∈ pre, k.len ≤ m

/-- The layers from the second on. -/
theorem firstRefuses_cons {m : Nat} {kv : KVCacheState σ} {rest : List (KVCacheState σ)} :
    FirstRefuses m (kv :: rest) ↔
      (m < kv.len ∧ kv.cutSpilled m = true) ∨ (kv.len ≤ m ∧ FirstRefuses m rest) := by
  constructor
  · rintro ⟨pre, k, post, hsplit, hlt, hspilled, hpre⟩
    cases pre with
    | nil =>
      obtain ⟨rfl, _⟩ := List.cons.inj hsplit
      exact Or.inl ⟨hlt, hspilled⟩
    | cons x pre =>
      obtain ⟨rfl, hrest⟩ := List.cons.inj hsplit
      rw [List.forall_mem_cons] at hpre
      exact Or.inr ⟨hpre.1, pre, k, post, hrest, hlt, hspilled, hpre.2⟩
  · rintro (⟨hlt, hspilled⟩ | ⟨hle, pre, k, post, rfl, hlt, hspilled, hpre⟩)
    · exact ⟨[], kv, rest, rfl, hlt, hspilled, fun k hk => absurd hk List.not_mem_nil⟩
    · refine ⟨kv :: pre, k, post, rfl, hlt, hspilled, ?_⟩
      rw [List.forall_mem_cons]
      exact ⟨hle, hpre⟩

/-- A cut that some layer refuses leaves the layers as they were when the first one refuses before
any has been shortened. -/
theorem truncateLayers_refused_iff (m : Nat) : ∀ (kvs : List (KVCacheState σ)) (st : σ)
    {e : GarudaError}, (truncateLayers m kvs st).1 = .error e →
    ((truncateLayers m kvs st).2.1 = kvs ↔ FirstRefuses m kvs)
  | [], st, e, h => by cases h
  | kv :: rest, st, e, h => by
    rw [firstRefuses_cons]
    rcases KVCacheState.truncate_cases m kv st with ⟨hle, he⟩ | ⟨hlt, hc, ⟨e', he⟩, hsame⟩ |
      ⟨hlt, hc, he⟩
    · -- not shortened: the others decide
      rw [truncateLayers, he] at h ⊢
      simp only at h ⊢
      have ih := truncateLayers_refused_iff m rest st h
      constructor
      · intro heq
        exact Or.inr ⟨hle, ih.mp (List.cons.inj heq).2⟩
      · rintro (⟨hlt, _⟩ | ⟨_, hrest⟩)
        · omega
        · rw [ih.mpr hrest]
    · -- this one refuses, and none has been touched
      have hout : truncateLayers m (kv :: rest) st = (.error e', kv :: rest, st) := by
        rw [truncateLayers]
        generalize kv.truncate m st = out at he hsame
        obtain ⟨res, kv', st'⟩ := out
        obtain ⟨rfl, rfl⟩ := Prod.mk.inj hsame
        rw [show res = .error e' from he]
      rw [hout]
      exact ⟨fun _ => Or.inl ⟨hlt, hc⟩, fun _ => rfl⟩
    · -- this one has been cut
      rw [truncateLayers, he]
      constructor
      · intro heq
        have hlen : m = kv.len := congrArg KVCacheState.len (List.cons.inj heq).1
        omega
      · rintro (⟨_, hspilled⟩ | ⟨hle, _⟩)
        · rw [hc] at hspilled
          cases hspilled
        · omega

/-- The recurrent layers refuse the cut. -/
def LinearRefuses (m : Nat) (seq : SeqState σ) : Prop :=
  m < seq.len ∧ seq.hasLinearState = true ∧ ¬ seq.recoverable m = true

theorem rewindAll_eq_iff (m : Nat) (seq : SeqState σ) :
    seq.rewindAll m = seq.linear ↔ ∀ s, some s ∈ seq.linear → s.Unmoved m := by
  have hid : seq.linear = seq.linear.map id := (List.map_id _).symm
  unfold rewindAll
  conv => lhs; rhs; rw [hid]
  rw [List.map_eq_map_iff]
  constructor
  · intro h s hs
    exact (s.rewindTo_eq_iff m).mp (Option.some.inj (h (some s) hs))
  · intro h o ho
    cases o with
    | none => rfl
    | some s => exact congrArg some ((s.rewindTo_eq_iff m).mpr (h s ho))

theorem truncate_refused_iff {m : Nat} {seq : SeqState σ} {st : σ} {e : GarudaError}
    (h : (seq.truncate m st).1 = .error e) :
    (seq.truncate m st).2.1 = seq ↔
      LinearRefuses m seq ∨ FirstRefuses m seq.kvs ∧ ∀ s, some s ∈ seq.linear → s.Unmoved m := by
  by_cases hlin : m < seq.len ∧ seq.hasLinearState ∧ ¬ seq.recoverable m
  · rw [truncate, if_pos hlin]
    exact ⟨fun _ => Or.inl hlin, fun _ => rfl⟩
  · rw [truncate, if_neg hlin] at h ⊢
    have hlayers := truncateLayers_refused_iff m seq.kvs st h
    rw [← hlayers, ← rewindAll_eq_iff]
    constructor
    · intro heq
      exact Or.inr ⟨congrArg SeqState.kvs heq, congrArg SeqState.linear heq⟩
    · rintro (hrefuses | ⟨hkvs, hrewind⟩)
      · exact absurd hrefuses hlin
      · simp only at hkvs ⊢
        rw [hkvs, hrewind]

/-- Every layer in front of the first that has something on disk has the new identity already. -/
def FirstSpilled (seqId : Nat) (kvs : List (KVCacheState σ)) : Prop :=
  ∃ pre kv post, kvs = pre ++ kv :: post ∧ kv.hasSpill = true ∧
    ∀ k ∈ pre, k.hasSpill = false ∧ k.seqId = seqId

theorem firstSpilled_cons {seqId : Nat} {kv : KVCacheState σ} {rest : List (KVCacheState σ)} :
    FirstSpilled seqId (kv :: rest) ↔
      kv.hasSpill = true ∨ (kv.hasSpill = false ∧ kv.seqId = seqId) ∧ FirstSpilled seqId rest := by
  constructor
  · rintro ⟨pre, k, post, hsplit, hspill, hpre⟩
    cases pre with
    | nil =>
      obtain ⟨rfl, _⟩ := List.cons.inj hsplit
      exact Or.inl hspill
    | cons x pre =>
      obtain ⟨rfl, hrest⟩ := List.cons.inj hsplit
      rw [List.forall_mem_cons] at hpre
      exact Or.inr ⟨hpre.1, pre, k, post, hrest, hspill, hpre.2⟩
  · rintro (hspill | ⟨hkv, pre, k, post, rfl, hspill, hpre⟩)
    · exact ⟨[], kv, rest, rfl, hspill, fun k hk => absurd hk List.not_mem_nil⟩
    · refine ⟨kv :: pre, k, post, rfl, hspill, ?_⟩
      rw [List.forall_mem_cons]
      exact ⟨hkv, hpre⟩

theorem rekeyLayers_refused_iff (seqId : Nat) : ∀ (kvs : List (KVCacheState σ)) {e : GarudaError},
    (rekeyLayers seqId kvs).1 = .error e →
    ((rekeyLayers seqId kvs).2 = kvs ↔ FirstSpilled seqId kvs)
  | [], e, h => by cases h
  | kv :: rest, e, h => by
    rw [firstSpilled_cons]
    rw [rekeyLayers, KVCacheState.rekey] at h ⊢
    cases hspill : kv.hasSpill with
    | true =>
      simp only [if_pos]
      exact ⟨fun _ => Or.inl trivial, fun _ => trivial⟩
    | false =>
      simp only [hspill, if_neg Bool.false_ne_true] at h ⊢
      have ih := rekeyLayers_refused_iff seqId rest h
      constructor
      · intro heq
        obtain ⟨hkv, hrest⟩ := List.cons.inj heq
        exact Or.inr ⟨⟨trivial, (congrArg KVCacheState.seqId hkv).symm⟩, ih.mp hrest⟩
      · rintro (hf | ⟨⟨_, hid⟩, hrest⟩)
        · cases hf
        · rw [ih.mpr hrest, ← hid]

/-- **When a refusal leaves the sequence as it was.** A refused cut does when the recurrent layers
refuse it, or when the first attention layer that refuses comes before any that has been shortened
and no recurrent layer has been put back. A refused `rekey` does when every layer in front of the
first that has something on disk has the new identity already. -/
theorem refused_whole_iff (seq : SeqState σ) (st : σ) (e : GarudaError) :
    (∀ m, (seq.truncate m st).1 = .error e →
      ((seq.truncate m st).2.1 = seq ↔
        LinearRefuses m seq ∨
          FirstRefuses m seq.kvs ∧ ∀ s, some s ∈ seq.linear → s.Unmoved m)) ∧
    ∀ seqId, (seq.rekey seqId).1 = .error e →
      ((seq.rekey seqId).2 = seq ↔ FirstSpilled seqId seq.kvs) := by
  refine ⟨fun m h => truncate_refused_iff h, fun seqId h => ?_⟩
  have hlayers := rekeyLayers_refused_iff seqId seq.kvs h
  rw [← hlayers]
  constructor
  · intro heq
    exact congrArg SeqState.kvs heq
  · intro hkvs
    show ({ seq with kvs := (rekeyLayers seqId seq.kvs).2 } : SeqState σ) = seq
    rw [hkvs]

end SeqState

/-! ## A round that cannot be rolled back -/

/-- A recurrent layer and an attention layer with room for one block of two positions. -/
def hybridCfg : KvConfig (Path → Option Bytes) :=
  { tinyCfg 2 1 (some 1) memoryStorage with nLayers := 2, kvDims := some [0, 1] }

/-- One token through both layers. -/
def hybridToken (n : UInt32) : List PassStep :=
  [.fold 0 1 1 [⟨n⟩] [⟨n⟩], .attend 1 [⟨n⟩] [⟨n⟩]]

/-- A round of three tokens. -/
def hybridRound : Option (SeqState (Path → Option Bytes) × (Path → Option Bytes)) :=
  (runList SeqState.consume (hybridToken 1 ++ hybridToken 2 ++ hybridToken 3)
    ((SeqState.new hybridCfg 7).beginRecording, fun _ => none)).map fun s =>
      (s.1.endRecording, s.2)

/-- The attention layer refuses to be cut back to one token; by then the recurrent layer is back
there. -/
theorem refused_cut_rewinds : ∃ s,
    hybridRound = some s ∧ (∃ e, (s.1.truncate 1 s.2).1 = .error e) ∧
      (s.1.truncate 1 s.2).2.1.linear ≠ s.1.linear ∧ (s.1.truncate 1 s.2).2.1 ≠ s.1 := by
  have hrun : hybridRound.any (fun s => (s.1.truncate 1 s.2).1.toBool == false &&
      decide ((s.1.truncate 1 s.2).2.1.linear ≠ s.1.linear)) = true := by
    decide +kernel
  obtain ⟨s, hs, hfacts⟩ := (Option.any_eq_true _ _).mp hrun
  rw [Bool.and_eq_true, decide_eq_true_eq, beq_iff_eq] at hfacts
  obtain ⟨hrefused, hlinear⟩ := hfacts
  refine ⟨s, hs, ?_, hlinear, fun heq => hlinear (congrArg SeqState.linear heq)⟩
  cases hres : (s.1.truncate 1 s.2).1 with
  | error e => exact ⟨e, rfl⟩
  | ok _ =>
    rw [hres] at hrefused
    cases hrefused

/-- The same three tokens through the attention layer alone. -/
def plainRound : Option (SeqState (Path → Option Bytes) × (Path → Option Bytes)) :=
  runList SeqState.consume [.attend 0 [⟨1⟩] [⟨1⟩], .attend 0 [⟨2⟩] [⟨2⟩], .attend 0 [⟨3⟩] [⟨3⟩]]
    (SeqState.new (tinyCfg 2 1 (some 1) memoryStorage) 7, fun _ => none)

/-- With one layer a refusal changes nothing. -/
theorem refused_cut_whole : ∃ s,
    plainRound = some s ∧ (∃ e, (s.1.truncate 1 s.2).1 = .error e) ∧
      (s.1.truncate 1 s.2).2.1 = s.1 := by
  have hrun : plainRound.any (fun s => (s.1.truncate 1 s.2).1.toBool == false &&
      decide (s.1.kvs.map (fun kv => (kv.len, kv.cutSpilled 1)) = [(3, true)] ∧
        s.1.linear = [none])) = true := by
    decide +kernel
  obtain ⟨s, hs, hfacts⟩ := (Option.any_eq_true _ _).mp hrun
  rw [Bool.and_eq_true, decide_eq_true_eq, beq_iff_eq] at hfacts
  obtain ⟨hrefused, hkvs, hlinear⟩ := hfacts
  obtain ⟨e, he⟩ : ∃ e, (s.1.truncate 1 s.2).1 = .error e := by
    cases hres : (s.1.truncate 1 s.2).1 with
    | error e => exact ⟨e, rfl⟩
    | ok _ =>
      rw [hres] at hrefused
      cases hrefused
  refine ⟨s, hs, ⟨e, he⟩, ((SeqState.refused_whole_iff s.1 s.2 e).1 1 he).mpr (Or.inr ⟨?_, ?_⟩)⟩
  · obtain ⟨kv, hkv, hfields⟩ := List.map_eq_singleton_iff.mp hkvs
    obtain ⟨hlen, hspilled⟩ := Prod.mk.inj hfields
    exact ⟨[], kv, [], hkv, by rw [hlen]; decide, hspilled, fun k hk => absurd hk List.not_mem_nil⟩
  · intro ls hls
    rw [hlinear] at hls
    cases List.mem_singleton.mp hls

end Garuda
