import Garuda.Cache.Pass

/-!
# A sequence touches only its own files

Files are named from the sequence, the layer and the block. Whatever is done to a sequence, with a
storage that may fail at any time, changes no file but those named from it, and the layers go on
standing for what was written to them.

* `Layers.elsewhere` — a sequence does not notice what is done to another
* `Layers.apply`, `Layers.anyCut`, `Layers.drop_own` — what a call on a layer, a cut and a drop do
-/

namespace Garuda

open Infra

variable {σ : Type}

/-- What a call leaves of the list a layer was written, now that the layer has `len` positions; a
refused append may have stored its vectors. -/
def KvOp.leaves (op : KvOp) (len : Nat) (vs : List KvPair) : List KvPair :=
  match op with
  | .append key value => (vs ++ [(key, value)]).take len
  | _ => vs.take len

namespace KVCacheState

section

variable {storage : Option (StorageBackend σ)} {law : ReadsBack storage}
variable {kv : KVCacheState σ} {st : σ} {vs : List KvPair}

/-- An append, refused or not: the vectors are stored or they are not. -/
theorem Holds.append_any (hs : kv.storage = storage) (h : Holds kv (law.content st) vs)
    (k v : List F32) :
    Holds (kv.append k v st).2.1 (law.content (kv.append k v st).2.2)
      ((vs ++ [(k, v)]).take (kv.append k v st).2.1.len) := by
  rcases append_cases k v kv st with ⟨_, he, _⟩ | ⟨hk, hv, hroom, he⟩
  · rw [he]
    show Holds kv (law.content st) ((vs ++ [(k, v)]).take kv.len)
    rw [h.len_eq, List.take_left]
    exact h
  · rw [he, List.take_of_length_le]
    · exact h.stored law hs hk hv hroom
    · rw [enforceResidency_len, List.length_append, List.length_singleton, ← h.len_eq]
      exact Nat.le_refl _

/-- **Any call**, refused or not. -/
theorem Holds.applied (hs : kv.storage = storage) (h : Holds kv (law.content st) vs) (op : KvOp) :
    Holds (op.apply kv st).2.1 (law.content (op.apply kv st).2.2)
      (op.leaves (op.apply kv st).2.1.len vs) := by
  cases op with
  | append k v => exact h.append_any hs k v
  | ensureResident a b =>
    show Holds (kv.ensureResident a b st).2.1 _ (vs.take (kv.ensureResident a b st).2.1.len)
    rw [ensureResident_len, h.len_eq, List.take_length]
    exact h.ensureResident law hs a b
  | truncate m =>
    show Holds (kv.truncate m st).2.1 _ (vs.take (kv.truncate m st).2.1.len)
    have hsame : Holds kv (law.content st) (vs.take kv.len) := by
      rw [h.len_eq, List.take_length]
      exact h
    rcases truncate_cases m kv st with ⟨_, he⟩ | ⟨_, _, _, he⟩ | ⟨hlt, _, he⟩
    · simp only [KvOp.apply, he]
      exact hsame
    · simp only [KvOp.apply, he]
      exact hsame
    · have hcut := h.truncate law hs (m := m) (by rw [he])
      simp only [KvOp.apply, he] at hcut ⊢
      exact hcut

end

end KVCacheState

namespace SeqState

section

variable {storage : Option (StorageBackend σ)} {law : ReadsBack storage}
variable {seqId : Nat} {s s' : SeqState σ × σ} {vs : Nat → List KvPair}

/-- From `st` to `st'` no file changes but those of sequence `seqId`. -/
def OnlySequence (law : ReadsBack storage) (seqId : Nat) (st st' : σ) : Prop :=
  ∀ q, (∀ l b, q ≠ spillPath seqId l b) → law.content st' q = law.content st q

theorem OnlySequence.refl (seqId : Nat) (st : σ) : OnlySequence law seqId st st := fun _ _ => rfl

theorem OnlyLayer.onlySequence {layer : Nat} {st st' : σ} (h : OnlyLayer law seqId layer st st') :
    OnlySequence law seqId st st' := fun q hq => h q fun b => hq layer b

/-- **A sequence does not notice what is done to another.** -/
theorem Layers.elsewhere (h : Layers law seqId s vs) {seqId' : Nat} (hne : seqId ≠ seqId') {st' : σ}
    (honly : OnlySequence law seqId' s.2 st') : Layers law seqId (s.1, st') vs := by
  refine { h with holds := fun l kv hkv => ?_ }
  refine (h.holds l kv hkv).disk_congr fun b _ => honly _ fun l' b' hpath => hne ?_
  rw [← h.seqId_eq l kv hkv]
  exact (spillPath_inj.mp hpath).1

theorem Layers.sameFiles (h : Layers law seqId s vs) {st' : σ}
    (hst : law.content st' = law.content s.2) : Layers law seqId (s.1, st') vs := by
  refine { h with holds := fun l kv hkv => ?_ }
  show kv.Holds (law.content st') (vs l)
  rw [hst]
  exact h.holds l kv hkv

/-- With nothing on disk the files do not matter. -/
theorem Layers.anywhere (h : Layers law seqId s vs) (hs : s.1.hasSpill = false) (st' : σ) :
    Layers law seqId (s.1, st') vs := by
  refine { h with holds := fun l kv hkv => (h.holds l kv hkv).disk_congr fun b hb => ?_ }
  have hempty := KVCacheState.hasSpill_false_iff.mp
    (by simpa using List.any_eq_false.mp hs kv (List.mem_of_getElem? hkv))
  exact absurd (hempty ▸ hb) Std.ExtTreeMap.not_mem_empty

/-! ## What is done to a sequence -/

/-- How many positions layer `l` has. -/
def lenAt (seq : SeqState σ) (l : Nat) : Nat := ((seq.kvs[l]?).map KVCacheState.len).getD 0

theorem apply_onlyLayer (op : KvOp) {kv : KVCacheState σ} (hs : kv.storage = storage) {st : σ}
    {ws : List KvPair} (h : kv.Holds (law.content st) ws) :
    OnlyLayer law kv.seqId kv.layer st (op.apply kv st).2.2 := by
  cases op with
  | append k v => exact append_onlyLayer k v hs st
  | ensureResident a b =>
    intro q _
    exact congrFun (ensureResident_content a b hs st) q
  | truncate m => exact truncate_onlyLayer m hs h

/-- **A call on one layer**, refused or not. -/
theorem Layers.apply (h : Layers law seqId s vs) {l : Nat} {op : KvOp}
    (hstep : SeqState.apply s (l, op) = some s') :
    Layers law seqId s' (Function.update vs l (op.leaves (s'.1.lenAt l) (vs l))) ∧
      OnlySequence law seqId s.2 s'.2 := by
  obtain ⟨kv, hkv, rfl⟩ := apply_cases hstep
  have hst := h.storage_eq l kv hkv
  have hholds := h.holds l kv hkv
  have honly := apply_onlyLayer op hst hholds
  have hlen : lenAt { s.1 with kvs := s.1.kvs.set l (op.apply kv s.2).2.1 } l
      = (op.apply kv s.2).2.1.len := by
    rw [lenAt, List.getElem?_set_self (List.getElem?_eq_some_iff.mp hkv).1]
    rfl
  refine ⟨?_, ?_⟩
  · show Layers law seqId _ (Function.update vs l (op.leaves (lenAt _ l) (vs l)))
    rw [hlen]
    exact h.set hkv (KVCacheState.apply_shape op kv s.2) (hholds.applied hst op) honly _ _
  · rw [h.seqId_eq l kv hkv] at honly
    exact honly.onlySequence

/-- **A cut of the sequence**, refused or not. -/
theorem Layers.anyCut (h : Layers law seqId s vs) (m : Nat) :
    Layers law seqId (s.1.truncate m s.2).2
        (fun l => (vs l).take ((s.1.truncate m s.2).2.1.lenAt l)) ∧
      OnlySequence law seqId s.2 (s.1.truncate m s.2).2.2 := by
  unfold SeqState.truncate
  split
  · -- refused by the recurrent layers
    refine ⟨{ h with holds := fun l kv hkv => ?_ }, OnlySequence.refl _ _⟩
    have hholds := h.holds l kv hkv
    have hlen : s.1.lenAt l = (vs l).length := by
      rw [lenAt, hkv, ← hholds.len_eq]
      rfl
    show kv.Holds _ ((vs l).take (s.1.lenAt l))
    rw [hlen, List.take_length]
    exact hholds
  · obtain ⟨hframe, hlen, hrest⟩ := truncateLayers_any storage law seqId m s.1.kvs 0 s.2 vs
      (by
        intro j kv hj
        exact ⟨h.seqId_eq j kv hj, by rw [h.layer_eq j kv hj]; omega, h.storage_eq j kv hj,
          h.holds j kv hj⟩)
    have hold : ∀ (l : Nat) (kv' : KVCacheState σ),
        (truncateLayers m s.1.kvs s.2).2.1[l]? = some kv' →
        ∃ kv, s.1.kvs[l]? = some kv ∧ KVCacheState.SameShape kv kv' ∧
          kv'.Holds (law.content (truncateLayers m s.1.kvs s.2).2.2) ((vs l).take kv'.len) := by
      intro l kv' hl
      have hlt := (List.getElem?_eq_some_iff.mp hl).1
      rw [hlen] at hlt
      have hkv := List.getElem?_eq_getElem hlt
      obtain ⟨hshape, hholds, _⟩ := hrest l _ kv' hkv hl
      exact ⟨_, hkv, hshape, hholds⟩
    refine ⟨{ seqId_eq := ?_, layer_eq := ?_, storage_eq := ?_, holds := ?_ }, ?_⟩
    · intro l kv' hl
      obtain ⟨kv, hkv, hshape, _⟩ := hold l kv' hl
      rw [hshape.seqId]; exact h.seqId_eq l kv hkv
    · intro l kv' hl
      obtain ⟨kv, hkv, hshape, _⟩ := hold l kv' hl
      rw [hshape.layer]; exact h.layer_eq l kv hkv
    · intro l kv' hl
      obtain ⟨kv, hkv, hshape, _⟩ := hold l kv' hl
      rw [hshape.storage]; exact h.storage_eq l kv hkv
    · intro l kv' hl
      obtain ⟨_, _, _, hholds⟩ := hold l kv' hl
      have hlenl : lenAt { s.1 with
          kvs := (truncateLayers m s.1.kvs s.2).2.1, linear := s.1.rewindAll m } l = kv'.len := by
        rw [lenAt, hl]
        rfl
      show kv'.Holds _ ((vs l).take (lenAt _ l))
      rw [hlenl]
      exact hholds
    · intro q hq
      exact hframe q fun j b _ => hq _ b

/-! ## Dropping a sequence -/

theorem removeFiles_frame (law : ReadsBack storage) {b : StorageBackend σ} (hb : storage = some b) :
    ∀ (ps : List Path) (st : σ) (q : Path), q ∉ ps →
      law.content (KVCacheState.removeFiles b ps st) q = law.content st q
  | [], _, _, _ => rfl
  | p :: ps, st, q, hq => by
    rw [List.mem_cons, not_or] at hq
    rw [KVCacheState.removeFiles, removeFiles_frame law hb ps _ q hq.2]
    exact law.remove_frame b hb p st q hq.1

/-- A path that no layer knows is left alone by a purge. -/
theorem purgeLayers_frame (law : ReadsBack storage) : ∀ (kvs : List (KVCacheState σ)) (st : σ)
    (q : Path), (∀ kv ∈ kvs, kv.storage = storage ∧ ∀ b : Nat, kv.spilled[b]? ≠ some q) →
    law.content (purgeLayers kvs st).2 q = law.content st q
  | [], _, _, _ => rfl
  | kv :: kvs, st, q, h => by
    rw [List.forall_mem_cons] at h
    obtain ⟨⟨hs, hq⟩, hrest⟩ := h
    show law.content (purgeLayers kvs (kv.purgeSpillFiles st).2).2 q = _
    rw [purgeLayers_frame law kvs _ q hrest]
    unfold KVCacheState.purgeSpillFiles
    split
    · rfl
    · next b hb =>
      refine removeFiles_frame law (hs.symm.trans hb) _ st q fun hmem => ?_
      obtain ⟨⟨c, p⟩, hc, rfl⟩ := List.mem_map.mp hmem
      exact hq c (Std.ExtTreeMap.mem_toList_iff_getElem?_eq_some.mp hc)

/-- **A drop** removes files of the sequence only. -/
theorem Layers.drop_own (h : Layers law seqId s vs) :
    OnlySequence law seqId s.2 (s.1.drop s.2) := by
  intro q hq
  refine purgeLayers_frame law s.1.kvs s.2 q fun kv hkv => ?_
  obtain ⟨l, hl⟩ := List.mem_iff_getElem?.mp hkv
  refine ⟨h.storage_eq l kv hl, fun b hb => hq kv.layer b ?_⟩
  rw [← h.seqId_eq l kv hl]
  exact (h.holds l kv hl).spilled_path b q hb

/-- A sequence with nothing on disk removes nothing. -/
theorem drop_of_no_spill (h : s.1.hasSpill = false) (hs : ∀ kv ∈ s.1.kvs, kv.storage = storage) :
    law.content (s.1.drop s.2) = law.content s.2 := by
  funext q
  refine purgeLayers_frame law s.1.kvs s.2 q fun kv hkv => ⟨hs kv hkv, fun b hb => ?_⟩
  have hempty := KVCacheState.hasSpill_false_iff.mp
    (by simpa using List.any_eq_false.mp h kv hkv)
  exact Std.ExtTreeMap.not_mem_empty (hempty ▸ KVCacheState.mem_of_getElem? hb)

end

end SeqState

end Garuda
