import Garuda.Cache.OwnFiles
import Garuda.Cache.Rollback
import Garuda.Cache.SpillFiles
import Garuda.Dense.Layers
import Garuda.Infra.Attempt

/-!
# Attention over the paged cache

What every attention layer does with its cache: a token's key and value are appended, the positions
in the window are paged back in, and every head reads them.

* `store` appends and pages back in; `attendHeads` is the heads.
* `headsOf` is what the heads come to, as a function of a query and of the list of keys and values.

`attend_ends` says that over a storage that does not fail the two together are that function of the
list that the cache stands for, wherever its blocks are.
-/

namespace Garuda

open Infra Simd

variable {σ : Type}

/-- A storage that does not fail, or none at all. -/
structure Steady {storage : Option (StorageBackend σ)} (law : ReadsBack storage) : Prop where
  nothing : storage = none → ∀ st p, law.content st p = none
  reliable : ∀ b, storage = some b → ∃ r : Reliable b, r.content = law.content

namespace KVCacheState

section

variable {storage : Option (StorageBackend σ)} {law : ReadsBack storage} {kv : KVCacheState σ}
  {st : σ} {vs : List KvPair}

/-- There is room for one more. -/
theorem Holds.append_steady (hlaw : Steady law) (hs : kv.storage = storage)
    (h : Holds kv (law.content st) vs) {k v : List F32} (hk : k.length = kv.kvDim)
    (hv : v.length = kv.kvDim) (hroom : vs.length < kv.maxPositions) :
    (kv.append k v st).1 = .ok () := by
  have hlen := h.len_eq
  rw [KVCacheState.append, if_neg (by rw [hk, hv]; simp), if_neg (by omega)]
  cases hst : storage with
  | none =>
    have hnone : (kv.push k v).storage = none := hs.trans hst
    rw [KVCacheState.enforceResidency, hnone]
    split <;> rfl
  | some b =>
    obtain ⟨r, -⟩ := hlaw.reliable b hst
    exact enforceResidency_ok r (show (kv.push k v).storage = some b from hs.trans hst) _ _

theorem Holds.ensureResident_steady (hlaw : Steady law) (hs : kv.storage = storage)
    (h : Holds kv (law.content st) vs) (start stop : Nat) :
    (kv.ensureResident start stop st).1 = .ok () := by
  cases hst : storage with
  | none =>
    rcases ensureResident_cases start stop kv st with ⟨_, he⟩ | ⟨hlt, he⟩
    · rw [he]
    · have hneeded : kv.needed start stop = [] := by
        rw [List.eq_nil_iff_forall_not_mem]
        intro b hb
        have hdisk := h.spilled_disk b ((mem_needed hlt).mp hb).2.2
        rw [hlaw.nothing hst] at hdisk
        cases hdisk
      rw [he, hneeded]
      rfl
  | some b =>
    obtain ⟨r, hr⟩ := hlaw.reliable b hst
    exact Holds.ensureResident_ok r (hs.trans hst) (hr ▸ h) start stop

end

end KVCacheState

namespace Attention

/-- A call on the cache. -/
def ofStep (f : KVCacheState σ → σ → KVCacheState.Step σ) :
    Attempt GarudaError (KVCacheState σ × σ) Unit := fun w =>
  match f w.1 w.2 with
  | (.ok (), w) => (.ok (), w)
  | (.error e, w) => (.err e, w)

theorem ofStep_ends {f : KVCacheState σ → σ → KVCacheState.Step σ} {w : KVCacheState σ × σ}
    (h : (f w.1 w.2).1 = .ok ()) {Q : Unit → KVCacheState σ × σ → Prop}
    (hQ : Q () (f w.1 w.2).2) : Attempt.Ends (ofStep f) w Q := by
  refine ⟨(), (f w.1 w.2).2, ?_, hQ⟩
  rw [ofStep]
  generalize f w.1 w.2 = out at h
  obtain ⟨res, w'⟩ := out
  cases h
  rfl

/-- Append a token's vectors and page its window back in. The answer is the window, from its oldest
position to past the token's own. -/
def store (k v : List F32) : Attempt GarudaError (KVCacheState σ × σ) (Nat × Nat) := do
  let pos ← Attempt.gets fun w => w.1.len
  ofStep (KVCacheState.append k v)
  let start ← Attempt.gets fun w => w.1.attentionStart
  ofStep (KVCacheState.ensureResident start (pos + 1))
  pure (start, pos + 1)

/-- The oldest position of the window after `len` of them. -/
def windowStart (window : Option Nat) (len : Nat) : Nat :=
  match window with
  | some w => len - w
  | none => 0

theorem windowStart_le (window : Option Nat) (len : Nat) : windowStart window len ≤ len := by
  unfold windowStart
  split
  · exact Nat.sub_le _ _
  · exact Nat.zero_le _

/-- The cache reads back the entries `es`, from position `start` on. -/
def Reads (kv : KVCacheState σ) (start : Nat) (es : List KvPair) : Prop :=
  ∀ i e, es[i]? = some e → kv.keyAt (start + i) = some e.1 ∧ kv.valueAt (start + i) = some e.2

section Store

variable {storage : Option (StorageBackend σ)} {law : ReadsBack storage} {kv : KVCacheState σ}
  {st : σ} {vs : List KvPair} {k v : List F32}

/-- **A token's vectors are stored, and the window is there to be read.** -/
theorem store_ends (hlaw : Steady law) (hs : kv.storage = storage)
    (h : kv.Holds (law.content st) vs) (hk : k.length = kv.kvDim) (hv : v.length = kv.kvDim)
    (hroom : vs.length < kv.maxPositions) :
    Attempt.Ends (store k v) (kv, st) fun window w =>
      window = (windowStart kv.slidingWindow (vs.length + 1), vs.length + 1) ∧
      w.1.Holds (law.content w.2) (vs ++ [(k, v)]) ∧ KVCacheState.SameShape kv w.1 ∧
      SeqState.OnlyLayer law kv.seqId kv.layer st w.2 ∧
      Reads w.1 (windowStart kv.slidingWindow (vs.length + 1))
        ((vs ++ [(k, v)]).drop (windowStart kv.slidingWindow (vs.length + 1))) := by
  have happend := h.append_steady hlaw hs hk hv hroom
  have hstored := h.append law hs happend
  have hshape := KVCacheState.append_shape k v kv st
  have honly : SeqState.OnlyLayer law kv.seqId kv.layer st (kv.append k v st).2.2 :=
    SeqState.append_onlyLayer k v hs st
  have hlen : (kv.append k v st).2.1.len = vs.length + 1 := by
    rw [KVCacheState.append_ok_len happend, h.len_eq]
  have hstart : (kv.append k v st).2.1.attentionStart
      = windowStart kv.slidingWindow (vs.length + 1) := by
    rw [KVCacheState.attentionStart, hshape.slidingWindow, hlen]
    rfl
  have hstA := hshape.storage.trans hs
  unfold store
  refine Attempt.Ends.gets_bind (Attempt.Ends.bind (ofStep_ends happend (Q := fun _ w =>
    w = (kv.append k v st).2) rfl) ?_)
  rintro - w rfl
  rw [show ((kv, st) : KVCacheState σ × σ).1.len = vs.length from h.len_eq]
  generalize kv.append k v st = out at hstored hshape honly hlen hstart hstA
  obtain ⟨res, kv₁, st₁⟩ := out
  dsimp only at hstored hshape honly hlen hstart hstA ⊢
  have hok := hstored.ensureResident_steady hlaw hstA
    (windowStart kv.slidingWindow (vs.length + 1)) (vs.length + 1)
  refine Attempt.Ends.gets_bind ?_
  dsimp only
  rw [hstart]
  refine Attempt.Ends.bind (ofStep_ends hok (Q := fun _ w => w = _) rfl) ?_
  rintro - w rfl
  refine Attempt.Ends.pure ⟨rfl, hstored.ensureResident law hstA _ _,
    hshape.trans (KVCacheState.ensureResident_shape _ _ _ _), ?_, ?_⟩
  · intro q hq
    rw [SeqState.ensureResident_content _ _ hstA]
    exact honly q hq
  · intro i e hi
    rw [List.getElem?_drop] at hi
    have hlt := (List.getElem?_eq_some_iff.mp hi).1
    rw [List.length_append, List.length_singleton] at hlt
    have hread := hstored.read_ensured law hstA hok (Nat.le_add_right _ i) hlt
      (by rw [KVCacheState.ensureResident_len]; exact hlen ▸ hlt)
    rw [hi] at hread
    exact hread

end Store

/-! ## Heads -/

section Heads

variable [Analytic F32] (dot : List F32 → List F32 → F32)

/-- How the errors for what the cache does not hold are worded. -/
structure Missing where
  key : Nat → GarudaError
  value : Nat → GarudaError

/-- One head's part of what the cache holds at position `j`. -/
def part (missing : Nat → GarudaError) (hd kvHead j : Nat) (held : Option (List F32)) :
    Checked GarudaError (List F32) :=
  match held with
  | none => .err (missing j)
  | some xs => rowAt hd kvHead xs

/-- One head: its scores over the window, their softmax, and the values weighted by it. -/
def attendHead (missing : Missing) (hd kvHead : Nat) (scale : F32) (start stop : Nat)
    (kv : KVCacheState σ) (q out : List F32) : Checked GarudaError (List F32) := do
  let scores ← (List.range' start (stop - start)).mapM fun j => do
    let key ← part missing.key hd kvHead j (kv.keyAt j)
    .ok (dot q key * scale)
  let weights := Simd.softmax scores
  ((List.range' start (stop - start)).zip weights).foldlM (fun out (j, p) => do
    let value ← part missing.value hd kvHead j (kv.valueAt j)
    .ok (addScaled out value p)) out

/-- Every head in turn; `group` query heads share a key and value head. -/
def attendHeads (missing : Missing) (nHeads hd group : Nat) (start stop : Nat)
    (kv : KVCacheState σ) (q context : List F32) : Checked GarudaError (List F32) :=
  let scale := Floats.ofInt 1 / Analytic.sqrt (Floats.ofInt hd)
  updateRows hd nHeads (fun hh out => do
    let row ← rowAt hd hh q
    attendHead dot missing hd (hh / group) scale start stop kv row out) context

/-! ## What the heads come to -/

/-- One head over a list of keys and values. -/
def headOf (hd kvHead : Nat) (scale : F32) (es : List KvPair) (q out : List F32) : List F32 :=
  let weights := Simd.softmax (es.map fun e => dot q (rowOf hd kvHead e.1) * scale)
  (es.zip weights).foldl (fun out (e, p) => addScaled out (rowOf hd kvHead e.2) p) out

/-- All heads, side by side. -/
def headsOf (nHeads hd group : Nat) (es : List KvPair) (q : List F32) : List F32 :=
  let scale := Floats.ofInt 1 / Analytic.sqrt (Floats.ofInt hd)
  (List.range nHeads).flatMap fun hh =>
    headOf dot hd (hh / group) scale es (rowOf hd hh q) (List.replicate hd 0)

variable {dot} {missing : Missing} {nHeads hd group kvDim kvHead start : Nat} {scale : F32}
  {kv : KVCacheState σ} {es : List KvPair} {q out : List F32}

theorem length_headOf : (headOf dot hd kvHead scale es q out).length = out.length := by
  have hfold : ∀ (ps : List (KvPair × F32)) (out : List F32), (ps.foldl (fun out p =>
      addScaled out (rowOf hd kvHead p.1.2) p.2) out).length = out.length := by
    intro ps
    induction ps with
    | nil => exact fun _ => rfl
    | cons p ps ih =>
      intro out
      rw [List.foldl_cons, ih, length_addScaled]
  exact hfold _ out

@[simp] theorem length_headsOf : (headsOf dot nHeads hd group es q).length = nHeads * hd :=
  length_flatMap_range fun _ _ => length_headOf.trans List.length_replicate

omit [Analytic F32] in
theorem part_eq {missing : Nat → GarudaError} {xs : List F32} {j : Nat}
    (hxs : (kvHead + 1) * hd ≤ xs.length) :
    part missing hd kvHead j (some xs) = .ok (rowOf hd kvHead xs) := if_pos hxs

/-- A head reads the entries of its window, one for each position. -/
theorem attendHead_eq (hreads : Reads kv start es)
    (hwide : ∀ e ∈ es, (kvHead + 1) * hd ≤ e.1.length ∧ (kvHead + 1) * hd ≤ e.2.length) :
    attendHead dot missing hd kvHead scale start (start + es.length) kv q out
      = .ok (headOf dot hd kvHead scale es q out) := by
  -- the entry of position `j`
  let entry : Nat → KvPair := fun j => es.getD (j - start) ([], [])
  have hes : (List.range' start es.length).map entry = es := by
    refine List.ext_getElem (by simp) fun i h₁ h₂ => ?_
    simp [entry, h₂]
  have hentry : ∀ j ∈ List.range' start es.length,
      part missing.key hd kvHead j (kv.keyAt j) = .ok (rowOf hd kvHead (entry j).1) ∧
      part missing.value hd kvHead j (kv.valueAt j) = .ok (rowOf hd kvHead (entry j).2) := by
    intro j hj
    obtain ⟨hlo, hhi⟩ := List.mem_range'_1.mp hj
    have hget : es[j - start]? = some (entry j) := by
      rw [List.getElem?_eq_getElem (by omega)]
      exact congrArg some (List.getD_eq_getElem _ _ (by omega)).symm
    obtain ⟨hkey, hvalue⟩ := hreads _ _ hget
    obtain ⟨hk, hv⟩ := hwide _ (List.mem_of_getElem? hget)
    rw [Nat.add_sub_cancel' hlo] at hkey hvalue
    rw [hkey, hvalue]
    exact ⟨part_eq hk, part_eq hv⟩
  rw [attendHead, Nat.add_sub_cancel_left,
    Checked.mapM_eq_ok (g := fun j => dot q (rowOf hd kvHead (entry j).1) * scale)
      fun j hj => by rw [(hentry j hj).1, Checked.ok_bind],
    Checked.ok_bind]
  dsimp only
  rw [Checked.foldlM_eq_ok (g := fun out p => addScaled out (rowOf hd kvHead (entry p.1).2) p.2)
    fun out p hp => by rw [(hentry p.1 (List.of_mem_zip hp).1).2, Checked.ok_bind]]
  rw [headOf]
  conv_rhs => rw [← hes]
  rw [List.map_map, List.zip_map_left, List.foldl_map]
  rfl

/-- **All heads read what the cache holds**, into a context of zeros. -/
theorem attendHeads_eq (hreads : Reads kv start es) (hq : q.length = nHeads * hd)
    (hwide : ∀ e ∈ es, e.1.length = kvDim ∧ e.2.length = kvDim)
    (hgroup : ∀ hh, hh < nHeads → (hh / group + 1) * hd ≤ kvDim) :
    attendHeads dot missing nHeads hd group start (start + es.length) kv q
        (List.replicate (nHeads * hd) 0)
      = .ok (headsOf dot nHeads hd group es q) := by
  have hzero : ∀ hh, hh < nHeads →
      rowOf hd hh (List.replicate (nHeads * hd) (0 : F32)) = List.replicate hd 0 := fun hh hlt => by
    have hle := row_le (w := hd) hlt
    rw [Nat.add_one_mul] at hle
    rw [rowOf, List.drop_replicate, List.take_replicate, Nat.min_eq_left (by omega)]
  rw [attendHeads, updateRows_eq (g := fun hh out => headOf dot hd (hh / group)
      (Floats.ofInt 1 / Analytic.sqrt (Floats.ofInt hd)) es (rowOf hd hh q) out)
    List.length_replicate (fun hh hlt => ?_) (fun hh hlt => ?_)]
  · rw [headsOf]
    congr 1
    exact List.flatMap_congr fun hh hmem => by rw [hzero hh (List.mem_range.mp hmem)]
  · rw [rowAt_eq hq hlt, Checked.ok_bind]
    refine attendHead_eq hreads fun e he => ?_
    obtain ⟨hk, hv⟩ := hwide e he
    rw [hk, hv]
    exact ⟨hgroup hh hlt, hgroup hh hlt⟩
  · rw [length_headOf, hzero hh hlt, List.length_replicate]

/-! ## A token -/

/-- Store a token's vectors, and let every head read the window. -/
def attend (dot : List F32 → List F32 → F32) (missing : Missing) (nHeads hd group : Nat)
    (q k v context : List F32) : Attempt GarudaError (KVCacheState σ × σ) (List F32) := do
  let (start, stop) ← store k v
  let kv ← Attempt.gets fun w => w.1
  Attempt.lift (attendHeads dot missing nHeads hd group start stop kv q context)

/-- **A token's attention** is what its query finds in the window, its own entry included. -/
theorem attend_ends {storage : Option (StorageBackend σ)} {law : ReadsBack storage} {st : σ}
    {vs : List KvPair} {k v : List F32} (hlaw : Steady law) (hs : kv.storage = storage)
    (h : kv.Holds (law.content st) vs) (hk : k.length = kv.kvDim) (hv : v.length = kv.kvDim)
    (hroom : vs.length < kv.maxPositions) (hq : q.length = nHeads * hd)
    (hgroup : ∀ hh, hh < nHeads → (hh / group + 1) * hd ≤ kv.kvDim) :
    Attempt.Ends (attend dot missing nHeads hd group q k v (List.replicate (nHeads * hd) 0))
      (kv, st) fun out c =>
        out = headsOf dot nHeads hd group
          ((vs ++ [(k, v)]).drop (windowStart kv.slidingWindow (vs.length + 1))) q ∧
        c.1.Holds (law.content c.2) (vs ++ [(k, v)]) ∧ KVCacheState.SameShape kv c.1 ∧
        SeqState.OnlyLayer law kv.seqId kv.layer st c.2 := by
  refine Attempt.Ends.bind (store_ends hlaw hs h hk hv hroom) ?_
  rintro _ ⟨kv', st'⟩ ⟨rfl, hholds, hshape, honly, hreads⟩
  refine Attempt.Ends.gets_bind (Attempt.Ends.lift ?_ ⟨rfl, hholds, hshape, honly⟩)
  have hlen : (vs ++ [(k, v)]).length = vs.length + 1 := by simp
  have hstart := windowStart_le kv.slidingWindow (vs.length + 1)
  have hstop : vs.length + 1 = windowStart kv.slidingWindow (vs.length + 1)
      + ((vs ++ [(k, v)]).drop (windowStart kv.slidingWindow (vs.length + 1))).length := by
    rw [List.length_drop, hlen]
    omega
  have hwide : ∀ e ∈ (vs ++ [(k, v)]).drop (windowStart kv.slidingWindow (vs.length + 1)),
      e.1.length = kv.kvDim ∧ e.2.length = kv.kvDim := fun e he =>
    hshape.kvDim ▸ hholds.wide e (List.mem_of_mem_drop he)
  have hheads : attendHeads dot missing nHeads hd group
      (windowStart kv.slidingWindow (vs.length + 1))
      (windowStart kv.slidingWindow (vs.length + 1) + _) kv' q (List.replicate (nHeads * hd) 0) = _ :=
    attendHeads_eq hreads hq hwide hgroup
  rwa [← hstop] at hheads

end Heads

end Attention

end Garuda
