import Garuda.Cache.Rollback

/-!
# Passes over a sequence

A forward pass takes each token through every layer: `attend` for an attention layer, `fold`
for a recurrent one. The backends interleave the layers differently, so a pass is any list of
steps that takes every layer through the same number of tokens.

* `Layers.run` — a pass adds its tokens to every layer's list
* `Layers.truncate` — a cut of the whole sequence cuts every layer's list
* `Settled.pass`, `Settled.cut` — between passes all layers agree on the length
* `rollback_ok_iff` — when the cut after a pass succeeds
-/

namespace Garuda

open Infra

variable {σ : Type}

/-! ## Steps of a pass -/

inductive PassStep where
  /-- One token through an attention layer. -/
  | attend (l : Nat) (key value : List F32)
  /-- One token through a recurrent layer, with the state it leaves behind. -/
  | fold (l convLen stateLen : Nat) (conv state : List F32)
  deriving DecidableEq

namespace PassStep

def layer : PassStep → Nat
  | attend l _ _ => l
  | fold l _ _ _ _ => l

def isFold : PassStep → Bool
  | attend _ _ _ => false
  | fold _ _ _ _ _ => true

/-- What the layer stores for the token: a recurrent layer only counts it. -/
def pair : PassStep → KvPair
  | attend _ key value => (key, value)
  | fold _ _ _ _ _ => ([], [])

end PassStep

/-- Fold one token into a recurrent state, keeping a copy first when `recording`. -/
def LinearState.fold (recording : Bool) (conv state : List F32) (s : LinearState) : LinearState :=
  { (if recording then s.snapshot else s) with conv := conv, state := state }.advance

namespace SeqState

def consume (s : SeqState σ × σ) : PassStep → Option (SeqState σ × σ)
  | .attend l key value =>
    match s.1.kvs[l]? with
    | none => none
    | some kv =>
      match kv.attend key value s.2 with
      | (.error _, _) => none
      | (.ok (), kv, st) => some ({ s.1 with kvs := s.1.kvs.set l kv }, st)
  | .fold l convLen stateLen conv state =>
    match s.1.linearAt l convLen stateLen with
    | (.error _, _) => none
    | (.ok ls, seq) =>
      match seq.kvs[l]? with
      | none => none
      | some kv =>
        match kv.append [] [] s.2 with
        | (.error _, _) => none
        | (.ok (), kv, st) =>
          some ({ seq with
            kvs := seq.kvs.set l kv
            linear := seq.linear.set l (some (ls.fold seq.recording conv state)) }, st)

theorem consume_attend_cases {s s' : SeqState σ × σ} {l : Nat} {key value : List F32}
    (h : consume s (.attend l key value) = some s') :
    ∃ kv, s.1.kvs[l]? = some kv ∧ (kv.attend key value s.2).1 = .ok () ∧
      s' = ({ s.1 with kvs := s.1.kvs.set l (kv.attend key value s.2).2.1 },
        (kv.attend key value s.2).2.2) := by
  rw [consume] at h
  cases hk : s.1.kvs[l]? with
  | none => rw [hk] at h; simp at h
  | some kv =>
    rw [hk] at h
    refine ⟨kv, rfl, ?_⟩
    cases ha : kv.attend key value s.2 with
    | mk res out =>
      simp only [ha] at h
      cases res with
      | error e => simp at h
      | ok _ => exact ⟨rfl, (Option.some.inj h).symm⟩

/-- A state that stands for `none` until it is allocated. -/
def linearOr (convLen stateLen : Nat) (o : Option LinearState) : LinearState :=
  o.getD (.zeros convLen stateLen)

theorem linearAt_ok {seq seq' : SeqState σ} {l convLen stateLen : Nat} {ls : LinearState}
    (h : seq.linearAt l convLen stateLen = (.ok ls, seq')) :
    ∃ o, seq.linear[l]? = some o ∧ ls = linearOr convLen stateLen o ∧ seq'.kvs = seq.kvs ∧
      seq'.recording = seq.recording ∧ ∀ x, seq'.linear.set l x = seq.linear.set l x := by
  unfold linearAt at h
  split at h
  · simp at h
  · next s hl =>
    split at h
    · simp at h
    · obtain ⟨h1, h2⟩ := Prod.mk.inj h
      exact ⟨some s, hl, (Except.ok.inj h1).symm, by rw [← h2], by rw [← h2], by rw [← h2]; simp⟩
  · next hl =>
    obtain ⟨h1, h2⟩ := Prod.mk.inj h
    exact ⟨none, hl, (Except.ok.inj h1).symm, by rw [← h2], by rw [← h2], by rw [← h2]; simp⟩

theorem consume_fold_cases {s s' : SeqState σ × σ} {l convLen stateLen : Nat}
    {conv state : List F32} (h : consume s (.fold l convLen stateLen conv state) = some s') :
    ∃ kv o, s.1.kvs[l]? = some kv ∧ s.1.linear[l]? = some o ∧ (kv.append [] [] s.2).1 = .ok () ∧
      s' = ({ s.1 with
        kvs := s.1.kvs.set l (kv.append [] [] s.2).2.1
        linear := s.1.linear.set l
          (some ((linearOr convLen stateLen o).fold s.1.recording conv state)) },
        (kv.append [] [] s.2).2.2) := by
  rw [consume] at h
  cases hl : s.1.linearAt l convLen stateLen with
  | mk res seq =>
    simp only [hl] at h
    cases res with
    | error e => simp at h
    | ok ls =>
      obtain ⟨o, ho, hls, hkvs, hrec, hset⟩ := linearAt_ok hl
      simp only [hkvs, hrec, hset, hls] at h
      cases hk : s.1.kvs[l]? with
      | none => rw [hk] at h; simp at h
      | some kv =>
        rw [hk] at h
        refine ⟨kv, o, rfl, ho, ?_⟩
        cases ha : kv.append [] [] s.2 with
        | mk res out =>
          simp only [ha] at h
          cases res with
          | error e => simp at h
          | ok _ =>
            refine ⟨rfl, ?_⟩
            rw [← Option.some.inj h]

/-! ## One layer in the middle of a pass -/

/-- Tokens folded into a recurrent state; none before it is allocated. -/
def foldedOf (o : Option LinearState) : Nat := (o.map LinearState.folded).getD 0

def historyOf (o : Option LinearState) : List Snapshot := (o.map LinearState.history).getD []

theorem foldedOf_fold (convLen stateLen : Nat) (recording : Bool) (conv state : List F32)
    (o : Option LinearState) :
    foldedOf (some ((linearOr convLen stateLen o).fold recording conv state)) = foldedOf o + 1 := by
  cases o with
  | none => cases recording <;> rfl
  | some s => cases recording <;> rfl

theorem mem_historyOf_fold {convLen stateLen : Nat} {recording : Bool} {conv state : List F32}
    {o : Option LinearState} {e : Snapshot} :
    e ∈ historyOf (some ((linearOr convLen stateLen o).fold recording conv state)) ↔
      e ∈ historyOf o ∨ (recording = true ∧
        e = { folded := foldedOf o, conv := (linearOr convLen stateLen o).conv,
              state := (linearOr convLen stateLen o).state }) := by
  cases o with
  | none =>
    cases recording <;> simp [historyOf, LinearState.fold, LinearState.advance,
      LinearState.snapshot, linearOr, LinearState.zeros, foldedOf]
  | some s =>
    cases recording <;> simp [historyOf, LinearState.fold, LinearState.advance,
      LinearState.snapshot, linearOr, foldedOf]

/-- One layer after `k` tokens of a pass that began at length `start`. -/
structure LayerPass (recurrent recording : Bool) (start k : Nat) (kv₀ kv : KVCacheState σ)
    (o : Option LinearState) : Prop where
  shape : KVCacheState.SameShape kv₀ kv
  len : kv.len = start + k
  kept : kv.Kept
  inPass : 0 < k → kv.storage ≠ none → kv.kvDim ≠ 0 → kv.InPass start
  plain : recurrent = false → o = none
  folded : recurrent = true → foldedOf o = start + k
  older : ∀ e ∈ historyOf o, e.folded < foldedOf o
  recorded : recurrent = true → recording = true → ∀ j, start ≤ j → j < start + k →
    ∃ e ∈ historyOf o, e.folded = j

section

variable {storage : Option (StorageBackend σ)} {recording : Bool} {start k : Nat}
variable {kv₀ kv : KVCacheState σ} {o : Option LinearState} {st : σ} {vs : List KvPair}

theorem LayerPass.attend (law : ReadsBack storage) (hs : kv.storage = storage)
    (hholds : kv.Holds (law.content st) vs) (h : LayerPass false recording start k kv₀ kv o)
    {key value : List F32} (hok : (kv.attend key value st).1 = .ok ()) :
    LayerPass false recording start (k + 1) kv₀ (kv.attend key value st).2.1 o := by
  have hshape := KVCacheState.attend_shape key value kv st
  refine
    { shape := h.shape.trans hshape
      len := by rw [KVCacheState.attend_ok_len hok, h.len, Nat.add_assoc]
      kept := h.kept.attend key value hok
      inPass := ?_
      plain := h.plain
      folded := fun hf => absurd hf (by simp)
      older := h.older
      recorded := fun hf => absurd hf (by simp) }
  intro _ hst hd
  rw [hshape.storage] at hst
  rw [hshape.kvDim] at hd
  cases hsome : storage with
  | none => exact absurd (hs.trans hsome) hst
  | some b =>
    subst hsome
    refine KVCacheState.InPass.attend law hs hd hholds h.kept ?_ hok
    by_cases hk : 0 < k
    · exact Or.inr (h.inPass hk hst hd)
    · exact Or.inl (by rw [h.len]; omega)

theorem LayerPass.fold (h : LayerPass true recording start k kv₀ kv o)
    (hok : (kv.append [] [] st).1 = .ok ()) (convLen stateLen : Nat) (conv state : List F32) :
    LayerPass true recording start (k + 1) kv₀ (kv.append [] [] st).2.1
      (some ((linearOr convLen stateLen o).fold recording conv state)) := by
  have hshape := KVCacheState.append_shape [] [] kv st
  refine
    { shape := h.shape.trans hshape
      len := by rw [KVCacheState.append_ok_len hok, h.len, Nat.add_assoc]
      kept := h.kept.append [] [] st
      inPass := ?_
      plain := fun hf => absurd hf (by simp)
      folded := fun _ => by rw [foldedOf_fold, h.folded rfl, Nat.add_assoc]
      older := ?_
      recorded := ?_ }
  · -- a layer that takes empty vectors stores nothing
    intro _ _ hd
    rw [hshape.kvDim] at hd
    rcases KVCacheState.append_cases [] [] kv st with ⟨⟨e, he⟩, _⟩ | ⟨hw, _⟩
    · rw [he] at hok; simp at hok
    · exact absurd hw.symm hd
  · intro e he
    rw [foldedOf_fold]
    rcases mem_historyOf_fold.mp he with hold | ⟨_, hnew⟩
    · exact Nat.lt_succ_of_lt (h.older e hold)
    · rw [hnew]; exact Nat.lt_succ_self _
  · intro _ hrec j hlo hhi
    by_cases hj : j < start + k
    · obtain ⟨e, he, hej⟩ := h.recorded rfl hrec j hlo hj
      exact ⟨e, mem_historyOf_fold.mpr (Or.inl he), hej⟩
    · refine ⟨_, mem_historyOf_fold.mpr (Or.inr ⟨hrec, rfl⟩), ?_⟩
      show foldedOf o = j
      rw [h.folded rfl]
      omega

end

/-! ## The lists behind the layers -/

section

variable {storage : Option (StorageBackend σ)} {law : ReadsBack storage} {seqId : Nat}

/-- One step of a pass adds one position to its layer's list. -/
theorem Layers.consume {s s' : SeqState σ × σ} {vs : Nat → List KvPair}
    (h : Layers law seqId s vs) {p : PassStep} (hstep : SeqState.consume s p = some s') :
    Layers law seqId s' (Function.update vs p.layer (vs p.layer ++ [p.pair])) := by
  cases p with
  | attend l key value =>
    obtain ⟨kv, hkv, hok, rfl⟩ := consume_attend_cases hstep
    have hst := h.storage_eq l kv hkv
    obtain ⟨ha, he⟩ := KVCacheState.attend_ok hok
    have hA := (h.holds l kv hkv).append law hst ha
    have hstA := (KVCacheState.append_shape key value kv s.2).storage.trans hst
    refine h.set hkv (KVCacheState.attend_shape key value kv s.2)
      (by rw [he]; exact hA.ensureResident law hstA _ _) ?_ _ _
    rw [he]
    intro q hq
    rw [ensureResident_content _ _ hstA]
    exact append_onlyLayer key value hst s.2 q hq
  | fold l convLen stateLen conv state =>
    obtain ⟨kv, o, hkv, _, hok, rfl⟩ := consume_fold_cases hstep
    have hst := h.storage_eq l kv hkv
    exact h.set hkv (KVCacheState.append_shape [] [] kv s.2)
      ((h.holds l kv hkv).append law hst hok) (append_onlyLayer [] [] hst s.2) _ _

/-- What some steps store in layer `l`. -/
def stored (l : Nat) (steps : List PassStep) : List KvPair :=
  (steps.filter fun p => p.layer == l).map PassStep.pair

theorem length_stored (l : Nat) (steps : List PassStep) :
    (stored l steps).length = steps.countP fun p => p.layer == l := by
  rw [stored, List.length_map, List.countP_eq_length_filter]

/-- A whole pass adds one position for each of its tokens to each layer's list. -/
theorem Layers.run : ∀ {steps : List PassStep} {s s' : SeqState σ × σ} {vs : Nat → List KvPair},
    Layers law seqId s vs → runList SeqState.consume steps s = some s' →
    Layers law seqId s' (fun l => vs l ++ stored l steps) := by
  intro steps
  induction steps with
  | nil =>
    intro s s' vs h hrun
    rw [← Option.some.inj hrun]
    simpa [stored] using h
  | cons p steps ih =>
    intro s s' vs h hrun
    obtain ⟨m, hm, hrun⟩ := runList_cons.mp hrun
    have h' := ih (h.consume hm) hrun
    have hlist : (fun l => Function.update vs p.layer (vs p.layer ++ [p.pair]) l
        ++ stored l steps) = fun l => vs l ++ stored l (p :: steps) := by
      funext l
      unfold stored
      by_cases hl : l = p.layer
      · subst hl
        rw [Function.update_self, List.filter_cons_of_pos (by simp), List.map_cons,
          List.append_assoc, List.singleton_append]
      · rw [Function.update_of_ne hl, List.filter_cons_of_neg (by simpa using Ne.symm hl)]
    rw [hlist] at h'
    exact h'

end

/-! ## The sequence in the middle of a pass -/

section

variable {storage : Option (StorageBackend σ)}

/-- The sequence after some tokens of a pass: layer `l` has taken `count l` of them. -/
structure PassState (law : ReadsBack storage) (seqId : Nat) (recurrent : Nat → Bool)
    (recording : Bool) (start : Nat) (count : Nat → Nat) (s₀ s : SeqState σ × σ) : Prop where
  layers : ∃ vs, Layers law seqId s vs
  recording_eq : s.1.recording = recording
  size : s.1.kvs.length = s₀.1.kvs.length
  sizeLinear : s.1.linear.length = s₀.1.kvs.length
  layer : ∀ (l : Nat) (kv₀ kv : KVCacheState σ) (o : Option LinearState),
    s₀.1.kvs[l]? = some kv₀ → s.1.kvs[l]? = some kv → s.1.linear[l]? = some o →
      LayerPass (recurrent l) recording start (count l) kv₀ kv o

variable {law : ReadsBack storage} {seqId : Nat} {recurrent : Nat → Bool} {recording : Bool}
variable {start : Nat} {count : Nat → Nat} {s₀ s s' : SeqState σ × σ}

theorem PassState.consume (h : PassState law seqId recurrent recording start count s₀ s)
    {p : PassStep} (hkind : p.isFold = recurrent p.layer)
    (hstep : SeqState.consume s p = some s') :
    PassState law seqId recurrent recording start
      (Function.update count p.layer (count p.layer + 1)) s₀ s' := by
  obtain ⟨vs, hvs⟩ := h.layers
  have hvs' := hvs.consume hstep
  cases p with
  | attend l key value =>
    obtain ⟨kv, hkv, hok, rfl⟩ := consume_attend_cases hstep
    have hrec : recurrent l = false := hkind.symm
    refine
      { layers := ⟨_, hvs'⟩
        recording_eq := h.recording_eq
        size := by rw [List.length_set]; exact h.size
        sizeLinear := h.sizeLinear
        layer := ?_ }
    intro j kv₀ kv' o h₀ hj ho
    rcases set_getElem?_cases hkv hj with ⟨hjl, hnew⟩ | ⟨hne, hj⟩
    · subst hjl
      have hl := h.layer j kv₀ kv o h₀ hkv ho
      rw [hrec] at hl ⊢
      rw [hnew]
      show LayerPass _ _ _ (Function.update count j (count j + 1) j) _ _ _
      rw [Function.update_self]
      exact hl.attend law (hvs.storage_eq j kv hkv) (hvs.holds j kv hkv) hok
    · show LayerPass _ _ _ (Function.update count l (count l + 1) j) _ _ _
      rw [Function.update_of_ne hne]
      exact h.layer j kv₀ kv' o h₀ hj ho
  | fold l convLen stateLen conv state =>
    obtain ⟨kv, o, hkv, ho, hok, rfl⟩ := consume_fold_cases hstep
    have hrec : recurrent l = true := hkind.symm
    refine
      { layers := ⟨_, hvs'⟩
        recording_eq := h.recording_eq
        size := by rw [List.length_set]; exact h.size
        sizeLinear := by rw [List.length_set]; exact h.sizeLinear
        layer := ?_ }
    intro j kv₀ kv' o' h₀ hj ho'
    rcases set_getElem?_cases hkv hj with ⟨hjl, hnew⟩ | ⟨hne, hj⟩
    · subst hjl
      have hl := h.layer j kv₀ kv o h₀ hkv ho
      rw [hrec] at hl ⊢
      rcases set_getElem?_cases ho ho' with ⟨_, hnew'⟩ | ⟨hne, _⟩
      · rw [hnew, hnew', h.recording_eq]
        show LayerPass _ _ _ (Function.update count j (count j + 1) j) _ _ _
        rw [Function.update_self]
        exact hl.fold hok convLen stateLen conv state
      · exact absurd rfl hne
    · rcases set_getElem?_cases ho ho' with ⟨he, _⟩ | ⟨_, ho'⟩
      · exact absurd he hne
      · show LayerPass _ _ _ (Function.update count l (count l + 1) j) _ _ _
        rw [Function.update_of_ne hne]
        exact h.layer j kv₀ kv' o' h₀ hj ho'

/-- A whole pass. -/
theorem PassState.run : ∀ {steps : List PassStep} {count : Nat → Nat} {s s' : SeqState σ × σ},
    (∀ p ∈ steps, p.isFold = recurrent p.layer) → runList SeqState.consume steps s = some s' →
    PassState law seqId recurrent recording start count s₀ s →
    PassState law seqId recurrent recording start
      (fun l => count l + steps.countP (fun p => p.layer == l)) s₀ s' := by
  intro steps
  induction steps with
  | nil =>
    intro count s s' _ hrun h
    rw [← Option.some.inj hrun]
    simpa using h
  | cons p steps ih =>
    intro count s s' hkind hrun h
    obtain ⟨m, hm, hrun⟩ := runList_cons.mp hrun
    rw [List.forall_mem_cons] at hkind
    have h' := ih hkind.2 hrun (h.consume hkind.1 hm)
    have hcount : (fun l => Function.update count p.layer (count p.layer + 1) l
        + steps.countP (fun p => p.layer == l))
        = fun l => count l + (p :: steps).countP (fun p => p.layer == l) := by
      funext l
      rw [List.countP_cons]
      by_cases hl : l = p.layer
      · subst hl
        rw [Function.update_self]
        simp only [beq_self_eq_true, if_true]
        omega
      · have hne : (p.layer == l) = false := by simpa using Ne.symm hl
        rw [Function.update_of_ne hl, hne]
        simp
    rw [hcount] at h'
    exact h'

/-! ## Between passes -/

/-- Between passes: all layers have the same length, and the recurrent ones have folded that
many tokens. -/
def Settled (law : ReadsBack storage) (seqId : Nat) (recurrent : Nat → Bool) (len : Nat)
    (s : SeqState σ × σ) : Prop :=
  PassState law seqId recurrent false len (fun _ => 0) s s

theorem settled_new {cfg : KvConfig σ} (hs : cfg.storage = storage) (st : σ) :
    Settled law seqId recurrent 0 (new cfg seqId, st) where
  layers := ⟨_, layers_new hs seqId st⟩
  recording_eq := rfl
  size := rfl
  sizeLinear := by simp [new]
  layer := by
    intro l kv₀ kv o h₀ hkv ho
    rw [h₀] at hkv
    rw [← Option.some.inj hkv, new_getElem? h₀]
    have hnone : o = none := by
      simp only [new] at ho
      exact List.eq_of_mem_replicate (List.mem_of_getElem? ho)
    subst hnone
    exact
      { shape := KVCacheState.SameShape.refl _
        len := rfl
        kept := KVCacheState.kept_forLayer cfg seqId l
        inPass := fun hk => absurd hk (Nat.lt_irrefl 0)
        plain := fun _ => rfl
        folded := fun _ => rfl
        older := by intro e he; simp [historyOf] at he
        recorded := fun _ hrec => absurd hrec (by simp) }

/-- The start of a pass. -/
theorem Settled.beginPass (h : Settled law seqId recurrent start s) (record : Bool) :
    PassState law seqId recurrent record start (fun _ => 0) s
      (if record then s.1.beginRecording else s.1, s.2) := by
  obtain ⟨vs, hvs⟩ := h.layers
  cases record with
  | false => exact h
  | true =>
    refine
      { layers := ⟨vs, hvs.seqId_eq, hvs.layer_eq, hvs.storage_eq, hvs.holds⟩
        recording_eq := rfl
        size := rfl
        sizeLinear := by
          have := h.sizeLinear
          simp [beginRecording, this]
        layer := ?_ }
    intro l kv₀ kv o h₀ hkv ho
    simp only [if_true, beginRecording, List.getElem?_map, Option.map_eq_some_iff] at ho
    obtain ⟨o', ho', rfl⟩ := ho
    have hl := h.layer l kv₀ kv o' h₀ hkv ho'
    have hfolded : foldedOf (o'.map fun s => { s with history := [] }) = foldedOf o' := by
      cases o' <;> rfl
    have hhistory : historyOf (o'.map fun s => { s with history := [] }) = [] := by
      cases o' <;> rfl
    exact
      { shape := hl.shape
        len := hl.len
        kept := hl.kept
        inPass := hl.inPass
        plain := fun hf => by rw [hl.plain hf]; rfl
        folded := fun hf => by rw [hfolded]; exact hl.folded hf
        older := by intro e he; rw [hhistory] at he; simp at he
        recorded := fun _ _ j hlo hhi => by omega }

/-- The end of a pass of `n` tokens. -/
theorem PassState.settle {n : Nat} (h : PassState law seqId recurrent recording start count s₀ s)
    (hcount : ∀ l, l < s₀.1.kvs.length → count l = n) :
    Settled law seqId recurrent (start + n) (s.1.endRecording, s.2) := by
  obtain ⟨vs, hvs⟩ := h.layers
  refine
    { layers := ⟨vs, hvs.seqId_eq, hvs.layer_eq, hvs.storage_eq, hvs.holds⟩
      recording_eq := rfl
      size := rfl
      sizeLinear := h.sizeLinear.trans h.size.symm
      layer := ?_ }
  intro l kv₁ kv o h₁ hkv ho
  have hlt : l < s₀.1.kvs.length := by
    rw [← h.size]
    exact (List.getElem?_eq_some_iff.mp hkv).1
  have hl := h.layer l _ kv o (List.getElem?_eq_getElem hlt) hkv ho
  rw [hcount l hlt] at hl
  have hsame : kv₁ = kv := Option.some.inj (h₁.symm.trans hkv)
  subst hsame
  exact
    { shape := KVCacheState.SameShape.refl _
      len := hl.len
      kept := hl.kept
      inPass := fun hk => absurd hk (Nat.lt_irrefl 0)
      plain := hl.plain
      folded := hl.folded
      older := hl.older
      recorded := fun _ hrec => absurd hrec (by simp) }

/-! ## Cutting every layer -/

theorem truncate_ok_len {kv : KVCacheState σ} {m : Nat} {st : σ}
    (hok : (kv.truncate m st).1 = .ok ()) : (kv.truncate m st).2.1.len = min kv.len m := by
  rcases KVCacheState.truncate_cases m kv st with ⟨hle, he⟩ | ⟨_, _, ⟨e, he⟩, _⟩ | ⟨hlt, _, he⟩
  · rw [he, Nat.min_eq_left hle]
  · rw [he] at hok; simp at hok
  · rw [he, Nat.min_eq_right (Nat.le_of_lt hlt)]

variable (law seqId storage) in
/-- A cut of the layers from `i` on, refused by one of them or not: each is cut or left as it was,
and no other layer's files are touched. -/
theorem truncateLayers_any (m : Nat) : ∀ (kvs : List (KVCacheState σ)) (i : Nat) (st : σ)
    (vs : Nat → List KvPair),
    (∀ (j : Nat) (kv : KVCacheState σ), kvs[j]? = some kv → kv.seqId = seqId ∧
      kv.layer = i + j ∧ kv.storage = storage ∧ kv.Holds (law.content st) (vs j)) →
    (∀ q, (∀ j b, j < kvs.length → q ≠ spillPath seqId (i + j) b) →
      law.content (truncateLayers m kvs st).2.2 q = law.content st q) ∧
    (truncateLayers m kvs st).2.1.length = kvs.length ∧
    ∀ (j : Nat) (kv kv' : KVCacheState σ), kvs[j]? = some kv →
      (truncateLayers m kvs st).2.1[j]? = some kv' →
      KVCacheState.SameShape kv kv' ∧
      kv'.Holds (law.content (truncateLayers m kvs st).2.2) ((vs j).take kv'.len) ∧
      ((truncateLayers m kvs st).1 = .ok () →
        ∃ st₁, (kv.truncate m st₁).1 = .ok () ∧ kv' = (kv.truncate m st₁).2.1)
  | [], _, _, _, _ => ⟨fun _ _ => rfl, rfl, fun j kv kv' h => by simp at h⟩
  | kv :: rest, i, st, vs, hall => by
    obtain ⟨hid, hlayer, hst, hholds⟩ := hall 0 kv rfl
    cases hone : (kv.truncate m st).1 with
    | error e =>
      -- this layer refuses: nothing has changed
      have hsame : kv.truncate m st = (.error e, kv, st) := by
        rcases KVCacheState.truncate_cases m kv st with ⟨_, he⟩ | ⟨_, _, _, he⟩ | ⟨_, _, he⟩
        · rw [he] at hone; cases hone
        · exact Prod.ext hone he
        · rw [he] at hone; cases hone
      have hout : truncateLayers m (kv :: rest) st = (.error e, kv :: rest, st) := by
        rw [truncateLayers, hsame]
      rw [hout]
      refine ⟨fun _ _ => rfl, rfl, fun j kvj kv' hj hj' => ?_⟩
      obtain rfl : kvj = kv' := Option.some.inj (hj.symm.trans hj')
      obtain ⟨_, _, _, hhj⟩ := hall j kvj hj
      refine ⟨KVCacheState.SameShape.refl _, ?_, fun h => by cases h⟩
      rw [hhj.len_eq, List.take_length]
      exact hhj
    | ok _ =>
      have hout : truncateLayers m (kv :: rest) st =
          ((truncateLayers m rest (kv.truncate m st).2.2).1,
            (kv.truncate m st).2.1 :: (truncateLayers m rest (kv.truncate m st).2.2).2.1,
            (truncateLayers m rest (kv.truncate m st).2.2).2.2) := by
        rw [truncateLayers]
        generalize kv.truncate m st = out at hone
        obtain ⟨res, more⟩ := out
        rw [show res = .ok () from hone]
      have honly := truncate_onlyLayer m hst hholds
      rw [hid, hlayer] at honly
      have hcut := hholds.truncate law hst hone
      have hshape := KVCacheState.truncate_shape m kv st
      rw [hout]
      obtain ⟨hframe, hlen, hrest⟩ := truncateLayers_any m rest (i + 1) (kv.truncate m st).2.2
        (fun j => vs (j + 1)) (by
          intro j kvj hj
          obtain ⟨hidj, hlj, hstj, hhj⟩ := hall (j + 1) kvj hj
          refine ⟨hidj, by rw [hlj]; omega, hstj, hhj.disk_congr ?_⟩
          intro b _
          refine honly _ fun c hc => ?_
          rw [hidj, hlj] at hc
          have := (spillPath_inj.mp hc).2.1
          omega)
      refine ⟨?_, by rw [List.length_cons, List.length_cons, hlen], ?_⟩
      · intro q hq
        rw [hframe q fun j b hj => by
          have := hq (j + 1) b (by rw [List.length_cons]; omega)
          rwa [show i + (j + 1) = i + 1 + j by omega] at this]
        exact honly q fun b => hq 0 b (by rw [List.length_cons]; omega)
      · intro j kvj kv' hj hj'
        cases j with
        | zero =>
          obtain rfl : kv = kvj := Option.some.inj hj
          obtain rfl : (kv.truncate m st).2.1 = kv' := Option.some.inj hj'
          refine ⟨hshape, ?_, fun _ => ⟨st, hone, rfl⟩⟩
          have hkept : (vs 0).take (kv.truncate m st).2.1.len = (vs 0).take m := by
            rw [truncate_ok_len hone, hholds.len_eq, Nat.min_comm]
            exact List.take_eq_take_min.symm
          rw [hkept]
          refine hcut.disk_congr fun b _ => hframe _ fun k c _ hc => ?_
          rw [hshape.layer, hlayer] at hc
          have := (spillPath_inj.mp hc).2.1
          omega
        | succ j => exact hrest j kvj kv' hj hj'

variable (law seqId storage) in
/-- A cut of the layers from `i` on that succeeds: each is cut, and no other layer's files are
touched. -/
theorem truncateLayers_holds (m : Nat) (kvs : List (KVCacheState σ)) (i : Nat) (st : σ)
    (vs : Nat → List KvPair)
    (hall : ∀ (j : Nat) (kv : KVCacheState σ), kvs[j]? = some kv → kv.seqId = seqId ∧
      kv.layer = i + j ∧ kv.storage = storage ∧ kv.Holds (law.content st) (vs j))
    (hok : (truncateLayers m kvs st).1 = .ok ()) :
    (∀ q, (∀ j b, j < kvs.length → q ≠ spillPath seqId (i + j) b) →
      law.content (truncateLayers m kvs st).2.2 q = law.content st q) ∧
    (truncateLayers m kvs st).2.1.length = kvs.length ∧
    ∀ (j : Nat) (kv kv' : KVCacheState σ), kvs[j]? = some kv →
      (truncateLayers m kvs st).2.1[j]? = some kv' →
      (∃ st₁, (kv.truncate m st₁).1 = .ok () ∧ kv' = (kv.truncate m st₁).2.1) ∧
        kv'.Holds (law.content (truncateLayers m kvs st).2.2) ((vs j).take m) := by
  obtain ⟨hframe, hlen, hrest⟩ := truncateLayers_any storage law seqId m kvs i st vs hall
  refine ⟨hframe, hlen, fun j kv kv' hj hj' => ?_⟩
  obtain ⟨_, hholds, hcut⟩ := hrest j kv kv' hj hj'
  obtain ⟨st₁, hok₁, rfl⟩ := hcut hok
  refine ⟨⟨st₁, hok₁, rfl⟩, ?_⟩
  obtain ⟨_, _, _, hbefore⟩ := hall j kv hj
  rw [truncate_ok_len hok₁, hbefore.len_eq, Nat.min_comm, ← List.take_eq_take_min] at hholds
  exact hholds

/-- A cut that succeeds: nothing was in the way, and every layer was cut. -/
theorem truncate_ok {seq : SeqState σ} {m : Nat} {st : σ} (hok : (seq.truncate m st).1 = .ok ()) :
    (truncateLayers m seq.kvs st).1 = .ok () ∧
      (m < seq.len → seq.hasLinearState = true → seq.recoverable m = true) ∧
      (seq.truncate m st).2 = ({ seq with
        kvs := (truncateLayers m seq.kvs st).2.1
        linear := seq.rewindAll m }, (truncateLayers m seq.kvs st).2.2) := by
  have hiff := (truncate_ok_iff m seq st).mp hok
  refine ⟨(truncateLayers_ok_iff m seq.kvs st).mpr hiff.2, hiff.1, ?_⟩
  unfold truncate
  rw [if_neg fun h => h.2.2 (hiff.1 h.1 h.2.1)]

/-- After a cut of the whole sequence each layer is the layer that was there, cut. -/
theorem Layers.cutLayer {vs : Nat → List KvPair} (h : Layers law seqId s vs) {m : Nat}
    (hok : (s.1.truncate m s.2).1 = .ok ()) :
    (s.1.truncate m s.2).2.1.kvs.length = s.1.kvs.length ∧
      ∀ (l : Nat) (kv' : KVCacheState σ), (s.1.truncate m s.2).2.1.kvs[l]? = some kv' →
        ∃ kv st₁, s.1.kvs[l]? = some kv ∧ (kv.truncate m st₁).1 = .ok () ∧
          kv' = (kv.truncate m st₁).2.1 ∧
          kv'.Holds (law.content (s.1.truncate m s.2).2.2) ((vs l).take m) := by
  obtain ⟨hlayers, _, he⟩ := truncate_ok hok
  obtain ⟨_, hlen, hrest⟩ := truncateLayers_holds storage law seqId m s.1.kvs 0 s.2 vs
    (by
      intro j kv hj
      exact ⟨h.seqId_eq j kv hj, by rw [h.layer_eq j kv hj]; omega, h.storage_eq j kv hj,
        h.holds j kv hj⟩) hlayers
  rw [he]
  refine ⟨hlen, fun l kv' hl => ?_⟩
  have hlt := (List.getElem?_eq_some_iff.mp hl).1
  rw [hlen] at hlt
  have hkv := List.getElem?_eq_getElem hlt
  obtain ⟨⟨st₁, hok₁, hkv'⟩, hholds⟩ := hrest l _ kv' hkv hl
  exact ⟨_, st₁, hkv, hok₁, hkv', hholds⟩

/-- **A cut of the whole sequence cuts every layer's list.** -/
theorem Layers.truncate {vs : Nat → List KvPair} (h : Layers law seqId s vs) {m : Nat}
    (hok : (s.1.truncate m s.2).1 = .ok ()) :
    Layers law seqId (s.1.truncate m s.2).2 (fun l => (vs l).take m) := by
  obtain ⟨_, hcut⟩ := h.cutLayer hok
  refine
    { seqId_eq := ?_
      layer_eq := ?_
      storage_eq := ?_
      holds := ?_ }
  · intro l kv' hl
    obtain ⟨kv, st₁, hkv, _, rfl, _⟩ := hcut l kv' hl
    rw [(KVCacheState.truncate_shape m kv st₁).seqId]; exact h.seqId_eq l kv hkv
  · intro l kv' hl
    obtain ⟨kv, st₁, hkv, _, rfl, _⟩ := hcut l kv' hl
    rw [(KVCacheState.truncate_shape m kv st₁).layer]; exact h.layer_eq l kv hkv
  · intro l kv' hl
    obtain ⟨kv, st₁, hkv, _, rfl, _⟩ := hcut l kv' hl
    rw [(KVCacheState.truncate_shape m kv st₁).storage]; exact h.storage_eq l kv hkv
  · intro l kv' hl
    obtain ⟨_, _, _, _, _, hholds⟩ := hcut l kv' hl
    exact hholds

/-- Putting a recurrent state back, when a copy is held or none is needed. -/
theorem rewindTo_folded {s : LinearState} {m : Nat} (holder : ∀ e ∈ s.history, e.folded < s.folded)
    (hrec : m < s.folded → s.recoverable m = true) :
    (s.rewindTo m).2.folded = min s.folded m ∧
      ∀ e ∈ (s.rewindTo m).2.history, e.folded < (s.rewindTo m).2.folded := by
  unfold LinearState.rewindTo
  by_cases hm : m = s.folded
  · rw [if_pos hm, hm]
    exact ⟨(Nat.min_self _).symm, by simp⟩
  · rw [if_neg hm]
    cases hf : s.history.find? (fun e => e.folded == m) with
    | none =>
      have hge : s.folded ≤ m := by
        by_contra hlt
        have hhit := hrec (Nat.lt_of_not_le hlt)
        rw [← s.rewindTo_fst, LinearState.rewindTo, if_neg hm, hf] at hhit
        simp at hhit
      exact ⟨(Nat.min_eq_left hge).symm, holder⟩
    | some e =>
      have hem : e.folded = m := by simpa using List.find?_some hf
      have hlt := holder e (List.mem_of_find?_eq_some hf)
      exact ⟨by rw [Nat.min_eq_right (by omega)]; exact hem, by simp⟩

theorem Settled.len_eq (h : Settled law seqId recurrent start s) {l : Nat}
    (hl : l < s.1.kvs.length) : s.1.len = start := by
  have hpos : 0 < s.1.kvs.length := by omega
  have hkv := List.getElem?_eq_getElem hpos
  have ho := List.getElem?_eq_getElem (h.sizeLinear.symm ▸ hpos)
  have hlayer := h.layer 0 _ _ _ hkv hkv ho
  rw [len, List.head?_eq_getElem?, hkv]
  exact hlayer.len

/-- **A cut between passes** leaves all layers at the new length. -/
theorem Settled.cut (h : Settled law seqId recurrent start s) {m : Nat}
    (hok : (s.1.truncate m s.2).1 = .ok ()) :
    Settled law seqId recurrent (min start m) (s.1.truncate m s.2).2 := by
  obtain ⟨vs, hvs⟩ := h.layers
  obtain ⟨_, hrecov, he⟩ := truncate_ok hok
  obtain ⟨hlen, hcut⟩ := hvs.cutLayer hok
  have hlinear : (s.1.truncate m s.2).2.1.linear = s.1.rewindAll m := by rw [he]
  refine
    { layers := ⟨_, hvs.truncate hok⟩
      recording_eq := by rw [he]; exact h.recording_eq
      size := rfl
      sizeLinear := by rw [hlinear, rewindAll, List.length_map, h.sizeLinear, hlen]
      layer := ?_ }
  · intro l kv₁ kv' o' h₁ hkv' ho'
    have hsame : kv₁ = kv' := Option.some.inj (h₁.symm.trans hkv')
    subst hsame
    have hlt := (List.getElem?_eq_some_iff.mp hkv').1
    rw [hlen] at hlt
    obtain ⟨kv, st₁, hkv, hok₁, rfl, _⟩ := hcut l _ hkv'
    rw [hlinear] at ho'
    simp only [rewindAll, List.getElem?_map, Option.map_eq_some_iff] at ho'
    obtain ⟨o, ho, rfl⟩ := ho'
    have hl := h.layer l _ _ o hkv hkv ho
    -- what the cut does to this layer's recurrent state
    have hlinear : foldedOf (o.map fun s => (s.rewindTo m).2) = min (foldedOf o) m ∧
        ∀ e ∈ historyOf (o.map fun s => (s.rewindTo m).2),
          e.folded < foldedOf (o.map fun s => (s.rewindTo m).2) := by
      cases o with
      | none => exact ⟨(Nat.zero_min m).symm, by simp [historyOf]⟩
      | some ls =>
        refine rewindTo_folded hl.older fun hm => ?_
        have hrt : recurrent l = true := by
          by_contra hf
          exact absurd (hl.plain (by simpa using hf)) (by simp)
        have hfolded : ls.folded = start := hl.folded hrt
        have hall := hrecov (by rw [h.len_eq hlt, ← hfolded]; exact hm)
          (List.any_eq_true.mpr ⟨some ls, List.mem_of_getElem? ho, rfl⟩)
        exact List.all_eq_true.mp hall (some ls) (List.mem_of_getElem? ho)
    exact
      { shape := KVCacheState.SameShape.refl _
        len := by rw [truncate_ok_len hok₁, hl.len]; rfl
        kept := hl.kept.truncate m st₁
        inPass := fun hk => absurd hk (Nat.lt_irrefl 0)
        plain := fun hf => by rw [hl.plain hf]; rfl
        folded := fun hf => by rw [hlinear.1, hl.folded hf]; rfl
        older := hlinear.2
        recorded := fun _ hrec => absurd hrec (by simp) }

/-! ## Rolling back -/

/-- A pass of `n` tokens through every layer, recording when asked to. -/
structure IsPass (recurrent : Nat → Bool) (record : Bool) (n : Nat) (steps : List PassStep)
    (s s' : SeqState σ × σ) : Prop where
  run : ∃ t, runList consume steps (if record then s.1.beginRecording else s.1, s.2) = some t ∧
    s' = (t.1.endRecording, t.2)
  count : ∀ l, l < s.1.kvs.length → steps.countP (fun p => p.layer == l) = n
  kind : ∀ p ∈ steps, p.isFold = recurrent p.layer

/-- The sequences that passes and cuts lead to, from any number of copies handed out under
another identity, while the storage changes at the paths of other sequences. -/
inductive Reached (law : ReadsBack storage) (cfg : KvConfig σ) (recurrent : Nat → Bool) :
    Nat → SeqState σ × σ → Prop where
  | fresh (seqId : Nat) (st : σ) : Reached law cfg recurrent seqId (new cfg seqId, st)
  | pass {seqId : Nat} {s s' : SeqState σ × σ} {record : Bool} {n : Nat} {steps : List PassStep} :
      Reached law cfg recurrent seqId s → IsPass recurrent record n steps s s' →
      Reached law cfg recurrent seqId s'
  | cut {seqId : Nat} {s : SeqState σ × σ} {m : Nat} :
      Reached law cfg recurrent seqId s → (s.1.truncate m s.2).1 = .ok () →
      Reached law cfg recurrent seqId (s.1.truncate m s.2).2
  | elsewhere {seqId : Nat} {s : SeqState σ × σ} {st' : σ} :
      Reached law cfg recurrent seqId s →
      (∀ l b, law.content st' (spillPath seqId l b) = law.content s.2 (spillPath seqId l b)) →
      Reached law cfg recurrent seqId (s.1, st')
  | copy {seqId : Nat} {s : SeqState σ × σ} (seqId' : Nat) (st' : σ) :
      Reached law cfg recurrent seqId s → s.1.hasSpill = false →
      Reached law cfg recurrent seqId' ((s.1.rekey seqId').2, st')

theorem Settled.pass {n : Nat} {record : Bool} {steps : List PassStep}
    (h : Settled law seqId recurrent start s) (hpass : IsPass recurrent record n steps s s') :
    Settled law seqId recurrent (start + n) s' := by
  obtain ⟨t, hrun, rfl⟩ := hpass.run
  refine ((h.beginPass record).run hpass.kind hrun).settle ?_
  intro l hl
  rw [hpass.count l hl, Nat.zero_add]

theorem Settled.elsewhere (h : Settled law seqId recurrent start s) {st' : σ}
    (hst : ∀ l b, law.content st' (spillPath seqId l b) = law.content s.2 (spillPath seqId l b)) :
    Settled law seqId recurrent start (s.1, st') := by
  obtain ⟨vs, hvs⟩ := h.layers
  refine { h with layers := ⟨vs, hvs.seqId_eq, hvs.layer_eq, hvs.storage_eq, ?_⟩ }
  intro l kv hl
  refine (hvs.holds l kv hl).disk_congr fun b _ => ?_
  rw [hvs.seqId_eq l kv hl]
  exact hst kv.layer b

theorem Settled.copy (h : Settled law seqId recurrent start s) (hs : s.1.hasSpill = false)
    (seqId' : Nat) (st' : σ) :
    Settled law seqId' recurrent start ((s.1.rekey seqId').2, st') := by
  obtain ⟨vs, hvs⟩ := h.layers
  refine
    { layers := ⟨vs, hvs.rekey hs seqId' st'⟩
      recording_eq := ?_
      size := rfl
      sizeLinear := ?_
      layer := ?_ }
  · rw [rekey_ok seqId' hs]
    exact h.recording_eq
  · rw [rekey_ok seqId' hs]
    show s.1.linear.length = (s.1.kvs.map _).length
    rw [List.length_map]
    exact h.sizeLinear
  · rw [rekey_ok seqId' hs]
    intro l kv₀ kv o h₀ hkv ho
    have hsame : kv₀ = kv := Option.some.inj (h₀.symm.trans hkv)
    subst hsame
    simp only [List.getElem?_map, Option.map_eq_some_iff] at hkv
    obtain ⟨kv, hkv, rfl⟩ := hkv
    have hl := h.layer l kv kv o hkv hkv ho
    exact
      { hl with
        shape := KVCacheState.SameShape.refl _
        kept := ⟨hl.kept.budget_pos, hl.kept.never_spills⟩
        inPass := fun hk => absurd hk (Nat.lt_irrefl 0) }

theorem Reached.settled {cfg : KvConfig σ} (hs : cfg.storage = storage)
    (h : Reached law cfg recurrent seqId s) : ∃ len, Settled law seqId recurrent len s := by
  induction h with
  | fresh seqId st => exact ⟨0, settled_new hs st⟩
  | pass _ hpass ih =>
    obtain ⟨len, hlen⟩ := ih
    exact ⟨_, hlen.pass hpass⟩
  | cut _ hok ih =>
    obtain ⟨len, hlen⟩ := ih
    exact ⟨_, hlen.cut hok⟩
  | elsewhere _ hst ih =>
    obtain ⟨len, hlen⟩ := ih
    exact ⟨_, hlen.elsewhere hst⟩
  | copy seqId' st' _ hspill ih =>
    obtain ⟨len, hlen⟩ := ih
    exact ⟨_, hlen.copy hspill seqId' st'⟩

/-- A layer that took part in a pass accepts the cut exactly when it is `Rollable`. -/
theorem LayerPass.cutSpilled_iff {recurrent : Bool} {n keep : Nat} {kv₀ kv : KVCacheState σ}
    {o : Option LinearState} (h : LayerPass recurrent recording start n kv₀ kv o) (hn : 0 < n)
    (hkeep : start ≤ keep) :
    (keep < kv.len → kv.cutSpilled keep = false) ↔ kv₀.Rollable (start + n) keep := by
  rw [← KVCacheState.Rollable.congr h.shape, ← h.len]
  by_cases hlt : keep < kv.len
  · rw [← KVCacheState.cutSpilled_iff_rollable h.kept (h.inPass hn) hkeep hlt]
    exact ⟨fun hc => hc hlt, fun hc _ => hc⟩
  · -- past the end: nothing to cut, and no block above the cut
    refine ⟨fun _ => Or.inr (Or.inr (Or.inr (Or.inl ?_))), fun _ hlt' => absurd hlt' hlt⟩
    have hdiv : (kv.len - 1) / kv.blockSize ≤ keep / kv.blockSize :=
      Nat.div_le_div_right (by omega)
    have := h.kept.budget_pos
    omega

/-- A layer that took part in a recorded pass holds a copy from every position of it. -/
theorem LayerPass.recoverable {recurrent : Bool} {n m : Nat} {kv₀ kv : KVCacheState σ}
    {o : Option LinearState} (h : LayerPass recurrent true start n kv₀ kv o) (hlo : start ≤ m)
    (hhi : m < start + n) : (o.map (LinearState.recoverable m)).getD true = true := by
  cases o with
  | none => rfl
  | some ls =>
    have hrt : recurrent = true := by
      by_contra hf
      exact absurd (h.plain (by simpa using hf)) (by simp)
    obtain ⟨e, he, hej⟩ := h.recorded hrt rfl m hlo hhi
    simp only [Option.map_some, Option.getD_some, LinearState.recoverable, Bool.or_eq_true]
    exact Or.inr (List.any_eq_true.mpr ⟨e, he, by rw [hej]; exact beq_self_eq_true m⟩)

/--
**When a pass can be rolled back.** Whatever sequence the pass ran on, the cut back to `keep`
(past the old length, as a speculative round always keeps its first token) succeeds exactly
when it is `Rollable` in every layer.
-/
theorem rollback_ok_iff {cfg : KvConfig σ} (hs : cfg.storage = storage)
    (hreach : Reached law cfg recurrent seqId s) {record : Bool}
    {n : Nat} {steps : List PassStep} (hpass : IsPass recurrent record n steps s s') (hn : 0 < n)
    (hrecord : record = true ∨ n = 1 ∨ ∀ l, l < s.1.kvs.length → recurrent l = false)
    {keep : Nat} (hkeep : s.1.len < keep) :
    (s'.1.truncate keep s'.2).1 = .ok () ↔
      ∀ kv ∈ s.1.kvs, kv.Rollable (s.1.len + n) keep := by
  obtain ⟨start, hsettled⟩ := hreach.settled hs
  have hafter := hsettled.pass hpass
  obtain ⟨t, hrun, rfl⟩ := hpass.run
  have hmid := (hsettled.beginPass record).run hpass.kind hrun
  have hlayer : ∀ l (hl : l < s.1.kvs.length), ∃ kv o, t.1.kvs[l]? = some kv ∧
      t.1.linear[l]? = some o ∧
      LayerPass (recurrent l) record start n (s.1.kvs[l]) kv o := by
    intro l hl
    have hkv := List.getElem?_eq_getElem (hmid.size.symm ▸ hl)
    have ho := List.getElem?_eq_getElem (hmid.sizeLinear.symm ▸ hl)
    have hl' := hmid.layer l _ _ _ (List.getElem?_eq_getElem hl) hkv ho
    simp only [hpass.count l hl, Nat.zero_add] at hl'
    exact ⟨_, _, hkv, ho, hl'⟩
  have hlen : ∀ l, l < s.1.kvs.length → s.1.len = start := fun l hl => hsettled.len_eq hl
  rw [truncate_ok_iff]
  constructor
  · rintro ⟨_, hcut⟩ kv₀ hkv₀
    obtain ⟨l, hl, rfl⟩ := List.mem_iff_getElem.mp hkv₀
    obtain ⟨kv, o, hkv, _, hpl⟩ := hlayer l hl
    rw [hlen l hl] at hkeep ⊢
    exact (hpl.cutSpilled_iff hn (Nat.le_of_lt hkeep)).mp (hcut kv (List.mem_of_getElem? hkv))
  · intro hroll
    refine ⟨?_, ?_⟩
    · -- every recurrent layer holds a copy from `keep`
      intro hlt _
      refine List.all_eq_true.mpr ?_
      intro o' ho'
      obtain ⟨l, hl', rfl⟩ := List.mem_iff_getElem.mp ho'
      have hl : l < s.1.kvs.length := by rw [← hmid.sizeLinear]; exact hl'
      obtain ⟨kv, o, _, ho, hpl⟩ := hlayer l hl
      have hoo : t.1.linear[l]? = some t.1.linear[l] := List.getElem?_eq_getElem hl'
      have hsame : t.1.linear[l] = o := Option.some.inj (hoo.symm.trans ho)
      show ((t.1.linear[l]).map (LinearState.recoverable keep)).getD true = true
      rw [hsame]
      rw [hlen l hl] at hkeep
      have hkeep' : keep < start + n := by
        rw [← hafter.len_eq (by rw [← hmid.size] at hl; exact hl)]
        exact hlt
      rcases hrecord with rfl | hone | hplain
      · exact hpl.recoverable (Nat.le_of_lt hkeep) hkeep'
      · omega
      · rw [hpl.plain (hplain l hl)]
        rfl
    · intro kv hkv
      obtain ⟨l, hl', rfl⟩ := List.mem_iff_getElem.mp hkv
      have hl : l < s.1.kvs.length := by rw [← hmid.size]; exact hl'
      obtain ⟨kv, o, hkv', _, hpl⟩ := hlayer l hl
      have hkk : t.1.kvs[l]? = some t.1.kvs[l] := List.getElem?_eq_getElem hl'
      have hsame : t.1.kvs[l] = kv := Option.some.inj (hkk.symm.trans hkv')
      show keep < (t.1.kvs[l]).len → (t.1.kvs[l]).cutSpilled keep = false
      rw [hsame]
      have hrl := hroll _ (List.getElem_mem hl)
      rw [hlen l hl] at hkeep hrl
      exact (hpl.cutSpilled_iff hn (Nat.le_of_lt hkeep)).mpr hrl

end

end SeqState

end Garuda
