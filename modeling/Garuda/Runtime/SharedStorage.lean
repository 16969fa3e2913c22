import Garuda.Cache.OwnFiles
import Garuda.Runtime.Session

/-!
# Sequences over one spill storage

Any number of sequences share a storage, a counter that identities come from and a prompt cache.
They are begun, copied into the cache, called layer by layer, cut and dropped in any order.

* `PromptCache.insert_content` — insertion and eviction touch no file
* `Pool.Separate` — every sequence in use has an identity of its own, and its layers stand for what
  was written to them
* `spill_files_separate` — a spilled block is what its own sequence wrote
-/

namespace Garuda

open Infra

variable {σ κ : Type}

/-! ## The prompt cache and the files -/

namespace PromptCache

variable [DecidableEq κ] {storage : Option (StorageBackend σ)}

/-- Nothing of the sequence is on disk. -/
def Unspilled (storage : Option (StorageBackend σ)) (seq : SeqState σ) : Prop :=
  seq.hasSpill = false ∧ ∀ kv ∈ seq.kvs, kv.storage = storage

theorem lookup_mem {key : κ} {entries : List (κ × SeqState σ)} {seq : SeqState σ}
    (h : entries.lookup key = some seq) : (key, seq) ∈ entries := by
  obtain ⟨_, _, hentries, _⟩ := List.lookup_eq_some_iff.mp h
  rw [hentries]
  simp

theorem evict_content (law : ReadsBack storage) : ∀ (lru : List κ) (cache : PromptCache σ κ)
    (st : σ), cache.Keeps (fun _ => Unspilled storage) →
    law.content (evict lru cache st).2 = law.content st
  | [], _, _, _ => rfl
  | victim :: rest, cache, st, h => by
    rw [evict]
    split
    · split
      · exact evict_content law rest cache st h
      · next evicted entries hr =>
        obtain ⟨hlookup, hothers⟩ := Prod.mk.inj hr
        obtain ⟨hspill, hs⟩ := h _ (lookup_mem hlookup)
        rw [evict_content law rest _ _ fun e he => h e ?_]
        · exact SeqState.drop_of_no_spill (s := (evicted, st)) hspill hs
        · rw [← hothers] at he
          exact mem_of_mem_remove he
    · rfl

/-- **An insertion touches no file**, whatever it evicts. -/
theorem insert_content (law : ReadsBack storage) (promptKey : List Token → κ) {tokens : List Token}
    {state : SeqState σ} {cache : PromptCache σ κ} (hnew : Unspilled storage state)
    (h : cache.Keeps (fun _ => Unspilled storage)) (st : σ) :
    law.content (insert promptKey tokens state cache st).2 = law.content st := by
  have hdrop : law.content (state.drop st) = law.content st :=
    SeqState.drop_of_no_spill (s := (state, st)) hnew.1 hnew.2
  unfold insert
  split
  · exact hdrop
  split
  · exact hdrop
  · refine (evict_content law _ _ _ ?_).trans ?_
    · intro e he
      rcases List.mem_cons.mp he with rfl | he
      · exact hnew
      · exact h e (mem_of_mem_remove he)
    · cases hold : cache.entries.lookup (promptKey tokens) with
      | none => rfl
      | some old =>
        obtain ⟨hspill, hs⟩ := h _ (lookup_mem hold)
        exact SeqState.drop_of_no_spill (s := (old, st)) hspill hs

/-- The cache takes the state. -/
def Takes (state : SeqState σ) (cache : PromptCache σ κ) : Bool :=
  !state.hasSpill && decide (state.residentBytes ≤ cache.budgetBytes)

/-- What the cache takes replaces what it had under the same key. -/
theorem insert_replaces {P P' : κ → SeqState σ → Prop} (promptKey : List Token → κ)
    {tokens : List Token} {state : SeqState σ} {cache : PromptCache σ κ} (h : Keeps P cache)
    (htakes : cache.Takes state = true) (hnew : P' (promptKey tokens) state)
    (hothers : ∀ key seq, key ≠ promptKey tokens → P key seq → P' key seq) (st : σ) :
    Keeps P' (insert promptKey tokens state cache st).1 := by
  rw [Takes, Bool.and_eq_true, decide_eq_true_eq, Bool.not_eq_true'] at htakes
  unfold insert
  rw [if_neg (by simp [htakes.1]), if_neg (by omega)]
  refine evict_keeps _ _ _ fun e he => ?_
  rcases List.mem_cons.mp he with rfl | he
  · exact hnew
  · obtain ⟨hmem, hne⟩ := List.mem_filter.mp he
    exact hothers _ _ (by simpa using hne) (h e hmem)

/-- What the cache does not take leaves the entries alone. -/
theorem insert_refused {P : κ → SeqState σ → Prop} (promptKey : List Token → κ)
    {tokens : List Token} {state : SeqState σ} {cache : PromptCache σ κ} (h : Keeps P cache)
    (htakes : cache.Takes state = false) (st : σ) :
    Keeps P (insert promptKey tokens state cache st).1 := by
  rw [Takes, Bool.and_eq_false_iff, decide_eq_false_iff_not, Bool.not_eq_false'] at htakes
  unfold insert
  split
  · exact h
  split
  · exact h
  · next hspill hbytes =>
    rcases htakes with hs | hb
    · exact absurd hs hspill
    · omega

end PromptCache

/-! ## The pool -/

/-- A sequence in use. -/
structure Owned (σ : Type) where
  /-- The identity it was given. -/
  seqId : Nat
  seq : SeqState σ
  /-- What has been written to each layer and not been cut off. -/
  written : Nat → List KvPair

/-- All sequences over one storage. -/
structure Pool (σ κ : Type) where
  world : World σ κ
  /-- The sequences in use, under handles. -/
  live : Nat → Option (Owned σ)
  /-- What had been written to the sequence that the entry under a key is a copy of. -/
  shared : κ → Nat → List KvPair

inductive PoolAction where
  /-- A sequence begins with what the prompt cache has for `before`, or empty. -/
  | start (h : Nat) (before : List Token)
  /-- An identity is taken for a sequence without a storage, such as a draft model's. -/
  | takeId
  /-- A copy goes into the prompt cache, if nothing is spilled. -/
  | insert (h : Nat) (before : List Token)
  /-- A call on one layer, which may spill, read back or be refused. -/
  | call (h l : Nat) (op : KvOp)
  | truncate (h len : Nat)
  | drop (h : Nat)

namespace PoolAction

/-- The sequence that the action is about. -/
def handle : PoolAction → Option Nat
  | start h _ => some h
  | takeId => none
  | insert h _ => some h
  | call h _ _ => some h
  | truncate h _ => some h
  | drop h => some h

end PoolAction

namespace Pool

/-- No sequence has begun. -/
def new (w : World σ κ) : Pool σ κ where
  world := w
  live := fun _ => none
  shared := fun _ _ => []

def put (p : Pool σ κ) (h : Nat) (s : Option (Owned σ)) : Pool σ κ :=
  { p with live := Function.update p.live h s }

@[simp] theorem put_live_self (p : Pool σ κ) (h : Nat) (s : Option (Owned σ)) :
    (p.put h s).live h = s := Function.update_self ..

theorem put_live_of_ne (p : Pool σ κ) {h j : Nat} (hne : j ≠ h) (s : Option (Owned σ)) :
    (p.put h s).live j = p.live j := Function.update_of_ne hne ..

variable [DecidableEq κ] (cfg : KvConfig σ) (promptKey : List Token → κ)

/-- The state a sequence begins with, as in `start_incremental`. -/
def beginSeq (before : List Token) (p : Pool σ κ) : Owned σ × World σ κ :=
  let (seqId, w) := InferenceRuntime.freshSeqId p.world
  if before.isEmpty then ({ seqId := seqId, seq := .new cfg seqId, written := fun _ => [] }, w)
  else
    let (hit, promptCache) := w.promptCache.get promptKey before seqId
    let w := { w with promptCache := promptCache }
    match hit with
    | some cached =>
      ({ seqId := seqId, seq := cached, written := p.shared (promptKey before) }, w)
    | none => ({ seqId := seqId, seq := .new cfg seqId, written := fun _ => [] }, w)

/-- `none`: the handle is in use already, or is not, or the layer does not exist. -/
def step (p : Pool σ κ) : PoolAction → Option (Pool σ κ)
  | .start h before =>
    match p.live h with
    | some _ => none
    | none =>
      let (s, w) := beginSeq cfg promptKey before p
      some ({ p with world := w }.put h (some s))
  | .takeId => some { p with world := (InferenceRuntime.freshSeqId p.world).2 }
  | .insert h before =>
    match p.live h with
    | none => none
    | some s =>
      if s.seq.hasSpill then some p
      else
        let (promptCache, st) := p.world.promptCache.insert promptKey before s.seq p.world.storage
        some { p with
          world := { p.world with promptCache := promptCache, storage := st }
          shared := if p.world.promptCache.Takes s.seq
            then Function.update p.shared (promptKey before) s.written else p.shared }
  | .call h l op =>
    match p.live h with
    | none => none
    | some s =>
      match SeqState.apply (s.seq, p.world.storage) (l, op) with
      | none => none
      | some (seq, st) =>
        let written := Function.update s.written l (op.leaves (seq.lenAt l) (s.written l))
        some ({ p with world := { p.world with storage := st } }.put h
          (some { s with seq := seq, written := written }))
  | .truncate h len =>
    match p.live h with
    | none => none
    | some s =>
      let (_, seq, st) := s.seq.truncate len p.world.storage
      some ({ p with world := { p.world with storage := st } }.put h
        (some { s with seq := seq, written := fun l => (s.written l).take (seq.lenAt l) }))
  | .drop h =>
    match p.live h with
    | none => none
    | some s =>
      some ({ p with world := { p.world with storage := s.seq.drop p.world.storage } }.put h none)

/-! ## What every sequence keeps to itself -/

section

variable {cfg} {promptKey} {law : ReadsBack cfg.storage} {p p' : Pool σ κ}

open SeqState

/-- An entry of the prompt cache: nothing on disk, and it stands for what it is a copy of. -/
def Copied (law : ReadsBack cfg.storage) (written : Nat → List KvPair) (seq : SeqState σ) : Prop :=
  PromptCache.Unspilled cfg.storage seq ∧ ∃ seqId, ∀ st, Layers law seqId (seq, st) written

variable (law) in
/-- Every sequence in use has an identity of its own, and stands for what was written to it. -/
structure Separate (p : Pool σ κ) : Prop where
  layers : ∀ h s, p.live h = some s → Layers law s.seqId (s.seq, p.world.storage) s.written
  issued : ∀ h s, p.live h = some s → s.seqId < p.world.nextSeq.toNat
  distinct : ∀ h h' s s', p.live h = some s → p.live h' = some s' → s.seqId = s'.seqId → h = h'
  entries : p.world.promptCache.Keeps fun key => Copied law (p.shared key)

omit [DecidableEq κ] in
theorem Separate.new {w : World σ κ} (h : w.promptCache.entries = []) :
    Separate law (Pool.new w) where
  layers := by intro h s hs; cases hs
  issued := by intro h s hs; cases hs
  distinct := by intro h h' s s' hs; cases hs
  entries := by intro e he; rw [show (Pool.new w).world.promptCache.entries = [] from h] at he; cases he

omit [DecidableEq κ] in
/-- One sequence is begun or changed, and the files of the others are left alone. -/
theorem Separate.placed (hp : Separate law p) {h : Nat} {s' : Owned σ} {w' : World σ κ}
    (hlayers : Layers law s'.seqId (s'.seq, w'.storage) s'.written)
    (hissued : s'.seqId < w'.nextSeq.toNat) (hnext : p.world.nextSeq.toNat ≤ w'.nextSeq.toNat)
    (hother : ∀ h' s, p.live h' = some s → h' ≠ h → s.seqId ≠ s'.seqId)
    (honly : OnlySequence law s'.seqId p.world.storage w'.storage)
    (hentries : w'.promptCache.Keeps fun key => Copied law (p.shared key)) :
    Separate law ({ p with world := w' }.put h (some s')) := by
  have hcases : ∀ j s, ({ p with world := w' }.put h (some s')).live j = some s →
      (j = h ∧ s = s') ∨ (j ≠ h ∧ p.live j = some s) := by
    intro j s hj
    by_cases hjh : j = h
    · subst hjh
      rw [put_live_self] at hj
      exact Or.inl ⟨rfl, (Option.some.inj hj).symm⟩
    · rw [put_live_of_ne _ hjh] at hj
      exact Or.inr ⟨hjh, hj⟩
  refine { layers := ?_, issued := ?_, distinct := ?_, entries := hentries }
  · intro j s hj
    rcases hcases j s hj with ⟨_, rfl⟩ | ⟨hne, hj⟩
    · exact hlayers
    · exact (hp.layers j s hj).elsewhere (hother j s hj hne) honly
  · intro j s hj
    rcases hcases j s hj with ⟨_, rfl⟩ | ⟨_, hj⟩
    · exact hissued
    · exact Nat.lt_of_lt_of_le (hp.issued j s hj) hnext
  · intro j j' s t hj hj' hid
    rcases hcases j s hj with ⟨hjh, hs⟩ | ⟨hne, hlive⟩
    · rcases hcases j' t hj' with ⟨hjh', _⟩ | ⟨hne', hlive'⟩
      · rw [hjh, hjh']
      · rw [hs] at hid
        exact absurd hid.symm (hother j' t hlive' hne')
    · rcases hcases j' t hj' with ⟨_, ht⟩ | ⟨_, hlive'⟩
      · rw [ht] at hid
        exact absurd hid (hother j s hlive hne)
      · exact hp.distinct j j' s t hlive hlive' hid

theorem beginSeq_storage (before : List Token) :
    (Pool.beginSeq cfg promptKey before p).2.storage = p.world.storage := by
  unfold Pool.beginSeq
  simp only
  split
  · rfl
  · split <;> rfl

variable (promptKey) in
/-- What a sequence begins with. -/
theorem Separate.beginSeq (hp : Separate law p) (hroom : p.world.nextSeq.toNat + 1 < 2 ^ 64)
    (before : List Token) :
    (beginSeq cfg promptKey before p).1.seqId = p.world.nextSeq.toNat ∧
      (beginSeq cfg promptKey before p).2.storage = p.world.storage ∧
      (beginSeq cfg promptKey before p).2.nextSeq.toNat = p.world.nextSeq.toNat + 1 ∧
      (beginSeq cfg promptKey before p).2.promptCache.Keeps (fun key => Copied law (p.shared key)) ∧
      Layers law p.world.nextSeq.toNat ((beginSeq cfg promptKey before p).1.seq, p.world.storage)
        (beginSeq cfg promptKey before p).1.written := by
  have hnext : (p.world.nextSeq + 1).toNat = p.world.nextSeq.toNat + 1 := by
    rw [UInt64.toNat_add]
    exact Nat.mod_eq_of_lt hroom
  have hfresh : Layers law p.world.nextSeq.toNat (.new cfg p.world.nextSeq.toNat, p.world.storage)
      (fun _ => []) := layers_new rfl _ _
  by_cases hempty : before.isEmpty = true
  · simp only [Pool.beginSeq, InferenceRuntime.freshSeqId, hempty, if_true]
    exact ⟨trivial, trivial, hnext, hp.entries, hfresh⟩
  · have hkeeps := PromptCache.get_keeps promptKey before p.world.nextSeq.toNat hp.entries
    have hsome : ∀ seq, (p.world.promptCache.get promptKey before p.world.nextSeq.toNat).1
        = some seq → Layers law p.world.nextSeq.toNat (seq, p.world.storage)
          (p.shared (promptKey before)) := by
      intro seq hseq
      obtain ⟨entry, ⟨hentry, _, hlayers⟩, rfl⟩ := PromptCache.get_some hp.entries hseq
      exact (hlayers p.world.storage).rekey hentry.1 _ _
    simp only [Pool.beginSeq, InferenceRuntime.freshSeqId, if_neg hempty]
    generalize p.world.promptCache.get promptKey before p.world.nextSeq.toNat = got
      at hkeeps hsome
    obtain ⟨hit, cache⟩ := got
    cases hit with
    | none => exact ⟨rfl, rfl, hnext, hkeeps, hfresh⟩
    | some cached => exact ⟨rfl, rfl, hnext, hkeeps, hsome cached rfl⟩

omit [DecidableEq κ] in
theorem Separate.unspilled (hp : Separate law p) {h : Nat} {s : Owned σ} (hs : p.live h = some s)
    (hspill : s.seq.hasSpill = false) : PromptCache.Unspilled cfg.storage s.seq := by
  refine ⟨hspill, fun kv hkv => ?_⟩
  obtain ⟨l, hl⟩ := List.mem_iff_getElem?.mp hkv
  exact (hp.layers h s hs).storage_eq l kv hl

variable (promptKey) in
theorem Separate.insert_content (hp : Separate law p) (before : List Token) {h : Nat} {s : Owned σ}
    (hs : p.live h = some s) (hspill : s.seq.hasSpill = false) :
    law.content (p.world.promptCache.insert promptKey before s.seq p.world.storage).2
      = law.content p.world.storage :=
  PromptCache.insert_content law promptKey (hp.unspilled hs hspill)
    (fun e he => (hp.entries e he).1) p.world.storage

variable (promptKey) in
/-- A copy with nothing on disk goes into the prompt cache. -/
theorem Separate.inserted (hp : Separate law p) (before : List Token) {h : Nat} {s : Owned σ}
    (hs : p.live h = some s) (hspill : s.seq.hasSpill = false) :
    Separate law { p with
      world := { p.world with
        promptCache := (p.world.promptCache.insert promptKey before s.seq p.world.storage).1
        storage := (p.world.promptCache.insert promptKey before s.seq p.world.storage).2 }
      shared := if p.world.promptCache.Takes s.seq
        then Function.update p.shared (promptKey before) s.written else p.shared } := by
  have hlayers := hp.layers h s hs
  have hunspilled := hp.unspilled hs hspill
  have hcontent := hp.insert_content promptKey before hs hspill
  refine
    { layers := fun j t hj => (hp.layers j t hj).sameFiles hcontent
      issued := hp.issued
      distinct := hp.distinct
      entries := ?_ }
  cases htakes : p.world.promptCache.Takes s.seq with
  | false =>
    rw [if_neg Bool.false_ne_true]
    exact PromptCache.insert_refused promptKey hp.entries htakes _
  | true =>
    rw [if_pos rfl]
    refine PromptCache.insert_replaces promptKey hp.entries htakes ?_ ?_ _
    · show Copied law (Function.update p.shared (promptKey before) s.written _) s.seq
      rw [Function.update_self]
      exact ⟨hunspilled, s.seqId, hlayers.anywhere hspill⟩
    · intro key seq hne hcopied
      show Copied law (Function.update p.shared (promptKey before) s.written key) seq
      rw [Function.update_of_ne hne]
      exact hcopied

/-- **Any action** keeps the sequences separate, and takes at most one identity. -/
theorem Separate.step (hp : Separate law p) (hroom : p.world.nextSeq.toNat + 1 < 2 ^ 64)
    {a : PoolAction} (hstep : step cfg promptKey p a = some p') :
    Separate law p' ∧ p'.world.nextSeq.toNat ≤ p.world.nextSeq.toNat + 1 := by
  cases a with
  | start h before =>
    cases hl : p.live h with
    | some s => simp [Pool.step, hl] at hstep
    | none =>
      simp only [Pool.step, hl, Option.some.injEq] at hstep
      subst hstep
      obtain ⟨hid, hst, hnext, hkeeps, hlayers⟩ := hp.beginSeq promptKey hroom before
      refine ⟨hp.placed ?_ ?_ ?_ ?_ ?_ hkeeps, Nat.le_of_eq hnext⟩
      · rw [hid, hst]
        exact hlayers
      · rw [hid, hnext]
        exact Nat.lt_succ_self _
      · rw [hnext]
        exact Nat.le_succ _
      · intro j s hj _
        rw [hid]
        exact Nat.ne_of_lt (hp.issued j s hj)
      · rw [hst]
        exact OnlySequence.refl _ _
  | takeId =>
    obtain rfl := Option.some.inj hstep
    have hnext : (p.world.nextSeq + 1).toNat = p.world.nextSeq.toNat + 1 := by
      rw [UInt64.toNat_add]
      exact Nat.mod_eq_of_lt hroom
    refine ⟨{ hp with issued := fun h s hs => ?_ }, Nat.le_of_eq hnext⟩
    show s.seqId < (p.world.nextSeq + 1).toNat
    rw [hnext]
    exact Nat.lt_succ_of_lt (hp.issued h s hs)
  | insert h before =>
    cases hl : p.live h with
    | none => simp [Pool.step, hl] at hstep
    | some s =>
      by_cases hspill : s.seq.hasSpill = true
      · simp only [Pool.step, hl, hspill, if_true, Option.some.injEq] at hstep
        subst hstep
        exact ⟨hp, Nat.le_succ _⟩
      · simp only [Pool.step, hl, if_neg hspill, Option.some.injEq] at hstep
        subst hstep
        exact ⟨hp.inserted promptKey before hl (by simpa using hspill), Nat.le_succ _⟩
  | call h l op =>
    cases hl : p.live h with
    | none => simp [Pool.step, hl] at hstep
    | some s =>
      simp only [Pool.step, hl] at hstep
      cases hcall : SeqState.apply (s.seq, p.world.storage) (l, op) with
      | none => simp [hcall] at hstep
      | some out =>
        obtain ⟨seq, st⟩ := out
        simp only [hcall, Option.some.injEq] at hstep
        subst hstep
        obtain ⟨hlayers, honly⟩ := (hp.layers h s hl).apply hcall
        refine ⟨hp.placed hlayers (hp.issued h s hl) (Nat.le_refl _) ?_ honly hp.entries,
          Nat.le_succ _⟩
        intro j t hj hne hid
        exact hne (hp.distinct j h t s hj hl hid)
  | truncate h len =>
    cases hl : p.live h with
    | none => simp [Pool.step, hl] at hstep
    | some s =>
      simp only [Pool.step, hl, Option.some.injEq] at hstep
      subst hstep
      obtain ⟨hlayers, honly⟩ := (hp.layers h s hl).anyCut len
      refine ⟨hp.placed hlayers (hp.issued h s hl) (Nat.le_refl _) ?_ honly hp.entries,
        Nat.le_succ _⟩
      intro j t hj hne hid
      exact hne (hp.distinct j h t s hj hl hid)
  | drop h =>
    cases hl : p.live h with
    | none => simp [Pool.step, hl] at hstep
    | some s =>
      simp only [Pool.step, hl, Option.some.injEq] at hstep
      subst hstep
      have honly := (hp.layers h s hl).drop_own
      have hcases : ∀ j t, ({ p with world := { p.world with
          storage := s.seq.drop p.world.storage } }.put h none).live j = some t →
          j ≠ h ∧ p.live j = some t := by
        intro j t hj
        by_cases hjh : j = h
        · subst hjh
          rw [put_live_self] at hj
          cases hj
        · rw [put_live_of_ne _ hjh] at hj
          exact ⟨hjh, hj⟩
      refine ⟨{ layers := ?_, issued := ?_, distinct := ?_, entries := hp.entries }, Nat.le_succ _⟩
      · intro j t hj
        obtain ⟨hne, hj⟩ := hcases j t hj
        exact (hp.layers j t hj).elsewhere (fun hid => hne (hp.distinct j h t s hj hl hid)) honly
      · intro j t hj
        exact hp.issued j t (hcases j t hj).2
      · intro j j' t t' hj hj' hid
        exact hp.distinct j j' t t' (hcases j t hj).2 (hcases j' t' hj').2 hid

/-- **Any run** keeps the sequences separate. -/
theorem Separate.run : ∀ {actions : List PoolAction} {p p' : Pool σ κ}, Separate law p →
    p.world.nextSeq.toNat + actions.length < 2 ^ 64 →
    runList (Pool.step cfg promptKey) actions p = some p' → Separate law p' := by
  intro actions
  induction actions with
  | nil =>
    intro p p' hp _ hrun
    rw [← Option.some.inj hrun]
    exact hp
  | cons a actions ih =>
    intro p p' hp hids hrun
    obtain ⟨m, hm, hrun⟩ := runList_cons.mp hrun
    rw [List.length_cons] at hids
    obtain ⟨hpm, hnext⟩ := hp.step (by omega) hm
    exact ih hpm (by omega) hrun

/-- What an action on one sequence leaves of another: all of it, with its files. -/
theorem Separate.frame (hp : Separate law p) {a : PoolAction}
    (hstep : Pool.step cfg promptKey p a = some p') {h : Nat} {s : Owned σ}
    (hs : p.live h = some s) (hne : a.handle ≠ some h) :
    p'.live h = some s ∧ ∀ l b,
      law.content p'.world.storage (spillPath s.seqId l b)
        = law.content p.world.storage (spillPath s.seqId l b) := by
  have hother : ∀ {j : Nat} {t : Owned σ} {st' : σ}, p.live j = some t → j ≠ h →
      OnlySequence law t.seqId p.world.storage st' → ∀ l b,
        law.content st' (spillPath s.seqId l b)
          = law.content p.world.storage (spillPath s.seqId l b) := by
    intro j t st' hj hjh honly l b
    refine honly _ fun l' b' hpath => hjh ?_
    exact hp.distinct j h t s hj hs (spillPath_inj.mp hpath).1.symm
  have hlive : ∀ {j : Nat} (q : Pool σ κ) (t : Option (Owned σ)), some j ≠ some h →
      q.live = p.live → (q.put j t).live h = some s := by
    intro j q t hjh hq
    rw [put_live_of_ne _ (fun he => hjh (congrArg some he.symm)), hq]
    exact hs
  cases a with
  | start j before =>
    cases hj : p.live j with
    | some t => simp [Pool.step, hj] at hstep
    | none =>
      simp only [Pool.step, hj, Option.some.injEq] at hstep
      subst hstep
      refine ⟨hlive _ _ hne rfl, fun l b => ?_⟩
      show law.content (Pool.beginSeq cfg promptKey before p).2.storage _ = _
      rw [beginSeq_storage]
  | takeId =>
    obtain rfl := Option.some.inj hstep
    exact ⟨hs, fun _ _ => rfl⟩
  | insert j before =>
    cases hj : p.live j with
    | none => simp [Pool.step, hj] at hstep
    | some t =>
      by_cases hspill : t.seq.hasSpill = true
      · simp only [Pool.step, hj, hspill, if_true, Option.some.injEq] at hstep
        subst hstep
        exact ⟨hs, fun _ _ => rfl⟩
      · simp only [Pool.step, hj, if_neg hspill, Option.some.injEq] at hstep
        subst hstep
        exact ⟨hs, fun l b =>
          congrFun (hp.insert_content promptKey before hj (by simpa using hspill)) _⟩
  | call j l op =>
    cases hj : p.live j with
    | none => simp [Pool.step, hj] at hstep
    | some t =>
      simp only [Pool.step, hj] at hstep
      cases hcall : SeqState.apply (t.seq, p.world.storage) (l, op) with
      | none => simp [hcall] at hstep
      | some out =>
        obtain ⟨seq, st⟩ := out
        simp only [hcall, Option.some.injEq] at hstep
        subst hstep
        exact ⟨hlive _ _ hne rfl, hother hj (fun he => hne (congrArg some he))
          ((hp.layers j t hj).apply hcall).2⟩
  | truncate j len =>
    cases hj : p.live j with
    | none => simp [Pool.step, hj] at hstep
    | some t =>
      simp only [Pool.step, hj, Option.some.injEq] at hstep
      subst hstep
      exact ⟨hlive _ _ hne rfl, hother hj (fun he => hne (congrArg some he))
        ((hp.layers j t hj).anyCut len).2⟩
  | drop j =>
    cases hj : p.live j with
    | none => simp [Pool.step, hj] at hstep
    | some t =>
      simp only [Pool.step, hj, Option.some.injEq] at hstep
      subst hstep
      exact ⟨hlive _ _ hne rfl, hother hj (fun he => hne (congrArg some he))
        (hp.layers j t hj).drop_own⟩

/-! ## Every spilled block is what its own sequence wrote -/

variable (cfg promptKey law) in
/-- **Sequences never touch each other's spilled blocks.** In every state that a run of actions
leads to: no file name of a sequence in use is one of another's; the next action on one changes no
file of another; and each spilled block has in its file, and brings back when it is read, what was
written to that sequence. -/
theorem spill_files_separate (w : World σ κ) (hempty : w.promptCache.entries = [])
    (actions : List PoolAction) (hids : w.nextSeq.toNat + actions.length < 2 ^ 64)
    (hrun : runList (Pool.step cfg promptKey) actions (Pool.new w) = some p) :
    (∀ h h' s s', p.live h = some s → p.live h' = some s' → h ≠ h' →
      ∀ l b l' b', spillPath s.seqId l b ≠ spillPath s'.seqId l' b') ∧
    (∀ a p', Pool.step cfg promptKey p a = some p' → ∀ h s, p.live h = some s →
      a.handle ≠ some h → p'.live h = some s ∧
        ∀ kv ∈ s.seq.kvs, ∀ (b : Nat) path, kv.spilled[b]? = some path →
          law.content p'.world.storage path = law.content p.world.storage path) ∧
    ∀ h s, p.live h = some s → ∀ (l : Nat) kv, s.seq.kvs[l]? = some kv →
      kv.len = (s.written l).length ∧
      ∀ (b : Nat) path, kv.spilled[b]? = some path →
        path = spillPath s.seqId l b ∧
        law.content p.world.storage path
          = some (KvBlock.ofPage (page kv.blockSize (s.written l) b)).toBytes ∧
        ((kv.reload b p.world.storage).1 = .ok () →
          (kv.reload b p.world.storage).2.1.resident[b]?
            = some (KvBlock.ofPage (page kv.blockSize (s.written l) b))) := by
  have hp : Separate law p := (Separate.new hempty).run hids hrun
  have hown : ∀ h s, p.live h = some s → ∀ (l : Nat) kv, s.seq.kvs[l]? = some kv →
      ∀ (b : Nat) path, kv.spilled[b]? = some path → path = spillPath s.seqId l b := by
    intro h s hs l kv hkv b path hpath
    have hlayers := hp.layers h s hs
    rw [(hlayers.holds l kv hkv).spilled_path b path hpath, hlayers.seqId_eq l kv hkv,
      hlayers.layer_eq l kv hkv]
  refine ⟨?_, ?_, ?_⟩
  · intro h h' s s' hs hs' hne l b l' b' hpath
    exact hne (hp.distinct h h' s s' hs hs' (spillPath_inj.mp hpath).1)
  · intro a p' hstep h s hs hne
    obtain ⟨hlive, hfiles⟩ := hp.frame hstep hs hne
    refine ⟨hlive, fun kv hkv b path hpath => ?_⟩
    obtain ⟨l, hl⟩ := List.mem_iff_getElem?.mp hkv
    rw [hown h s hs l kv hl b path hpath]
    exact hfiles l b
  · intro h s hs l kv hkv
    have hlayers := hp.layers h s hs
    have hholds := hlayers.holds l kv hkv
    refine ⟨hholds.len_eq, fun b path hpath => ⟨hown h s hs l kv hkv b path hpath, ?_, ?_⟩⟩
    · rw [hholds.spilled_path b path hpath]
      exact hholds.spilled_disk b (KVCacheState.mem_of_getElem? hpath)
    · intro hok
      have hread := hholds.reload law (hlayers.storage_eq l kv hkv) b
      have hmem : b ∈ (kv.reload b p.world.storage).2.1.resident := by
        rcases KVCacheState.reload_cases b kv p.world.storage with ⟨⟨e, he⟩, _⟩ |
          ⟨_, _, _, _, _, _, he⟩
        · rw [he] at hok; cases hok
        · rw [he]
          exact KVCacheState.mem_insert_iff.mpr (Or.inl rfl)
      obtain ⟨blk, hblk⟩ := KVCacheState.exists_getElem? hmem
      rw [hblk, hread.resident_eq b blk hblk,
        (KVCacheState.reload_shape b kv p.world.storage).blockSize]

end

end Pool

/-! ## A copy and its original, both spilling -/

/-- The first sequence goes into the cache after one position and the second begins from it; both
go on until they spill. -/
def sharedRun : List PoolAction :=
  [.start 0 [], .call 0 0 (appendOne 1), .insert 0 [5], .start 1 [5], .call 0 0 (appendOne 2),
    .call 1 0 (appendOne 3), .call 0 0 (appendOne 4), .call 1 0 (appendOne 5)]

def sharedPool : Option (Pool (Path → Option Bytes) (List Token)) :=
  runList (Pool.step (tinyCfg 2 1 none memoryStorage) id) sharedRun
    (.new { storage := fun _ => none, nextSeq := 1, promptCache := .new 4 1000 })

/-- Both have their first block on disk, each in a file of its own and with its own second
position. -/
theorem spill_files_separate_shared : ∃ p s₀ s₁, sharedPool = some p ∧ p.live 0 = some s₀ ∧
    p.live 1 = some s₁ ∧ s₀.seq.hasSpill = true ∧ s₁.seq.hasSpill = true ∧
    s₀.written 0 = [([⟨1⟩], [⟨1⟩]), ([⟨2⟩], [⟨2⟩]), ([⟨4⟩], [⟨4⟩])] ∧
    s₁.written 0 = [([⟨1⟩], [⟨1⟩]), ([⟨3⟩], [⟨3⟩]), ([⟨5⟩], [⟨5⟩])] ∧
    (∀ l b l' b', spillPath s₀.seqId l b ≠ spillPath s₁.seqId l' b') := by
  have hsome : sharedPool.any (fun p =>
      (p.live 0).any (fun s₀ => (p.live 1).any fun s₁ =>
        decide (s₀.seq.hasSpill = true ∧ s₁.seq.hasSpill = true ∧
          s₀.written 0 = [([⟨1⟩], [⟨1⟩]), ([⟨2⟩], [⟨2⟩]), ([⟨4⟩], [⟨4⟩])] ∧
          s₁.written 0 = [([⟨1⟩], [⟨1⟩]), ([⟨3⟩], [⟨3⟩]), ([⟨5⟩], [⟨5⟩])]))) = true := by
    decide +kernel
  obtain ⟨p, hrun, hfacts⟩ := (Option.any_eq_true _ _).mp hsome
  obtain ⟨s₀, h₀, hfacts⟩ := (Option.any_eq_true _ _).mp hfacts
  obtain ⟨s₁, h₁, hfacts⟩ := (Option.any_eq_true _ _).mp hfacts
  obtain ⟨hspill₀, hspill₁, hw₀, hw₁⟩ := of_decide_eq_true hfacts
  have hseparate := Pool.spill_files_separate (tinyCfg 2 1 none memoryStorage) id
    memoryStorage_reliable.toReadsBack _ rfl sharedRun (by decide) hrun
  exact ⟨p, s₀, s₁, hrun, h₀, h₁, hspill₀, hspill₁, hw₀, hw₁,
    hseparate.1 0 1 s₀ s₁ h₀ h₁ (by decide)⟩

end Garuda
