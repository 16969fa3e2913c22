import Garuda.Infra.Attempt
import Garuda.Infra.Causal
import Garuda.Runtime.Stands

/-!
# Sequences side by side

Several sequences over one storage, while a pass goes through their layers: one layer of one of
them at a time is looked at and changed.

* `onSequence` is a computation on one of the sequences, and `onLayer` one on one of its caches.
* `Fleet` says which tokens every layer of every sequence has had, and what has not changed since
  the pass began.

`Fleet.step` is the step: one more token in one layer of one sequence. `Turn.attends` and `Turn.folds`
are what it is for a layer that attends and for one that is recurrent.
-/

namespace Garuda

open Infra SeqState KVCacheState

variable {σ : Type}

/-- The `j`-th sequence, with the storage. -/
def seqAt (j : Nat) (w : List (SeqState σ) × σ) : Option (SeqState σ × σ) :=
  (w.1[j]?).map fun seq => (seq, w.2)

def putSeq (j : Nat) (s : SeqState σ × σ) (w : List (SeqState σ) × σ) : List (SeqState σ) × σ :=
  (w.1.set j s.1, s.2)

/-- The cache of layer `l` of a sequence, with the storage. -/
def layerOf (l : Nat) (w : SeqState σ × σ) : Option (KVCacheState σ × σ) :=
  (w.1.kvs[l]?).map fun kv => (kv, w.2)

def putLayer (l : Nat) (c : KVCacheState σ × σ) (w : SeqState σ × σ) : SeqState σ × σ :=
  ({ w.1 with kvs := w.1.kvs.set l c.1 }, c.2)

/-- A computation on one of the sequences. -/
def onSequence {α : Type} (j : Nat) (x : Attempt GarudaError (SeqState σ × σ) α) :
    Attempt GarudaError (List (SeqState σ) × σ) α := Attempt.focus (seqAt j) (putSeq j) x

/-- A computation on one of the caches of a sequence. -/
def onLayer {α : Type} (l : Nat) (x : Attempt GarudaError (KVCacheState σ × σ) α) :
    Attempt GarudaError (SeqState σ × σ) α := Attempt.focus (layerOf l) (putLayer l) x

/-! ## What is kept -/

/-- Every recurrent state can be put back to where it stood after `n` tokens, or after more. -/
def SeqState.Copied (n : Nat) (seq : SeqState σ) : Prop :=
  ∀ s, some s ∈ seq.linear → ∀ k, n ≤ k → k ≤ s.folded → s.recoverable k = true

/-- A sequence that is being recorded is recorded on. -/
structure SeqState.Recorded (seq seq' : SeqState σ) : Prop where
  recording : seq'.recording = seq.recording
  copied : seq.recording = true → ∀ n, Copied n seq → Copied n seq'

theorem SeqState.Recorded.refl (seq : SeqState σ) : Recorded seq seq := ⟨rfl, fun _ _ h => h⟩

theorem SeqState.Recorded.trans {seq seq' seq'' : SeqState σ} (h : Recorded seq seq')
    (h' : Recorded seq' seq'') : Recorded seq seq'' :=
  ⟨h'.recording.trans h.recording, fun hr n hc =>
    h'.copied (h.recording.trans hr) n (h.copied hr n hc)⟩

/-- The caches of one sequence are those of another with other contents, and there is as much
recurrent state. -/
structure SeqState.Kept (seq seq' : SeqState σ) : Prop where
  size : seq'.kvs.length = seq.kvs.length
  sizeLinear : seq'.linear.length = seq.linear.length
  shape : ∀ (l : Nat) (kv' : KVCacheState σ), seq'.kvs[l]? = some kv' →
    ∃ kv, seq.kvs[l]? = some kv ∧ SameShape kv kv'
  recorded : Recorded seq seq'

theorem SeqState.Kept.refl (seq : SeqState σ) : Kept seq seq :=
  ⟨rfl, rfl, fun _ kv hkv => ⟨kv, hkv, SameShape.refl kv⟩, Recorded.refl seq⟩

theorem SeqState.Kept.trans {seq seq' seq'' : SeqState σ} (h : Kept seq seq') (h' : Kept seq' seq'') :
    Kept seq seq'' where
  size := h'.size.trans h.size
  sizeLinear := h'.sizeLinear.trans h.sizeLinear
  shape := by
    intro l kv'' hkv''
    obtain ⟨kv', hkv', hshape'⟩ := h'.shape l kv'' hkv''
    obtain ⟨kv, hkv, hshape⟩ := h.shape l kv' hkv'
    exact ⟨kv, hkv, hshape.trans hshape'⟩
  recorded := h.recorded.trans h'.recorded

section

variable {K : Type} {cfg : KvConfig σ} {law : ReadsBack cfg.storage} {m : TokenModel K}
  {ids : List Nat} {base w : List (SeqState σ) × σ} {ts : Nat → Nat → List Token} {j l : Nat}

/-- Layer `l` of the `j`-th sequence has had the tokens `ts j l`; the sequences were `base` when the
pass began, and since then no file has changed but their own. -/
structure Fleet (law : ReadsBack cfg.storage) (m : TokenModel K) (ids : List Nat)
    (base w : List (SeqState σ) × σ) (ts : Nat → Nat → List Token) : Prop where
  size : w.1.length = ids.length
  layers : ∀ (j id : Nat) (seq : SeqState σ), ids[j]? = some id → w.1[j]? = some seq →
    Layers law id (seq, w.2) fun l => m.kvOf l (ts j l)
  linear : ∀ (j : Nat) (seq : SeqState σ), w.1[j]? = some seq →
    ∀ (l : Nat) (o : Option LinearState), seq.linear[l]? = some o → m.Recalls l (ts j l) o
  same : ∀ (j : Nat) (seq : SeqState σ), w.1[j]? = some seq →
    ∃ seq₀, base.1[j]? = some seq₀ ∧ Kept seq₀ seq
  own : OnlyThose law ids base.2 w.2

/-- What is there of a sequence that was there when the pass began. -/
theorem Fleet.sequence (h : Fleet law m ids base w ts) {id : Nat} (hid : ids[j]? = some id)
    {seq₀ : SeqState σ} (hbase : base.1[j]? = some seq₀) :
    ∃ seq, w.1[j]? = some seq ∧ Kept seq₀ seq := by
  have hj : j < w.1.length := h.size ▸ (List.getElem?_eq_some_iff.mp hid).1
  have hseq := List.getElem?_eq_getElem hj
  obtain ⟨seq₁, hseq₁, hkept⟩ := h.same j _ hseq
  rw [hbase] at hseq₁
  cases hseq₁
  exact ⟨_, hseq, hkept⟩

/-- What a step may do to a layer of a sequence, which has had the tokens `us` when it is done. -/
structure Turn (law : ReadsBack cfg.storage) (m : TokenModel K) (l : Nat) (us : List Token)
    (s s' : SeqState σ × σ) : Prop where
  kvs : ∃ kv kv', s.1.kvs[l]? = some kv ∧ s'.1.kvs = s.1.kvs.set l kv' ∧ SameShape kv kv' ∧
    kv'.Holds (law.content s'.2) (m.kvOf l us) ∧ OnlyLayer law kv.seqId kv.layer s.2 s'.2
  sizeLinear : s'.1.linear.length = s.1.linear.length
  others : ∀ k, k ≠ l → s'.1.linear[k]? = s.1.linear[k]?
  recalls : ∀ o, s'.1.linear[l]? = some o → m.Recalls l us o
  recorded : Recorded s.1 s'.1

theorem Turn.attends {s : SeqState σ × σ} {seen us : List Token} {kv : KVCacheState σ}
    (hplain : m.recurrent l = false) (hkv : s.1.kvs[l]? = some kv)
    (hlinear : ∀ o, s.1.linear[l]? = some o → m.Recalls l seen o) {α : Type}
    {x : Attempt GarudaError (KVCacheState σ × σ) α} {Q : α → Prop}
    (hx : Attempt.Ends x (kv, s.2) fun a c =>
      Q a ∧ c.1.Holds (law.content c.2) (m.kvOf l us) ∧ SameShape kv c.1 ∧
        OnlyLayer law kv.seqId kv.layer s.2 c.2) :
    Attempt.Ends (onLayer l x) s fun a s' => Q a ∧ Turn law m l us s s' := by
  refine Attempt.Ends.focus (show layerOf l s = some (kv, s.2) by rw [layerOf, hkv]; rfl) ?_
  refine hx.mono ?_
  rintro a ⟨kv', st'⟩ ⟨ha, hholds, hshape, honly⟩
  refine ⟨ha, ⟨kv, kv', hkv, rfl, hshape, hholds, honly⟩, rfl, fun _ _ => rfl, fun o ho => ?_,
    ⟨rfl, fun _ _ h => h⟩⟩
  rw [(hlinear o ho).plain hplain]
  exact TokenModel.recalls_none fun hr => absurd hr (by rw [hplain]; simp)

/-- A state into which a token is folded can still be put back to where a copy was held from, and,
if it is being recorded, to where it stood. -/
theorem recoverable_fold {convLen stateLen : Nat} {conv state : List F32} {o : Option LinearState}
    {k n : Nat} (hcopied : ∀ s, o = some s → ∀ k, n ≤ k → k ≤ s.folded → s.recoverable k = true)
    (hn : n ≤ k) (hk : k ≤ foldedOf o + 1) :
    ((linearOr convLen stateLen o).fold true conv state).recoverable k = true := by
  have hfolded := foldedOf_fold convLen stateLen true conv state o
  have hmem := fun e => @mem_historyOf_fold convLen stateLen true conv state o e
  simp only [foldedOf, historyOf, Option.map_some, Option.getD_some] at hfolded hmem
  rw [LinearState.recoverable, hfolded, Bool.or_eq_true, beq_iff_eq, List.any_eq_true]
  rcases Nat.lt_or_ge (foldedOf o) k with hlt | hle
  · exact .inl (Nat.le_antisymm hlt hk)
  · right
    rcases Nat.lt_or_ge k (foldedOf o) with hlt | hge
    · -- a copy was held, or there was no state
      cases o with
      | none => exact absurd hlt (Nat.not_lt_zero _)
      | some s =>
        have hrec := hcopied s rfl k hn hlt.le
        have hne : (s.folded == k) = false := beq_eq_false_iff_ne.mpr (Nat.ne_of_gt hlt)
        rw [LinearState.recoverable, hne, Bool.false_or, List.any_eq_true] at hrec
        obtain ⟨e, he, hek⟩ := hrec
        exact ⟨e, (hmem e).mpr (.inl he), hek⟩
    · exact ⟨_, (hmem _).mpr (.inr ⟨trivial, rfl⟩), beq_iff_eq.mpr (Nat.le_antisymm hge hle)⟩

theorem Turn.folds {seq : SeqState σ} {st st' : σ} {kv kv' : KVCacheState σ} {o : Option LinearState}
    {convLen stateLen : Nat} {conv state : List F32} {seen : List Token} {t : Token}
    (hkv : seq.kvs[l]? = some kv) (ho : seq.linear[l]? = some o) (hrecalls : m.Recalls l seen o)
    (hr : m.recurrent l = true)
    (hstate : ((linearOr convLen stateLen o).conv, (linearOr convLen stateLen o).state)
      = m.summary l seen)
    (hsummary : (conv, state) = m.summary l (seen ++ [t])) (hshape : SameShape kv kv')
    (hholds : kv'.Holds (law.content st') (m.kvOf l (seen ++ [t])))
    (honly : OnlyLayer law kv.seqId kv.layer st st') :
    Turn law m l (seen ++ [t]) (seq, st)
      ({ seq with
        kvs := seq.kvs.set l kv'
        linear := seq.linear.set l
          (some ((linearOr convLen stateLen o).fold seq.recording conv state)) }, st') where
  kvs := ⟨kv, kv', hkv, rfl, hshape, hholds, honly⟩
  sizeLinear := List.length_set
  others k hne := List.getElem?_set_ne (Ne.symm hne)
  recalls o' ho' := by
    have hlt := (List.getElem?_eq_some_iff.mp ho).1
    rw [List.getElem?_set_self hlt] at ho'
    cases ho'
    have hfolded := hrecalls.folded hr
    refine TokenModel.recalls_some hr ?_ hsummary fun e he => ?_
    · have := foldedOf_fold convLen stateLen seq.recording conv state o
      rw [List.length_append, List.length_singleton, ← hfolded]
      exact this
    · rw [List.length_append, List.length_singleton]
      rcases mem_historyOf_fold.mp he with he | ⟨-, rfl⟩
      · obtain ⟨hlt, hcopy⟩ := hrecalls.copies e he
        rw [List.take_append_of_le_length hlt.le]
        exact ⟨by omega, hcopy⟩
      · dsimp only
        rw [hfolded, List.take_left]
        exact ⟨by omega, hstate⟩
  recorded := by
    refine ⟨rfl, fun hrecording n hcopied s hs k hn hk => ?_⟩
    obtain ⟨i, hi⟩ := List.mem_iff_getElem?.mp hs
    rcases set_getElem?_cases ho hi with ⟨-, hnew⟩ | ⟨-, hi⟩
    · cases hnew
      rw [hrecording] at hk ⊢
      refine recoverable_fold (fun s hs => hcopied s ?_) hn (hk.trans_eq ?_)
      · exact hs ▸ List.mem_of_getElem? ho
      · exact foldedOf_fold convLen stateLen true conv state o
    · exact hcopied s (List.mem_of_getElem? hi) k hn hk

/-- **One layer of one sequence has had a turn**, and with it only its own files have changed. -/
theorem Fleet.turn (h : Fleet law m ids base w ts) (hnodup : ids.Nodup) {id : Nat}
    (hid : ids[j]? = some id) {seq : SeqState σ} (hseq : w.1[j]? = some seq) {us : List Token}
    {s' : SeqState σ × σ} (hturn : Turn law m l us (seq, w.2) s') :
    Fleet law m ids base (putSeq j s' w) (Function.update ts j (Function.update (ts j) l us)) := by
  obtain ⟨seq', st'⟩ := s'
  obtain ⟨⟨kv, kv', hkv, hkvs, hshape, hholds, honly⟩, hsize, hothers, hrecalls, hrecorded⟩ := hturn
  dsimp only at hkv hkvs hholds honly hsize hothers hrecalls hrecorded
  have hmine := h.layers j id seq hid hseq
  have hown : OnlySequence law id w.2 st' := by
    have := honly.onlySequence
    rwa [hmine.seqId_eq l kv hkv] at this
  have hget : ∀ i seq₁, (putSeq j (seq', st') w).1[i]? = some seq₁ →
      (i = j ∧ seq₁ = seq') ∨ (i ≠ j ∧ w.1[i]? = some seq₁) := by
    intro i seq₁ hi
    rcases set_getElem?_cases hseq hi with ⟨rfl, rfl⟩ | ⟨hne, hi⟩
    · exact .inl ⟨rfl, rfl⟩
    · exact .inr ⟨hne, hi⟩
  refine
    { size := ?_
      layers := ?_
      linear := ?_
      same := ?_
      own := ?_ }
  · rw [putSeq, List.length_set]
    exact h.size
  · intro i id' seq₁ hid' hi
    rcases hget i seq₁ hi with ⟨rfl, rfl⟩ | ⟨hne, hi⟩
    · rw [hid] at hid'
      cases hid'
      obtain ⟨kvs', linear', recording'⟩ := seq₁
      cases hkvs
      have hset := hmine.set hkv hshape hholds honly linear' recording'
      rw [Function.update_self]
      refine { hset with holds := fun k kv₁ hk => ?_ }
      have hk' := hset.holds k kv₁ hk
      rcases eq_or_ne k l with rfl | hne
      · rwa [Function.update_self] at hk' ⊢
      · rwa [Function.update_of_ne hne] at hk' ⊢
    · rw [Function.update_of_ne hne]
      refine (h.layers i id' seq₁ hid' hi).elsewhere (fun he => hne ?_) hown
      subst he
      have hlt := (List.getElem?_eq_some_iff.mp hid').1
      exact (List.getElem?_inj hlt hnodup).mp (hid'.trans hid.symm)
  · intro i seq₁ hi k o ho
    rcases hget i seq₁ hi with ⟨rfl, rfl⟩ | ⟨hne, hi⟩
    · rw [Function.update_self]
      rcases eq_or_ne k l with rfl | hne
      · rw [Function.update_self]
        exact hrecalls o ho
      · rw [Function.update_of_ne hne]
        exact h.linear i seq hseq k o (hothers k hne ▸ ho)
    · rw [Function.update_of_ne hne]
      exact h.linear i seq₁ hi k o ho
  · intro i seq₁ hi
    rcases hget i seq₁ hi with ⟨rfl, rfl⟩ | ⟨hne, hi⟩
    · obtain ⟨seq₀, hseq₀, hkept⟩ := h.same i seq hseq
      refine ⟨seq₀, hseq₀, hkept.trans ⟨by rw [hkvs, List.length_set], hsize, fun k kv₁ hk => ?_,
        hrecorded⟩⟩
      rw [hkvs] at hk
      rcases set_getElem?_cases hkv hk with ⟨rfl, rfl⟩ | ⟨_, hk⟩
      · exact ⟨kv, hkv, hshape⟩
      · exact ⟨kv₁, hk, SameShape.refl kv₁⟩
    · exact h.same i seq₁ hi
  · exact h.own.trans (hown.those (List.mem_of_getElem? hid))

/-- **A step on one sequence** that is a turn of one of its layers. -/
theorem Fleet.step (h : Fleet law m ids base w ts) (hnodup : ids.Nodup) {id : Nat}
    (hid : ids[j]? = some id) {seq₀ : SeqState σ} (hbase : base.1[j]? = some seq₀) {us : List Token}
    {α : Type} {x : Attempt GarudaError (SeqState σ × σ) α} {Q : α → Prop}
    (hx : ∀ seq, Kept seq₀ seq → Layers law id (seq, w.2) (fun l => m.kvOf l (ts j l)) →
      (∀ (k : Nat) (o : Option LinearState), seq.linear[k]? = some o → m.Recalls k (ts j k) o) →
      Attempt.Ends x (seq, w.2) fun a s' => Q a ∧ Turn law m l us (seq, w.2) s') :
    Attempt.Ends (onSequence j x) w fun a w' =>
      Q a ∧ Fleet law m ids base w' (Function.update ts j (Function.update (ts j) l us)) := by
  obtain ⟨seq, hseq, hkept⟩ := h.sequence hid hbase
  refine Attempt.Ends.focus (show seqAt j w = some (seq, w.2) by rw [seqAt, hseq]; rfl) ?_
  refine (hx seq hkept (h.layers j id seq hid hseq) (h.linear j seq hseq)).mono ?_
  rintro a s' ⟨ha, hturn⟩
  exact ⟨ha, h.turn hnodup hid hseq hturn⟩

end

end Garuda
