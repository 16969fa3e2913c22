import Garuda.Cache.OwnFiles
import Garuda.Runtime.Contract

/-!
# Backends whose calls may fail

With a spill storage a forward pass can fail half way. `Stands` says what tokens a sequence state
and its files are the result of, and `Conforms` what a backend leaves behind whether its calls
succeed or fail: some of the new tokens have gone in, all of them if the call succeeded.

* `Stands.truncate`, `Stands.rekey` — cuts and copies
* `Stands.elsewhere` — what is done to another sequence does not show
* `logitsInTurn_feeds` — the trait's own `logits_batch` does what `logits` does
-/

namespace Garuda

open Infra SeqState

variable {σ κ K Γ : Type}

/-! ## Files of several sequences -/

section

variable {storage : Option (StorageBackend σ)} {law : ReadsBack storage} {ids : List Nat}
variable {st st₁ st' : σ}

/-- No file has changed but those of the sequences `ids`. -/
def OnlyThose (law : ReadsBack storage) (ids : List Nat) (st st' : σ) : Prop :=
  ∀ q, (∀ id ∈ ids, ∀ l b, q ≠ spillPath id l b) → law.content st' q = law.content st q

theorem OnlyThose.refl (ids : List Nat) (st : σ) : OnlyThose law ids st st := fun _ _ => rfl

theorem OnlyThose.trans (h : OnlyThose law ids st st₁) (h' : OnlyThose law ids st₁ st') :
    OnlyThose law ids st st' := fun q hq => (h' q hq).trans (h q hq)

theorem OnlyThose.mono (h : OnlyThose law ids st st') {ids' : List Nat} (hsub : ids ⊆ ids') :
    OnlyThose law ids' st st' := fun q hq => h q fun id hid => hq id (hsub hid)

theorem SeqState.OnlySequence.those {seqId : Nat} (h : OnlySequence law seqId st st') (hid : seqId ∈ ids) :
    OnlyThose law ids st st' := fun q hq => h q (hq seqId hid)

/-- The files of a sequence that is not among them are as they were. -/
theorem OnlyThose.spillPath_eq (h : OnlyThose law ids st st') {seqId : Nat} (hid : seqId ∉ ids)
    (l b : Nat) : law.content st' (spillPath seqId l b) = law.content st (spillPath seqId l b) :=
  h _ fun _ hmem _ _ hpath => hid ((spillPath_inj.mp hpath).1 ▸ hmem)

/-- A sequence does not notice what is done to others. -/
theorem SeqState.Layers.apart {seqId : Nat} {seq : SeqState σ} {vs : Nat → List KvPair}
    (h : Layers law seqId (seq, st) vs) (honly : OnlyThose law ids st st') (hid : seqId ∉ ids) :
    Layers law seqId (seq, st') vs := by
  refine { h with holds := fun l kv hkv => ?_ }
  refine (h.holds l kv hkv).disk_congr fun b _ => ?_
  rw [h.seqId_eq l kv hkv]
  exact honly.spillPath_eq hid kv.layer b

end

/-! ## What a sequence stands for -/

/-- The sequence is what the tokens `ts` lead to, under the identity `seqId`, in caches made from
`cfg`. -/
structure Stands {cfg : KvConfig σ} (law : ReadsBack cfg.storage) (m : TokenModel K) (seqId : Nat)
    (s : SeqState σ × σ) (ts : List Token) : Prop where
  size : s.1.kvs.length = max cfg.nLayers.toNat 1
  sizeLinear : s.1.linear.length = s.1.kvs.length
  shape : ∀ (l : Nat) (kv : KVCacheState σ), s.1.kvs[l]? = some kv →
    KVCacheState.SameShape (KVCacheState.forLayer cfg seqId l) kv
  layers : Layers law seqId s (fun l => m.kvOf l ts)
  linear : ∀ (l : Nat) (o : Option LinearState), s.1.linear[l]? = some o → m.Recalls l ts o

section

variable {cfg : KvConfig σ} {law : ReadsBack cfg.storage} {m : TokenModel K} {seqId : Nat}
variable {s : SeqState σ × σ} {ts : List Token}

theorem stands_new (law : ReadsBack cfg.storage) (m : TokenModel K) (seqId : Nat) (st : σ) :
    Stands law m seqId (.new cfg seqId, st) [] where
  size := by simp [SeqState.new]
  sizeLinear := by simp [SeqState.new]
  shape := by
    intro l kv hkv
    rw [SeqState.new_getElem? hkv]
    exact KVCacheState.SameShape.refl _
  layers := layers_new rfl seqId st
  linear := by
    intro l o ho
    have hnone : o = none := List.eq_of_mem_replicate (List.mem_of_getElem? ho)
    subst hnone
    exact TokenModel.recalls_none fun _ => rfl

theorem Stands.len_eq (h : Stands law m seqId s ts) : s.1.len = ts.length := by
  have hpos : 0 < s.1.kvs.length := by rw [h.size]; omega
  have hkv := List.getElem?_eq_getElem hpos
  rw [SeqState.len, List.head?_eq_getElem?, hkv]
  show (s.1.kvs[0]).len = ts.length
  rw [(h.layers.holds 0 _ hkv).len_eq, m.length_kvOf]

/-- What is done to another sequence does not show. -/
theorem Stands.elsewhere (h : Stands law m seqId s ts) {seqId' : Nat} (hne : seqId ≠ seqId')
    {st' : σ} (honly : OnlySequence law seqId' s.2 st') : Stands law m seqId (s.1, st') ts :=
  { h with layers := h.layers.elsewhere hne honly }

/-- Nor does anything that leaves the sequence's files alone. -/
theorem Stands.sameFiles (h : Stands law m seqId s ts) {st' : σ}
    (hst : ∀ l b, law.content st' (spillPath seqId l b) = law.content s.2 (spillPath seqId l b)) :
    Stands law m seqId (s.1, st') ts := by
  refine { h with layers := { h.layers with holds := fun l kv hkv => ?_ } }
  refine (h.layers.holds l kv hkv).disk_congr fun b _ => ?_
  rw [h.layers.seqId_eq l kv hkv]
  exact hst kv.layer b

theorem Stands.apart {seq : SeqState σ} {st st' : σ} (h : Stands law m seqId (seq, st) ts)
    {ids : List Nat} (honly : OnlyThose law ids st st') (hid : seqId ∉ ids) :
    Stands law m seqId (seq, st') ts := h.sameFiles (honly.spillPath_eq hid)

theorem Stands.anywhere (h : Stands law m seqId s ts) (hs : s.1.hasSpill = false) (st' : σ) :
    Stands law m seqId (s.1, st') ts :=
  { h with layers := h.layers.anywhere hs st' }

/-- A copy under another identity stands for the same tokens. -/
theorem Stands.rekey (h : Stands law m seqId s ts) (hs : s.1.hasSpill = false) (seqId' : Nat)
    (st' : σ) : Stands law m seqId' ((s.1.rekey seqId').2, st') ts := by
  have hlayers := h.layers.rekey hs seqId' st'
  rw [SeqState.rekey_ok seqId' hs] at hlayers ⊢
  refine
    { size := by rw [List.length_map]; exact h.size
      sizeLinear := by rw [List.length_map]; exact h.sizeLinear
      shape := ?_
      layers := hlayers
      linear := h.linear }
  intro l kv hkv
  simp only [List.getElem?_map, Option.map_eq_some_iff] at hkv
  obtain ⟨kv₀, h₀, rfl⟩ := hkv
  have hshape := h.shape l kv₀ h₀
  exact ⟨hshape.kvDim, hshape.blockSize, hshape.maxPositions, hshape.maxResidentBlocks,
    hshape.slidingWindow, hshape.storage, rfl, hshape.layer⟩

/-- At its own length a sequence needs no copy. -/
theorem Stands.recoverable_length (h : Stands law m seqId s ts) {ls : LinearState}
    (hls : some ls ∈ s.1.linear) : ls.recoverable ts.length = true := by
  obtain ⟨l, hl⟩ := List.mem_iff_getElem?.mp hls
  have hrec := h.linear l _ hl
  cases hr : m.recurrent l with
  | false => exact absurd (hrec.plain hr) (by simp)
  | true =>
    have hfolded : ls.folded = ts.length := hrec.folded hr
    simp [LinearState.recoverable, hfolded]

/-- **A cut that is not refused** leaves the state of the tokens that remain. -/
theorem Stands.truncate (h : Stands law m seqId s ts) {n : Nat} (hn : n ≤ ts.length)
    (hok : (s.1.truncate n s.2).1 = .ok ()) :
    Stands law m seqId (s.1.truncate n s.2).2 (ts.take n) := by
  obtain ⟨hlen, hcut⟩ := h.layers.cutLayer hok
  obtain ⟨_, hrecov, he⟩ := SeqState.truncate_ok hok
  have hlayers := h.layers.truncate hok
  have hcopies : ∀ ls, some ls ∈ s.1.linear → ls.recoverable n = true := by
    intro ls hls
    by_cases hlt : n < s.1.len
    · have hall := hrecov hlt (List.any_eq_true.mpr ⟨_, hls, rfl⟩)
      exact List.all_eq_true.mp hall (some ls) hls
    · have hlen := h.len_eq
      rw [show n = ts.length by omega]
      exact h.recoverable_length hls
  simp only [m.kvOf_take] at hlayers
  refine
    { size := hlen.trans h.size
      sizeLinear := ?_
      shape := ?_
      layers := hlayers
      linear := ?_ }
  · rw [hlen, he]
    show (s.1.rewindAll n).length = _
    rw [SeqState.rewindAll, List.length_map, h.sizeLinear]
  · intro l kv' hkv'
    obtain ⟨kv, st₁, hkv, _, rfl, _⟩ := hcut l kv' hkv'
    exact (h.shape l kv hkv).trans (KVCacheState.truncate_shape n kv st₁)
  · intro l o' ho'
    rw [he] at ho'
    simp only [SeqState.rewindAll, List.getElem?_map, Option.map_eq_some_iff] at ho'
    obtain ⟨o, ho, rfl⟩ := ho'
    have hl := h.linear l o ho
    cases o with
    | none =>
      refine TokenModel.recalls_none fun hr => ?_
      have hzero : 0 = ts.length := hl.folded hr
      rw [List.eq_nil_of_length_eq_zero hzero.symm, List.take_nil]
    | some ls => exact hl.rewindTo hn (hcopies ls (List.mem_of_getElem? ho))

/-! ## The contract -/

/-- A sequence that a call is to feed `new` tokens, on top of those it has `seen`. -/
structure Feed (σ : Type) where
  seqId : Nat
  seq : SeqState σ
  seen : List Token
  new : List Token

def Feed.context (f : Feed σ) : List Token := f.seen ++ f.new

/-- A call that was to feed the sequence has fed it some of the tokens, all of them if it
succeeded. -/
def Feed.Took (law : ReadsBack cfg.storage) (m : TokenModel K) (f : Feed σ) (succeeded : Prop)
    (s' : SeqState σ × σ) : Prop :=
  ∃ k, k ≤ f.new.length ∧ (succeeded → k = f.new.length) ∧
    Stands law m f.seqId s' (f.seen ++ f.new.take k)

/-- The call returned a value. -/
def Succeeds {α : Type} (res : Except GarudaError α) : Prop := ∃ a, res = .ok a

/-- What a call that feeds several sequences leaves behind. -/
structure FedAll (law : ReadsBack cfg.storage) (m : TokenModel K) (fs : List (Feed σ)) (st : σ)
    (out : Except GarudaError (List (List K)) × List (SeqState σ) × σ) : Prop where
  took : List.Forall₂ (fun f seq => f.Took law m (Succeeds out.1) (seq, out.2.2)) fs out.2.1
  own : OnlyThose law (fs.map Feed.seqId) st out.2.2
  answers : ∀ answers, out.1 = .ok answers →
    (∀ f ∈ fs, f.new ≠ []) ∧ answers = fs.map fun f => m.logits f.context

/--
What the runtime relies on, also when calls fail: a call consumes tokens the sequence has not seen
and no others, all of them when it succeeds; it answers as the model does; it changes no other
sequence's files. A sequence with no new token is refused.
-/
structure InferenceBackend.Conforms (backend : InferenceBackend σ K) (m : TokenModel K)
    (law : ReadsBack cfg.storage) : Prop where
  hidden : ∀ (f : Feed σ) (st : σ), Stands law m f.seqId (f.seq, st) f.seen →
    f.Took law m (Succeeds (backend.hidden f.context f.seq st).1)
        (backend.hidden f.context f.seq st).2 ∧
      OnlySequence law f.seqId st (backend.hidden f.context f.seq st).2.2
  logits : ∀ (f : Feed σ) (st : σ), Stands law m f.seqId (f.seq, st) f.seen →
    f.Took law m (Succeeds (backend.logits f.context f.seq st).1)
        (backend.logits f.context f.seq st).2 ∧
      OnlySequence law f.seqId st (backend.logits f.context f.seq st).2.2 ∧
      ∀ v, (backend.logits f.context f.seq st).1 = .ok v → f.new ≠ [] ∧ v = m.logits f.context
  logitsMulti : ∀ (f : Feed σ) (n : Nat) (st : σ), backend.speculationSupported = true →
    Stands law m f.seqId (f.seq, st) f.seen → 0 < n → n ≤ f.new.length →
    f.Took law m (Succeeds (backend.logitsMulti f.context f.seq n st).1)
        (backend.logitsMulti f.context f.seq n st).2 ∧
      OnlySequence law f.seqId st (backend.logitsMulti f.context f.seq n st).2.2 ∧
      ∀ answers, (backend.logitsMulti f.context f.seq n st).1 = .ok answers →
        answers = (List.range n).map fun i =>
          m.logits (f.context.take (f.context.length - n + i + 1))
  logitsBatch : ∀ (fs : List (Feed σ)) (st : σ), (fs.map Feed.seqId).Nodup →
    (∀ f ∈ fs, Stands law m f.seqId (f.seq, st) f.seen) →
    FedAll law m fs st (backend.logitsBatch (fs.map Feed.context) (fs.map Feed.seq) st)

/-- Whether a call answers depends on the context alone. -/
def InferenceBackend.Reproducible (backend : InferenceBackend σ K) (m : TokenModel K)
    (law : ReadsBack cfg.storage) : Prop :=
  ∀ (f f' : Feed σ) (st st' : σ), Stands law m f.seqId (f.seq, st) f.seen →
    Stands law m f'.seqId (f'.seq, st') f'.seen → f.context = f'.context → f.new ≠ [] →
    f'.new ≠ [] → Succeeds (backend.logits f.context f.seq st).1 →
    Succeeds (backend.logits f'.context f'.seq st').1

/-! ## The trait's own `logits_batch` -/

/-- A sequence that has been fed nothing. -/
theorem Stands.took {f : Feed σ} (h : Stands law m f.seqId s f.seen) {succeeded : Prop}
    (hnot : succeeded → f.new = []) : f.Took law m succeeded s := by
  refine ⟨0, Nat.zero_le _, fun hs => by rw [hnot hs]; rfl, ?_⟩
  rw [List.take_zero, List.append_nil]
  exact h

theorem Feed.Took.sameFiles {f : Feed σ} {succeeded succeeded' : Prop}
    (h : f.Took law m succeeded s) {st' : σ}
    (hst : ∀ l b, law.content st' (spillPath f.seqId l b)
      = law.content s.2 (spillPath f.seqId l b)) (himp : succeeded' → succeeded) :
    f.Took law m succeeded' (s.1, st') := by
  obtain ⟨k, hk, hall, hstands⟩ := h
  exact ⟨k, hk, fun hs => hall (himp hs), hstands.sameFiles hst⟩

/-- **The default feeds the sequences in turn**, up to the first that fails. -/
theorem logitsInTurn_feeds {logits : List Token → SeqState σ → σ →
      Except GarudaError (List K) × SeqState σ × σ}
    (hlogits : ∀ (f : Feed σ) (st : σ), Stands law m f.seqId (f.seq, st) f.seen →
      f.Took law m (Succeeds (logits f.context f.seq st).1) (logits f.context f.seq st).2 ∧
        OnlySequence law f.seqId st (logits f.context f.seq st).2.2 ∧
        ∀ v, (logits f.context f.seq st).1 = .ok v → f.new ≠ [] ∧ v = m.logits f.context) :
    ∀ (fs : List (Feed σ)) (st : σ), (fs.map Feed.seqId).Nodup →
      (∀ f ∈ fs, Stands law m f.seqId (f.seq, st) f.seen) →
      FedAll law m fs st (logitsInTurn logits (fs.map Feed.context) (fs.map Feed.seq) st) := by
  intro fs
  induction fs with
  | nil =>
    intro st _ _
    refine ⟨.nil, fun _ _ => rfl, fun answers h => ⟨fun f hf => absurd hf List.not_mem_nil, ?_⟩⟩
    exact (Except.ok.inj h).symm
  | cons f fs ih =>
    intro st hnodup hstands
    rw [List.map_cons, List.nodup_cons] at hnodup
    rw [List.forall_mem_cons] at hstands
    obtain ⟨htook, hown, hvalue⟩ := hlogits f st hstands.1
    have hne : ∀ g ∈ fs, g.seqId ≠ f.seqId := fun g hg he =>
      hnodup.1 (he ▸ List.mem_map_of_mem hg)
    have hrest : ∀ g ∈ fs, Stands law m g.seqId (g.seq, (logits f.context f.seq st).2.2) g.seen :=
      fun g hg => (hstands.2 g hg).elsewhere (hne g hg) hown
    rw [List.map_cons, List.map_cons, logitsInTurn]
    generalize logits f.context f.seq st = one at htook hown hvalue hrest
    obtain ⟨res, seq, st₁⟩ := one
    cases res with
    | error e =>
      -- the others are as they were
      show FedAll law m (f :: fs) st (.error e, seq :: fs.map Feed.seq, st₁)
      have hfailed : ¬ Succeeds (Except.error e : Except GarudaError (List (List K))) := by
        rintro ⟨_, h⟩
        cases h
      refine ⟨.cons ?_ ?_, ?_, fun answers h => by cases h⟩
      · exact htook.sameFiles (fun _ _ => rfl) fun h => absurd h hfailed
      · rw [List.forall₂_map_right_iff, List.forall₂_same]
        exact fun g hg => (hrest g hg).took fun h => absurd h hfailed
      · exact fun q hq => hown q (hq f.seqId List.mem_cons_self)
    | ok v =>
      have hfed := ih st₁ hnodup.2 hrest
      simp only at hfed ⊢
      generalize logitsInTurn logits (fs.map Feed.context) (fs.map Feed.seq) st₁ = out at hfed
      obtain ⟨res, seqs, st₂⟩ := out
      have himp : Succeeds (res.map (v :: ·)) → Succeeds res := by
        rintro ⟨a, ha⟩
        cases res with
        | error e => cases ha
        | ok l => exact ⟨l, rfl⟩
      refine ⟨.cons ?_ ?_, ?_, ?_⟩
      · refine htook.sameFiles (fun l b => hfed.own _ fun id hid l' b' hpath => ?_) fun _ => ⟨v, rfl⟩
        obtain ⟨g, hg, rfl⟩ := List.mem_map.mp hid
        exact hne g hg (spillPath_inj.mp hpath).1.symm
      · refine hfed.took.imp fun g seq' hg => ?_
        exact hg.sameFiles (fun _ _ => rfl) himp
      · intro q hq
        rw [List.map_cons, List.forall_mem_cons] at hq
        rw [hfed.own q hq.2]
        exact hown q hq.1
      · intro answers h
        cases res with
        | error e => cases h
        | ok l =>
          obtain ⟨hnew, rfl⟩ := hfed.answers l rfl
          obtain ⟨hfirst, rfl⟩ := hvalue v rfl
          refine ⟨?_, (Except.ok.inj h).symm⟩
          rw [List.forall_mem_cons]
          exact ⟨hfirst, hnew⟩

end

end Garuda
