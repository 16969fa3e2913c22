import Garuda.Runtime.Session

/-!
# The backend contract

What the trait `InferenceBackend` asks of an implementation, in terms of a `TokenModel`: what a
deterministic model stores and answers, as functions of the tokens seen. `Describes` says that a
sequence state is the one those tokens lead to.

* `Describes.truncate` — a cut leaves the state of the tokens that remain
* `Describes.rekey` — a copy under another identity describes the same tokens
* `InferenceRuntime.start_describes` — a prompt that has gone in
-/

namespace Garuda

open Infra

variable {σ κ K Γ : Type}

/-! ## Models -/

/-- A deterministic model, as functions of the tokens seen so far. -/
structure TokenModel (K : Type) where
  vocab : Nat
  vocab_pos : 0 < vocab
  vocab_le : vocab ≤ 2 ^ 32
  /-- What layer `l` stores for the last of the tokens. -/
  entry : Nat → List Token → KvPair
  recurrent : Nat → Bool
  /-- The window and the state of recurrent layer `l` after the tokens. -/
  summary : Nat → List Token → List F32 × List F32
  /-- The final hidden state of the last of the tokens. -/
  hidden : List Token → List K
  logits : List Token → List K
  logits_length : ∀ ts, (logits ts).length = vocab

namespace TokenModel

variable (m : TokenModel K)

/-- What layer `l` has stored after `ts`. -/
def kvOf (l : Nat) (ts : List Token) : List KvPair :=
  (List.range ts.length).map fun i => m.entry l (ts.take (i + 1))

@[simp] theorem length_kvOf (l : Nat) (ts : List Token) : (m.kvOf l ts).length = ts.length := by
  simp [kvOf]

theorem kvOf_take (l n : Nat) (ts : List Token) :
    (m.kvOf l ts).take n = m.kvOf l (ts.take n) := by
  refine List.ext_getElem (by simp) fun i h₁ h₂ => ?_
  simp only [List.length_take, length_kvOf] at h₁ h₂
  simp only [kvOf, List.getElem_take, List.getElem_map, List.getElem_range, List.take_take]
  congr 2
  omega

theorem kvOf_concat (l : Nat) (ts : List Token) (t : Token) :
    m.kvOf l (ts ++ [t]) = m.kvOf l ts ++ [m.entry l (ts ++ [t])] := by
  have h := List.take_append_drop ts.length (m.kvOf l (ts ++ [t]))
  rw [m.kvOf_take, List.take_left] at h
  rw [← h, List.append_cancel_left_eq]
  refine List.ext_getElem (by simp) fun i h₁ h₂ => ?_
  have hi : i = 0 := by simpa using h₂
  subst hi
  simp [kvOf, List.take_of_length_le]

/-- Only tokens the model knows. -/
def Knows (ts : List Token) : Prop := ∀ t ∈ ts, t.toNat < m.vocab

theorem Knows.sublist {m : TokenModel K} {ts us : List Token} (h : m.Knows ts)
    (hsub : us.Sublist ts) : m.Knows us := fun t ht => h t (hsub.subset ht)

theorem Knows.append {m : TokenModel K} {ts us : List Token} (h : m.Knows ts) (h' : m.Knows us) :
    m.Knows (ts ++ us) := by
  intro t ht
  rcases List.mem_append.mp ht with ht | ht
  · exact h t ht
  · exact h' t ht

/-- Layer `l` holds the recurrent state after `ts`, and true copies of earlier ones. -/
structure Recalls (l : Nat) (ts : List Token) (o : Option LinearState) : Prop where
  plain : m.recurrent l = false → o = none
  folded : m.recurrent l = true → SeqState.foldedOf o = ts.length
  state : ∀ s, o = some s → (s.conv, s.state) = m.summary l ts
  copies : ∀ e ∈ SeqState.historyOf o,
    e.folded < ts.length ∧ (e.conv, e.state) = m.summary l (ts.take e.folded)

variable {m}

theorem recalls_none {l : Nat} {ts : List Token}
    (h : m.recurrent l = true → ts = []) : m.Recalls l ts none where
  plain _ := rfl
  folded hr := by rw [h hr]; rfl
  state s hs := by simp at hs
  copies e he := by simp [SeqState.historyOf] at he

theorem recalls_some {l : Nat} {ts : List Token} {s : LinearState} (hr : m.recurrent l = true)
    (hfolded : s.folded = ts.length) (hstate : (s.conv, s.state) = m.summary l ts)
    (hcopies : ∀ e ∈ s.history,
      e.folded < ts.length ∧ (e.conv, e.state) = m.summary l (ts.take e.folded)) :
    m.Recalls l ts (some s) where
  plain hf := absurd hr (by rw [hf]; simp)
  folded _ := hfolded
  state s' hs' := by rw [← Option.some.inj hs']; exact hstate
  copies := hcopies

/-- Putting a recurrent state back to a position a copy is held from. -/
theorem Recalls.rewindTo {l n : Nat} {ts : List Token} {s : LinearState}
    (h : m.Recalls l ts (some s)) (hn : n ≤ ts.length) (hrec : s.recoverable n = true) :
    m.Recalls l (ts.take n) (some (s.rewindTo n).2) := by
  have hr : m.recurrent l = true := by
    cases hr : m.recurrent l with
    | false => exact absurd (h.plain hr) (by simp)
    | true => rfl
  have hfolded : s.folded = ts.length := h.folded hr
  unfold LinearState.rewindTo
  by_cases hs : n = s.folded
  · rw [if_pos hs, hs.trans hfolded, List.take_length]
    exact recalls_some hr hfolded (h.state s rfl) (by intro e he; simp at he)
  · rw [if_neg hs]
    have hany : s.history.any (fun e => e.folded == n) = true := by
      have hne : (s.folded == n) = false := by simpa using Ne.symm hs
      simpa [LinearState.recoverable, hne] using hrec
    cases hf : s.history.find? (fun e => e.folded == n) with
    | none =>
      rw [List.find?_eq_none] at hf
      obtain ⟨e, he, hen⟩ := List.any_eq_true.mp hany
      exact absurd hen (hf e he)
    | some e =>
      have hen : e.folded = n := by simpa using List.find?_some hf
      have hcopy := (h.copies e (List.mem_of_find?_eq_some hf)).2
      rw [hen] at hcopy
      refine recalls_some hr ?_ hcopy (by intro e he; simp at he)
      show e.folded = (ts.take n).length
      rw [hen, List.length_take]
      omega

end TokenModel

/-! ## States that describe tokens -/

/-- No storage, so nothing on disk. -/
def noDisk : ReadsBack (none : Option (StorageBackend σ)) where
  content := fun _ _ => none
  read_ok := by intro b hb; simp at hb
  read_frame := by intro b hb; simp at hb
  write_ok := by intro b hb; simp at hb
  write_frame := by intro b hb; simp at hb
  remove_frame := by intro b hb; simp at hb

/-- `seq` is what the tokens `ts` lead to, in caches made from `cfg`. -/
structure Describes (m : TokenModel K) (cfg : KvConfig σ) (seq : SeqState σ) (ts : List Token) :
    Prop where
  size : seq.kvs.length = max cfg.nLayers.toNat 1
  sizeLinear : seq.linear.length = seq.kvs.length
  layers : ∃ seqId, ∀ (l : Nat) (kv : KVCacheState σ), seq.kvs[l]? = some kv →
    KVCacheState.SameShape (KVCacheState.forLayer cfg seqId l) kv ∧
      kv.Holds (fun _ => none) (m.kvOf l ts)
  linear : ∀ (l : Nat) (o : Option LinearState), seq.linear[l]? = some o → m.Recalls l ts o

section

variable {m : TokenModel K} {cfg : KvConfig σ} {seq : SeqState σ} {ts : List Token}

theorem describes_new (m : TokenModel K) (cfg : KvConfig σ) (seqId : Nat) :
    Describes m cfg (.new cfg seqId) [] where
  size := by simp [SeqState.new]
  sizeLinear := by simp [SeqState.new]
  layers := by
    refine ⟨seqId, fun l kv hkv => ?_⟩
    rw [SeqState.new_getElem? hkv]
    exact ⟨KVCacheState.SameShape.refl _, KVCacheState.holds_forLayer cfg seqId l _⟩
  linear := by
    intro l o ho
    have hnone : o = none := List.eq_of_mem_replicate (List.mem_of_getElem? ho)
    subst hnone
    exact TokenModel.recalls_none fun _ => rfl

theorem Describes.layer (h : Describes m cfg seq ts) {kv : KVCacheState σ} (hkv : kv ∈ seq.kvs) :
    ∃ l, kv.Holds (fun _ => none) (m.kvOf l ts) := by
  obtain ⟨_, hlayers⟩ := h.layers
  obtain ⟨l, hl⟩ := List.mem_iff_getElem?.mp hkv
  exact ⟨l, (hlayers l kv hl).2⟩

/-- Nothing is on disk. -/
theorem KVCacheState.Holds.nothing_spilled {kv : KVCacheState σ} {vs : List KvPair}
    (h : kv.Holds (fun _ => none) vs) (b : Nat) : b ∉ kv.spilled := by
  intro hb
  simpa using h.spilled_disk b hb

theorem Describes.len_eq (h : Describes m cfg seq ts) : seq.len = ts.length := by
  have hpos : 0 < seq.kvs.length := by rw [h.size]; omega
  obtain ⟨_, hlayers⟩ := h.layers
  rw [SeqState.len, List.head?_eq_getElem?, List.getElem?_eq_getElem hpos]
  show (seq.kvs[0]).len = ts.length
  rw [(hlayers 0 _ (List.getElem?_eq_getElem hpos)).2.len_eq, m.length_kvOf]

theorem Describes.hasSpill (h : Describes m cfg seq ts) : seq.hasSpill = false := by
  refine List.any_eq_false.mpr fun kv hkv => ?_
  obtain ⟨l, hl⟩ := h.layer hkv
  rw [Bool.not_eq_true, KVCacheState.hasSpill_false_iff]
  exact Std.ExtTreeMap.eq_empty_iff_forall_not_mem.mpr hl.nothing_spilled

/-- At its own length a sequence needs no copy. -/
theorem Describes.recoverable_length (h : Describes m cfg seq ts) {ls : LinearState}
    (hls : some ls ∈ seq.linear) : ls.recoverable ts.length = true := by
  obtain ⟨l, hl⟩ := List.mem_iff_getElem?.mp hls
  have hrec := h.linear l _ hl
  cases hr : m.recurrent l with
  | false => exact absurd (hrec.plain hr) (by simp)
  | true =>
    have hfolded : ls.folded = ts.length := hrec.folded hr
    simp [LinearState.recoverable, hfolded]

/-- A copy under another identity describes the same tokens. -/
theorem Describes.rekey (h : Describes m cfg seq ts) (seqId : Nat) :
    Describes m cfg (seq.rekey seqId).2 ts := by
  rw [SeqState.rekey_ok seqId h.hasSpill]
  refine
    { size := by rw [List.length_map]; exact h.size
      sizeLinear := by rw [List.length_map]; exact h.sizeLinear
      layers := ⟨seqId, ?_⟩
      linear := h.linear }
  obtain ⟨_, hlayers⟩ := h.layers
  intro l kv hkv
  simp only [List.getElem?_map, Option.map_eq_some_iff] at hkv
  obtain ⟨kv₀, h₀, rfl⟩ := hkv
  obtain ⟨hshape, hholds⟩ := hlayers l kv₀ h₀
  refine ⟨⟨hshape.kvDim, hshape.blockSize, hshape.maxPositions, hshape.maxResidentBlocks,
    hshape.slidingWindow, hshape.storage, rfl, hshape.layer⟩, hholds.rekey ?_ seqId _⟩
  rw [KVCacheState.hasSpill_false_iff]
  exact Std.ExtTreeMap.eq_empty_iff_forall_not_mem.mpr hholds.nothing_spilled

/-- **A cut leaves the state of the tokens that remain**, as long as every recurrent layer holds
a copy from there. -/
theorem Describes.truncate (h : Describes m cfg seq ts) (hs : cfg.storage = none) {n : Nat}
    (hn : n ≤ ts.length)
    (hcopies : ∀ s, some s ∈ seq.linear → s.recoverable n = true) (st : σ) :
    (seq.truncate n st).1 = .ok () ∧ Describes m cfg (seq.truncate n st).2.1 (ts.take n) := by
  obtain ⟨seqId, hlayers⟩ := h.layers
  have hok : (seq.truncate n st).1 = .ok () := by
    rw [SeqState.truncate_ok_iff]
    refine ⟨fun _ _ => List.all_eq_true.mpr fun o ho => ?_, fun kv hkv _ => ?_⟩
    · cases o with
      | none => rfl
      | some s => exact hcopies s ho
    · obtain ⟨l, hl⟩ := h.layer hkv
      have hno := hl.nothing_spilled (n / kv.blockSize)
      rw [← Std.ExtTreeMap.contains_iff_mem, Bool.not_eq_true] at hno
      rw [KVCacheState.cutSpilled, hno, Bool.and_false]
  refine ⟨hok, ?_⟩
  obtain ⟨hcut, _, he⟩ := SeqState.truncate_ok hok
  obtain ⟨_, hlen, hrest⟩ := SeqState.truncateLayers_holds none noDisk seqId n
    seq.kvs 0 st (fun l => m.kvOf l ts)
    (by
      intro l kv hkv
      obtain ⟨hshape, hholds⟩ := hlayers l kv hkv
      exact ⟨hshape.seqId, by rw [hshape.layer, Nat.zero_add]; rfl, by rw [hshape.storage]; exact hs,
        hholds⟩) hcut
  rw [he]
  refine
    { size := hlen.trans h.size
      sizeLinear := ?_
      layers := ⟨seqId, ?_⟩
      linear := ?_ }
  · show (seq.rewindAll n).length = _
    rw [SeqState.rewindAll, List.length_map, h.sizeLinear]
    exact hlen.symm
  · intro l kv' hkv'
    have hlt := (List.getElem?_eq_some_iff.mp hkv').1
    rw [hlen] at hlt
    have hkv := List.getElem?_eq_getElem hlt
    obtain ⟨⟨st₁, _, hcutl⟩, hholds⟩ := hrest l _ kv' hkv hkv'
    refine ⟨?_, by rw [m.kvOf_take] at hholds; exact hholds⟩
    rw [hcutl]
    exact (hlayers l _ hkv).1.trans (KVCacheState.truncate_shape n _ st₁)
  · intro l o' ho'
    simp only [SeqState.rewindAll, List.getElem?_map, Option.map_eq_some_iff] at ho'
    obtain ⟨o, ho, rfl⟩ := ho'
    have hl := h.linear l o ho
    cases o with
    | none =>
      refine TokenModel.recalls_none fun hr => ?_
      have hzero : 0 = ts.length := hl.folded hr
      rw [List.eq_nil_of_length_eq_zero hzero.symm, List.take_nil]
    | some s => exact hl.rewindTo hn (hcopies s (List.mem_of_getElem? ho))

/-! ## The contract -/

/--
The invariants the runtime relies on, for sequences made from `cfg`: a call consumes exactly the
tokens the sequence has not seen, moves every layer on by one position for each, answers as the
model does, and does not fail inside the window. A pass that answers for several positions keeps
copies of the recurrent states from all of them.
-/
structure InferenceBackend.Honours (backend : InferenceBackend σ K) (m : TokenModel K)
    (cfg : KvConfig σ) : Prop where
  hidden : ∀ {seq : SeqState σ} {ts new : List Token} (st : σ), Describes m cfg seq ts →
    new ≠ [] → m.Knows (ts ++ new) → (ts ++ new).length ≤ cfg.maxPositions.toNat →
    ∃ seq' st', backend.hidden (ts ++ new) seq st = (.ok (m.hidden (ts ++ new)), seq', st') ∧
      Describes m cfg seq' (ts ++ new)
  logits : ∀ {seq : SeqState σ} {ts new : List Token} (st : σ), Describes m cfg seq ts →
    new ≠ [] → m.Knows (ts ++ new) → (ts ++ new).length ≤ cfg.maxPositions.toNat →
    ∃ seq' st', backend.logits (ts ++ new) seq st = (.ok (m.logits (ts ++ new)), seq', st') ∧
      Describes m cfg seq' (ts ++ new)
  logitsMulti : ∀ {seq : SeqState σ} {ts new : List Token} (n : Nat) (st : σ),
    backend.speculationSupported = true → Describes m cfg seq ts → 0 < n → n ≤ new.length →
    m.Knows (ts ++ new) → (ts ++ new).length ≤ cfg.maxPositions.toNat →
    ∃ seq' st', backend.logitsMulti (ts ++ new) seq n st
        = (.ok ((List.range n).map fun i =>
            m.logits ((ts ++ new).take ((ts ++ new).length - n + i + 1))), seq', st') ∧
      Describes m cfg seq' (ts ++ new) ∧
      ∀ j, (ts ++ new).length - n < j → j < (ts ++ new).length →
        ∀ s, some s ∈ seq'.linear → s.recoverable j = true

/-! ## A prompt that has gone in -/

/-- Every entry of the prompt cache describes the prefix it answers for. -/
def PromptCache.Faithful (m : TokenModel K) (cfg : KvConfig σ) (promptKey : List Token → κ)
    (cache : PromptCache σ κ) : Prop :=
  cache.Keeps fun key seq => ∀ ts, promptKey ts = key → Describes m cfg seq ts

end

namespace InferenceRuntime

variable [Weight K] [DecidableEq κ]
variable (rt : InferenceRuntime σ κ K Γ) (params : SamplingParams K) {m : TokenModel K}

/-- A pending prompt describes the part of it that has gone in. -/
structure Absorbing (m : TokenModel K) (cfg : KvConfig σ) (prompt : List Token) (p : Pending σ) :
    Prop where
  context : p.context = prompt
  consumed : p.consumed ≤ prompt.length - 1
  seq : Describes m cfg p.seq (prompt.take p.consumed)

section

variable {rt : InferenceRuntime σ κ K Γ} {params : SamplingParams K} {prompt : List Token}
variable {p : Pending σ} {w w' : World σ κ}

theorem startIncremental_absorbing
    (hcache : w.promptCache.Faithful m rt.kvTemplate rt.promptKey)
    (h : rt.startIncremental params prompt w = (.ok p, w')) :
    prompt ≠ [] ∧ prompt.length < rt.maxContext ∧ Absorbing m rt.kvTemplate prompt p ∧
      w'.promptCache.Faithful m rt.kvTemplate rt.promptKey := by
  unfold startIncremental at h
  split at h
  · simp at h
  split at h
  · simp at h
  next hne =>
  have hne : prompt ≠ [] := by simpa using hne
  split at h
  · simp at h
  next hlen =>
  refine ⟨hne, Nat.lt_of_not_le hlen, ?_⟩
  simp only [freshSeqId] at h
  have hdrop : prompt.dropLast.length = prompt.length - 1 := List.length_dropLast
  split at h
  · obtain ⟨h₁, rfl⟩ := Prod.mk.inj h
    rw [← Except.ok.inj h₁]
    refine ⟨⟨rfl, Nat.zero_le _, ?_⟩, hcache⟩
    rw [List.take_zero]
    exact describes_new m rt.kvTemplate _
  · have hkeeps := PromptCache.get_keeps rt.promptKey prompt.dropLast w.nextSeq.toNat hcache
    have hsome : ∀ seq, (w.promptCache.get rt.promptKey prompt.dropLast w.nextSeq.toNat).1
        = some seq → ∃ entry, (∀ ts, rt.promptKey ts = rt.promptKey prompt.dropLast →
          Describes m rt.kvTemplate entry ts) ∧ seq = (entry.rekey w.nextSeq.toNat).2 :=
      fun _ => PromptCache.get_some hcache
    generalize w.promptCache.get rt.promptKey prompt.dropLast w.nextSeq.toNat = got
      at h hkeeps hsome
    obtain ⟨hit, cache⟩ := got
    cases hit with
    | none =>
      obtain ⟨h₁, rfl⟩ := Prod.mk.inj h
      rw [← Except.ok.inj h₁]
      refine ⟨⟨rfl, Nat.zero_le _, ?_⟩, hkeeps⟩
      rw [List.take_zero]
      exact describes_new m rt.kvTemplate _
    | some cached =>
      obtain ⟨entry, hentry, rfl⟩ := hsome cached rfl
      obtain ⟨h₁, rfl⟩ := Prod.mk.inj h
      rw [← Except.ok.inj h₁]
      refine ⟨⟨rfl, by rw [hdrop], ?_⟩, hkeeps⟩
      show Describes m rt.kvTemplate _ (prompt.take prompt.dropLast.length)
      rw [hdrop, ← List.dropLast_eq_take]
      exact (hentry _ rfl).rekey _

omit [Weight K] in
/-- A piece of the prompt goes in; a piece that reaches its end is the last. -/
theorem advancePrefill_absorbing (hb : rt.backend.Honours m rt.kvTemplate)
    (hknows : m.Knows prompt) (hlen : prompt.length < rt.maxContext)
    (h : Absorbing m rt.kvTemplate prompt p) (n : Nat) (w : World σ κ) :
    ∃ done p' w', rt.advancePrefill p n w = (.ok done, p', w') ∧
      Absorbing m rt.kvTemplate prompt p' ∧
      (prompt.length - 1 ≤ p.consumed + n → done = true ∧ p'.consumed = prompt.length - 1) ∧
      (Function.Injective rt.promptKey →
        w.promptCache.Faithful m rt.kvTemplate rt.promptKey →
        w'.promptCache.Faithful m rt.kvTemplate rt.promptKey) := by
  have hcontext := h.context
  subst hcontext
  unfold advancePrefill
  by_cases hin : p.context.length - 1 ≤ p.consumed
  · rw [if_pos hin]
    exact ⟨true, p, w, rfl, h, fun _ => ⟨rfl, Nat.le_antisymm h.consumed hin⟩, fun _ hw => hw⟩
  rw [if_neg hin]
  simp only
  generalize htarget : min (p.context.length - 1) (p.consumed + max n 1) = target
  have hsplit : p.context.take target
      = p.context.take p.consumed ++ (p.context.take target).drop p.consumed := by
    conv => lhs; rw [← List.take_append_drop p.consumed (p.context.take target)]
    rw [List.take_take, Nat.min_eq_left (by omega)]
  have hlt : (p.context.take target).length = target := by
    rw [List.length_take]
    omega
  obtain ⟨seq, st, hhidden, hdescribes⟩ := hb.hidden w.storage h.seq
    (show (p.context.take target).drop p.consumed ≠ [] by
      rw [ne_eq, List.drop_eq_nil_iff, hlt]; omega)
    (by rw [← hsplit]; exact hknows.sublist (List.take_sublist _ _))
    (by rw [← hsplit, hlt]; unfold maxContext at hlen; omega)
  rw [← hsplit] at hhidden hdescribes
  rw [hhidden]
  have habsorbing : Absorbing m rt.kvTemplate p.context { p with seq := seq, consumed := target } :=
    ⟨rfl, by show target ≤ _; omega, hdescribes⟩
  have hdone : p.context.length - 1 ≤ p.consumed + n →
      decide (p.context.length - 1 ≤ target) = true ∧ target = p.context.length - 1 := by
    intro hn
    rw [decide_eq_true_eq]
    omega
  simp only
  split
  · next hcached =>
    refine ⟨_, _, _, rfl, habsorbing, hdone, fun hinj hw => ?_⟩
    refine PromptCache.insert_keeps rt.promptKey ?_ hw st
    intro ts hts
    have htarget : target = p.context.length - 1 := by
      have := of_decide_eq_true hcached.1
      omega
    rw [hinj hts, ← htarget]
    exact hdescribes
  · exact ⟨_, _, _, rfl, habsorbing, hdone, fun _ hw => hw⟩

/-- **A started session** has everything but the last prompt token in its caches. -/
theorem start_describes (hb : rt.backend.Honours m rt.kvTemplate) (hknows : m.Knows prompt)
    (hcache : w.promptCache.Faithful m rt.kvTemplate rt.promptKey) {s : Session σ Γ}
    (h : rt.start params prompt w = (.ok s, w')) :
    prompt ≠ [] ∧ prompt.length < rt.maxContext ∧ s.context = prompt ∧
      s.promptLen = prompt.length ∧ s.finished = false ∧
      Describes m rt.kvTemplate s.seq prompt.dropLast ∧
      (Function.Injective rt.promptKey →
        w'.promptCache.Faithful m rt.kvTemplate rt.promptKey) := by
  unfold start at h
  generalize hstart : rt.startIncremental params prompt w = out at h
  obtain ⟨res, w₁⟩ := out
  cases res with
  | error e => simp at h
  | ok p =>
    obtain ⟨hne, hlen, habs, hcache₁⟩ := startIncremental_absorbing hcache hstart
    obtain ⟨done, p', w₂, hadv, habs', hdone, hcache₂⟩ :=
      advancePrefill_absorbing hb hknows hlen habs p.remaining w₁
    obtain ⟨rfl, hconsumed⟩ := hdone (by
      have hcontext := habs.context
      unfold Pending.remaining
      rw [hcontext]
      omega)
    simp only [absorb, hadv] at h
    obtain ⟨h₁, rfl⟩ := Prod.mk.inj h
    rw [← Except.ok.inj h₁]
    have hseq := habs'.seq
    rw [hconsumed, ← List.dropLast_eq_take] at hseq
    exact ⟨hne, hlen, habs'.context, congrArg List.length habs'.context, rfl, hseq,
      fun hinj => hcache₂ hinj hcache₁⟩

end

end InferenceRuntime

end Garuda
