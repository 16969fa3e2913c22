import Garuda.Cache.Seq

/-!
# Spill files

Which files a sequence leaves in its storage. Writing a block out creates its file, reading
it back forgets the file without removing it, a cut removes the files of the blocks it drops,
and dropping the sequence removes the files of the blocks still on disk.

* `stranded_append`, `stranded_ensureResident`, `stranded_truncate` — what each call does to
  the files that the clean-up can no longer see
* `spill_files_removed_iff` — a drop leaves nothing behind exactly when every block that was
  read back has been written out again
-/

namespace Garuda

open Infra

variable {σ : Type}

/-- The blocks that a call brings back from disk. -/
def KvOp.readsBack (op : KvOp) (kv : KVCacheState σ) (b : Nat) : Prop :=
  match op with
  | .ensureResident start stop => start < stop ∧ b ∈ kv.needed start stop
  | _ => False

namespace KVCacheState

/-! ## A storage that does not fail -/

section Reliable

variable {storage : StorageBackend σ} (law : Reliable storage)
variable {kv : KVCacheState σ} {vs : List KvPair}

include law in
theorem enforceLoop_ok (current : Nat) : ∀ (n : Nat) (kv : KVCacheState σ) (st : σ),
    (enforceLoop storage current n kv st).1 = .ok () := by
  intro n
  induction n with
  | zero => intro kv st; rfl
  | succ n ih =>
    intro kv st
    rw [enforceLoop]
    split
    · split
      · rfl
      · next victim hfirst =>
        split
        · rfl
        · next block hblock =>
          split
          · next e st' hw =>
            have := law.write_succeeds (spillPath kv.seqId kv.layer victim) block.toBytes st
            rw [hw] at this
            simp at this
          · exact ih _ _
    · rfl

include law in
theorem enforceResidency_ok (hs : kv.storage = some storage) (current : Nat) (st : σ) :
    (kv.enforceResidency current st).1 = .ok () := by
  rcases enforceResidency_cases current kv st with ⟨_, he⟩ | ⟨s, _, hsome, he⟩
  · rw [he]
  · rw [hs] at hsome
    rw [he, ← Option.some.inj hsome]
    exact enforceLoop_ok law _ _ _ _

include law in
/-- A block on disk can be read back. -/
theorem Holds.reload_ok (hs : kv.storage = some storage) {st : σ}
    (h : Holds kv (law.content st) vs) {b : Nat} (hb : b ∈ kv.spilled) :
    (kv.reload b st).1 = .ok () := by
  obtain ⟨path, hpath⟩ := exists_getElem? hb
  have hcontent := h.spilled_disk b hb
  rw [← h.spilled_path b path hpath] at hcontent
  have hread := law.read_succeeds path st _ hcontent
  have hwide : Wide kv.kvDim (page kv.blockSize vs b) := h.wide.page b
  have hle : (page kv.blockSize vs b).length ≤ kv.blockSize := by
    rw [length_page]; exact Nat.min_le_left _ _
  have hfilled : ofLE ((KvBlock.ofPage (page kv.blockSize vs b)).toBytes.take 8)
      = (page kv.blockSize vs b).length :=
    KvBlock.filled_toBytes (Nat.lt_of_le_of_lt hle h.blockSize_lt)
  have hlen := KvBlock.length_toBytes hwide
  unfold KVCacheState.reload
  rw [hpath, hs]
  obtain ⟨st', hr⟩ : ∃ st', storage.read path st
      = (.ok (KvBlock.ofPage (page kv.blockSize vs b)).toBytes, st') := ⟨_, Prod.ext hread rfl⟩
  simp only [hr]
  rw [if_neg (by omega), if_neg (by rw [hfilled, hlen]; omega)]

include law in
theorem Holds.reloadAll_ok : ∀ (bs : List Nat) (kv : KVCacheState σ) (st : σ),
    kv.storage = some storage → Holds kv (law.content st) vs → bs.Nodup →
    (∀ b ∈ bs, b ∈ kv.spilled) → (reloadAll bs kv st).1 = .ok ()
  | [], _, _, _, _, _, _ => rfl
  | b :: bs, kv, st, hs, h, hnd, hmem => by
    have hok := h.reload_ok law hs (hmem b List.mem_cons_self)
    have h' := h.reload law.toReadsBack hs b
    have hshape := reload_shape b kv st
    have hsp := reload_ok_spilled hok
    rw [reloadAll]
    split
    · next e kv' st' hr => rw [hr] at hok; simp at hok
    · next kv' st' hr =>
      rw [hr] at h' hshape hsp
      refine Holds.reloadAll_ok bs kv' st' (hshape.storage.trans hs) h'
        (List.nodup_cons.mp hnd).2 ?_
      intro a ha
      have hne : a ≠ b := by
        intro he
        exact (List.nodup_cons.mp hnd).1 (he ▸ ha)
      rw [hsp]
      exact mem_erase_iff.mpr ⟨hne, hmem a (List.mem_cons_of_mem _ ha)⟩

include law in
/-- Reading a range back never fails. -/
theorem Holds.ensureResident_ok (hs : kv.storage = some storage) {st : σ}
    (h : Holds kv (law.content st) vs) (start stop : Nat) :
    (kv.ensureResident start stop st).1 = .ok () := by
  rcases ensureResident_cases start stop kv st with ⟨_, he⟩ | ⟨hlt, he⟩
  · rw [he]
  · rw [he]
    refine h.reloadAll_ok law _ kv st hs ?_ fun b hb => ((mem_needed hlt).mp hb).2.2
    exact List.Nodup.filter _ List.nodup_range'

include law in
/-- Whether a call succeeds or is refused, the cache stands for a list. -/
theorem Holds.apply (hs : kv.storage = some storage) {st : σ}
    (h : Holds kv (law.content st) vs) (op : KvOp) :
    ∃ vs', Holds (op.apply kv st).2.1 (law.content (op.apply kv st).2.2) vs' := by
  cases op with
  | append k v =>
    rcases append_cases k v kv st with ⟨_, he, _⟩ | ⟨_, _, _, he⟩
    · exact ⟨vs, by simp only [KvOp.apply]; rw [he]; exact h⟩
    · have hok : (kv.append k v st).1 = .ok () := by
        rw [he]; exact enforceResidency_ok law (by exact hs) _ _
      exact ⟨_, h.append law.toReadsBack hs hok⟩
  | ensureResident a b => exact ⟨vs, h.ensureResident law.toReadsBack hs a b⟩
  | truncate m =>
    rcases truncate_cases m kv st with ⟨_, he⟩ | ⟨_, _, _, he⟩ | ⟨_, _, he⟩
    · exact ⟨vs, by simp only [KvOp.apply]; rw [he]; exact h⟩
    · exact ⟨vs, by simp only [KvOp.apply]; rw [he]; exact h⟩
    · exact ⟨_, h.truncate law.toReadsBack hs (by rw [he])⟩

end Reliable

/-! ## What a call does to the files of its layer -/

section Files

variable {storage : StorageBackend σ} (law : Reliable storage)

variable {kv kv' : KVCacheState (σ × List Path)} {st st' : σ × List Path}

/-- Every block on disk has been written by this sequence. -/
def Logged (kv : KVCacheState (σ × List Path)) (st : σ × List Path) : Prop :=
  ∀ b ∈ kv.spilled, spillPath kv.seqId kv.layer b ∈ st.2

/-- The file of `b` was written and is still there, and the cache no longer knows it. -/
def Stranded (kv : KVCacheState (σ × List Path)) (st : σ × List Path) (b : Nat) : Prop :=
  spillPath kv.seqId kv.layer b ∈ st.2 ∧
    law.content st.1 (spillPath kv.seqId kv.layer b) ≠ none ∧ b ∉ kv.spilled

/-- Outside `touched`, the same files with the same contents and the same log. -/
def SameFiles (st st' : σ × List Path) (touched : Path → Prop) : Prop :=
  ∀ q, ¬ touched q → law.content st'.1 q = law.content st.1 q ∧ (q ∈ st'.2 ↔ q ∈ st.2)

theorem SameFiles.refl (st : σ × List Path) (touched : Path → Prop) :
    SameFiles law st st touched := fun _ _ => ⟨rfl, Iff.rfl⟩

theorem SameFiles.mono {law : Reliable storage} {small big : Path → Prop}
    (h : SameFiles law st st' small) (hsub : ∀ q, small q → big q) :
    SameFiles law st st' big := fun q hq => h q fun hs => hq (hsub q hs)

/-- The files of the blocks that are on disk. -/
def onDisk (kv : KVCacheState (σ × List Path)) (q : Path) : Prop :=
  ∃ b ∈ kv.spilled, q = spillPath kv.seqId kv.layer b

/-- Evictions only write files of blocks that are on disk afterwards. -/
theorem enforceLoop_files (current n : Nat) (hlog : Logged kv st) :
    SameFiles law st (enforceLoop storage.recorded current n kv st).2.2
        (onDisk (enforceLoop storage.recorded current n kv st).2.1) ∧
      (∀ b ∈ kv.spilled, b ∈ (enforceLoop storage.recorded current n kv st).2.1.spilled) ∧
      Logged (enforceLoop storage.recorded current n kv st).2.1
        (enforceLoop storage.recorded current n kv st).2.2 := by
  refine enforceLoop_rule
    (P := fun kv' st' => SameFiles law st st' (onDisk kv') ∧
      (∀ b ∈ kv.spilled, b ∈ kv'.spilled) ∧ Logged kv' st')
    ?_ ?_ n kv st ⟨SameFiles.refl law st _, fun _ hb => hb, hlog⟩
  · rintro kv' st' victim block hev hw ⟨hsame, hgrow, hlog'⟩
    have hmem : ∀ a, a ∈ (kv'.spillOut victim).spilled ↔ a = victim ∨ a ∈ kv'.spilled :=
      fun a => mem_insert_iff
    refine ⟨?_, ?_, ?_⟩
    · intro q hq
      have hold : ¬ onDisk kv' q := by
        rintro ⟨a, ha, hqa⟩
        exact hq ⟨a, (hmem a).mpr (Or.inr ha), hqa⟩
      have hne : q ≠ spillPath kv'.seqId kv'.layer victim := by
        intro he
        exact hq ⟨victim, (hmem victim).mpr (Or.inl rfl), he⟩
      obtain ⟨hc, hl⟩ := hsame q hold
      refine ⟨(law.write_frame storage rfl _ _ _ q hne).trans hc, ?_⟩
      show q ∈ spillPath kv'.seqId kv'.layer victim :: st'.2 ↔ _
      rw [List.mem_cons, hl]
      simp [hne]
    · intro a ha
      exact (hmem a).mpr (Or.inr (hgrow a ha))
    · intro a ha
      show spillPath kv'.seqId kv'.layer a ∈ spillPath kv'.seqId kv'.layer victim :: st'.2
      rcases (hmem a).mp ha with he | ha
      · rw [he]; exact List.mem_cons_self
      · exact List.mem_cons_of_mem _ (hlog' a ha)
  · rintro kv' st' victim block e _ hw _
    have := law.write_succeeds (spillPath kv'.seqId kv'.layer victim) block.toBytes st'.1
    exact absurd (hw.symm.trans this) (by simp)

/-- **An append** writes files of blocks that are on disk afterwards, and no others. -/
theorem append_files (k v : List F32) (hs : kv.storage = some storage.recorded)
    (hlog : Logged kv st) :
    SameFiles law st (kv.append k v st).2.2 (onDisk (kv.append k v st).2.1) ∧
      (∀ b ∈ kv.spilled, b ∈ (kv.append k v st).2.1.spilled) ∧
      Logged (kv.append k v st).2.1 (kv.append k v st).2.2 := by
  rcases append_cases k v kv st with ⟨_, he, _⟩ | ⟨_, _, _, he⟩
  · rw [he]
    exact ⟨SameFiles.refl law st _, fun _ hb => hb, hlog⟩
  · rw [he]
    rcases enforceResidency_cases (kv.len / kv.blockSize) (kv.push k v) st with
      ⟨_, he'⟩ | ⟨s, _, hsome, he'⟩
    · rw [he']
      exact ⟨SameFiles.refl law st _, fun _ hb => hb, hlog⟩
    · have hs' : storage.recorded = s := by
        rw [← Option.some_inj, ← hsome]; exact hs.symm
      have hlog' : Logged (kv.push k v) st := hlog
      rw [he', ← hs']
      exact enforceLoop_files law _ _ hlog'

/-- **A read-back** touches no file and forgets the blocks it reads. -/
theorem ensureResident_files (start stop : Nat) (hs : kv.storage = some storage.recorded)
    {vs : List KvPair} (h : Holds kv (law.recorded.content st) vs) :
    SameFiles law st (kv.ensureResident start stop st).2.2 (fun _ => False) ∧
      ∀ b, b ∈ (kv.ensureResident start stop st).2.1.spilled ↔
        b ∈ kv.spilled ∧ ¬ (KvOp.ensureResident start stop).readsBack kv b := by
  constructor
  · refine (ensureResident_rule
      (P := fun kv' st' => kv'.storage = some storage.recorded ∧
        SameFiles law st st' (fun _ => False)) ?_ start stop kv st
      ⟨hs, SameFiles.refl law st _⟩).2
    rintro b kv' st' ⟨hs', hsame⟩
    refine ⟨(reload_shape b kv' st').storage.trans hs', ?_⟩
    rcases reload_cases b kv' st' with ⟨_, _, hst | ⟨s, path, hsome, _, hst⟩⟩ |
      ⟨s, path, bytes, hsome, _, _, he⟩
    · rw [hst]; exact hsame
    · have hs'' : storage.recorded = s := by rw [← Option.some_inj, ← hsome, hs']
      rw [hst, ← hs'']
      intro q hq
      rw [← (hsame q hq).1, ← (hsame q hq).2]
      exact ⟨congrFun (law.read_frame storage rfl path st'.1) q, Iff.rfl⟩
    · have hs'' : storage.recorded = s := by rw [← Option.some_inj, ← hsome, hs']
      rw [he, ← hs'']
      intro q hq
      rw [← (hsame q hq).1, ← (hsame q hq).2]
      exact ⟨congrFun (law.read_frame storage rfl path st'.1) q, Iff.rfl⟩
  · intro b
    have hok := h.ensureResident_ok law.recorded hs start stop
    rcases ensureResident_cases start stop kv st with ⟨hle, he⟩ | ⟨hlt, he⟩
    · rw [he]
      simp [KvOp.readsBack, Nat.not_lt.mpr hle]
    · rw [he] at hok ⊢
      rw [reloadAll_ok_spilled_iff _ _ _ hok]
      simp [KvOp.readsBack, hlt]

/-- Removing stale blocks writes nothing. -/
theorem removeStale_log : ∀ (bs : List Nat) (kv : KVCacheState (σ × List Path))
    (st : σ × List Path), kv.storage = some storage.recorded → (removeStale bs kv st).2.2 = st.2
  | [], _, _, _ => rfl
  | b :: bs, kv, st, hs => by
    rw [removeStale]
    split
    · exact removeStale_log bs kv st hs
    · split
      · exact removeStale_log bs (kv.forget b) st hs
      · next path _ _ s hsome =>
        rw [removeStale_log bs (kv.forget b) _ hs]
        rw [hs] at hsome
        rw [← Option.some.inj hsome]
        rfl

include law in
/-- Every stale block's file is gone. -/
theorem removeStale_gone : ∀ (bs : List Nat) (kv : KVCacheState (σ × List Path))
    (st : σ × List Path) (q : Path), kv.storage = some storage.recorded →
    (∃ b ∈ bs, kv.spilled[b]? = some q) → law.content (removeStale bs kv st).2.1 q = none
  | [], _, _, _, _, h => by simp at h
  | b :: bs, kv, st, q, hs, h => by
    obtain ⟨a, ha, hq⟩ := h
    by_cases hlater : ∃ a ∈ bs, (kv.forget b).spilled[a]? = some q
    · -- removed by a later iteration
      rw [removeStale]
      split
      · next hnone =>
        refine removeStale_gone bs kv st q hs ?_
        obtain ⟨c, hc, hcq⟩ := hlater
        refine ⟨c, hc, ?_⟩
        simp only [forget, Std.ExtTreeMap.getElem?_erase] at hcq
        split at hcq
        · simp at hcq
        · exact hcq
      · split
        · exact removeStale_gone bs _ _ q hs hlater
        · exact removeStale_gone bs _ _ q hs hlater
    · -- removed now, and left alone afterwards
      have hab : a = b := by
        by_contra hne
        have hin : a ∈ bs := by
          rcases List.mem_cons.mp ha with he | hin
          · exact absurd he hne
          · exact hin
        refine hlater ⟨a, hin, ?_⟩
        rw [← hq, forget, Std.ExtTreeMap.getElem?_erase, if_neg]
        intro he
        exact hne (Std.LawfulEqCmp.compare_eq_iff_eq.mp he).symm
      rw [hab] at hq
      rw [removeStale, hq]
      simp only [hs]
      have hframe := removeStale_disk law.recorded.toReadsBack bs (kv.forget b)
        (storage.recorded.remove q st).2 q hs fun c hc he => hlater ⟨c, hc, he⟩
      exact hframe.trans (law.remove_gone q st.1)

/-- **A cut** removes the files of the blocks it drops, and touches no others. -/
theorem truncate_files (m : Nat) (hs : kv.storage = some storage.recorded) {vs : List KvPair}
    (h : Holds kv (law.recorded.content st) vs) :
    SameFiles law st (kv.truncate m st).2.2
        (fun q => ∃ b ∈ kv.spilled, b ∉ (kv.truncate m st).2.1.spilled ∧
          q = spillPath kv.seqId kv.layer b) ∧
      (kv.truncate m st).2.2.2 = st.2 ∧
      (∀ b, b ∈ (kv.truncate m st).2.1.spilled → b ∈ kv.spilled) ∧
      ∀ b ∈ kv.spilled, b ∉ (kv.truncate m st).2.1.spilled →
        law.content (kv.truncate m st).2.2.1 (spillPath kv.seqId kv.layer b) = none := by
  rcases truncate_cases m kv st with ⟨_, he⟩ | ⟨_, _, _, he⟩ | ⟨_, hcut, he⟩
  · rw [he]
    exact ⟨SameFiles.refl law st _, rfl, fun _ hb => hb, fun b hb hnot => absurd hb hnot⟩
  · rw [he]
    exact ⟨SameFiles.refl law st _, rfl, fun _ hb => hb, fun b hb hnot => absurd hb hnot⟩
  · rw [he]
    have hmem := fun b => mem_removeStale { kv with resident := kv.cutResident m } st b hcut rfl
    have hspilled := removeStale_spilled (kv.staleBlocks m)
      { kv with resident := kv.cutResident m } st
    have hlog := removeStale_log (kv.staleBlocks m)
      { kv with resident := kv.cutResident m } st hs
    have hgone := fun q => removeStale_gone law (kv.staleBlocks m)
      { kv with resident := kv.cutResident m } st q hs
    have hdisk := fun q => removeStale_disk law.recorded.toReadsBack (kv.staleBlocks m)
      { kv with resident := kv.cutResident m } st q hs
    generalize removeStale (kv.staleBlocks m) { kv with resident := kv.cutResident m } st
      = out at hmem hspilled hlog hgone hdisk ⊢
    have hstale : ∀ b, b ∈ kv.staleBlocks m → b ∈ kv.spilled ∧ b ∉ out.1.spilled := by
      intro b hb
      have hb' := mem_staleBlocks.mp hb
      refine ⟨hb'.1, fun hin => ?_⟩
      have := ((hmem b).mp hin).2
      omega
    refine ⟨?_, hlog, fun b hb => ((hmem b).mp hb).1, ?_⟩
    · intro q hq
      refine ⟨hdisk q fun b hb hget => ?_, by rw [hlog]⟩
      exact hq ⟨b, (hstale b hb).1, (hstale b hb).2, h.spilled_path b q hget⟩
    · intro b hb hnot
      obtain ⟨p, hp⟩ := exists_getElem? hb
      refine hgone _ ⟨b, ?_, by rw [← h.spilled_path b p hp]; exact hp⟩
      by_contra hns
      refine hnot ?_
      show b ∈ out.1.spilled
      rw [Std.ExtTreeMap.mem_iff_isSome_getElem?, hspilled, if_neg hns]
      exact Std.ExtTreeMap.mem_iff_isSome_getElem?.mp hb

/-- A call touches no file of another layer or another sequence. -/
theorem apply_files (op : KvOp) (hs : kv.storage = some storage.recorded) {vs : List KvPair}
    (h : Holds kv (law.recorded.content st) vs) (hlog : Logged kv st) :
    SameFiles law st (op.apply kv st).2.2 (fun q => ∃ b, q = spillPath kv.seqId kv.layer b) := by
  cases op with
  | append k v =>
    refine (append_files law k v hs hlog).1.mono ?_
    rintro q ⟨b, _, hq⟩
    have hshape := append_shape k v kv st
    exact ⟨b, by rw [hq, hshape.seqId, hshape.layer]⟩
  | ensureResident a b => exact (ensureResident_files law a b hs h).1.mono fun _ hf => hf.elim
  | truncate m =>
    refine (truncate_files law m hs h).1.mono ?_
    rintro q ⟨b, _, _, hq⟩
    exact ⟨b, hq⟩

theorem apply_shape (op : KvOp) (kv : KVCacheState σ) (st : σ) :
    SameShape kv (op.apply kv st).2.1 := by
  cases op with
  | append k v => exact append_shape k v kv st
  | ensureResident a b => exact ensureResident_shape a b kv st
  | truncate m => exact truncate_shape m kv st

include law in
theorem apply_logged (op : KvOp) (hs : kv.storage = some storage.recorded) {vs : List KvPair}
    (h : Holds kv (law.recorded.content st) vs) (hlog : Logged kv st) :
    Logged (op.apply kv st).2.1 (op.apply kv st).2.2 := by
  have hshape := apply_shape op kv st
  cases op with
  | append k v => exact (append_files law k v hs hlog).2.2
  | ensureResident a b =>
    obtain ⟨hsame, hmem⟩ := ensureResident_files law a b hs h
    intro c hc
    rw [hshape.seqId, hshape.layer]
    exact (hsame _ not_false).2.mpr (hlog c ((hmem c).mp hc).1)
  | truncate m =>
    obtain ⟨_, hlog', hsub, _⟩ := truncate_files law m hs h
    intro c hc
    rw [hshape.seqId, hshape.layer]
    show _ ∈ (kv.truncate m st).2.2.2
    rw [hlog']
    exact hlog c (hsub c hc)

/-- **A file gets out of reach exactly when its block is read back**, and comes back into reach
when the block is written out again. -/
theorem stranded_apply (op : KvOp) (hs : kv.storage = some storage.recorded) {vs : List KvPair}
    (h : Holds kv (law.recorded.content st) vs) (hlog : Logged kv st) (b : Nat) :
    Stranded law (op.apply kv st).2.1 (op.apply kv st).2.2 b ↔
      b ∉ (op.apply kv st).2.1.spilled ∧ (Stranded law kv st b ∨ op.readsBack kv b) := by
  have hshape := apply_shape op kv st
  unfold Stranded
  rw [hshape.seqId, hshape.layer]
  cases op with
  | append k v =>
    obtain ⟨hsame, hgrow, _⟩ := append_files law k v hs hlog
    constructor
    · rintro ⟨hl, hc, hnot⟩
      have hout : ¬ onDisk (kv.append k v st).2.1 (spillPath kv.seqId kv.layer b) := by
        rintro ⟨a, ha, hq⟩
        have hab := (spillPath_inj.mp hq).2.2
        exact hnot (by rw [hab]; exact ha)
      obtain ⟨hcs, hls⟩ := hsame _ hout
      exact ⟨hnot, Or.inl ⟨hls.mp hl, by rw [← hcs]; exact hc, fun hb => hnot (hgrow b hb)⟩⟩
    · rintro ⟨hnot, ⟨hl, hc, _⟩ | hrb⟩
      · have hout : ¬ onDisk (kv.append k v st).2.1 (spillPath kv.seqId kv.layer b) := by
          rintro ⟨a, ha, hq⟩
          have hab := (spillPath_inj.mp hq).2.2
          exact hnot (by rw [hab]; exact ha)
        obtain ⟨hcs, hls⟩ := hsame _ hout
        exact ⟨hls.mpr hl, by rw [← hcs] at hc; exact hc, hnot⟩
      · exact hrb.elim
  | ensureResident start stop =>
    obtain ⟨hsame, hmem⟩ := ensureResident_files law start stop hs h
    obtain ⟨hcs, hls⟩ := hsame (spillPath kv.seqId kv.layer b) not_false
    constructor
    · rintro ⟨hl, hc, hnot⟩
      refine ⟨hnot, ?_⟩
      by_cases hb : b ∈ kv.spilled
      · right
        by_contra hrb
        exact hnot ((hmem b).mpr ⟨hb, hrb⟩)
      · left
        exact ⟨hls.mp hl, by rw [← hcs]; exact hc, hb⟩
    · rintro ⟨hnot, ⟨hl, hc, _⟩ | hrb⟩
      · exact ⟨hls.mpr hl, by rw [← hcs] at hc; exact hc, hnot⟩
      · have hb : b ∈ kv.spilled := ((mem_needed hrb.1).mp hrb.2).2.2
        have hfile := h.spilled_disk b hb
        refine ⟨hls.mpr (hlog b hb), ?_, hnot⟩
        intro hnone
        have hfile' : law.content st.1 (spillPath kv.seqId kv.layer b) = none :=
          hcs.symm.trans hnone
        exact absurd (hfile'.symm.trans hfile) (by simp)
  | truncate m =>
    obtain ⟨hsame, hlog', hsub, hgone⟩ := truncate_files law m hs h
    constructor
    · rintro ⟨hl, hc, hnot⟩
      have hb : b ∉ kv.spilled := fun hb => hc (hgone b hb hnot)
      have hout : ¬ ∃ a ∈ kv.spilled, a ∉ (kv.truncate m st).2.1.spilled ∧
          spillPath kv.seqId kv.layer b = spillPath kv.seqId kv.layer a := by
        rintro ⟨a, ha, _, hq⟩
        exact hb (by rw [(spillPath_inj.mp hq).2.2]; exact ha)
      obtain ⟨hcs, hls⟩ := hsame _ hout
      exact ⟨hnot, Or.inl ⟨hls.mp hl, by rw [← hcs]; exact hc, hb⟩⟩
    · rintro ⟨hnot, ⟨hl, hc, hb⟩ | hrb⟩
      · have hout : ¬ ∃ a ∈ kv.spilled, a ∉ (kv.truncate m st).2.1.spilled ∧
            spillPath kv.seqId kv.layer b = spillPath kv.seqId kv.layer a := by
          rintro ⟨a, ha, _, hq⟩
          exact hb (by rw [(spillPath_inj.mp hq).2.2]; exact ha)
        obtain ⟨hcs, hls⟩ := hsame _ hout
        exact ⟨hls.mpr hl, by rw [← hcs] at hc; exact hc, hnot⟩
      · exact hrb.elim

end Files

end KVCacheState

/-! ## Runs of a sequence -/

namespace SeqState

/-- Block `b` of layer `l` was read back and has not been on disk again since. -/
def LeftBehind (steps : List (Nat × KvOp)) (s : SeqState σ × σ) (l b : Nat) : Prop :=
  Since apply
    (fun s step => step.1 = l ∧ ∃ kv, s.1.kvs[l]? = some kv ∧ step.2.readsBack kv b)
    (fun s => ∀ kv, s.1.kvs[l]? = some kv → b ∉ kv.spilled)
    steps s

section

variable {storage : StorageBackend σ} (law : Reliable storage)

open KVCacheState

/-- What the clean-up relies on. -/
structure Tracked (seqId : Nat) (s : SeqState (σ × List Path) × (σ × List Path)) : Prop where
  layers : ∃ vs, Layers law.recorded.toReadsBack seqId s vs
  logged : ∀ (l : Nat) (kv : KVCacheState (σ × List Path)),
    s.1.kvs[l]? = some kv → Logged kv s.2
  own : ∀ p ∈ s.2.2, ∃ l b, l < s.1.kvs.length ∧ p = spillPath seqId l b

theorem tracked_new (cfg : KvConfig (σ × List Path)) (hs : cfg.storage = some storage.recorded)
    (seqId : Nat) (st : σ) : Tracked law seqId (new cfg seqId, (st, [])) where
  layers := ⟨_, layers_new hs seqId (st, [])⟩
  logged := by
    intro l kv h b hb
    rw [new_getElem? h] at hb
    simp [forLayer] at hb
  own := by intro p hp; simp at hp

variable {law} {seqId : Nat} {s s' : SeqState (σ × List Path) × (σ × List Path)}
variable {step : Nat × KvOp}

/-- What a call on a layer needs to know about it. -/
theorem Tracked.layer (h : Tracked law seqId s) {l : Nat} {kv : KVCacheState (σ × List Path)}
    (hkv : s.1.kvs[l]? = some kv) :
    kv.seqId = seqId ∧ kv.layer = l ∧ kv.storage = some storage.recorded ∧
      ∃ vs, Holds kv (law.recorded.content s.2) vs := by
  obtain ⟨vs, hvs⟩ := h.layers
  exact ⟨hvs.seqId_eq l kv hkv, hvs.layer_eq l kv hkv, hvs.storage_eq l kv hkv, vs l,
    hvs.holds l kv hkv⟩

/-- The file of a block of another layer is not touched. -/
theorem Tracked.other_file (h : Tracked law seqId s) (hstep : SeqState.apply s step = some s')
    {l b : Nat} (hl : l ≠ step.1) :
    law.content s'.2.1 (spillPath seqId l b) = law.content s.2.1 (spillPath seqId l b) ∧
      (spillPath seqId l b ∈ s'.2.2 ↔ spillPath seqId l b ∈ s.2.2) := by
  obtain ⟨kv, hkv, rfl⟩ := apply_cases hstep
  obtain ⟨_, hlayer, hst, vs, hvs⟩ := h.layer hkv
  refine apply_files law step.2 hst hvs (h.logged _ kv hkv) _ ?_
  rintro ⟨c, hc⟩
  rw [hlayer] at hc
  exact hl (spillPath_inj.mp hc).2.1

theorem Tracked.apply (h : Tracked law seqId s) (hstep : SeqState.apply s step = some s') :
    Tracked law seqId s' := by
  have hother := fun l b => h.other_file hstep (l := l) (b := b)
  obtain ⟨kv, hkv, hs'⟩ := apply_cases hstep
  obtain ⟨hid, hlayer, hst, vs, hvs⟩ := h.layer hkv
  have hfiles := apply_files law step.2 hst hvs (h.logged _ kv hkv)
  have hlogged := apply_logged law step.2 hst hvs (h.logged _ kv hkv)
  obtain ⟨ws, hws⟩ := hvs.apply law.recorded hst step.2
  obtain ⟨us, hus⟩ := h.layers
  subst hs'
  refine
    { layers := ⟨_, hus.set hkv (apply_shape step.2 kv s.2) hws ?_ _ _⟩
      logged := ?_
      own := ?_ }
  · intro q hq
    exact (hfiles q fun hown => hown.elim hq).1
  · intro l kv' hl
    rcases set_getElem?_cases hkv hl with ⟨_, rfl⟩ | ⟨hne, hl⟩
    · exact hlogged
    · intro b hb
      have hin := h.logged l kv' hl b hb
      rw [hus.seqId_eq l kv' hl, hus.layer_eq l kv' hl] at hin ⊢
      exact (hother l b hne).2.mpr hin
  · intro p hp
    rw [List.length_set]
    by_cases hown : ∃ b, p = spillPath kv.seqId kv.layer b
    · obtain ⟨b, hb⟩ := hown
      rw [hid, hlayer] at hb
      exact ⟨step.1, b, (List.getElem?_eq_some_iff.mp hkv).1, hb⟩
    · exact h.own p ((hfiles p hown).2.mp hp)

/-- One call, for any layer. -/
theorem Tracked.stranded_apply (h : Tracked law seqId s) (hstep : SeqState.apply s step = some s')
    {l b : Nat} {kv kv' : KVCacheState (σ × List Path)} (hkv : s.1.kvs[l]? = some kv)
    (hkv' : s'.1.kvs[l]? = some kv') :
    Stranded law kv' s'.2 b ↔
      b ∉ kv'.spilled ∧ (Stranded law kv s.2 b ∨ (step.1 = l ∧ step.2.readsBack kv b)) := by
  have hother := h.other_file hstep (l := l) (b := b)
  obtain ⟨kv₀, hkv₀, hs'⟩ := apply_cases hstep
  subst hs'
  rcases set_getElem?_cases hkv₀ hkv' with ⟨he, hnew⟩ | ⟨hne, hkv'⟩
  · subst he
    rw [hkv] at hkv₀
    rw [Option.some.inj hkv₀] at hkv ⊢
    obtain ⟨_, _, hst, vs, hvs⟩ := h.layer hkv
    rw [hnew, KVCacheState.stranded_apply law step.2 hst hvs (h.logged _ kv₀ hkv) b]
    simp
  · rw [hkv] at hkv'
    rw [← Option.some.inj hkv']
    obtain ⟨hid, hlayer, _⟩ := h.layer hkv
    unfold Stranded
    rw [hid, hlayer, (hother hne).1, (hother hne).2]
    constructor
    · rintro ⟨hl, hc, hnot⟩
      exact ⟨hnot, Or.inl ⟨hl, hc, hnot⟩⟩
    · rintro ⟨_, hst | ⟨he, _⟩⟩
      · exact hst
      · exact absurd he.symm hne

/-- **What the clean-up cannot see is what was read back and not written out since.** -/
theorem stranded_iff_leftBehind {s₀ : SeqState (σ × List Path) × (σ × List Path)}
    (h₀ : Tracked law seqId s₀) (hnone : s₀.2.2 = []) :
    ∀ {steps : List (Nat × KvOp)} {s : SeqState (σ × List Path) × (σ × List Path)},
      runList SeqState.apply steps s₀ = some s → Tracked law seqId s ∧
        ∀ (l b : Nat) kv, s.1.kvs[l]? = some kv →
          (Stranded law kv s.2 b ↔ LeftBehind steps s₀ l b) := by
  intro steps
  induction steps using List.reverseRecOn with
  | nil =>
    intro s hrun
    rw [← Option.some.inj hrun]
    refine ⟨h₀, fun l b kv _ => ?_⟩
    unfold LeftBehind Stranded
    rw [hnone]
    simp
  | append_singleton steps step ih =>
    intro s hrun
    obtain ⟨m, hm, hstep⟩ := runList_concat.mp hrun
    obtain ⟨htr, hiff⟩ := ih hm
    refine ⟨htr.apply hstep, ?_⟩
    intro l b kv' hkv'
    obtain ⟨kv, hkv⟩ : ∃ kv, m.1.kvs[l]? = some kv := by
      have hlt := (List.getElem?_eq_some_iff.mp hkv').1
      rw [apply_length hstep] at hlt
      exact ⟨_, List.getElem?_eq_getElem hlt⟩
    unfold LeftBehind at hiff ⊢
    rw [htr.stranded_apply hstep hkv hkv', hiff l b kv hkv, since_concat hm hstep]
    simp only [hkv, hkv', Option.some.injEq, forall_eq', exists_eq_left']

/-! ## Dropping the sequence -/

end

section

variable {storage : StorageBackend σ} {law : Reliable storage}

open KVCacheState

theorem removeFiles_content (law : Reliable storage) : ∀ (ps : List Path) (st : σ) (q : Path),
    law.content (removeFiles storage ps st) q = if q ∈ ps then none else law.content st q
  | [], _, _ => by simp [removeFiles]
  | p :: ps, st, q => by
    rw [removeFiles, removeFiles_content law ps]
    by_cases hq : q ∈ ps
    · simp [hq]
    · by_cases hp : q = p
      · rw [if_neg hq, hp, law.remove_gone, if_pos List.mem_cons_self]
      · rw [if_neg hq, law.remove_frame storage rfl p st q hp, if_neg (by simp [hp, hq])]

theorem mem_spilled_paths {kv : KVCacheState σ} {q : Path} :
    q ∈ kv.spilled.toList.map Prod.snd ↔ ∃ b : Nat, kv.spilled[b]? = some q := by
  rw [List.mem_map]
  constructor
  · rintro ⟨⟨b, p⟩, hmem, rfl⟩
    exact ⟨b, Std.ExtTreeMap.mem_toList_iff_getElem?_eq_some.mp hmem⟩
  · rintro ⟨b, hb⟩
    exact ⟨(b, q), Std.ExtTreeMap.mem_toList_iff_getElem?_eq_some.mpr hb, rfl⟩

theorem purgeSpillFiles_content (law : Reliable storage) {kv : KVCacheState σ}
    (hs : kv.storage = some storage) (st : σ) (q : Path) :
    law.content (kv.purgeSpillFiles st).2 q = none ↔
      law.content st q = none ∨ ∃ b : Nat, kv.spilled[b]? = some q := by
  unfold KVCacheState.purgeSpillFiles
  rw [hs]
  show law.content (removeFiles storage (kv.spilled.toList.map Prod.snd) st) q = none ↔ _
  rw [removeFiles_content law]
  by_cases hq : q ∈ kv.spilled.toList.map Prod.snd
  · rw [if_pos hq]
    exact ⟨fun _ => Or.inr (mem_spilled_paths.mp hq), fun _ => rfl⟩
  · rw [if_neg hq]
    exact ⟨Or.inl, fun h => h.resolve_right fun hb => hq (mem_spilled_paths.mpr hb)⟩

/-- A drop removes the files that some layer still knows, and no others. -/
theorem purgeLayers_content (law : Reliable storage) : ∀ (kvs : List (KVCacheState σ)) (st : σ)
    (q : Path), (∀ kv ∈ kvs, kv.storage = some storage) →
    (law.content (purgeLayers kvs st).2 q = none ↔
      law.content st q = none ∨ ∃ kv ∈ kvs, ∃ b : Nat, kv.spilled[b]? = some q)
  | [], _, _, _ => by simp [purgeLayers]
  | kv :: kvs, st, q, hs => by
    rw [List.forall_mem_cons] at hs
    show law.content (purgeLayers kvs (kv.purgeSpillFiles st).2).2 q = none ↔ _
    rw [purgeLayers_content law kvs _ q hs.2, purgeSpillFiles_content law hs.1, or_assoc]
    simp only [List.mem_cons, exists_eq_or_imp]

/-- No file that the sequence ever wrote is in the storage. -/
def NoFileLeft (law : Reliable storage) (st : σ × List Path) : Prop :=
  ∀ p ∈ st.2, law.content st.1 p = none

theorem Tracked.noFileLeft_drop_iff {seqId : Nat}
    {s : SeqState (σ × List Path) × (σ × List Path)} (h : Tracked law seqId s) :
    NoFileLeft law ((s.1.drop s.2).1, s.2.2) ↔
      ∀ (l b : Nat) kv, s.1.kvs[l]? = some kv → ¬ Stranded law kv s.2 b := by
  have hstorage : ∀ kv ∈ s.1.kvs, kv.storage = some storage.recorded := by
    intro kv hkv
    obtain ⟨l, hl⟩ := List.mem_iff_getElem?.mp hkv
    exact (h.layer hl).2.2.1
  have hdrop := fun q => purgeLayers_content law.recorded s.1.kvs s.2 q hstorage
  constructor
  · rintro hleft l b kv hkv ⟨hin, hcontent, hnot⟩
    rcases (hdrop _).mp (hleft _ hin) with hnone | ⟨kv', hkv', a, ha⟩
    · exact hcontent hnone
    · obtain ⟨l', hl'⟩ := List.mem_iff_getElem?.mp hkv'
      obtain ⟨_, hlayer', _, vs, hvs⟩ := h.layer hl'
      have hpath := spillPath_inj.mp (hvs.spilled_path a _ ha)
      rw [(h.layer hkv).2.1, hlayer'] at hpath
      rw [← hpath.2.1, hkv] at hl'
      rw [hpath.2.2, Option.some.inj hl'] at hnot
      exact hnot (mem_of_getElem? ha)
  · intro hstr p hp
    refine (hdrop p).mpr ?_
    by_contra hor
    obtain ⟨hcontent, hknown⟩ := not_or.mp hor
    obtain ⟨l, b, hlt, hpath⟩ := h.own p hp
    have hkv := List.getElem?_eq_getElem hlt
    obtain ⟨hid, hlayer, _, vs, hvs⟩ := h.layer hkv
    refine hstr l b _ hkv ⟨?_, ?_, ?_⟩
    · rw [hid, hlayer, ← hpath]; exact hp
    · rw [hid, hlayer, ← hpath]; exact hcontent
    · intro hb
      obtain ⟨q, hq⟩ := exists_getElem? hb
      have hqp := hvs.spilled_path b q hq
      rw [hid, hlayer, ← hpath] at hqp
      exact hknown ⟨_, List.getElem_mem hlt, b, by rw [hq, hqp]⟩

/--
**A dropped sequence leaves no file behind exactly when every block it read back was written
out again**: whatever the calls on its layers, with a storage that does not fail.
-/
theorem spill_files_removed_iff (law : Reliable storage) (cfg : KvConfig (σ × List Path))
    (hs : cfg.storage = some storage.recorded) (seqId : Nat) (st₀ : σ)
    (steps : List (Nat × KvOp)) (seq : SeqState (σ × List Path)) (st : σ × List Path)
    (hrun : runList SeqState.apply steps (new cfg seqId, (st₀, [])) = some (seq, st)) :
    NoFileLeft law ((seq.drop st).1, st.2) ↔
      ∀ l b, ¬ LeftBehind steps (new cfg seqId, (st₀, [])) l b := by
  obtain ⟨htr, hiff⟩ := stranded_iff_leftBehind (tracked_new law cfg hs seqId st₀) rfl hrun
  rw [htr.noFileLeft_drop_iff]
  constructor
  · intro h l b hleft
    by_cases hl : l < seq.kvs.length
    · have hkv := List.getElem?_eq_getElem hl
      exact h l b _ hkv ((hiff l b _ hkv).mpr hleft)
    · -- a layer that does not exist has nothing to read back
      obtain ⟨pre, step, post, m, _, hpre, ⟨_, kv, hkv, _⟩, _⟩ := hleft
      have hlt := (List.getElem?_eq_some_iff.mp hkv).1
      rw [runList_length hpre, ← runList_length hrun] at hlt
      exact absurd hlt hl
  · intro h l b kv hkv hstr
    exact h l b ((hiff l b kv hkv).mp hstr)

/-! ## A block read back and dropped -/

/-- Two blocks of one position with room for one: the second append writes block 0 out. -/
def readBackSteps : List (Nat × KvOp) :=
  [(0, appendOne 0), (0, appendOne 1), (0, .ensureResident 0 1)]

/-- A fresh sequence over an empty storage in memory. -/
def readBackStart : SeqState ((Path → Option Bytes) × List Path) ×
    ((Path → Option Bytes) × List Path) :=
  (new (tinyCfg 1 1 none memoryStorage.recorded) 7, (fun _ => none, []))

/-- Block 0 is read back and never written out again: its file outlives the sequence. -/
theorem spill_file_outlives_sequence :
    ∃ seq st, runList SeqState.apply readBackSteps readBackStart = some (seq, st) ∧
      ¬ NoFileLeft memoryStorage_reliable ((seq.drop st).1, st.2) := by
  have hsome : (runList SeqState.apply readBackSteps readBackStart).any
      (fun s => s.2.2.contains (spillPath 7 0 0)
        && ((s.1.drop s.2).1 (spillPath 7 0 0)).isSome) = true := by decide +kernel
  obtain ⟨⟨seq, st⟩, hrun, hfile⟩ := (Option.any_eq_true _ _).mp hsome
  simp only [Bool.and_eq_true, List.contains_iff_mem] at hfile
  refine ⟨seq, st, hrun, ?_⟩
  intro hnone
  have hgone : (seq.drop st).1 (spillPath 7 0 0) = none := hnone _ hfile.1
  rw [hgone] at hfile
  simp at hfile

/-- A third append writes block 0 out again, and the drop then removes every file. -/
theorem spill_files_removed_after_respill :
    ¬ ∃ l b, LeftBehind (readBackSteps ++ [(0, appendOne 2)]) readBackStart l b := by
  have hsome : (runList SeqState.apply (readBackSteps ++ [(0, appendOne 2)]) readBackStart).any
      (fun s => s.2.2.all fun p => ((s.1.drop s.2).1 p).isNone) = true := by decide +kernel
  obtain ⟨⟨seq, st⟩, hrun, hfiles⟩ := (Option.any_eq_true _ _).mp hsome
  rintro ⟨l, b, hleft⟩
  refine (spill_files_removed_iff memoryStorage_reliable
    (tinyCfg 1 1 none memoryStorage.recorded) rfl 7 (fun _ => none) _ seq st hrun).mp ?_ l b hleft
  intro p hp
  exact Option.isNone_iff_eq_none.mp (List.all_eq_true.mp hfiles p hp)

end

end SeqState

end Garuda
