import Garuda.Qwen35.Blocks

/-!
# The backend as a model

* `computes` says that the blocks and the output head of the `qwen35` backend compute its model, for
  the tokens of one sequence or of several.
* `backend_serves` is what the runtime is owed, and `backend_honours` its contract without a
  storage: with the copies of a recorded pass, what was guessed wrongly can be taken back.
-/

namespace Garuda

open Infra Quant Simd Attention SeqState

variable {σ : Type}

namespace Qwen35

variable [Analytic F32]

/-- The caches that the backend's sequences are made with: a recurrent block stores nothing. -/
abbrev Template (cfg : Qwen35Config) (kv : KvConfig σ) : Prop :=
  Garuda.Template cfg.nLayers cfg.kvWidthOf kv

variable {host : Host} {b : Qwen35Runner} {limit : Nat} {M : Meaning} {cfg : KvConfig σ}
  {law : ReadsBack cfg.storage} {st : σ}

/-- The hidden state that the head is given is as wide as the model. -/
theorem Sound.length_last (hs : Sound host b limit M) {window : Option Nat} {us : List Token}
    (h : ∃ t ∈ us.getLast?, t.toNat < b.loaded.cfg.vocab) :
    (normed b.nums ((stackOf host b M window).input b.loaded.cfg.nLayers us)
      b.loaded.outputNorm).length = b.loaded.cfg.dModel := by
  obtain ⟨t, ht, hknown⟩ := h
  obtain ⟨front, rfl⟩ := List.getLast?_eq_some_iff.mp ht
  rw [length_normed]
  exact hs.length_input hknown front _

/-- **The blocks and the head compute the model.** -/
theorem computes (hs : Sound host b limit M) (hlaw : Steady law)
    (htpl : Template b.loaded.cfg cfg) :
    (b.decoder host).Computes law (model hs (windowOf cfg)) limit M.embed
      ((stackOf host b M (windowOf cfg)).input b.loaded.cfg.nLayers) where
  vocab := rfl
  layers := htpl.layers
  row t ht := (hs.embed t ht).1
  together hnodup hstands h :=
    Decoder.throughLayers_ends (d := b.decoder host) htpl.layers hstands fun _ _ hl hF =>
      runLayer_ends hs hlaw hnodup (htpl.fitted hstands)
        (by rw [List.length_map, List.length_map]) h hl hF
  head hpos hle hknown := by
    refine (hs.output.head_eq (fun u hu => hs.length_last (hknown u hu)) hpos hle).trans ?_
    rw [hs.outputNorm]
    rfl

/-! ## The calls -/

/-- The output head over a hidden state. -/
theorem Sound.headOne_eq (hs : Sound host b limit M) {window : Option Nat} {us : List Token}
    (h : ∃ t ∈ us.getLast?, t.toNat < b.loaded.cfg.vocab) :
    b.headOne host (normed b.nums ((stackOf host b M window).input b.loaded.cfg.nLayers us)
      b.loaded.outputNorm) = .ok ((model hs window).logits us) := by
  rw [hs.outputOne _ (hs.length_last h), hs.outputNorm]
  rfl

section Calls

variable (hs : Sound host b limit M) (panicked : GarudaError) (hlaw : Steady law)
  (htpl : Template b.loaded.cfg cfg) (hfew : roomOf cfg ≤ limit) {f : Feed σ} {n : Nat}
include hlaw htpl hfew

/-- A call for the hidden state of the last position. -/
theorem hidden_served (h : Stands law (model hs (windowOf cfg)) f.seqId (f.seq, st) f.seen) :
    Served law (model hs (windowOf cfg)) f st (Fits (model hs (windowOf cfg)) cfg f 1)
      ((model hs (windowOf cfg)).hidden f.context)
      ((b.backend host panicked).hidden f.context f.seq st) := by
  have hmeant : (model hs (windowOf cfg)).hidden f.context = normed b.nums
      ((stackOf host b M (windowOf cfg)).input b.loaded.cfg.nLayers f.context)
      b.loaded.outputNorm := by
    rw [hs.outputNorm]
    rfl
  rw [hmeant]
  exact (computes hs hlaw htpl).hidden_served panicked hfew h

/-- A call for the logits of the last position. -/
theorem logits_served (h : Stands law (model hs (windowOf cfg)) f.seqId (f.seq, st) f.seen) :
    Served law (model hs (windowOf cfg)) f st (Fits (model hs (windowOf cfg)) cfg f 1)
      ((model hs (windowOf cfg)).logits f.context)
      ((b.backend host panicked).logits f.context f.seq st) := by
  show Served _ _ _ _ _ _ (told panicked (b.logits host f.context (f.seq, st)))
  rw [Qwen35Runner.logits, Qwen35Runner.hidden]
  refine (computes hs hlaw htpl).hidden_bind_served panicked hfew h fun hlast w => ?_
  exact congrArg (·, w) (hs.headOne_eq hlast)

/-- **A call for the logits of several positions.** It leaves copies of all recurrent states, from
before each of the new tokens. -/
theorem recorded_served (h : Stands law (model hs (windowOf cfg)) f.seqId (f.seq, st) f.seen)
    (hn : n ≠ 1) :
    Served law (model hs (windowOf cfg)) f st (Fits (model hs (windowOf cfg)) cfg f n)
        ((lastContexts f.context n).map (model hs (windowOf cfg)).logits)
        ((b.backend host panicked).logitsMulti f.context f.seq n st) ∧
      Copied f.seen.length ((b.backend host panicked).logitsMulti f.context f.seq n st).2.1 := by
  show Served _ _ _ _ _ _ (told panicked (b.logitsMulti host f.context n (f.seq, st))) ∧
    Copied _ (b.logitsMulti host f.context n (f.seq, st)).2.1
  rw [Qwen35Runner.logitsMulti, if_neg hn]
  refine (computes hs hlaw htpl).recorded_served panicked hfew h (fun hfits => ?_) rfl
  rw [List.mapM_map]
  exact Checked.mapM_eq_ok fun us hus => hs.headOne_eq (Decoder.lastContexts_known hfits us hus)

/-- A call for the logits of the last `n` positions. -/
theorem logitsMulti_served (h : Stands law (model hs (windowOf cfg)) f.seqId (f.seq, st) f.seen) :
    Served law (model hs (windowOf cfg)) f st (Fits (model hs (windowOf cfg)) cfg f n)
      ((lastContexts f.context n).map (model hs (windowOf cfg)).logits)
      ((b.backend host panicked).logitsMulti f.context f.seq n st) := by
  rcases eq_or_ne n 1 with rfl | hn
  · show Served _ _ _ _ _ _ (told panicked (b.logitsMulti host f.context 1 (f.seq, st)))
    rw [Qwen35Runner.logitsMulti, if_pos rfl, Qwen35Runner.logits, Qwen35Runner.hidden,
      Attempt.assoc]
    refine (computes hs hlaw htpl).hidden_bind_served panicked hfew h fun hlast w => ?_
    have hne : f.context ≠ [] := by
      rintro hnil
      obtain ⟨t, ht, -⟩ := hlast
      rw [hnil] at ht
      cases ht
    rw [lastContexts_one hne]
    exact Attempt.bind_ok (congrArg (·, w) (hs.headOne_eq hlast))
  · exact (recorded_served hs panicked hlaw htpl hfew h hn).1

end Calls

/-! ## The contract -/

section Contract

variable (hs : Sound host b limit M) (panicked : GarudaError) (htpl : Template b.loaded.cfg cfg)
  (hfew : roomOf cfg ≤ limit)
include htpl hfew

/-- **The backend answers as the model, exactly where it can.** -/
theorem backend_serves (hlaw : Steady law) :
    (b.backend host panicked).Serves (model hs (windowOf cfg)) law limit where
  hidden _ _ h := hidden_served hs panicked hlaw htpl hfew h
  logits _ _ h := logits_served hs panicked hlaw htpl hfew h
  logitsMulti _ _ _ h _ := logitsMulti_served hs panicked hlaw htpl hfew h
  logitsBatch _ _ hnodup hstands hmany := (computes hs hlaw htpl).logitsBatch_served
    (fun _ _ h => logits_served hs panicked hlaw htpl hfew h) hnodup hstands hmany

/-- **Without a storage it honours the runtime's contract**, the copies that a rejected guess needs
included. -/
theorem backend_honours (hstorage : cfg.storage = none) :
    (b.backend host panicked : InferenceBackend σ F32).Honours (model hs (windowOf cfg)) cfg := by
  obtain ⟨law, hlaw, hnothing⟩ := nothing_stored hstorage
  refine (backend_serves hs panicked htpl hfew hlaw).honours hnothing ?_
  intro f n st h hpos hfits j hlo hhi s hmem
  have hlen : f.context.length = f.seen.length + f.new.length := List.length_append
  have henough := hfits.enough
  -- of one position nothing is asked
  have hn : n ≠ 1 := by omega
  obtain ⟨hserved, hcopied⟩ := recorded_served hs panicked hlaw htpl hfew h hn
  obtain ⟨l, hl⟩ := List.mem_iff_getElem?.mp hmem
  have hrecalls := (hserved.run hfits).2.linear l _ hl
  refine hcopied s hmem j (by omega) (hhi.le.trans_eq ?_)
  cases hr : (model hs (windowOf cfg)).recurrent l with
  | false => exact absurd (hrecalls.plain hr) (by simp)
  | true => exact (hrecalls.folded hr).symm

end Contract

end Qwen35

end Garuda
