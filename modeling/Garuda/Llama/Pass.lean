import Garuda.Llama.Meaning
import Garuda.Runtime.Passes

/-!
# The backend as a model

* `model` is the backend as a function of the tokens seen.
* `computes` says that its layers and its output head compute that model, for the tokens of one
  sequence or of several.
* `backend_serves` is what the runtime is owed, and `backend_honours` its contract without a
  storage.
-/

namespace Garuda

open Infra Quant Simd Attention SeqState

variable {σ : Type}

namespace Llama.LlamaBackend

variable [Analytic F32]

/-- The caches that the backend's sequences are made with. -/
abbrev Template (b : LlamaBackend) (cfg : KvConfig σ) : Prop :=
  Garuda.Template b.cfg.nLayers (fun _ => b.cfg.kvDim) cfg

variable {host : Host} {b : LlamaBackend} {limit : Nat} {M : Meaning}

variable {cfg : KvConfig σ} {law : ReadsBack cfg.storage} {st : σ} {window : Option Nat}

/-! ## The layers -/

/-- **All layers over a batch**, of sequences that stand for tokens. -/
theorem together_ends (hs : Sound host b limit M) {fs : List (Feed σ)} {targets : KvTargets}
    {rows : List (Nat × List Token)} (hlaw : Steady law) (htpl : Template b cfg)
    (hnodup : (fs.map Feed.seqId).Nodup)
    (hstands : ∀ f ∈ fs, Stands law (model hs (windowOf cfg)) f.seqId (f.seq, st) f.seen)
    (h : Batch b.cfg.vocab (roomOf cfg) limit targets (fs.map Feed.seqId) (seenOf fs) rows) :
    Attempt.Ends ((b.decoder host).throughLayers targets
        (rows.map fun r => (b.stack host M (windowOf cfg)).input 0 r.2)) (fs.map Feed.seq, st)
      (Through law (model hs (windowOf cfg)) ((b.stack host M (windowOf cfg)).input b.cfg.nLayers)
        fs rows st) :=
  Decoder.throughLayers_ends (d := b.decoder host) htpl.layers hstands fun _ _ hl hF =>
    layerBatchOver_ends hs hlaw hnodup (htpl.fitted hstands)
      (by rw [List.length_map, List.length_map]) h hl hF

/-- **The layers and the head compute the model.** -/
theorem computes (hs : Sound host b limit M) (hlaw : Steady law) (htpl : Template b cfg) :
    (b.decoder host).Computes law (model hs (windowOf cfg)) limit M.embed
      ((b.stack host M (windowOf cfg)).input b.cfg.nLayers) where
  vocab := rfl
  layers := htpl.layers
  row t ht := (hs.embed t ht).1
  together := together_ends hs hlaw htpl
  head {us} hpos hle hknown := by
    refine hs.output.head_eq (fun u hu => ?_) hpos hle
    obtain ⟨t, ht, hknown⟩ := hknown u hu
    obtain ⟨front, rfl⟩ := List.getLast?_eq_some_iff.mp ht
    show (b.norm _ _).length = _
    rw [length_norm]
    exact hs.length_input hknown front _

/-! ## The calls -/

section Calls

variable (hs : Sound host b limit M) (panicked : GarudaError) (hlaw : Steady law)
  (htpl : Template b cfg) (hfew : roomOf cfg ≤ limit) {f : Feed σ} {n : Nat}
include hlaw htpl hfew

/-- A call for the logits of the last `n` positions. -/
theorem logitsMulti_served (h : Stands law (model hs (windowOf cfg)) f.seqId (f.seq, st) f.seen)
    (hpos : 0 < n) :
    Served law (model hs (windowOf cfg)) f st (Fits (model hs (windowOf cfg)) cfg f n)
      ((lastContexts f.context n).map (model hs (windowOf cfg)).logits)
      ((b.backend host panicked).logitsMulti f.context f.seq n st) := by
  have hcomputes := computes hs hlaw htpl
  show Served _ _ _ _ _ _ (told panicked (b.logitsMulti host f.context n (f.seq, st)))
  rw [logitsMulti, if_neg (by omega)]
  refine hcomputes.pass_served panicked hfew h fun hfits w => ?_
  exact congrArg (·, w) (hcomputes.head_last hfew hpos hfits)

/-- A call for the logits of the last position. -/
theorem logits_served (h : Stands law (model hs (windowOf cfg)) f.seqId (f.seq, st) f.seen) :
    Served law (model hs (windowOf cfg)) f st (Fits (model hs (windowOf cfg)) cfg f 1)
      ((model hs (windowOf cfg)).logits f.context)
      ((b.backend host panicked).logits f.context f.seq st) := by
  have hcomputes := computes hs hlaw htpl
  show Served _ _ _ _ _ _ (told panicked (b.logits host f.context (f.seq, st)))
  rw [logits, logitsMulti, if_neg Nat.one_ne_zero, Attempt.assoc]
  refine hcomputes.pass_served panicked hfew h fun hfits w => ?_
  refine (Attempt.lift_bind (hcomputes.head_last hfew Nat.one_pos hfits) popped w).trans ?_
  rw [lastContexts_one hfits.context_ne_nil]
  rfl

end Calls

/-! ## The contract -/

section Contract

variable (hs : Sound host b limit M) (panicked : GarudaError) (htpl : Template b cfg)
  (hfew : roomOf cfg ≤ limit)
include htpl hfew

/-- **The backend answers as the model, exactly where it can.** -/
theorem backend_serves (hlaw : Steady law) :
    (b.backend host panicked).Serves (model hs (windowOf cfg)) law limit where
  hidden _ _ h := (computes hs hlaw htpl).hidden_served panicked hfew h
  logits _ _ h := logits_served hs panicked hlaw htpl hfew h
  logitsMulti _ _ _ h hpos := logitsMulti_served hs panicked hlaw htpl hfew h hpos
  logitsBatch _ _ hnodup hstands hmany := (computes hs hlaw htpl).logitsBatch_served
    (fun _ _ h => logits_served hs panicked hlaw htpl hfew h) hnodup hstands hmany

/-- **Without a storage it honours the runtime's contract.** -/
theorem backend_honours (hstorage : cfg.storage = none) :
    (b.backend host panicked : InferenceBackend σ F32).Honours (model hs (windowOf cfg)) cfg := by
  obtain ⟨law, hlaw, hnothing⟩ := nothing_stored hstorage
  refine (backend_serves hs panicked htpl hfew hlaw).honours hnothing ?_
  intro f n st h hpos hfits j _ _ s hmem
  -- no layer is recurrent
  have hstands := ((logitsMulti_served hs panicked hlaw htpl hfew h hpos).run hfits).2
  obtain ⟨l, hl⟩ := List.mem_iff_getElem?.mp hmem
  exact absurd ((hstands.linear l _ hl).plain rfl) (by simp)

end Contract

end Llama.LlamaBackend

end Garuda
