import Garuda.Runtime.Fleet
import Garuda.Runtime.Served

/-!
# Decoders

What the backends that are a stack of layers have in common: a pass drives a sequence's new tokens
through the layers, chunk by chunk, and one decode step drives a token of each of several sequences
through them together.

* `Decoder` is what such a backend brings along.
* `Decoder.forwardTail` is a pass, and answers with the last hidden states.
* `Decoder.logitsBatch` is a call for several sequences.
-/

namespace Garuda

open Infra SeqState

variable {σ : Type}

/-- Where each token of a batch keeps its state. -/
inductive KvTargets where
  /-- All in one sequence. -/
  | shared
  /-- Each in a sequence of its own. -/
  | perToken
  deriving DecidableEq

/-- `get`: which of the sequences is the token's. -/
def KvTargets.get : KvTargets → Nat → Nat
  | shared, _ => 0
  | perToken, token => token

/-- A backend that is a stack of layers. -/
structure Decoder (σ : Type) where
  nLayers : Nat
  vocab : Nat
  /-- Prompt tokens pushed through one layer before moving to the next. -/
  prefillChunk : Nat
  /-- What the layers of a sequence are called. -/
  layersCalled : String
  /-- One row of the embeddings. -/
  row : Nat → Checked GarudaError (List F32)
  /-- One layer over a batch of tokens. -/
  layer : KvTargets → Nat → List (List F32) →
    Attempt GarudaError (List (SeqState σ) × σ) (List (List F32))
  /-- The norm in front of the output head. -/
  outputNorm : List F32 → List F32
  /-- The output head over several hidden states. -/
  head : List (List F32) → Nat → Checked GarudaError (List (List F32))

/-! ## Parts of the state -/

/-- A computation on a list of sequences, for one of them. -/
def alone {α : Type} (x : Attempt GarudaError (List (SeqState σ) × σ) α) :
    Attempt GarudaError (SeqState σ × σ) α := fun w =>
  ((x ([w.1], w.2)).1, (x ([w.1], w.2)).2.1.headD w.1, (x ([w.1], w.2)).2.2)

/-- `pop`, of a list that is known not to be empty. -/
def popped {W α : Type} (xs : List α) : Attempt GarudaError W α :=
  match xs.getLast? with
  | some x => pure x
  | none => Attempt.crash

/-- What the runtime is told. It knows of no panics; one is an error to it like any other. -/
def told {W α : Type} (panicked : GarudaError) (out : Checked GarudaError α × W) :
    Except GarudaError α × W :=
  (match out.1 with
    | .ok a => .ok a
    | .err e => .error e
    | .panic => .error panicked, out.2)

namespace Decoder

variable (d : Decoder σ)

/-- All layers, one after the other. -/
def throughLayers (targets : KvTargets) (xs : List (List F32)) :
    Attempt GarudaError (List (SeqState σ) × σ) (List (List F32)) :=
  (List.range d.nLayers).foldlM (fun xs l => d.layer targets l xs) xs

/-! ## A pass -/

def embed (token : Token) : Checked GarudaError (List F32) :=
  if d.vocab ≤ token.toNat then .err (.invalidToken token) else d.row token.toNat

/-- Why a pass is refused before anything is touched. -/
def refusal (context : List Token) (seq : SeqState σ) : Option GarudaError :=
  let already := seq.len
  let new := context.drop already
  if context.isEmpty then some (.inference "empty context")
  else if seq.kvs.length ≠ d.nLayers then
    some (.inference
      s!"sequence has {seq.kvs.length} {d.layersCalled} but the model has {d.nLayers}")
  else if context.length < already then
    some (.inference "sequence state is ahead of the context")
  else if new.isEmpty then some (.inference "no new tokens to process for this context")
  else if seq.maxPositions < already + new.length then
    some (.cache (s!"{new.length} tokens do not fit the {seq.maxPositions}-position context "
      ++ s!"window ({already} used)"))
  else none

def tooFew (nLast computed : Nat) : GarudaError :=
  .inference (s!"asked for the last {nLast} positions but only {computed} were computed in "
    ++ "this pass")

/-- One chunk: the last `nLast` hidden states, those of earlier chunks included. -/
def passChunk (nLast : Nat) (tail : List (List F32)) (chunk : List Token) :
    Attempt GarudaError (SeqState σ × σ) (List (List F32)) := do
  -- an unknown token is refused before any layer has run
  let xs ← Attempt.lift (chunk.mapM d.embed)
  let xs ← alone (d.throughLayers .shared xs)
  pure (lastN nLast (tail ++ xs))

/-- The last `nLast` positions' final hidden states, from one pass. -/
def forwardTail (context : List Token) (nLast : Nat) :
    Attempt GarudaError (SeqState σ × σ) (List (List F32)) := do
  let seq ← Attempt.gets fun w => w.1
  match d.refusal context seq with
  | some e => Attempt.fail e
  | none => do
    let tail ← (pieces (max d.prefillChunk 1) (context.drop seq.len)).foldlM (d.passChunk nLast) []
    if tail.length < nLast then Attempt.fail (tooFew nLast tail.length)
    else pure ((lastN nLast tail).map d.outputNorm)

/-- The final hidden state of the last position. -/
def hidden (context : List Token) : Attempt GarudaError (SeqState σ × σ) (List F32) := do
  let tail ← d.forwardTail context 1
  popped tail

/-! ## Several sequences -/

/-- Every sequence contributes one new token, and there are several. -/
def oneStepEach (contexts : List (List Token)) (seqs : List (SeqState σ)) : Bool :=
  decide (1 < contexts.length) && (contexts.zip seqs).all fun (c, s) =>
    c.length == s.len + 1 && s.kvs.length == d.nLayers

/-- Why a step is refused before any state is touched. -/
def stepRefusal (c : List Token) (s : SeqState σ) : Option GarudaError :=
  match c.getLast? with
  | none => none
  | some token =>
    if d.vocab ≤ token.toNat then some (.invalidToken token)
    else if s.maxPositions < s.len + 1 then
      some (.cache s!"context window of {s.maxPositions} positions is exhausted")
    else none

/-- The embedding of a context's last token. -/
def embedLast (c : List Token) : Checked GarudaError (List F32) :=
  match c.getLast? with
  | some token => d.row token.toNat
  | none => .panic

/-- One decode step of all of them. -/
def stepTogether (contexts : List (List Token)) :
    Attempt GarudaError (List (SeqState σ) × σ) (List (List F32)) := do
  let xs ← Attempt.lift (contexts.mapM d.embedLast)
  let xs ← d.throughLayers .perToken xs
  Attempt.lift (d.head (xs.map d.outputNorm) contexts.length)

/-- A call for several sequences; `logits` is the call for one. -/
def logitsBatch (panicked : GarudaError)
    (logits : List Token → Attempt GarudaError (SeqState σ × σ) (List F32))
    (contexts : List (List Token)) (seqs : List (SeqState σ)) (st : σ) :
    Except GarudaError (List (List F32)) × List (SeqState σ) × σ :=
  if contexts.length ≠ seqs.length then
    (.error (.inference
      s!"logits_batch got {contexts.length} contexts for {seqs.length} sequences"), seqs, st)
  else if d.oneStepEach contexts seqs then
    match (contexts.zip seqs).findSome? fun (c, s) => d.stepRefusal c s with
    | some e => (.error e, seqs, st)
    | none => told panicked (d.stepTogether contexts (seqs, st))
  else logitsInTurn (fun c s st => told panicked (logits c (s, st))) contexts seqs st

end Decoder

/-! ## The shapes of sequences -/

/-- The caches that a backend's sequences are made with: `nLayers` of them, of the given widths. -/
structure Template (nLayers : Nat) (kvDim : Nat → Nat) (cfg : KvConfig σ) : Prop where
  layers : max cfg.nLayers.toNat 1 = nLayers
  width : ∀ seqId l, l < nLayers → (KVCacheState.forLayer cfg seqId l).kvDim = kvDim l

/-- Such caches, with room for `room` positions. -/
structure Fitted (nLayers : Nat) (kvDim : Nat → Nat) (window : Option Nat) (room : Nat)
    (seqs : List (SeqState σ)) : Prop where
  size : ∀ seq ∈ seqs, seq.kvs.length = nLayers
  sizeLinear : ∀ seq ∈ seqs, seq.linear.length = nLayers
  cache : ∀ seq ∈ seqs, ∀ (l : Nat) (kv : KVCacheState σ), seq.kvs[l]? = some kv →
    kv.kvDim = kvDim l ∧ kv.slidingWindow = window ∧ room ≤ kv.maxPositions

/-- A batch that can be worked on: every token is known and the next one of its sequence, for which
there is room, and the sequence is the one that is looked at. -/
structure Batch (vocab room limit : Nat) (targets : KvTargets) (ids : List Nat)
    (before : Nat → List Token) (rows : List (Nat × List Token)) : Prop where
  pos : 0 < rows.length
  few : rows.length ≤ limit
  follows : Follows before rows
  target : ∀ i r, rows[i]? = some r → targets.get i = r.1
  seq : ∀ r ∈ rows, r.1 < ids.length
  room : ∀ r ∈ rows, r.2.length ≤ room
  known : ∀ r ∈ rows, ∀ t ∈ r.2.getLast?, t.toNat < vocab

/-- What the sequences have seen. -/
def seenOf (fs : List (Feed σ)) (j : Nat) : List Token := (fs[j]?).elim [] Feed.seen

section Shapes

variable {K : Type} {cfg : KvConfig σ} {law : ReadsBack cfg.storage} {m : TokenModel K} {st : σ}
  {nLayers : Nat} {kvDim : Nat → Nat} {fs : List (Feed σ)}

/-- Sequences made from the template have caches of its shape. -/
theorem Template.fitted (htpl : Template nLayers kvDim cfg)
    (h : ∀ f ∈ fs, Stands law m f.seqId (f.seq, st) f.seen) :
    Fitted nLayers kvDim (windowOf cfg) (roomOf cfg) (fs.map Feed.seq) where
  size := by
    intro seq hseq
    obtain ⟨f, hf, rfl⟩ := List.mem_map.mp hseq
    exact (h f hf).size.trans htpl.layers
  sizeLinear := by
    intro seq hseq
    obtain ⟨f, hf, rfl⟩ := List.mem_map.mp hseq
    exact (h f hf).sizeLinear.trans ((h f hf).size.trans htpl.layers)
  cache := by
    intro seq hseq l kv hl
    obtain ⟨f, hf, rfl⟩ := List.mem_map.mp hseq
    have hshape := (h f hf).shape l kv hl
    have hlt : l < nLayers := by
      rw [← htpl.layers, ← (h f hf).size]
      exact (List.getElem?_eq_some_iff.mp hl).1
    exact ⟨hshape.kvDim.trans (htpl.width f.seqId l hlt), hshape.slidingWindow,
      hshape.maxPositions.ge⟩

/-- No recurrent state has to be put back to where it stands. -/
theorem Stands.copied_length {seqId : Nat} {s : SeqState σ × σ} {ts : List Token}
    (h : Stands law m seqId s ts) : Copied ts.length s.1 := by
  intro ls hmem k hle hk
  obtain ⟨l, hl⟩ := List.mem_iff_getElem?.mp hmem
  have hrecalls := h.linear l _ hl
  cases hr : m.recurrent l with
  | false => exact absurd (hrecalls.plain hr) (by simp)
  | true =>
    have hfolded : ls.folded = ts.length := hrecalls.folded hr
    rw [Nat.le_antisymm (hk.trans_eq hfolded) hle]
    exact h.recoverable_length hmem

/-- A sequence of which a recording begins, or ends, stands for what it stood for. -/
theorem Stands.beginRecording {seqId : Nat} {seq : SeqState σ} {ts : List Token}
    (h : Stands law m seqId (seq, st) ts) : Stands law m seqId (seq.beginRecording, st) ts := by
  refine ⟨h.size, ?_, h.shape, ⟨h.layers.seqId_eq, h.layers.layer_eq, h.layers.storage_eq,
    h.layers.holds⟩, fun l o ho => ?_⟩
  · show (seq.linear.map _).length = _
    rw [List.length_map]
    exact h.sizeLinear
  · replace ho : (seq.linear.map (Option.map fun s : LinearState => { s with history := [] }))[l]?
        = some o := ho
    rw [List.getElem?_map, Option.map_eq_some_iff] at ho
    obtain ⟨o, ho, rfl⟩ := ho
    have hl := h.linear l o ho
    cases o with
    | none => exact hl
    | some s =>
      cases hr : m.recurrent l with
      | false => exact absurd (hl.plain hr) (by simp)
      | true =>
        exact TokenModel.recalls_some hr (hl.folded hr) (hl.state s rfl) (by intro e he; cases he)

theorem Stands.endRecording {seqId : Nat} {seq : SeqState σ} {ts : List Token}
    (h : Stands law m seqId (seq, st) ts) : Stands law m seqId (seq.endRecording, st) ts :=
  ⟨h.size, h.sizeLinear, h.shape, ⟨h.layers.seqId_eq, h.layers.layer_eq, h.layers.storage_eq,
    h.layers.holds⟩, h.linear⟩

end Shapes

end Garuda
