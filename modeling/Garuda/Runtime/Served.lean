import Garuda.Attention.Heads
import Garuda.Runtime.Fleet

/-!
# Calls that answer exactly where they can

What a backend that runs whole passes owes the runtime: it answers exactly when the tokens are
known, there is room for them and as many of them are new as it was asked for; otherwise it has fed
the sequence with some of them.

* `Served` is one call, and `ServedAll` one for several sequences.
* `Serves` is a backend. Without a storage it honours the runtime's contract: `Serves.honours`.
* `logitsInTurn_served` — the trait's own `logits_batch` serves if `logits` does.
-/

namespace Garuda

open Infra SeqState

variable {σ K : Type}

/-! ## What a pass can do -/

/-- `max_positions` of a sequence. -/
def SeqState.maxPositions (seq : SeqState σ) : Nat := seq.kvs.head?.elim 0 KVCacheState.maxPositions

/-- How far the caches are looked back into. -/
def windowOf (cfg : KvConfig σ) : Option Nat := cfg.slidingWindow.map UInt64.toNat

/-- How many positions the caches hold. -/
def roomOf (cfg : KvConfig σ) : Nat := max cfg.maxPositions.toNat 1

/-- The contexts that a pass answers for when it is asked for `n` positions. -/
def lastContexts (context : List Token) (n : Nat) : List (List Token) :=
  (List.range n).map fun i => context.take (context.length - n + i + 1)

@[simp] theorem length_lastContexts (context : List Token) (n : Nat) :
    (lastContexts context n).length = n := by simp [lastContexts]

theorem lastContexts_one {context : List Token} (hne : context ≠ []) :
    lastContexts context 1 = [context] := by
  have hpos := List.length_pos_iff.mpr hne
  rw [lastContexts, List.range_one, List.map_singleton, List.take_of_length_le (by omega)]

/-- What a call needs in order to answer for `n` positions. -/
structure Fits (m : TokenModel K) (cfg : KvConfig σ) (f : Feed σ) (n : Nat) : Prop where
  new : f.new ≠ []
  room : f.context.length ≤ roomOf cfg
  known : m.Knows f.new
  enough : n ≤ f.new.length

/-- What a call leaves behind, and when it answers: the sequence was fed with some of the tokens,
all of them if it answers, and no other sequence's files were changed. -/
structure Served {cfg : KvConfig σ} (law : ReadsBack cfg.storage) (m : TokenModel K) (f : Feed σ)
    (st : σ) (fits : Prop) {α : Type} (a : α) (out : Except GarudaError α × SeqState σ × σ) :
    Prop where
  took : f.Took law m (Succeeds out.1) out.2
  own : OnlySequence law f.seqId st out.2.2
  answers : ∀ v, out.1 = .ok v ↔ fits ∧ v = a

section

variable {cfg : KvConfig σ} {law : ReadsBack cfg.storage} {m : TokenModel K} {f : Feed σ} {st : σ}

/-- A sequence has as much room as its caches hold. -/
theorem Stands.maxPositions_eq {seqId : Nat} {seq : SeqState σ} {ts : List Token}
    (h : Stands law m seqId (seq, st) ts) : seq.maxPositions = roomOf cfg := by
  have hpos : 0 < seq.kvs.length := by
    have : seq.kvs.length = _ := h.size
    omega
  have hkv := List.getElem?_eq_getElem hpos
  rw [SeqState.maxPositions, List.head?_eq_getElem?, hkv]
  exact (h.shape 0 _ hkv).maxPositions

theorem Fits.context_ne_nil {n : Nat} (h : Fits m cfg f n) : f.context ≠ [] := by
  rw [Feed.context]
  simp [h.new]

section

variable {fits : Prop} {α : Type} {a : α} {out : Except GarudaError α × SeqState σ × σ}

theorem Served.succeeds_iff (h : Served law m f st fits a out) : Succeeds out.1 ↔ fits :=
  ⟨fun ⟨v, hv⟩ => ((h.answers v).mp hv).1, fun hfits => ⟨a, (h.answers a).mpr ⟨hfits, rfl⟩⟩⟩

/-- A call that answers has fed all the tokens. -/
theorem Served.run (h : Served law m f st fits a out) (hfits : fits) :
    out = (.ok a, out.2) ∧ Stands law m f.seqId out.2 f.context := by
  obtain ⟨k, -, hall, hstands⟩ := h.took
  rw [hall (h.succeeds_iff.mpr hfits), List.take_length] at hstands
  exact ⟨Prod.ext ((h.answers a).mpr ⟨hfits, rfl⟩) rfl, hstands⟩

end

/-! ## Several sequences -/

/-- What a call for several sequences leaves behind, and when it answers. -/
structure ServedAll (law : ReadsBack cfg.storage) (m : TokenModel K) (fs : List (Feed σ)) (st : σ)
    (out : Except GarudaError (List (List K)) × List (SeqState σ) × σ) : Prop
    extends FedAll law m fs st out where
  succeeds : Succeeds out.1 ↔ ∀ f ∈ fs, Fits m cfg f 1

/-- **One after the other**, the sequences are answered exactly if each of them can be. -/
theorem logitsInTurn_served {logits : List Token → SeqState σ → σ →
      Except GarudaError (List K) × SeqState σ × σ}
    (hlogits : ∀ (f : Feed σ) (st : σ), Stands law m f.seqId (f.seq, st) f.seen →
      Served law m f st (Fits m cfg f 1) (m.logits f.context) (logits f.context f.seq st))
    {fs : List (Feed σ)} (hnodup : (fs.map Feed.seqId).Nodup)
    (hstands : ∀ f ∈ fs, Stands law m f.seqId (f.seq, st) f.seen) :
    ServedAll law m fs st (logitsInTurn logits (fs.map Feed.context) (fs.map Feed.seq) st) := by
  refine ⟨logitsInTurn_feeds (fun f st h => ?_) fs st hnodup hstands, ?_⟩
  · have hserved := hlogits f st h
    exact ⟨hserved.took, hserved.own, fun v hv => ⟨((hserved.answers v).mp hv).1.new,
      ((hserved.answers v).mp hv).2⟩⟩
  -- the induction is on the sequences still to come
  induction fs generalizing st with
  | nil => exact ⟨fun _ f hf => absurd hf List.not_mem_nil, fun _ => ⟨[], rfl⟩⟩
  | cons f fs ih =>
    rw [List.map_cons, List.nodup_cons] at hnodup
    rw [List.forall_mem_cons] at hstands ⊢
    have hserved := hlogits f st hstands.1
    have hne : ∀ g ∈ fs, g.seqId ≠ f.seqId := fun g hg he =>
      hnodup.1 (he ▸ List.mem_map_of_mem hg)
    have hothers : ∀ g ∈ fs, Stands law m g.seqId (g.seq, (logits f.context f.seq st).2.2) g.seen :=
      fun g hg => (hstands.2 g hg).elsewhere (hne g hg) hserved.own
    have hrest := ih hnodup.2 hothers
    have hone := hserved.succeeds_iff
    rw [List.map_cons, List.map_cons, logitsInTurn]
    generalize logits f.context f.seq st = one at hone hrest
    obtain ⟨res, seq, st₁⟩ := one
    cases res with
    | error e =>
      constructor
      · rintro ⟨_, hv⟩
        cases hv
      · intro h
        obtain ⟨_, hv⟩ := hone.mpr h.1
        cases hv
    | ok v =>
      have hfits := hone.mp ⟨v, rfl⟩
      dsimp only at hrest ⊢
      generalize logitsInTurn logits (fs.map Feed.context) (fs.map Feed.seq) st₁ = out at hrest
      obtain ⟨res, seqs, st₂⟩ := out
      rw [← hrest]
      cases res with
      | error e =>
        constructor
        · rintro ⟨_, hv⟩
          cases hv
        · intro h
          obtain ⟨_, hv⟩ := h.2
          cases hv
      | ok vs => exact ⟨fun _ => ⟨hfits, vs, rfl⟩, fun _ => ⟨v :: vs, rfl⟩⟩

end

/-! ## Backends -/

/-- A backend that answers as the model exactly where it can, for up to `limit` sequences at
once. -/
structure InferenceBackend.Serves {cfg : KvConfig σ} (backend : InferenceBackend σ K)
    (m : TokenModel K) (law : ReadsBack cfg.storage) (limit : Nat) : Prop where
  hidden : ∀ (f : Feed σ) (st : σ), Stands law m f.seqId (f.seq, st) f.seen →
    Served law m f st (Fits m cfg f 1) (m.hidden f.context) (backend.hidden f.context f.seq st)
  logits : ∀ (f : Feed σ) (st : σ), Stands law m f.seqId (f.seq, st) f.seen →
    Served law m f st (Fits m cfg f 1) (m.logits f.context) (backend.logits f.context f.seq st)
  logitsMulti : ∀ (f : Feed σ) (n : Nat) (st : σ), Stands law m f.seqId (f.seq, st) f.seen →
    0 < n → Served law m f st (Fits m cfg f n) ((lastContexts f.context n).map m.logits)
      (backend.logitsMulti f.context f.seq n st)
  logitsBatch : ∀ (fs : List (Feed σ)) (st : σ), (fs.map Feed.seqId).Nodup →
    (∀ f ∈ fs, Stands law m f.seqId (f.seq, st) f.seen) → fs.length ≤ limit →
    ServedAll law m fs st (backend.logitsBatch (fs.map Feed.context) (fs.map Feed.seq) st)

/-! ## Without a storage -/

section

variable {cfg : KvConfig σ} {law : ReadsBack cfg.storage} {m : TokenModel K} {seq : SeqState σ}
  {ts : List Token}

/-- Where there is no storage, there is nothing in it. -/
theorem nothing_stored (hs : cfg.storage = none) :
    ∃ law : ReadsBack cfg.storage, Steady law ∧ ∀ st p, law.content st p = none := by
  rw [hs]
  exact ⟨noDisk, ⟨fun _ _ _ => rfl, fun b hb => by cases hb⟩, fun _ _ => rfl⟩

theorem Describes.stands (h : Describes m cfg seq ts) (hlaw : ∀ st p, law.content st p = none)
    (st : σ) : ∃ seqId, Stands law m seqId (seq, st) ts := by
  obtain ⟨seqId, hlayers⟩ := h.layers
  refine ⟨seqId, h.size, h.sizeLinear, fun l kv hkv => (hlayers l kv hkv).1,
    ⟨fun l kv hkv => (hlayers l kv hkv).1.seqId, fun l kv hkv => ?_,
      fun l kv hkv => (hlayers l kv hkv).1.storage, fun l kv hkv => ?_⟩, h.linear⟩
  · exact (hlayers l kv hkv).1.layer
  · exact (hlayers l kv hkv).2.disk_congr fun b _ => hlaw st _

theorem Stands.describes_of_nothing {seqId : Nat} {st : σ} (h : Stands law m seqId (seq, st) ts)
    (hlaw : ∀ st p, law.content st p = none) : Describes m cfg seq ts where
  size := h.size
  sizeLinear := h.sizeLinear
  layers := ⟨seqId, fun l kv hkv => ⟨h.shape l kv hkv,
    (h.layers.holds l kv hkv).disk_congr fun _ _ => (hlaw st _).symm⟩⟩
  linear := h.linear

/-- **The runtime's contract**, from what the backend owes; a backend that answers for several
positions has to keep copies of its recurrent states as well. -/
theorem InferenceBackend.Serves.honours {backend : InferenceBackend σ K} {limit : Nat}
    (hb : backend.Serves m law limit) (hlaw : ∀ st p, law.content st p = none)
    (hcopies : ∀ (f : Feed σ) (n : Nat) (st : σ), Stands law m f.seqId (f.seq, st) f.seen →
      0 < n → Fits m cfg f n → ∀ j, f.context.length - n < j → j < f.context.length →
      ∀ s, some s ∈ (backend.logitsMulti f.context f.seq n st).2.1.linear →
        s.recoverable j = true) : backend.Honours m cfg := by
  have hfits : ∀ {seqId : Nat} {seq : SeqState σ} {ts new : List Token} {n : Nat}, new ≠ [] →
      m.Knows (ts ++ new) → (ts ++ new).length ≤ cfg.maxPositions.toNat → n ≤ new.length →
      Fits m cfg ⟨seqId, seq, ts, new⟩ n := fun hne hknows hlen hn =>
    ⟨hne, hlen.trans (Nat.le_max_left ..), hknows.sublist (List.sublist_append_right ..), hn⟩
  refine ⟨fun {seq ts new} st h hne hknows hlen => ?_, fun {seq ts new} st h hne hknows hlen => ?_,
    fun {seq ts new} n st _ h hpos hn hknows hlen => ?_⟩
  · obtain ⟨seqId, hstands⟩ := h.stands hlaw st
    obtain ⟨hrun, hstands'⟩ := (hb.hidden ⟨seqId, seq, ts, new⟩ st hstands).run
      (hfits hne hknows hlen (List.length_pos_iff.mpr hne))
    exact ⟨_, _, hrun, hstands'.describes_of_nothing hlaw⟩
  · obtain ⟨seqId, hstands⟩ := h.stands hlaw st
    obtain ⟨hrun, hstands'⟩ := (hb.logits ⟨seqId, seq, ts, new⟩ st hstands).run
      (hfits hne hknows hlen (List.length_pos_iff.mpr hne))
    exact ⟨_, _, hrun, hstands'.describes_of_nothing hlaw⟩
  · obtain ⟨seqId, hstands⟩ := h.stands hlaw st
    have hne : new ≠ [] := List.ne_nil_of_length_pos (by omega)
    have hfits : Fits m cfg ⟨seqId, seq, ts, new⟩ n := hfits hne hknows hlen hn
    obtain ⟨hrun, hstands'⟩ :=
      (hb.logitsMulti ⟨seqId, seq, ts, new⟩ n st hstands hpos).run hfits
    refine ⟨_, _, hrun.trans (congrArg (fun l => (Except.ok l, _)) ?_),
      hstands'.describes_of_nothing hlaw, hcopies ⟨seqId, seq, ts, new⟩ n st hstands hpos hfits⟩
    rw [lastContexts, List.map_map]
    rfl

end

end Garuda
