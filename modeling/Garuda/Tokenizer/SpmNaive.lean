import Garuda.Infra.NaiveMerge
import Garuda.Tokenizer.ScoreOrder
import Garuda.Tokenizer.SpmControl

/-!
# The heap against the naive merge

The loop over the heap, turn by turn, beside the program that looks through all neighbours again
after every merge.

* `numberRank` ranks a piece by its score as a number, and `0.0` above `-0.0`.
* `Recognises` — a state of the loop in which the next candidate is taken for what it is
* `encodeSpm_naive` — the loop ends with the pieces of the naive merge
-/

namespace Garuda

open Infra Infra.Merging

namespace SpmTokenizer

open Spm

variable {t : SpmTokenizer}

/-! ## Ranks as numbers -/

/-- The score of a piece of the vocabulary. -/
def score (t : SpmTokenizer) (w : List Char) : Option F32 := do
  let id ← t.lookup[String.ofList w]?
  let entry ← t.vocab.tokens[id.toNat]?
  some entry.score

def numberRank (t : SpmTokenizer) (w : List Char) : Option (ℚ ×ₗ Bool) :=
  (t.score w).map F32.numberKey

/-- The score as a number alone, so that the two zeros tie. -/
def valueRank (t : SpmTokenizer) (w : List Char) : Option ℚ := (t.score w).map F32.value

def FiniteScores (t : SpmTokenizer) : Prop := ∀ e ∈ t.vocab.tokens, e.score.isFinite = true

instance (t : SpmTokenizer) : Decidable t.FiniteScores :=
  inferInstanceAs (Decidable (∀ e ∈ t.vocab.tokens, e.score.isFinite = true))

theorem rank_eq (t : SpmTokenizer) : t.rank = fun w => (t.score w).map F32.totalKey := by
  funext w
  rw [rank, score]
  cases t.lookup[String.ofList w]? with
  | none => rfl
  | some id =>
    simp only [Option.bind_eq_bind, Option.bind_some]
    cases t.vocab.tokens[id.toNat]? <;> rfl

theorem score_finite (h : t.FiniteScores) {w : List Char} {x : F32} (hx : t.score w = some x) :
    x.isFinite = true := by
  rw [score] at hx
  obtain ⟨id, -, hx⟩ := Option.bind_eq_some_iff.mp hx
  obtain ⟨entry, hentry, hx⟩ := Option.bind_eq_some_iff.mp hx
  cases hx
  exact h entry (List.mem_of_getElem? hentry)

theorem sameOrder (h : t.FiniteScores) : SameOrder t.score F32.totalKey F32.numberKey :=
  fun _ _ _ _ hx hy => F32.totalKey_lt_iff (score_finite h hx) (score_finite h hy)

theorem run_numberRank (h : t.FiniteScores) {ps qs : List (List Char)} (hr : Run t.rank ps qs) :
    Run t.numberRank ps qs := by
  rw [rank_eq] at hr
  exact Relation.ReflTransGen.mono (fun _ _ => step_of_order (sameOrder h)) _ _ hr

/-! ## The loop, turn by turn -/

/-- One turn: the candidate that comes first is popped. -/
def Turn (t : SpmTokenizer) (norm : Bytes) (s s' : List Sym × List Bigram) : Prop :=
  ∃ bg rest, popMax Bigram.cmp s.2 = some (bg, rest) ∧ t.mergePopped norm s.1 bg rest = .ok s'

/-- The symbols are those of the pieces `ps`, every pair of neighbours that the vocabulary has is in
the heap, and the candidate that comes first is dropped if it is stale and merged if not. -/
structure Recognises (t : SpmTokenizer) (ps : List (List Char)) (syms : List Sym)
    (heap : List Bigram) : Prop where
  threads : Threads ps syms
  queued : ∀ {pre p q post}, ps = pre ++ p :: q :: post → ∀ bg, t.pairOf pre p q = some bg →
    bg ∈ heap
  turn : ∀ bg rest, popMax Bigram.cmp heap = some (bg, rest) →
    Stale t ps bg ∧ t.mergePopped (utf8 ps.flatten) syms bg rest = .ok (syms, rest) ∨
      Joined t ps bg rest (t.mergePopped (utf8 ps.flatten) syms bg rest)

theorem Inv.popped {ps : List (List Char)} {syms : List Sym} {heap rest : List Bigram}
    {bg : Bigram} (h : Inv t ps syms heap) (hpop : popMax Bigram.cmp heap = some (bg, rest)) :
    Inv t ps syms (bg :: rest) :=
  h.of_mem_iff fun _ => (popMax_perm hpop).mem_iff

theorem Inv.recognises (ht : t.InRange) {ps : List (List Char)} {syms : List Sym}
    {heap : List Bigram} (h : Inv t ps syms heap) : Recognises t ps syms heap where
  threads := h.threads
  queued := h.queued
  turn _ _ hpop := mergePopped_cases ht (h.popped hpop)

/-- A turn keeps the invariant, and merges as the ranks say. -/
theorem Inv.turn (ht : t.InRange) {ps : List (List Char)} {s s' : List Sym × List Bigram}
    (h : Inv t ps s.1 s.2) (hs : t.Turn (utf8 ps.flatten) s s') :
    ∃ ps', Inv t ps' s'.1 s'.2 ∧ Run t.rank ps ps' := by
  obtain ⟨bg, rest, hpop, heq⟩ := hs
  obtain ⟨syms', heap', ps', heq', hinv, hrun, -⟩ :=
    mergePopped_spec ht (h.popped hpop) (popMax_max hpop)
  rw [heq] at heq'
  cases heq'
  exact ⟨ps', hinv, hrun⟩

/-- So does every run of turns. -/
theorem Inv.turns (ht : t.InRange) {ps : List (List Char)} {s s' : List Sym × List Bigram}
    (h : Inv t ps s.1 s.2)
    (hs : Relation.ReflTransGen (t.Turn (utf8 ps.flatten)) s s') :
    ∃ ps', Inv t ps' s'.1 s'.2 ∧ Run t.rank ps ps' := by
  induction hs with
  | refl => exact ⟨ps, h, .refl⟩
  | tail _ hturn ih =>
    obtain ⟨ps1, hinv, hrun⟩ := ih
    rw [← hrun.flatten] at hturn
    obtain ⟨ps2, hinv', hrun'⟩ := hinv.turn ht hturn
    exact ⟨ps2, hinv', hrun.trans hrun'⟩

/-- A loop that ended has no use for more turns. -/
theorem mergeLoop_mono {norm : Bytes} {out : List Sym} {fuel : Nat} :
    ∀ {fuel' : Nat} {syms : List Sym} {heap : List Bigram},
      t.mergeLoop norm fuel syms heap = .ok out → fuel ≤ fuel' →
      t.mergeLoop norm fuel' syms heap = .ok out := by
  induction fuel with
  | zero => exact fun h => by cases h
  | succ fuel ih =>
    intro fuel' syms heap h hle
    obtain ⟨fuel', rfl⟩ := Nat.exists_eq_add_of_le hle
    rw [Nat.add_right_comm]
    rw [mergeLoop] at h ⊢
    cases hpop : popMax Bigram.cmp heap with
    | none =>
      rw [hpop] at h
      exact h
    | some popped =>
      rw [hpop] at h
      simp only at h ⊢
      cases hturn : t.mergePopped norm syms popped.1 popped.2 with
      | ok s =>
        rw [hturn, Checked.ok_bind] at h
        rw [Checked.ok_bind]
        exact ih h (Nat.le_add_right _ _)
      | err e => rw [hturn] at h; cases h
      | panic => rw [hturn] at h; cases h

/-! ## Against the naive merge -/

/-- From these symbols and this heap the loop ends at the pieces `qs`, and in no state on the way
is a candidate taken for what it is not. -/
structure LoopRun (t : SpmTokenizer) (chars : List Char) (syms : List Sym) (heap : List Bigram)
    (qs : List (List Char)) : Prop where
  ends : ∃ out turns, Threads qs out ∧
    ∀ fuel, turns ≤ fuel → t.mergeLoop (utf8 chars) fuel syms heap = .ok out
  onTheWay : ∀ s, Relation.ReflTransGen (t.Turn (utf8 chars)) (syms, heap) s →
    ∃ ps, Run t.numberRank (letters chars) ps ∧ Recognises t ps s.1 s.2

theorem Inv.loopRun (ht : t.InRange) (hfinite : t.FiniteScores) {chars : List Char}
    {syms : List Sym} {heap : List Bigram} (h : Inv t (letters chars) syms heap) :
    LoopRun t chars syms heap (naive t.numberRank (letters chars)) := by
  constructor
  · obtain ⟨out, qs, hloop, hthreads, hrun, hfinal⟩ :=
      mergeLoop_spec ht (2 * (letters chars).length + heap.length + 1) h (Nat.lt_succ_self _)
    rw [flatten_letters] at hloop
    have hmerges : Merges (fun w => (t.score w).map F32.totalKey) chars qs := by
      rw [← rank_eq]
      exact ⟨hrun, hfinal⟩
    rw [merges_unique (merges_of_order (sameOrder hfinite) hmerges) (naive_merges chars)]
      at hthreads
    exact ⟨out, _, hthreads, fun fuel hle => mergeLoop_mono hloop hle⟩
  · intro s hs
    rw [← flatten_letters chars] at hs
    obtain ⟨ps, hinv, hrun⟩ := h.turns ht hs
    exact ⟨ps, run_numberRank hfinite hrun, hinv.recognises ht⟩

/-- **The heap merges as the naive merge does**: the loop ends with its pieces, drops every stale
candidate and no other, and the tokens are those of the pieces. -/
theorem encodeSpm_naive {g : Gguf} (h : fromGguf g = .ok t) (hfinite : t.FiniteScores) (b : Build)
    (text : String) (lead : Bool) (hlt : (normalize text.toList lead).length < 2 ^ 31) :
    ∃ syms heap, symbols b (normalize text.toList lead) = .ok syms ∧
      t.firstBigrams (utf8 (normalize text.toList lead)) syms = .ok heap ∧
      LoopRun t (normalize text.toList lead) syms heap
        (naive t.numberRank (letters (normalize text.toList lead))) ∧
      t.encodeSpm b text lead = .ok (t.leading lead ++
        (naive t.numberRank (letters (normalize text.toList lead))).flatMap t.pieceTokens) := by
  have ht := fromGguf_inRange h
  obtain ⟨syms, hsyms, hthreads⟩ := symbols_letters b hlt
  obtain ⟨heap, hheap, -, hinv⟩ := firstBigrams_inv ht hthreads hlt
  obtain ⟨qs, hmerges, henc⟩ := encodeSpm_merges ht b text lead hlt
  rw [rank_eq] at hmerges
  rw [merges_unique (merges_of_order (sameOrder hfinite) hmerges) (naive_merges _)] at henc
  exact ⟨syms, heap, hsyms, hheap, hinv.loopRun ht hfinite, henc⟩

/-- A vocabulary in which `ab` scores `-0.0` and `bc` scores `0.0`. -/
def zerosGguf : Gguf where
  version := 3
  metadata := ((∅ : Metadata).insert "tokenizer.ggml.model" (.string "llama")).insert
    "tokenizer.ggml.tokens" (.array [.string "<unk>", .string "<s>", .string "</s>",
      .string "a", .string "b", .string "c", .string "ab", .string "bc"]) |>.insert
    "tokenizer.ggml.scores" (.array [.f32 ⟨0⟩, .f32 ⟨0⟩, .f32 ⟨0⟩, .f32 ⟨0⟩, .f32 ⟨0⟩, .f32 ⟨0⟩,
      .f32 ⟨0x80000000⟩, .f32 ⟨0⟩])
  tensors := []
  dataOffset := 0

theorem encodeSpm_naive_zeros : ∃ t, fromGguf zerosGguf = .ok t ∧
    t.encodeFragment .debug "abc" = .ok ((naive t.numberRank (letters "abc".toList)).flatMap
      t.pieceTokens) := by
  have h : (fromGguf zerosGguf).toOption.any (fun t => decide t.FiniteScores) = true := by
    decide +kernel
  obtain ⟨t, ht, hd⟩ := (Option.any_eq_true _ _).mp h
  have hload := eq_ok_of_toOption ht
  obtain ⟨-, -, -, -, -, henc⟩ :=
    encodeSpm_naive hload (of_decide_eq_true hd) .debug "abc" false (by decide)
  exact ⟨t, hload, henc⟩

/-- As numbers the two scores are equal and `ab` is leftmost, but `total_cmp` puts `bc` first. And
the mark that leads a text counts among its characters. -/
theorem zeros_differ : (∃ t, fromGguf zerosGguf = .ok t ∧ t.FiniteScores ∧
      naive t.valueRank (letters "abc".toList) = [['a', 'b'], ['c']] ∧
      [['a', 'b'], ['c']].flatMap t.pieceTokens = [6, 5] ∧
      ∀ b, t.encodeFragment b "abc" = .ok [3, 7]) ∧
    ∀ t : SpmTokenizer, ∃ text : String, text.length < 2 ^ 31 ∧ t.encode .debug text = .panic := by
  constructor
  · have h : (fromGguf zerosGguf).toOption.any (fun t => decide (t.FiniteScores ∧
        naive t.valueRank (letters "abc".toList) = [['a', 'b'], ['c']] ∧
        [['a', 'b'], ['c']].flatMap t.pieceTokens = [6, 5] ∧
        ∀ b ∈ [Build.debug, .release], t.encodeFragment b "abc" = .ok [3, 7])) = true := by
      decide +kernel
    obtain ⟨t, ht, hd⟩ := (Option.any_eq_true _ _).mp h
    obtain ⟨hfinite, hnaive, htokens, hboth⟩ := of_decide_eq_true hd
    exact ⟨t, eq_ok_of_toOption ht, hfinite, hnaive, htokens,
      fun b => hboth b (by cases b <;> simp)⟩
  · intro t
    have hlen : (String.ofList (List.replicate (2 ^ 31 - 1) 'a')).length = 2 ^ 31 - 1 := by
      rw [String.length_ofList, List.length_replicate]
    refine ⟨String.ofList (List.replicate (2 ^ 31 - 1) 'a'), ?_, ?_⟩
    · rw [hlen]
      decide
    · refine encodeSpm_panic t _ true ?_
      rw [length_normalize, String.length_toList, hlen]
      decide

end SpmTokenizer

end Garuda
