import Garuda.Tokenizer.SpmMerge

/-!
# The pieces of an encoded text

* `mergeLoop_spec` — the loop ends, and has made every merge there was to make
* `encodeSpm_merges` — the tokens of a text are those of the pieces its characters merge to
* `fromGguf_inRange` — a loaded vocabulary names only tokens it has
-/

namespace Garuda

open Infra Infra.Merging

namespace SpmTokenizer

open Spm

variable {t : SpmTokenizer} {ps : List (List Char)} {syms : List Sym} {heap : List Bigram}

/-! ## The loop -/

theorem Inv.of_mem_iff {heap' : List Bigram} (h : Inv t ps syms heap)
    (hmem : ∀ b, b ∈ heap ↔ b ∈ heap') : Inv t ps syms heap' where
  threads := h.threads
  past b hb := h.past b ((hmem b).mpr hb)
  queued hsplit b hb := (hmem b).mp (h.queued hsplit b hb)

/-- **The loop ends, and has made every merge there was to make.** -/
theorem mergeLoop_spec (ht : t.InRange) (fuel : Nat) :
    ∀ {ps : List (List Char)} {syms : List Sym} {heap : List Bigram}, Inv t ps syms heap →
      2 * ps.length + heap.length < fuel →
      ∃ out qs, t.mergeLoop (utf8 ps.flatten) fuel syms heap = .ok out ∧ Threads qs out ∧
        Run t.rank ps qs ∧ ∀ pre k, ¬ Mergeable t.rank qs pre k := by
  induction fuel with
  | zero => exact fun _ hlt => absurd hlt (Nat.not_lt_zero _)
  | succ fuel ih =>
    intro ps syms heap hinv hlt
    rw [mergeLoop]
    cases hpop : popMax Bigram.cmp heap with
    | none =>
      refine ⟨syms, ps, rfl, hinv.threads, .refl, ?_⟩
      rintro pre k ⟨p, q, post, hsplit, hk⟩
      obtain ⟨b, hb, -⟩ := exists_pairOf pre hk
      have hmem := hinv.queued hsplit b hb
      rw [popMax_eq_none.mp hpop] at hmem
      exact absurd hmem List.not_mem_nil
    | some out =>
      obtain ⟨bg, rest⟩ := out
      have hperm := popMax_perm hpop
      have hlen := hperm.length_eq
      rw [List.length_cons] at hlen
      have hinv' := hinv.of_mem_iff fun b => hperm.mem_iff
      obtain ⟨syms', heap', ps', heq, hinv1, hrun, hless⟩ :=
        mergePopped_spec ht hinv' (popMax_max hpop)
      obtain ⟨out, qs, hloop, hthreads, hrun', hfinal⟩ := ih hinv1 (by omega)
      simp only [heq, Checked.ok_bind]
      rw [← hrun.flatten]
      exact ⟨out, qs, hloop, hthreads, hrun.trans hrun', hfinal⟩

/-! ## The first candidates -/

/-- The heap after the pairs that start before character `k`. -/
structure FirstPairs (t : SpmTokenizer) (ps : List (List Char)) (k : Nat) (heap : List Bigram) :
    Prop where
  length : heap.length ≤ k
  past : ∀ bg ∈ heap, Past t ps bg
  queued : ∀ {pre p q post}, ps = pre ++ p :: q :: post → pre.length < k →
    ∀ bg, t.pairOf pre p q = some bg → bg ∈ heap

theorem letters_cut {chars : List Char} {k : Nat} (hk : k + 1 < chars.length) :
    ∃ s c d r, letters chars = letters s ++ [c] :: [d] :: r ∧ s.length = k := by
  refine ⟨chars.take k, chars[k], chars[k + 1], letters (chars.drop (k + 2)), ?_, ?_⟩
  · have hsplit : chars = chars.take k ++ chars[k] :: chars[k + 1] :: chars.drop (k + 2) := by
      rw [← List.drop_eq_getElem_cons, ← List.drop_eq_getElem_cons, List.take_append_drop]
    conv_lhs => rw [hsplit]
    exact List.map_append
  · rw [List.length_take]
    omega

theorem firstBigrams_upTo (ht : t.InRange) {chars : List Char}
    (h : Threads (letters chars) syms) (k : Nat) : k < chars.length →
    ∃ heap, (List.range' 1 k).foldlM (fun heap (i : Nat) =>
        t.tryBigram (utf8 chars) syms ((i : Int) - 1) i heap) [] = .ok heap ∧
      FirstPairs t (letters chars) k heap := by
  induction k with
  | zero =>
    exact fun _ => ⟨[], rfl, Nat.le_refl 0, fun _ hb => absurd hb List.not_mem_nil,
      fun _ hlt => absurd hlt (Nat.not_lt_zero _)⟩
  | succ k ih =>
    intro hk
    obtain ⟨heap, heq, hfirst⟩ := ih (Nat.lt_of_succ_lt hk)
    obtain ⟨s, c, d, r, hcut, hs⟩ := letters_cut hk
    have hplace : place (letters s) = k := by rw [place_letters, hs]
    have htry := tryBigram_pair ht (hcut ▸ h) heap
    rw [← hcut, flatten_letters, hplace] at htry
    have hi : ((1 + k : Nat) : Int) = (k : Int) + ([c] : List Char).length := by
      rw [List.length_singleton]
      omega
    have hi' : ((1 + k : Nat) : Int) - 1 = k := by omega
    refine ⟨(t.pairOf (letters s) [c] [d]).toList ++ heap, ?_, ?_, ?_, ?_⟩
    · rw [List.range'_1_concat, List.foldlM_append, heq, Checked.ok_bind, List.foldlM_cons, hi', hi,
        htry, Checked.ok_bind]
      rfl
    · have hone := (t.pairOf (letters s) [c] [d]).length_toList_le
      have hlen := hfirst.length
      rw [List.length_append]
      omega
    · intro bg hbg
      rcases List.mem_append.mp hbg with hbg | hbg
      · exact past_of_pair h.nonempty hcut (Option.mem_toList.mp hbg)
      · exact hfirst.past bg hbg
    · intro pre p q post hsplit hlt bg hbg
      by_cases hpre : pre.length = k
      · -- the pair just queued
        have hlen : pre.length = (letters s).length := by rw [hpre, letters, List.length_map, hs]
        obtain ⟨rfl, hrest⟩ := List.append_inj (hsplit.symm.trans hcut) hlen
        simp only [List.cons.injEq] at hrest
        obtain ⟨rfl, rfl, rfl⟩ := hrest
        exact List.mem_append_left _ (Option.mem_toList.mpr hbg)
      · exact List.mem_append_right _ (hfirst.queued hsplit (by omega) bg hbg)

theorem firstBigrams_inv (ht : t.InRange) {chars : List Char} (h : Threads (letters chars) syms)
    (hlt : chars.length < 2 ^ 31) :
    ∃ heap, t.firstBigrams (utf8 chars) syms = .ok heap ∧ heap.length ≤ chars.length ∧
      Inv t (letters chars) syms heap := by
  have hsize : syms.length = chars.length := by rw [h.size, flatten_letters]
  rw [firstBigrams, hsize, Build.asI32_of_lt hlt, Int.toNat_natCast]
  rcases Nat.eq_zero_or_pos chars.length with hzero | hpos
  · obtain rfl := List.length_eq_zero_iff.mp hzero
    exact ⟨[], rfl, Nat.le_refl 0, h, fun _ hb => absurd hb List.not_mem_nil,
      fun hsplit => by simp [letters] at hsplit⟩
  · obtain ⟨heap, heq, hfirst⟩ := firstBigrams_upTo ht h (chars.length - 1) (by omega)
    have hlen := hfirst.length
    refine ⟨heap, heq, by omega, h, hfirst.past, fun hsplit bg hbg => ?_⟩
    refine hfirst.queued hsplit ?_ bg hbg
    have hcount := congrArg List.length hsplit
    simp only [letters, List.length_map, List.length_append, List.length_cons] at hcount
    omega

/-! ## Reading the pieces out -/

theorem symTokens_eq {pre post : List (List Char)} {p : List Char} (hp : p ≠ []) :
    t.symTokens (utf8 (pre ++ p :: post).flatten) (symOf pre p post) = .ok (t.pieceTokens p) := by
  have hflat : (pre ++ p :: post).flatten = pre.flatten ++ (p ++ post.flatten) := by simp
  have hlen : 0 < (symOf pre p post).len := length_utf8_pos hp
  have hslice : strSlice (utf8 (pre.flatten ++ (p ++ post.flatten))) (offset pre)
      (offset pre + (utf8 p).length) = .ok p := strSlice_utf8 rfl rfl
  rw [symTokens, if_pos hlen, hflat]
  simp only [symOf, hslice, Checked.ok_bind]

theorem readOut_spec {qs : List (List Char)} (h : Threads qs syms) (post : List (List Char)) :
    ∀ (pre : List (List Char)) (fuel : Nat), qs = pre ++ post → post.length ≤ fuel →
      t.readOut (utf8 qs.flatten) syms fuel (if post = [] then -1 else place pre)
        = .ok (post.flatMap t.pieceTokens) := by
  induction post with
  | nil =>
    intro pre fuel _ _
    rw [if_pos rfl, readOut.eq_def, if_neg (by omega)]
    rfl
  | cons p post ih =>
    intro pre fuel hqs hfuel
    obtain ⟨fuel, rfl⟩ := Nat.exists_eq_succ_of_ne_zero (Nat.ne_of_gt
      (Nat.lt_of_lt_of_le (Nat.zero_lt_succ post.length) hfuel))
    have hp := h.nonempty p (by simp [hqs])
    have hs := h.live hqs
    have hlt : place pre < syms.length := (List.getElem?_eq_some_iff.mp hs).1
    have hnext : after pre p post = if post = [] then -1 else (place (pre ++ [p]) : Int) := by
      rw [after, place_append, place_cons, place_nil]
      split <;> omega
    have hrest := ih (pre ++ [p]) fuel (by simp [hqs]) (Nat.le_of_succ_le_succ hfuel)
    have htok : t.symTokens (utf8 qs.flatten) (symOf pre p post) = .ok (t.pieceTokens p) := by
      rw [hqs]
      exact symTokens_eq hp
    rw [if_neg (List.cons_ne_nil p post), readOut.eq_def, Int.toNat_natCast, if_pos ⟨by omega, hlt⟩]
    simp only [index_eq hs, Checked.ok_bind, htok]
    have hsym : (symOf pre p post).next = if post = [] then -1 else (place (pre ++ [p]) : Int) :=
      hnext
    rw [hsym, hrest, Checked.ok_bind, List.flatMap_cons]

theorem length_le_flatten {qs : List (List Char)} (h : ∀ p ∈ qs, p ≠ []) :
    qs.length ≤ qs.flatten.length := by
  induction qs with
  | nil => exact Nat.le_refl 0
  | cons p qs ih =>
    have hp := List.length_pos_iff.mpr (h p List.mem_cons_self)
    have hrest := ih fun q hq => h q (List.mem_cons_of_mem p hq)
    rw [List.length_cons, List.flatten_cons, List.length_append]
    omega

theorem readOut_pieces {qs : List (List Char)} (h : Threads qs syms) :
    t.readOut (utf8 qs.flatten) syms syms.length 0 = .ok (qs.flatMap t.pieceTokens) := by
  have hlen : qs.length ≤ syms.length := by
    rw [h.size]
    exact length_le_flatten h.nonempty
  cases qs with
  | nil =>
    have hsize : syms.length = 0 := h.size
    rw [readOut.eq_def, if_neg (by omega)]
    rfl
  | cons p qs =>
    have hread := readOut_spec (t := t) h (p :: qs) [] syms.length rfl hlen
    rwa [if_neg (List.cons_ne_nil p qs)] at hread

/-! ## The whole encoding -/

/-- **The tokens of a text are those of the pieces that its characters merge to.** -/
theorem encodeSpm_merges (ht : t.InRange) (b : Build) (text : String) (lead : Bool)
    (hlt : (normalize text.toList lead).length < 2 ^ 31) :
    ∃ qs, Merges t.rank (normalize text.toList lead) qs ∧
      t.encodeSpm b text lead = .ok (t.leading lead ++ qs.flatMap t.pieceTokens) := by
  generalize hchars : normalize text.toList lead = chars at hlt
  obtain ⟨syms, hsyms, hthreads⟩ := symbols_letters b hlt
  obtain ⟨heap, hheap, hlen, hinv⟩ := firstBigrams_inv ht hthreads hlt
  have hsize : syms.length = chars.length := by rw [hthreads.size, flatten_letters]
  have hcount : (letters chars).length = chars.length := List.length_map _
  obtain ⟨out, qs, hloop, hout, hrun, hfinal⟩ :=
    mergeLoop_spec ht (3 * syms.length + 1) hinv (by omega)
  rw [flatten_letters] at hloop
  have hflat : qs.flatten = chars := by rw [hrun.flatten, flatten_letters]
  have hread := readOut_pieces (t := t) hout
  rw [hflat] at hread
  refine ⟨qs, ⟨hrun, hfinal⟩, ?_⟩
  simp only [encodeSpm, hchars, hsyms, hheap, hloop, hread, Checked.ok_bind]

/-- A text that the index cannot count is not encoded by a build that checks for overflow. -/
theorem encodeSpm_panic (t : SpmTokenizer) (text : String) (lead : Bool)
    (hle : 2 ^ 31 ≤ (normalize text.toList lead).length) :
    t.encodeSpm .debug text lead = .panic := by
  rw [encodeSpm, symbols_panic hle]
  rfl

end SpmTokenizer

end Garuda
