import Garuda.Tokenizer.SpmThreads

/-!
# The heap merges as the ranks say

The loop over the heap is a run of the greedy merging of `Infra.Merging`, at the ranks that the
vocabulary's scores give.

* `Inv` — every candidate in the heap was a pair once, and every pair there is now is in the heap
* `mergePopped_cases` — a turn drops a candidate that is no pair, and merges one that is
* `mergePopped_spec` — the merge it makes is the one that comes first
* `encodeSpm_merges` — the tokens are those of the pieces that the text merges to
-/

namespace Garuda

open Infra Infra.Merging

/-! ## The order of the heap -/

namespace Spm

instance : Std.TransCmp Bigram.cmp :=
  transCmp_then (fun b : Bigram => b.score.totalKey) Bigram.left

theorem cmp_ne_lt {a b : Bigram} (h : Bigram.cmp a b ≠ .lt) :
    b.score.totalKey < a.score.totalKey ∨
      b.score.totalKey = a.score.totalKey ∧ a.left ≤ b.left := by
  rcases lt_trichotomy a.score.totalKey b.score.totalKey with hlt | heq | hgt
  · refine absurd ?_ h
    rw [Bigram.cmp, F32.totalCmp, compare_lt_iff_lt.mpr hlt]
    rfl
  · refine .inr ⟨heq.symm, not_lt.mp fun hlt => h ?_⟩
    rw [Bigram.cmp, F32.totalCmp, compare_eq_iff_eq.mpr heq, compare_lt_iff_lt.mpr hlt]
    rfl
  · exact .inl hgt

end Spm

namespace SpmTokenizer

open Spm

variable {t : SpmTokenizer} {ps pre post : List (List Char)} {p q : List Char} {syms : List Sym}
  {bg : Bigram} {heap : List Bigram}

/-- The lookup names only tokens of the vocabulary. -/
def InRange (t : SpmTokenizer) : Prop :=
  ∀ (s : String) (id : Token), t.lookup[s]? = some id → id.toNat < t.vocab.tokens.length

/-- The score at which two pieces that make `w` are joined, if the vocabulary has `w`. -/
def rank (t : SpmTokenizer) (w : List Char) : Option Int := do
  let id ← t.lookup[String.ofList w]?
  let entry ← t.vocab.tokens[id.toNat]?
  some entry.score.totalKey

/-- The candidate for the neighbours `p` and `q` after `pre`. -/
def pairOf (t : SpmTokenizer) (pre : List (List Char)) (p q : List Char) : Option Bigram := do
  let id ← t.lookup[String.ofList (p ++ q)]?
  let entry ← t.vocab.tokens[id.toNat]?
  some { left := place pre, right := place pre + p.length, score := entry.score
         size := (utf8 (p ++ q)).length }

theorem pairOf_some (h : t.pairOf pre p q = some bg) :
    bg.left = place pre ∧ bg.right = place pre + p.length ∧ bg.size = (utf8 (p ++ q)).length ∧
      t.rank (p ++ q) = some bg.score.totalKey := by
  rw [pairOf] at h
  obtain ⟨id, hid, h⟩ := Option.bind_eq_some_iff.mp h
  obtain ⟨entry, hentry, h⟩ := Option.bind_eq_some_iff.mp h
  cases h
  exact ⟨rfl, rfl, rfl, by simp only [rank, hid, hentry, Option.bind_eq_bind, Option.bind_some]⟩

theorem exists_pairOf {k : Int} (pre : List (List Char)) (h : t.rank (p ++ q) = some k) :
    ∃ bg, t.pairOf pre p q = some bg ∧ bg.score.totalKey = k := by
  rw [rank] at h
  obtain ⟨id, hid, h⟩ := Option.bind_eq_some_iff.mp h
  obtain ⟨entry, hentry, h⟩ := Option.bind_eq_some_iff.mp h
  cases h
  simp only [pairOf, hid, hentry, Option.bind_eq_bind, Option.bind_some]
  exact ⟨_, rfl, rfl⟩

/-- Where a pair stands says which candidate it is. -/
theorem pairOf_place {pre' : List (List Char)} (h : place pre = place pre') (p q : List Char) :
    t.pairOf pre p q = t.pairOf pre' p q := by
  rw [pairOf, pairOf, h]

/-! ## Queueing a candidate -/

theorem tryBigram_pair (ht : t.InRange) (h : Threads (pre ++ p :: q :: post) syms)
    (heap : List Bigram) :
    t.tryBigram (utf8 (pre ++ p :: q :: post).flatten) syms (place pre) (place pre + p.length) heap
      = .ok ((t.pairOf pre p q).toList ++ heap) := by
  have hl : syms[place pre]? = some (symOf pre p (q :: post)) := h.live rfl
  have hr : syms[place (pre ++ [p])]? = some (symOf (pre ++ [p]) q post) := h.live (by simp)
  have hplace : ((place pre : Int) + p.length).toNat = place (pre ++ [p]) := by
    rw [place_append, place_cons, place_nil]
    omega
  have hlp := length_utf8_pos (h.nonempty p (by simp))
  have hlq := length_utf8_pos (h.nonempty q (by simp))
  have hflat : (pre ++ p :: q :: post).flatten = pre.flatten ++ ((p ++ q) ++ post.flatten) := by
    simp
  have hslice : strSlice (utf8 (pre ++ p :: q :: post).flatten) (offset pre)
      (offset (pre ++ [p]) + (utf8 q).length) = .ok (p ++ q) := by
    rw [hflat]
    refine strSlice_utf8 rfl ?_
    rw [offset_append, offset_singleton, length_utf8_append]
    omega
  rw [tryBigram, if_neg (by omega), Int.toNat_natCast, index_eq hl, Checked.ok_bind, hplace,
    index_eq hr, Checked.ok_bind, if_neg (by simp only [symOf]; omega)]
  simp only [symOf, hslice, Checked.ok_bind]
  cases hid : t.lookup[String.ofList (p ++ q)]? with
  | none =>
    simp only [pairOf, hid]
    rfl
  | some id =>
    have hentry := List.getElem?_eq_getElem (ht _ id hid)
    simp only [index_eq hentry, Checked.ok_bind, pairOf, hid, hentry, Option.bind_eq_bind,
      Option.bind_some]
    rfl

/-- The candidates that a merge of the piece `m` after `pre` queues. -/
def pairBefore (t : SpmTokenizer) (pre : List (List Char)) (m : List Char) : Option Bigram :=
  pre.getLast?.bind fun u => t.pairOf pre.dropLast u m

def pairAfter (t : SpmTokenizer) (pre : List (List Char)) (m : List Char)
    (post : List (List Char)) : Option Bigram :=
  post.head?.bind fun v => t.pairOf pre m v

theorem tryBigram_before (ht : t.InRange) (h : Threads (pre ++ p :: post) syms)
    (heap : List Bigram) :
    t.tryBigram (utf8 (pre ++ p :: post).flatten) syms (before pre) (place pre) heap
      = .ok ((t.pairBefore pre p).toList ++ heap) := by
  rcases List.eq_nil_or_concat pre with rfl | ⟨pre, u, rfl⟩
  · rfl
  · rw [List.concat_eq_append] at h ⊢
    have hps : pre ++ [u] ++ p :: post = pre ++ u :: p :: post := by simp
    have hplace : (place (pre ++ [u]) : Int) = place pre + u.length := by
      rw [place_append, place_cons, place_nil]
      omega
    rw [hps] at h ⊢
    rw [before_concat, hplace, tryBigram_pair ht h]
    simp [pairBefore]

theorem tryBigram_after (ht : t.InRange) (h : Threads (pre ++ p :: post) syms)
    (heap : List Bigram) :
    t.tryBigram (utf8 (pre ++ p :: post).flatten) syms (place pre) (after pre p post) heap
      = .ok ((t.pairAfter pre p post).toList ++ heap) := by
  cases post with
  | nil => exact if_pos (.inr (by simp [after]))
  | cons v post => rw [after_cons, tryBigram_pair ht h]; rfl

/-! ## What the heap knows -/

/-- A candidate of two pieces that stood side by side once, and no piece starts within the first
of them. -/
def Past (t : SpmTokenizer) (ps : List (List Char)) (bg : Bigram) : Prop :=
  ∃ pre p q rest, t.pairOf pre p q = some bg ∧ p ≠ [] ∧ q ≠ [] ∧
    ps.flatten = pre.flatten ++ (p ++ (q ++ rest)) ∧
    ∀ pre' p' post', ps = pre' ++ p' :: post' →
      place pre' ≤ place pre ∨ place pre + p.length ≤ place pre'

structure Inv (t : SpmTokenizer) (ps : List (List Char)) (syms : List Sym) (heap : List Bigram) :
    Prop where
  threads : Threads ps syms
  past : ∀ bg ∈ heap, Past t ps bg
  queued : ∀ {pre p q post}, ps = pre ++ p :: q :: post → ∀ bg, t.pairOf pre p q = some bg →
    bg ∈ heap

theorem past_of_pair (hne : ∀ p ∈ ps, p ≠ []) (h : ps = pre ++ p :: q :: post)
    (hbg : t.pairOf pre p q = some bg) : Past t ps bg := by
  refine ⟨pre, p, q, post.flatten, hbg, hne p (by simp [h]), hne q (by simp [h]), by simp [h], ?_⟩
  intro pre' p' post' h'
  rcases split_cases (h.symm.trans h') with ⟨rfl, -, -⟩ | ⟨mid, rfl, -⟩ | ⟨mid, rfl, -⟩
  · exact .inl (Nat.le_refl _)
  · right
    rw [place_append, place_cons]
    omega
  · left
    rw [place_append]
    omega

/-- A merge takes no candidate's past away. -/
theorem Past.join (h : Past t (pre ++ p :: q :: post) bg) :
    Past t (pre ++ (p ++ q) :: post) bg := by
  obtain ⟨pre0, p0, q0, rest, hbg, hp, hq, hflat, hclear⟩ := h
  refine ⟨pre0, p0, q0, rest, hbg, hp, hq, ?_, ?_⟩
  · rw [← hflat]
    simp
  · intro pre' p' post' hsplit
    obtain ⟨pre1, p1, post1, hold, hplace⟩ := split_join hsplit
    rw [← hplace]
    exact hclear pre1 p1 post1 hold

/-- **A candidate whose symbols are both there, with as many bytes as when it was queued, is a
pair of neighbours.** -/
theorem live_pair {x y : List Char} {rest : List Char} {pre1 post1 pre2 post2 : List (List Char)}
    {a b : List Char} (hne : ∀ p ∈ ps, p ≠ []) (hx : x ≠ [])
    (hflat : ps.flatten = pre.flatten ++ (x ++ (y ++ rest)))
    (hclear : ∀ pre' p' post', ps = pre' ++ p' :: post' →
      place pre' ≤ place pre ∨ place pre + x.length ≤ place pre')
    (h1 : ps = pre1 ++ a :: post1) (hplace1 : place pre1 = place pre)
    (h2 : ps = pre2 ++ b :: post2) (hplace2 : place pre2 = place pre + x.length)
    (hsize : (utf8 a).length + (utf8 b).length = (utf8 (x ++ y)).length) :
    ps = pre1 ++ x :: y :: post2 := by
  have hlx := List.length_pos_iff.mpr hx
  rcases split_cases (h1.symm.trans h2) with ⟨rfl, -, -⟩ | ⟨mid, rfl, rfl⟩ | ⟨mid, rfl, -⟩
  · omega
  · rw [place_append, place_cons] at hplace2
    -- nothing starts between the two symbols
    have hmid : mid = [] := by
      cases mid with
      | nil => rfl
      | cons m mid =>
        have hla := List.length_pos_iff.mpr (hne a (by simp [h1]))
        have hlm := List.length_pos_iff.mpr (hne m (by simp [h1]))
        have hc := hclear (pre1 ++ [a]) m (mid ++ b :: post2) (by simp [h1])
        rw [place_append, place_cons, place_nil] at hc
        rw [place_cons] at hplace2
        omega
    subst hmid
    rw [place_nil] at hplace2
    have hcut : pre1.flatten ++ (a ++ (b ++ post2.flatten))
        = pre.flatten ++ (x ++ (y ++ rest)) := by
      rw [← hflat, h1]
      simp
    obtain ⟨hax, hby⟩ := List.append_inj (List.append_inj hcut hplace1).2 (by omega)
    subst hax
    rw [length_utf8_append] at hsize
    rw [← utf8_left_unique hby (by omega)]
    exact h1
  · have hlt := place_lt pre2 mid (hne b (by simp [h2]))
    omega

/-- The candidate that comes first is the merge to make. -/
theorem step_of_max (h : Inv t (pre ++ p :: q :: post) syms (bg :: heap))
    (hbg : t.pairOf pre p q = some bg) (hmax : ∀ b ∈ heap, Bigram.cmp bg b ≠ .lt) :
    Step t.rank (pre ++ p :: q :: post) (pre ++ (p ++ q) :: post) := by
  obtain ⟨hleft, -, -, hrank⟩ := pairOf_some hbg
  refine .merge hrank fun pre' k' hm => ?_
  obtain ⟨p', q', post', hsplit, hk'⟩ := hm
  obtain ⟨b, hb, rfl⟩ := exists_pairOf pre' hk'
  have hb' := (pairOf_some hb).1
  have hle : place pre ≤ place pre' → pre.length ≤ pre'.length := by
    intro hplace
    rcases split_cases hsplit with ⟨rfl, -, -⟩ | ⟨mid, rfl, -⟩ | ⟨mid, rfl, -⟩
    · exact Nat.le_refl _
    · rw [List.length_append]
      omega
    · have hlt := place_lt pre' mid (h.threads.nonempty p' (by simp))
      omega
  rcases List.mem_cons.mp (h.queued hsplit b hb) with rfl | hmem
  · exact .inr ⟨rfl, hle (by omega)⟩
  · exact (cmp_ne_lt (hmax b hmem)).imp_right fun ⟨hk, hl⟩ => ⟨hk, hle (by omega)⟩

/-! ## One turn of the loop -/

/-- No two neighbours have the candidate. -/
def Stale (t : SpmTokenizer) (ps : List (List Char)) (bg : Bigram) : Prop :=
  ∀ pre p q post, ps = pre ++ p :: q :: post → t.pairOf pre p q ≠ some bg

/-- A candidate that is no pair of neighbours may go. -/
theorem Inv.drop (h : Inv t ps syms (bg :: heap)) (hstale : Stale t ps bg) :
    Inv t ps syms heap := by
  refine ⟨h.threads, fun b hb => h.past b (List.mem_cons_of_mem bg hb), ?_⟩
  intro pre p q post hsplit b hb
  rcases List.mem_cons.mp (h.queued hsplit b hb) with rfl | hmem
  · exact absurd hb (hstale pre p q post hsplit)
  · exact hmem

/-- The symbols of a pair of neighbours are as its candidate says. -/
theorem pair_live (h : Threads (pre ++ p :: q :: post) syms) (hbg : t.pairOf pre p q = some bg) :
    syms[bg.left.toNat]? = some (symOf pre p (q :: post)) ∧
      syms[bg.right.toNat]? = some (symOf (pre ++ [p]) q post) ∧
      (symOf pre p (q :: post)).len ≠ 0 ∧ (symOf (pre ++ [p]) q post).len ≠ 0 ∧
      (symOf pre p (q :: post)).len + (symOf (pre ++ [p]) q post).len = bg.size := by
  obtain ⟨hleft, hright, hsize, -⟩ := pairOf_some hbg
  have hlp := length_utf8_pos (h.nonempty p (by simp))
  have hlq := length_utf8_pos (h.nonempty q (by simp))
  have hplace : bg.right.toNat = place (pre ++ [p]) := by
    rw [hright, place_append, place_cons, place_nil]
    omega
  rw [hleft, Int.toNat_natCast, hplace]
  refine ⟨h.live rfl, h.live (by simp), ?_, ?_, ?_⟩
  · exact Nat.ne_of_gt hlp
  · exact Nat.ne_of_gt hlq
  · rw [hsize, length_utf8_append]
    rfl

/-- The invariant after a merge, with the candidates it queues. -/
theorem Inv.join {out : List Sym} (h : Inv t (pre ++ p :: q :: post) syms (bg :: heap))
    (hbg : t.pairOf pre p q = some bg) (hout : Threads (pre ++ (p ++ q) :: post) out) :
    Inv t (pre ++ (p ++ q) :: post) out ((t.pairAfter pre (p ++ q) post).toList ++
      ((t.pairBefore pre (p ++ q)).toList ++ heap)) := by
  obtain ⟨hleft, -, -, -⟩ := pairOf_some hbg
  -- a pair that the merge does not touch is still queued
  have hkept : ∀ pre1 p1 q1 post1, pre ++ p :: q :: post = pre1 ++ p1 :: q1 :: post1 →
      place pre1 ≠ place pre → ∀ b, t.pairOf pre1 p1 q1 = some b → b ∈ heap := by
    intro pre1 p1 q1 post1 hsplit hne b hb
    rcases List.mem_cons.mp (h.queued hsplit b hb) with rfl | hmem
    · have hleft1 := (pairOf_some hb).1
      omega
    · exact hmem
  refine ⟨hout, ?_, ?_⟩
  · intro b hb
    rcases List.mem_append.mp hb with hb | hb
    · obtain ⟨v, hv, hpair⟩ := Option.bind_eq_some_iff.mp (Option.mem_toList.mp hb)
      obtain ⟨post1, rfl⟩ := List.head?_eq_some_iff.mp hv
      exact past_of_pair hout.nonempty rfl hpair
    · rcases List.mem_append.mp hb with hb | hb
      · obtain ⟨u, hu, hpair⟩ := Option.bind_eq_some_iff.mp (Option.mem_toList.mp hb)
        obtain ⟨pre1, rfl⟩ := List.getLast?_eq_some_iff.mp hu
        rw [List.dropLast_concat] at hpair
        have hsplit : pre1 ++ [u] ++ (p ++ q) :: post = pre1 ++ u :: (p ++ q) :: post := by simp
        exact past_of_pair hout.nonempty hsplit hpair
      · exact (h.past b (List.mem_cons_of_mem bg hb)).join
  · intro pre1 p1 q1 post1 hsplit b hb
    have hp := h.threads.nonempty p (by simp)
    rcases split_cases hsplit with ⟨rfl, rfl, rfl⟩ | ⟨mid, rfl, rfl⟩ | ⟨mid, rfl, hmid⟩
    · exact List.mem_append_left _ (Option.mem_toList.mpr (by simpa [pairAfter] using hb))
    · have hplace := place_join pre mid p q
      refine List.mem_append_right _ (List.mem_append_right _ ?_)
      refine hkept (pre ++ p :: q :: mid) p1 q1 post1 (by simp) ?_ b
        (by rw [pairOf_place hplace.symm]; exact hb)
      exact Nat.ne_of_gt (place_lt pre (q :: mid) hp)
    · refine List.mem_append_right _ ?_
      cases mid with
      | nil =>
        obtain ⟨rfl, -⟩ := List.cons.inj hmid
        exact List.mem_append_left _ (Option.mem_toList.mpr (by simpa [pairBefore] using hb))
      | cons m mid =>
        obtain ⟨rfl, rfl⟩ := List.cons.inj hmid
        refine List.mem_append_right _ (hkept pre1 p1 q1 (mid ++ p :: q :: post) (by simp) ?_ b hb)
        have hp1 := h.threads.nonempty p1 (by simp)
        exact Nat.ne_of_lt (place_lt pre1 (q1 :: mid) hp1)

/-- The candidate is a pair of neighbours, and the turn made one piece of them. -/
def Joined (t : SpmTokenizer) (ps : List (List Char)) (bg : Bigram) (heap : List Bigram)
    (out : Checked OutOfFuel (List Sym × List Bigram)) : Prop :=
  ∃ pre p q post syms', ps = pre ++ p :: q :: post ∧ t.pairOf pre p q = some bg ∧
    out = .ok (syms', (t.pairAfter pre (p ++ q) post).toList ++
      ((t.pairBefore pre (p ++ q)).toList ++ heap)) ∧
    Threads (pre ++ (p ++ q) :: post) syms'

theorem joined_pair (ht : t.InRange) (h : Threads (pre ++ p :: q :: post) syms)
    (hbg : t.pairOf pre p q = some bg) :
    Joined t (pre ++ p :: q :: post) bg heap (do
      let syms ← joinSyms syms bg.left.toNat bg.right.toNat (symOf (pre ++ [p]) q post) bg.left
      let sl ← index syms bg.left.toNat
      let heap ← t.tryBigram (utf8 (pre ++ p :: q :: post).flatten) syms sl.prev bg.left heap
      let heap ← t.tryBigram (utf8 (pre ++ p :: q :: post).flatten) syms bg.left sl.next heap
      .ok (syms, heap)) := by
  obtain ⟨hl, hr, -, -, -⟩ := pair_live h hbg
  obtain ⟨hleft, hright, -, -⟩ := pairOf_some hbg
  have hlp := List.length_pos_iff.mpr (h.nonempty p (by simp))
  have hl' : bg.left.toNat = place pre := by omega
  have hr' : bg.right.toNat = place (pre ++ [p]) := by
    rw [place_append, place_cons, place_nil]
    omega
  rw [hl'] at hl
  rw [hr'] at hr
  have hlr : place pre ≠ place (pre ++ [p]) := by
    rw [place_append, place_cons, place_nil]
    omega
  have hnext : (symOf (pre ++ [p]) q post).next < (syms.length : Int) := by
    rw [h.size]
    simp only [symOf, after, place, List.flatten_append, List.flatten_cons, List.length_append,
      List.flatten_nil, List.length_nil]
    split
    · omega
    next hpost =>
      obtain ⟨v, post, rfl⟩ := List.exists_cons_of_ne_nil hpost
      have hlv := List.length_pos_iff.mpr (h.nonempty v (by simp))
      rw [List.flatten_cons, List.length_append]
      omega
  obtain ⟨out, hjoin, hlen, hout⟩ := joinSyms_spec (List.getElem?_eq_some_iff.mp hl).1
    (List.getElem?_eq_some_iff.mp hr).1 hlr hnext
  have hthreads := h.join hlen hout
  have hflat : (pre ++ p :: q :: post).flatten = (pre ++ (p ++ q) :: post).flatten := by simp
  have hsl : out[place pre]? = some (symOf pre (p ++ q) post) := hthreads.live rfl
  rw [hl', hr', hleft, hjoin, Checked.ok_bind, index_eq hsl, Checked.ok_bind, hflat]
  simp only [symOf]
  rw [tryBigram_before ht hthreads, Checked.ok_bind, tryBigram_after ht hthreads, Checked.ok_bind]
  exact ⟨pre, p, q, post, out, rfl, hbg, rfl, hthreads⟩

/-- **A turn drops a candidate that is no pair of neighbours, and merges one that is.** -/
theorem mergePopped_cases (ht : t.InRange) (h : Inv t ps syms (bg :: heap)) :
    Stale t ps bg ∧ t.mergePopped (utf8 ps.flatten) syms bg heap = .ok (syms, heap) ∨
      Joined t ps bg heap (t.mergePopped (utf8 ps.flatten) syms bg heap) := by
  obtain ⟨pre0, x, y, rest, hbg, hx, hy, hflat, hclear⟩ := h.past bg List.mem_cons_self
  obtain ⟨hleft, hright, hsize, -⟩ := pairOf_some hbg
  have hlx := List.length_pos_iff.mpr hx
  have hly := List.length_pos_iff.mpr hy
  have hlen : place pre0 + x.length < syms.length := by
    rw [h.threads.size, hflat]
    simp only [List.length_append, place]
    omega
  obtain ⟨sl, hsl⟩ : ∃ sl, syms[bg.left.toNat]? = some sl :=
    ⟨_, List.getElem?_eq_getElem (by omega)⟩
  obtain ⟨sr, hsr⟩ : ∃ sr, syms[bg.right.toNat]? = some sr :=
    ⟨_, List.getElem?_eq_getElem (by omega)⟩
  rw [mergePopped]
  simp only [index_eq hsl, index_eq hsr, Checked.ok_bind]
  split
  next hdead =>
    refine .inl ⟨fun pre p q post hsplit hpair => ?_, rfl⟩
    subst hsplit
    obtain ⟨hl, hr, hl0, hr0, -⟩ := pair_live h.threads hpair
    rw [hsl, Option.some.injEq] at hl
    rw [hsr, Option.some.injEq] at hr
    rw [hl, hr] at hdead
    exact hdead.elim hl0 hr0
  next hboth =>
    split
    next hstale =>
      refine .inl ⟨fun pre p q post hsplit hpair => ?_, rfl⟩
      subst hsplit
      obtain ⟨hl, hr, -, -, hsum⟩ := pair_live h.threads hpair
      rw [hsl, Option.some.injEq] at hl
      rw [hsr, Option.some.injEq] at hr
      rw [hl, hr] at hstale
      exact hstale hsum
    next hfresh =>
      right
      obtain ⟨hsl0, hsr0⟩ := not_or.mp hboth
      obtain ⟨pre1, a, post1, h1, hplace1⟩ := h.threads.dead hsl hsl0
      obtain ⟨pre2, b, post2, h2, hplace2⟩ := h.threads.dead hsr hsr0
      have hla := h.threads.live h1
      have hlb := h.threads.live h2
      rw [← hplace1, hsl, Option.some.injEq] at hla
      rw [← hplace2, hsr, Option.some.injEq] at hlb
      have hsum : (utf8 a).length + (utf8 b).length = (utf8 (x ++ y)).length := by
        rw [← hsize, ← Decidable.not_not.mp hfresh, hla, hlb]
        rfl
      have hpair := live_pair h.threads.nonempty hx hflat hclear h1 (by omega) h2 (by omega) hsum
      clear h1 h2 hla hlb
      subst hpair
      have hbg1 : t.pairOf pre1 x y = some bg := by
        rw [pairOf_place (show place pre1 = place pre0 by omega)]
        exact hbg
      obtain ⟨-, hr, -, -, -⟩ := pair_live h.threads hbg1
      rw [hsr, Option.some.injEq] at hr
      rw [hr]
      exact joined_pair ht h.threads hbg1

/-- What a turn leaves: a run of merges, and less to do. -/
def Turned (t : SpmTokenizer) (ps : List (List Char)) (heap : List Bigram)
    (out : Checked OutOfFuel (List Sym × List Bigram)) : Prop :=
  ∃ syms' heap' ps', out = .ok (syms', heap') ∧ Inv t ps' syms' heap' ∧ Run t.rank ps ps' ∧
    2 * ps'.length + heap'.length ≤ 2 * ps.length + heap.length

/-- **A merge is the one that comes first.** -/
theorem mergePopped_spec (ht : t.InRange) (h : Inv t ps syms (bg :: heap))
    (hmax : ∀ b ∈ heap, Bigram.cmp bg b ≠ .lt) :
    Turned t ps heap (t.mergePopped (utf8 ps.flatten) syms bg heap) := by
  rcases mergePopped_cases ht h with ⟨hstale, heq⟩ | ⟨pre, p, q, post, out, rfl, hbg, heq, hout⟩
  · exact ⟨syms, heap, ps, heq, h.drop hstale, .refl, Nat.le_refl _⟩
  · refine ⟨out, _, _, heq, h.join hbg hout, .single (step_of_max h hbg hmax), ?_⟩
    have hb := (t.pairBefore pre (p ++ q)).length_toList_le
    have ha := (t.pairAfter pre (p ++ q) post).length_toList_le
    simp only [List.length_append, List.length_cons]
    omega

end SpmTokenizer

end Garuda
