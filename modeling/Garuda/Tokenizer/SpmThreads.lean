import Garuda.Infra.Merging
import Garuda.Tokenizer.SpmEncode

/-!
# The symbol list and the pieces it stands for

The symbols that were not merged away are the pieces of the text in order, each at the place where
its first character stood.

* `Threads` relates the two.
* `Threads.join` — merging two neighbours in the list joins two pieces
* `symbols_letters` — at first every character is a piece
-/

namespace Garuda

open Infra Infra.Merging

namespace Spm

/-! ## Slices of a text -/

theorem length_utf8_append (s t : List Char) :
    (utf8 (s ++ t)).length = (utf8 s).length + (utf8 t).length := by
  rw [utf8_append, List.length_append]

theorem length_utf8_singleton (c : Char) : (utf8 [c]).length = c.utf8Size := by
  rw [utf8_cons, utf8_nil, List.append_nil, String.length_utf8EncodeChar]

theorem length_utf8_pos {s : List Char} (h : s ≠ []) : 0 < (utf8 s).length := by
  obtain ⟨c, s, rfl⟩ := List.exists_cons_of_ne_nil h
  rw [utf8_cons, List.length_append, String.length_utf8EncodeChar]
  have := c.utf8Size_pos
  omega

/-- Two beginnings of one text with equally many bytes are the same. -/
theorem utf8_left_unique {s t s' t' : List Char} (h : s ++ t = s' ++ t')
    (hlen : (utf8 s).length = (utf8 s').length) : s = s' := by
  have hnil : ∀ {a : List Char}, (utf8 a).length = 0 → a = [] := by
    intro a ha
    by_contra hne
    have := length_utf8_pos hne
    omega
  rcases List.append_eq_append_iff.mp h with ⟨a, rfl, -⟩ | ⟨a, rfl, -⟩
  · rw [length_utf8_append] at hlen
    rw [hnil (a := a) (by omega), List.append_nil]
  · rw [length_utf8_append] at hlen
    rw [hnil (a := a) (by omega), List.append_nil]

theorem isCharBoundary_utf8 (s t : List Char) :
    isCharBoundary (utf8 (s ++ t)) (utf8 s).length = true := by
  rw [utf8_append, isCharBoundary, List.getElem?_append_right (Nat.le_refl _), Nat.sub_self]
  cases t with
  | nil => simp
  | cons c t =>
    obtain ⟨b, rest, hb, -, hcont⟩ := head_utf8EncodeChar c []
    rw [utf8_cons, hb]
    simp only [List.cons_append, List.getElem?_cons_zero]
    exact decide_eq_true (.inr hcont)

theorem strSlice_utf8 {s w t : List Char} {start stop : Nat} (hstart : start = (utf8 s).length)
    (hstop : stop = start + (utf8 w).length) :
    strSlice (utf8 (s ++ (w ++ t))) start stop = .ok w := by
  have hb : isCharBoundary (utf8 (s ++ (w ++ t))) start = true := by
    rw [hstart]
    exact isCharBoundary_utf8 s (w ++ t)
  have hb' : isCharBoundary (utf8 (s ++ (w ++ t))) stop = true := by
    rw [hstop, hstart, ← length_utf8_append, ← List.append_assoc]
    exact isCharBoundary_utf8 (s ++ w) t
  have hcut : ((utf8 (s ++ (w ++ t))).drop start).take (stop - start) = utf8 w := by
    rw [utf8_append, utf8_append, hstart, List.drop_left, hstop, hstart, Nat.add_sub_cancel_left,
      List.take_left]
  rw [strSlice, if_pos ⟨by omega, hb, hb'⟩, hcut, fromUtf8_utf8]

/-! ## Where a piece starts -/

variable {ps pre post : List (List Char)} {p q : List Char} {syms : List Sym}

/-- The index of the symbol of the piece after `pre`. -/
def place (pre : List (List Char)) : Nat := pre.flatten.length

def offset (pre : List (List Char)) : Nat := (utf8 pre.flatten).length

theorem place_append (pre post : List (List Char)) :
    place (pre ++ post) = place pre + place post := by
  rw [place, List.flatten_append, List.length_append, place, place]

theorem place_cons (p : List Char) (post : List (List Char)) :
    place (p :: post) = p.length + place post := by
  rw [place, List.flatten_cons, List.length_append, place]

@[simp] theorem place_nil : place [] = 0 := rfl

theorem offset_append (pre post : List (List Char)) :
    offset (pre ++ post) = offset pre + offset post := by
  rw [offset, List.flatten_append, length_utf8_append, offset, offset]

theorem offset_singleton (p : List Char) : offset [p] = (utf8 p).length := by
  rw [offset, List.flatten_singleton]

/-- A piece that comes first starts before. -/
theorem place_lt (pre mid : List (List Char)) (hp : p ≠ []) :
    place pre < place (pre ++ p :: mid) := by
  rw [place_append, place_cons]
  have := List.length_pos_iff.mpr hp
  omega

/-! ## The list and the pieces -/

/-- The index before the piece after `pre`. -/
def before (pre : List (List Char)) : Int := if pre = [] then -1 else place pre.dropLast

/-- The index after the piece `p`. -/
def after (pre : List (List Char)) (p : List Char) (post : List (List Char)) : Int :=
  if post = [] then -1 else place pre + p.length

def symOf (pre : List (List Char)) (p : List Char) (post : List (List Char)) : Sym where
  start := offset pre
  len := (utf8 p).length
  prev := before pre
  next := after pre p post

structure Threads (ps : List (List Char)) (syms : List Sym) : Prop where
  size : syms.length = ps.flatten.length
  nonempty : ∀ p ∈ ps, p ≠ []
  live : ∀ {pre p post}, ps = pre ++ p :: post → syms[place pre]? = some (symOf pre p post)
  dead : ∀ {i s}, syms[i]? = some s → s.len ≠ 0 → ∃ pre p post, ps = pre ++ p :: post ∧
    i = place pre

theorem before_concat (pre : List (List Char)) (p : List Char) : before (pre ++ [p]) = place pre := by
  simp [before]

theorem after_cons (pre : List (List Char)) (p q : List Char) (post : List (List Char)) :
    after pre p (q :: post) = place pre + p.length := by
  simp [after]

/-! ## Indexing -/

theorem index_eq {α : Type} {v : List α} {i : Nat} {a : α} (h : v[i]? = some a) :
    index v i = .ok a := by
  rw [index, h]

theorem update_eq {α : Type} {v : List α} {i : Nat} (h : i < v.length) (f : α → α) :
    update v i f = .ok (v.modify i f) := if_pos h

/-- What merging symbol `r` into symbol `l` makes of symbol `j`. -/
def edited (l r : Nat) (sr : Sym) (j : Nat) (s : Sym) : Sym where
  start := s.start
  len := if j = r then 0 else if j = l then s.len + sr.len else s.len
  prev := if sr.next = j then l else s.prev
  next := if j = l then sr.next else s.next

theorem joinSyms_spec {l r : Nat} {sr : Sym} (hl : l < syms.length) (hr : r < syms.length)
    (hlr : l ≠ r) (hnext : sr.next < syms.length) :
    ∃ out, joinSyms syms l r sr l = .ok out ∧ out.length = syms.length ∧
      ∀ j, out[j]? = syms[j]?.map (edited l r sr j) := by
  rw [joinSyms, update_eq hl, Checked.ok_bind, update_eq (by rw [List.length_modify]; exact hr),
    Checked.ok_bind, update_eq (by rw [List.length_modify, List.length_modify]; exact hl),
    Checked.ok_bind, relink]
  split
  next hpos =>
    have hlt : sr.next.toNat < syms.length := by omega
    rw [update_eq (by simpa using hlt)]
    refine ⟨_, rfl, by simp, fun j => ?_⟩
    simp only [List.getElem?_modify]
    cases syms[j]? with
    | none => rfl
    | some s =>
      have hiff : sr.next.toNat = j ↔ sr.next = j := by omega
      simp only [Option.map_eq_map, Option.map_some, edited, hiff, Option.some.injEq]
      by_cases hjl : l = j
      · subst hjl
        by_cases hn : sr.next = l <;> simp [hn, hlr, hlr.symm]
      · by_cases hjr : r = j
        · subst hjr
          by_cases hn : sr.next = r <;> simp [hn, hlr, hlr.symm]
        · by_cases hn : sr.next = j <;> simp [hn, hjl, hjr, Ne.symm hjl, Ne.symm hjr]
  next hneg =>
    refine ⟨_, rfl, by simp, fun j => ?_⟩
    simp only [List.getElem?_modify]
    cases syms[j]? with
    | none => rfl
    | some s =>
      have hn : ¬ sr.next = j := by omega
      simp only [Option.map_eq_map, Option.map_some, edited, Option.some.injEq]
      by_cases hjl : l = j
      · subst hjl
        simp [hn, hlr, hlr.symm]
      · by_cases hjr : r = j
        · subst hjr
          simp [hn, hlr, hlr.symm]
        · simp [hn, hjl, hjr, Ne.symm hjl, Ne.symm hjr]

/-! ## Merging two neighbours -/

theorem place_join (pre post : List (List Char)) (p q : List Char) :
    place (pre ++ (p ++ q) :: post) = place (pre ++ p :: q :: post) := by
  simp only [place_append, place_cons, List.length_append]
  omega

theorem offset_join (pre post : List (List Char)) (p q : List Char) :
    offset (pre ++ (p ++ q) :: post) = offset (pre ++ p :: q :: post) := by
  simp only [offset, List.flatten_append, List.flatten_cons, List.append_assoc]

/-- Where a piece starts after a merge, one started before. -/
theorem split_join {pre' post' : List (List Char)} {p' : List Char}
    (h : pre ++ (p ++ q) :: post = pre' ++ p' :: post') :
    ∃ pre0 p0 post0, pre ++ p :: q :: post = pre0 ++ p0 :: post0 ∧ place pre0 = place pre' := by
  rcases split_cases h with ⟨rfl, -, -⟩ | ⟨mid, rfl, rfl⟩ | ⟨mid, rfl, -⟩
  · exact ⟨pre, p, q :: post, rfl, rfl⟩
  · exact ⟨pre ++ p :: q :: mid, p', post', by simp, (place_join pre mid p q).symm⟩
  · exact ⟨pre', p', mid ++ p :: q :: post, by simp, rfl⟩

theorem after_of_le {i : Nat} (hi : i ≤ place pre) (hp : p ≠ []) : after pre p post ≠ i := by
  have hpos := List.length_pos_iff.mpr hp
  rw [after]
  split <;> omega

theorem before_join (pre mid : List (List Char)) (p q : List Char) (hmid : mid ≠ []) :
    before (pre ++ p :: q :: mid) = before (pre ++ (p ++ q) :: mid) := by
  obtain ⟨m, mid, rfl⟩ := List.exists_cons_of_ne_nil hmid
  have hdrop (x : List Char) : (pre ++ x :: m :: mid).dropLast = pre ++ x :: (m :: mid).dropLast := by
    rw [List.dropLast_append_of_ne_nil (by simp), List.dropLast_cons_of_ne_nil (by simp)]
  rw [before, before, if_neg (by simp), if_neg (by simp), hdrop, place_join,
    List.dropLast_append_of_ne_nil (by simp), List.dropLast_cons_of_ne_nil (by simp),
    List.dropLast_cons_of_ne_nil (by simp)]

/-- The symbol of a piece that starts after the merged pair. -/
theorem edited_right {mid post1 : List (List Char)} {p1 : List Char}
    (hp : p ≠ []) (hq : q ≠ []) (hmid : ∀ m ∈ mid, m ≠ []) :
    edited (place pre) (place (pre ++ [p])) (symOf (pre ++ [p]) q (mid ++ p1 :: post1))
        (place (pre ++ p :: q :: mid)) (symOf (pre ++ p :: q :: mid) p1 post1)
      = symOf (pre ++ (p ++ q) :: mid) p1 post1 := by
  have hlp := List.length_pos_iff.mpr hp
  have hlq := List.length_pos_iff.mpr hq
  have hr : ¬ place (pre ++ p :: q :: mid) = place (pre ++ [p]) := by
    simp only [place_append, place_cons, place_nil]
    omega
  have hl : ¬ place (pre ++ p :: q :: mid) = place pre := by
    simp only [place_append, place_cons]
    omega
  have hnext : (symOf (pre ++ [p]) q (mid ++ p1 :: post1)).next
      = (place (pre ++ [p]) + q.length : Nat) := by
    simp [symOf, after]
  simp only [edited, if_neg hr, if_neg hl, hnext]
  simp only [symOf, Sym.mk.injEq, after, place_join, and_true, true_and]
  refine ⟨(offset_join pre mid p q).symm, ?_⟩
  cases mid with
  | nil =>
    have heq : ((place (pre ++ [p]) + q.length : Nat) : Int) = (place (pre ++ [p, q]) : Nat) := by
      simp only [place_append, place_cons, place_nil]
      omega
    rw [if_pos heq, before_concat]
  | cons m mid =>
    have hlm := List.length_pos_iff.mpr (hmid m List.mem_cons_self)
    have hne : ¬ ((place (pre ++ [p]) + q.length : Nat) : Int)
        = (place (pre ++ p :: q :: m :: mid) : Nat) := by
      simp only [place_append, place_cons, place_nil]
      omega
    rw [if_neg hne, before_join _ _ _ _ (List.cons_ne_nil m mid)]

/-- **Merging two neighbours in the list joins two pieces.** -/
theorem Threads.join {out : List Sym} (h : Threads (pre ++ p :: q :: post) syms)
    (hlen : out.length = syms.length)
    (hout : ∀ j, out[j]? = syms[j]?.map
      (edited (place pre) (place (pre ++ [p])) (symOf (pre ++ [p]) q post) j)) :
    Threads (pre ++ (p ++ q) :: post) out := by
  have hp : p ≠ [] := h.nonempty p (by simp)
  have hq : q ≠ [] := h.nonempty q (by simp)
  have hlp := List.length_pos_iff.mpr hp
  have hr : place (pre ++ [p]) = place pre + p.length := by
    rw [place_append, place_cons, place_nil, Nat.add_zero]
  have hafter : ∀ i ≤ place (pre ++ [p]), (symOf (pre ++ [p]) q post).next ≠ i := by
    intro i hi
    exact after_of_le hi hq
  refine ⟨?_, ?_, ?_, ?_⟩
  · rw [hlen, h.size]
    simp
  · intro m hm
    rcases List.mem_append.mp hm with hm | hm
    · exact h.nonempty m (List.mem_append_left _ hm)
    · rcases List.mem_cons.mp hm with rfl | hm
      · simp [hp]
      · exact h.nonempty m (by simp [hm])
  · intro pre1 p1 post1 hsplit
    rw [hout]
    rcases split_cases hsplit with ⟨rfl, rfl, rfl⟩ | ⟨mid, rfl, rfl⟩ | ⟨mid, rfl, rfl⟩
    · -- the merged piece
      rw [h.live rfl, Option.map_some, edited, if_neg (by omega), if_pos rfl, if_pos rfl,
        if_neg (hafter _ (by omega))]
      simp only [symOf, length_utf8_append, after, hr, List.length_append, Int.natCast_add,
        Option.some.injEq, Sym.mk.injEq, true_and]
      split <;> omega
    · have hold : pre ++ p :: q :: (mid ++ p1 :: post1) = (pre ++ p :: q :: mid) ++ p1 :: post1 := by
        simp
      rw [place_join, h.live hold, Option.map_some,
        edited_right hp hq fun m hm => h.nonempty m (by simp [hm])]
    · -- a piece before the pair
      have hlt := place_lt pre1 mid (h.nonempty p1 (by simp))
      have hold : (pre1 ++ p1 :: mid) ++ p :: q :: post = pre1 ++ p1 :: (mid ++ p :: q :: post) := by
        simp
      have hne : ¬ place pre1 = place (pre1 ++ p1 :: mid) := by omega
      have hne' : ¬ place pre1 = place (pre1 ++ p1 :: mid ++ [p]) := by omega
      rw [h.live hold, Option.map_some]
      simp only [edited, if_neg hne, if_neg hne', if_neg (hafter _ (by omega : place pre1 ≤ _))]
      simp [symOf, after]
  · intro i s hs hs0
    rw [hout] at hs
    obtain ⟨s0, hs1, rfl⟩ := Option.map_eq_some_iff.mp hs
    by_cases hi : i = place pre
    · exact ⟨pre, p ++ q, post, rfl, hi⟩
    · by_cases hir : i = place (pre ++ [p])
      · simp [edited, hir] at hs0
      · simp only [edited, if_neg hir, if_neg hi] at hs0
        obtain ⟨pre1, p1, post1, hsplit, rfl⟩ := h.dead hs1 hs0
        rcases split_cases hsplit with ⟨rfl, -, -⟩ | ⟨mid, rfl, hpost⟩ | ⟨mid, rfl, -⟩
        · exact absurd rfl hi
        · cases mid with
          | nil => exact absurd rfl hir
          | cons m mid =>
            obtain ⟨rfl, rfl⟩ := List.cons.inj hpost
            exact ⟨pre ++ (p ++ q) :: mid, p1, post1, by simp, (place_join pre mid p q).symm⟩
        · exact ⟨pre1, p1, mid ++ (p ++ q) :: post, by simp, rfl⟩

/-! ## The first symbols -/

theorem newSym_eq (b : Build) {count : Nat} (start : Nat) (ch : Char) (h : count + 1 < 2 ^ 31) :
    newSym b count start ch = .ok {
      start, len := ch.utf8Size, prev := (count : Int) - 1, next := (count : Int) + 1 } := by
  rw [newSym, Build.asI32_of_lt (by omega), Build.fitI32_of_lt b (by omega) (by omega),
    Checked.ok_bind, Build.fitI32_of_lt b (by omega) (by omega), Checked.ok_bind]

theorem newSym_panic {count : Nat} (start : Nat) (ch : Char) (h : count + 1 = 2 ^ 31) :
    newSym .debug count start ch = .panic := by
  rw [newSym, Build.asI32_of_lt (by omega), Build.fitI32_of_lt _ (by omega) (by omega),
    Checked.ok_bind, Build.debug_fitI32 (by omega), Checked.panic_bind]

theorem symbolsFrom_spec (b : Build) (chars : List Char) : ∀ (count start : Nat),
    count + chars.length < 2 ^ 31 →
    ∃ syms, symbolsFrom b count start chars = .ok syms ∧ syms.length = chars.length ∧
      ∀ {s c t}, chars = s ++ c :: t → syms[s.length]? = some {
        start := start + (utf8 s).length, len := c.utf8Size
        prev := count + s.length - 1, next := count + s.length + 1 } := by
  induction chars with
  | nil => exact fun count start _ => ⟨[], rfl, rfl, fun h => by simp at h⟩
  | cons ch rest ih =>
    intro count start hlt
    rw [List.length_cons] at hlt
    obtain ⟨syms, heq, hlen, hat⟩ := ih (count + 1) (start + ch.utf8Size) (by omega)
    refine ⟨{ start, len := ch.utf8Size, prev := (count : Int) - 1, next := (count : Int) + 1 }
      :: syms, ?_, ?_, ?_⟩
    · rw [symbolsFrom, newSym_eq b start ch (by omega), Checked.ok_bind, heq, Checked.ok_bind]
    · rw [List.length_cons, hlen, List.length_cons]
    · intro s c t hsplit
      cases s with
      | nil =>
        obtain ⟨rfl, -⟩ := List.cons.inj hsplit
        simp
      | cons a s =>
        obtain ⟨rfl, hrest⟩ := List.cons.inj hsplit
        rw [List.length_cons, List.getElem?_cons_succ, hat hrest, utf8_cons, List.length_append,
          String.length_utf8EncodeChar]
        simp only [Option.some.injEq, Sym.mk.injEq]
        refine ⟨by omega, trivial, by omega, by omega⟩

theorem place_letters (s : List Char) : place (letters s) = s.length := by
  rw [place, flatten_letters]

theorem before_letters (s : List Char) : before (letters s) = (s.length : Int) - 1 := by
  rcases List.eq_nil_or_concat s with rfl | ⟨s, c, rfl⟩
  · rfl
  · have hconcat : letters (s ++ [c]) = letters s ++ [[c]] := List.map_append
    rw [List.concat_eq_append, hconcat, before_concat, place_letters, List.length_append,
      List.length_singleton]
    omega

/-- A piece of a text cut into characters. -/
theorem letters_split {chars : List Char} (h : letters chars = pre ++ p :: post) :
    ∃ s c t, chars = s ++ c :: t ∧ pre = letters s ∧ p = [c] ∧ post = letters t := by
  obtain ⟨s, rest, rfl, rfl, hrest⟩ := List.map_eq_append_iff.mp h
  obtain ⟨c, t, rfl, rfl, rfl⟩ := List.map_eq_cons_iff.mp hrest
  exact ⟨s, c, t, rfl, rfl, rfl, rfl⟩

/-- **At first every character is a piece.** -/
theorem symbols_letters (b : Build) {chars : List Char} (hlt : chars.length < 2 ^ 31) :
    ∃ syms, symbols b chars = .ok syms ∧ Threads (letters chars) syms := by
  obtain ⟨syms, heq, hlen, hat⟩ := symbolsFrom_spec b chars 0 0 (by omega)
  refine ⟨endLast syms, by rw [symbols, heq]; rfl, ?_, ?_, ?_, ?_⟩
  · rw [endLast, List.length_modify, hlen, flatten_letters]
  · intro p hp
    obtain ⟨c, -, rfl⟩ := List.mem_map.mp hp
    exact List.cons_ne_nil c []
  · intro pre p post h
    obtain ⟨s, c, t, rfl, rfl, rfl, rfl⟩ := letters_split h
    rw [endLast, List.getElem?_modify, place_letters, hat rfl, hlen]
    simp only [Option.map_eq_map, Option.map_some, Option.some.injEq, symOf, before_letters,
      length_utf8_singleton, offset, flatten_letters, after, place_letters]
    cases t with
    | nil => simp [letters]
    | cons d t =>
      have hne : ¬ (s ++ c :: d :: t).length - 1 = s.length := by simp
      rw [if_neg hne, if_neg (by simp [letters])]
      simp
  · intro i s hs _
    have hi : i < chars.length := by
      have := (List.getElem?_eq_some_iff.mp hs).1
      rwa [endLast, List.length_modify, hlen] at this
    refine ⟨letters (chars.take i), [chars[i]], letters (chars.drop (i + 1)), ?_, ?_⟩
    · have hsplit : chars = chars.take i ++ chars[i] :: chars.drop (i + 1) := by simp
      conv_lhs => rw [hsplit]
      exact List.map_append
    · rw [place_letters, List.length_take, Nat.min_eq_left (Nat.le_of_lt hi)]

/-- A build that checks for overflow does not count further than its index goes. -/
theorem symbols_panic {chars : List Char} (hle : 2 ^ 31 ≤ chars.length) :
    symbols .debug chars = .panic := by
  have hfrom : ∀ {rest : List Char} {count : Nat} (start : Nat), count < 2 ^ 31 →
      2 ^ 31 ≤ count + rest.length → symbolsFrom .debug count start rest = .panic := by
    intro rest
    induction rest with
    | nil =>
      intro count start hlt hle
      rw [List.length_nil] at hle
      omega
    | cons ch rest ih =>
      intro count start hlt hle
      rw [List.length_cons] at hle
      by_cases hlast : count + 1 < 2 ^ 31
      · rw [symbolsFrom, newSym_eq _ start ch hlast, Checked.ok_bind, ih _ hlast (by omega),
          Checked.panic_bind]
      · rw [symbolsFrom, newSym_panic start ch (by omega), Checked.panic_bind]
  rw [symbols, hfrom 0 (by omega) (by omega)]
  rfl

end Spm

end Garuda
