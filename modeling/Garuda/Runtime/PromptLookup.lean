import Garuda.Infra.Build
import Garuda.Runtime.Session

/-!
# Prompt lookup

`draft_from_context` as it accesses the context: every slice of it and every difference of lengths
is checked.

* `Earlier context ngram start` says that the last `ngram` tokens also occur at `start`.
* `scanBack` is the scan, and `draftChecked` the function; `draftChecked_eq` says that no access of
  it goes wrong, so that it is `draftFromContext`.

`draftChecked_latest` says what it drafts: what follows the latest earlier occurrence.
-/

namespace Garuda

open Infra

/-- `&s[start..stop]` -/
def sliceOf {α : Type} (s : List α) (start stop : Nat) : Checked Unit (List α) :=
  if start ≤ stop ∧ stop ≤ s.length then .ok ((s.take stop).drop start) else .panic

/-- The scan, from the starts below the given one down to the first. -/
def scanBack (b : Build) (context needle : List Token) (maxTokens ngram : Nat) :
    Nat → Checked Unit (List Token)
  | 0 => .ok []
  | start + 1 => do
    let stop ← b.fit (start + ngram)
    let window ← sliceOf context start stop
    if window ≠ needle then scanBack b context needle maxTokens ngram start
    else do
      let rest ← b.sub context.length stop
      let take := min maxTokens rest
      if 0 < take then do
        let last ← b.fit (stop + take)
        sliceOf context stop last
      else scanBack b context needle maxTokens ngram start

/-- `draft_from_context` -/
def draftChecked (b : Build) (context : List Token) (maxTokens ngram : Nat) :
    Checked Unit (List Token) :=
  if maxTokens = 0 ∨ ngram = 0 ∨ context.length ≤ ngram then .ok []
  else do
    let searchEnd ← b.sub context.length ngram
    let needle ← sliceOf context searchEnd context.length
    scanBack b context needle maxTokens ngram searchEnd

/-! ## Accesses -/

section Accesses

variable {b : Build} {context : List Token} {maxTokens ngram : Nat}

theorem sliceOf_eq {α : Type} {s : List α} (start len : Nat) (h : start + len ≤ s.length) :
    sliceOf s start (start + len) = .ok ((s.drop start).take len) := by
  rw [sliceOf, if_pos ⟨Nat.le_add_right _ _, h⟩, List.drop_take, Nat.add_sub_cancel_left]

/-- Below the last `ngram` tokens, the scan stays within the context. The induction is on the starts
that are left. -/
theorem scanBack_eq (hlen : context.length < 2 ^ 64) {start : Nat}
    (h : start + ngram ≤ context.length) :
    scanBack b context (context.drop (context.length - ngram)) maxTokens ngram start
      = .ok (latestMatch context maxTokens ngram start) := by
  induction start with
  | zero => rfl
  | succ start ih =>
    have ih := ih (by omega)
    rw [scanBack, Build.fit_of_lt b (by omega), Checked.ok_bind, sliceOf_eq _ _ (by omega),
      Checked.ok_bind, latestMatch]
    by_cases hmatch : (context.drop start).take ngram = context.drop (context.length - ngram)
    · rw [if_neg (not_not.mpr hmatch), if_pos hmatch, Build.sub_of_le b (by omega),
        Checked.ok_bind]
      simp only [List.length_drop]
      split
      · rw [Build.fit_of_lt b (by omega), Checked.ok_bind, sliceOf_eq _ _ (by omega)]
      · exact ih
    · rw [if_pos hmatch, if_neg hmatch, ih]

/-- **No access goes wrong**, in either build. -/
theorem draftChecked_eq (hlen : context.length < 2 ^ 64) :
    draftChecked b context maxTokens ngram = .ok (draftFromContext context maxTokens ngram) := by
  rw [draftChecked, draftFromContext]
  split
  · rfl
  · rename_i h
    have hngram : ngram ≤ context.length := by omega
    have hneedle := sliceOf_eq (s := context) (context.length - ngram) ngram (by omega)
    rw [Nat.sub_add_cancel hngram, List.take_of_length_le (by rw [List.length_drop]; omega)]
      at hneedle
    rw [Build.sub_of_le b hngram, Checked.ok_bind, hneedle, Checked.ok_bind,
      scanBack_eq hlen (by omega)]

end Accesses

/-! ## What is drafted -/

/-- The last `ngram` tokens of the context also occur at `start`, before they do at the end. -/
def Earlier (context : List Token) (ngram start : Nat) : Prop :=
  start + ngram < context.length ∧
    ∀ j < ngram, context[start + j]? = context[context.length - ngram + j]?

section Drafts

variable {context : List Token} {maxTokens ngram : Nat}

theorem window_eq_iff {start : Nat} (h : start + ngram < context.length) :
    (context.drop start).take ngram = context.drop (context.length - ngram) ↔
      Earlier context ngram start := by
  have hend : (context.drop (context.length - ngram)).length = ngram := by
    rw [List.length_drop]
    omega
  constructor
  · intro heq
    refine ⟨h, fun j hj => ?_⟩
    rw [← List.getElem?_drop, ← List.getElem?_drop, ← heq, List.getElem?_take_of_lt hj]
  · rintro ⟨-, hsame⟩
    refine List.ext_getElem? fun j => ?_
    rcases Nat.lt_or_ge j ngram with hj | hj
    · rw [List.getElem?_take_of_lt hj, List.getElem?_drop, List.getElem?_drop, hsame j hj]
    · rw [List.getElem?_eq_none (by rw [List.length_take]; omega),
        List.getElem?_eq_none (by omega)]

/-- What a scan answers: there is no match among its starts, or it is what follows the latest. -/
inductive Scanned (context : List Token) (maxTokens ngram below : Nat) (out : List Token) : Prop
  | none (hout : out = []) (h : ∀ start < below, ¬ Earlier context ngram start)
  | latest (start : Nat) (hout : out = (context.drop (start + ngram)).take maxTokens)
      (hstart : start < below) (h : Earlier context ngram start)
      (hlatest : ∀ later, start < later → later < below → ¬ Earlier context ngram later)

theorem latestMatch_scanned (hmax : 0 < maxTokens) {below : Nat}
    (h : below + ngram ≤ context.length) :
    Scanned context maxTokens ngram below (latestMatch context maxTokens ngram below) := by
  induction below with
  | zero => exact .none rfl fun start hstart => absurd hstart (Nat.not_lt_zero start)
  | succ below ih =>
    rw [latestMatch]
    by_cases hmatch : (context.drop below).take ngram = context.drop (context.length - ngram)
    · -- a match below the end is followed by at least one token
      have hrest : 0 < min maxTokens (context.drop (below + ngram)).length := by
        rw [List.length_drop]
        omega
      rw [if_pos hmatch]
      dsimp only
      rw [if_pos hrest, List.take_eq_take_min.symm]
      exact .latest below rfl (Nat.lt_succ_self below) ((window_eq_iff (by omega)).mp hmatch)
        fun later hlt hle => absurd hle (by omega)
    · have hno := fun hearlier => hmatch ((window_eq_iff (by omega)).mpr hearlier)
      rw [if_neg hmatch]
      rcases ih (by omega) with ⟨hout, hnone⟩ | ⟨start, hout, hstart, hearlier, hlatest⟩
      · refine .none hout fun start hstart => ?_
        rcases Nat.lt_succ_iff_lt_or_eq.mp hstart with hlt | rfl
        · exact hnone start hlt
        · exact hno
      · refine .latest start hout (by omega) hearlier fun later hlt hle => ?_
        rcases Nat.lt_succ_iff_lt_or_eq.mp hle with hlt' | rfl
        · exact hlatest later hlt hlt'
        · exact hno

theorem not_earlier {start : Nat} (h : context.length ≤ start + ngram) :
    ¬ Earlier context ngram start := fun hearlier => absurd hearlier.1 (Nat.not_lt.mpr h)

theorem draftFromContext_scanned (hmax : 0 < maxTokens) (hngram : 0 < ngram)
    (hshort : ngram < context.length) :
    Scanned context maxTokens ngram (context.length - ngram)
      (draftFromContext context maxTokens ngram) := by
  rw [draftFromContext, if_neg (by omega)]
  exact latestMatch_scanned hmax (by omega)

/--
**Prompt lookup drafts what follows the latest earlier occurrence** of the last `ngram` tokens, as
much of it as there is up to the maximum, and drafts nothing only where there is no such occurrence.
-/
theorem draftChecked_latest (b : Build) (context : List Token) (maxTokens ngram : Nat)
    (hlen : context.length < 2 ^ 64) :
    ∃ out, draftChecked b context maxTokens ngram = .ok out ∧
      (out = [] ↔ maxTokens = 0 ∨ ngram = 0 ∨ context.length ≤ ngram ∨
        ∀ start, ¬ Earlier context ngram start) ∧
      (out ≠ [] → ∃ start, Earlier context ngram start ∧
        (∀ later, start < later → ¬ Earlier context ngram later) ∧
        out.length = min maxTokens (context.length - (start + ngram)) ∧
        ∀ j < out.length, out[j]? = context[start + ngram + j]?) := by
  refine ⟨_, draftChecked_eq hlen, ?_⟩
  by_cases hdegenerate : maxTokens = 0 ∨ ngram = 0 ∨ context.length ≤ ngram
  · have hnil : draftFromContext context maxTokens ngram = [] := if_pos hdegenerate
    refine ⟨⟨fun _ => ?_, fun _ => hnil⟩, fun hne => absurd hnil hne⟩
    rcases hdegenerate with h | h | h
    · exact .inl h
    · exact .inr (.inl h)
    · exact .inr (.inr (.inl h))
  have hscan : Scanned context maxTokens ngram (context.length - ngram)
      (draftFromContext context maxTokens ngram) :=
    draftFromContext_scanned (by omega) (by omega) (by omega)
  rcases hscan with ⟨hout, hnone⟩ | ⟨start, hout, hstart, hearlier, hlatest⟩
  · refine ⟨⟨fun _ => .inr (.inr (.inr fun start => ?_)), fun _ => hout⟩,
      fun hne => absurd hout hne⟩
    rcases Nat.lt_or_ge start (context.length - ngram) with hlt | hge
    · exact hnone start hlt
    · exact not_earlier (by omega)
  · have hlength : (draftFromContext context maxTokens ngram).length
        = min maxTokens (context.length - (start + ngram)) := by
      rw [hout, List.length_take, List.length_drop]
    have hne : draftFromContext context maxTokens ngram ≠ [] := by
      rw [← List.length_pos_iff, hlength]
      omega
    refine ⟨⟨fun h => absurd h hne, fun h => ?_⟩, fun _ => ⟨start, hearlier, fun later hlt => ?_,
      hlength, fun j hj => ?_⟩⟩
    · rcases h with h | h | h | h
      · exact absurd (.inl h) hdegenerate
      · exact absurd (.inr (.inl h)) hdegenerate
      · exact absurd (.inr (.inr h)) hdegenerate
      · exact absurd hearlier (h start)
    · rcases Nat.lt_or_ge later (context.length - ngram) with hlt' | hge
      · exact hlatest later hlt hlt'
      · exact not_earlier (by omega)
    · rw [hlength] at hj
      rw [hout, List.getElem?_take_of_lt (by omega), List.getElem?_drop]

/-- The occurrence that overlaps the last three tokens is the one that is followed. -/
theorem draftChecked_latest_overlap :
    ∃ out, draftChecked .debug [5, 7, 7, 7, 7] 4 3 = .ok out ∧
      (out = [] ↔ 4 = 0 ∨ 3 = 0 ∨ [5, 7, 7, 7, 7].length ≤ 3 ∨
        ∀ start, ¬ Earlier [5, 7, 7, 7, 7] 3 start) ∧
      (out ≠ [] → ∃ start, Earlier [5, 7, 7, 7, 7] 3 start ∧
        (∀ later, start < later → ¬ Earlier [5, 7, 7, 7, 7] 3 later) ∧
        out.length = min 4 ([5, 7, 7, 7, 7].length - (start + 3)) ∧
        ∀ j < out.length, out[j]? = [5, 7, 7, 7, 7][start + 3 + j]?) :=
  draftChecked_latest .debug [5, 7, 7, 7, 7] 4 3 (by decide)

example : draftFromContext [5, 7, 7, 7, 7] 4 3 = [7] := by decide

end Drafts

end Garuda
