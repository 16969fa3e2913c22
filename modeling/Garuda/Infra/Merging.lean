import Mathlib

/-!
# Merging adjacent pieces

A word is cut into its letters, and then, among all adjacent pieces that may be joined, the pair
of the highest rank is joined, the leftmost of them on a tie, until none is left.

* `Step` is one merge and `Merges` a whole run.
* `merges_unique` — there is at most one outcome
* `merges_piece` — every piece of an outcome is what its own letters merge to
* `merges_rank` — every piece is one letter, or has a rank
-/

namespace Infra.Merging

variable {α κ : Type} {rank : List α → Option κ}

/-- The two pieces after `pre` may be joined, at rank `k`. -/
def Mergeable (rank : List α → Option κ) (ps pre : List (List α)) (k : κ) : Prop :=
  ∃ p q post, ps = pre ++ p :: q :: post ∧ rank (p ++ q) = some k

theorem mergeable_append {xs ys zs pre : List (List α)} {k : κ} (h : Mergeable rank ys pre k) :
    Mergeable rank (xs ++ (ys ++ zs)) (xs ++ pre) k := by
  obtain ⟨p, q, post, rfl, hk⟩ := h
  exact ⟨p, q, post ++ zs, by simp, hk⟩

theorem single_final (w : List α) : ∀ pre k, ¬ Mergeable rank [w] pre k := by
  rintro pre k ⟨p, q, post, heq, -⟩
  have hlen := congrArg List.length heq
  simp only [List.length_append, List.length_cons, List.length_nil] at hlen
  omega

variable [LinearOrder κ] (rank)

/-- Join the leftmost pair of the highest rank. -/
inductive Step : List (List α) → List (List α) → Prop where
  | merge {pre post : List (List α)} {p q : List α} {k : κ} (hk : rank (p ++ q) = some k)
      (best : ∀ pre' k', Mergeable rank (pre ++ p :: q :: post) pre' k' →
        k' < k ∨ k' = k ∧ pre.length ≤ pre'.length) :
      Step (pre ++ p :: q :: post) (pre ++ (p ++ q) :: post)

def Run : List (List α) → List (List α) → Prop := Relation.ReflTransGen (Step rank)

/-- One piece per letter. -/
def letters (w : List α) : List (List α) := w.map fun a => [a]

/-- The letters of `w` merge to `qs`, where nothing more can be joined. -/
structure Merges (w : List α) (qs : List (List α)) : Prop where
  run : Run rank (letters w) qs
  final : ∀ pre k, ¬ Mergeable rank qs pre k

variable {rank}

/-! ## Pieces and letters -/

@[simp] theorem flatten_letters (w : List α) : (letters w).flatten = w := by
  induction w with
  | nil => rfl
  | cons a w ih =>
    show a :: (letters w).flatten = a :: w
    rw [ih]

/-- What is cut out of the letters of a word is the letters of its own word. -/
theorem letters_append {w : List α} {xs ys zs : List (List α)} (h : letters w = xs ++ ys ++ zs) :
    ys = letters ys.flatten := by
  obtain ⟨u, z, -, hu, -⟩ := List.map_eq_append_iff.mp h
  obtain ⟨x, y, -, -, rfl⟩ := List.map_eq_append_iff.mp hu
  exact congrArg letters (flatten_letters y).symm

/-- One element of a list stands in the first of two parts, or in the second. -/
theorem cons_append_split {β : Type} {pre post xs ys : List β} {m : β}
    (h : pre ++ m :: post = xs ++ ys) :
    (∃ mid, xs = pre ++ m :: mid ∧ post = mid ++ ys) ∨
      ∃ mid, ys = mid ++ m :: post ∧ pre = xs ++ mid := by
  rcases List.append_eq_append_iff.mp h with ⟨mid, hxs, hm⟩ | ⟨mid, hpre, hys⟩
  · cases mid with
    | nil =>
      refine .inr ⟨[], hm.symm, ?_⟩
      rw [hxs, List.append_nil, List.append_nil]
    | cons m' mid =>
      obtain ⟨rfl, hpost⟩ := List.cons.inj hm
      exact .inl ⟨mid, hxs, hpost⟩
  · exact .inr ⟨mid, hys, hpre⟩

/-- Two places in one list are the same, or one comes first. -/
theorem split_cases {β : Type} {pre post pre' post' : List β} {m m' : β}
    (h : pre ++ m :: post = pre' ++ m' :: post') :
    (pre = pre' ∧ m = m' ∧ post = post') ∨
      (∃ mid, pre' = pre ++ m :: mid ∧ post = mid ++ m' :: post') ∨
      ∃ mid, pre = pre' ++ m' :: mid ∧ post' = mid ++ m :: post := by
  rcases cons_append_split h with hmid | ⟨mid, hm, hpre⟩
  · exact .inr (.inl hmid)
  · cases mid with
    | nil =>
      obtain ⟨rfl, rfl⟩ := List.cons.inj hm
      exact .inl ⟨by rw [hpre, List.append_nil], rfl, rfl⟩
    | cons m1 mid =>
      obtain ⟨rfl, hpost⟩ := List.cons.inj hm
      exact .inr (.inr ⟨mid, hpre, hpost⟩)

/-! ## One outcome -/

theorem Step.flatten {ps qs : List (List α)} (h : Step rank ps qs) : qs.flatten = ps.flatten := by
  cases h with
  | merge => simp

theorem Run.flatten {ps qs : List (List α)} (h : Run rank ps qs) : qs.flatten = ps.flatten := by
  induction h with
  | refl => rfl
  | tail _ hs ih => rw [hs.flatten, ih]

theorem step_unique : Relator.RightUnique (Step rank) := by
  intro ps qs qs' h h'
  cases h with
  | @merge pre post p q k hk best =>
    generalize hps : pre ++ p :: q :: post = ps at h'
    cases h' with
    | @merge pre' post' p' q' k' hk' best' =>
      have h1 := best pre' k' ⟨p', q', post', hps, hk'⟩
      have h2 := best' pre k ⟨p, q, post, hps.symm, hk⟩
      have hlen : pre.length = pre'.length := by
        rcases h1 with h1 | ⟨rfl, h1⟩
        · rcases h2 with h2 | ⟨rfl, -⟩
          · exact absurd h1 (lt_asymm h2)
          · exact absurd h1 (lt_irrefl _)
        · rcases h2 with h2 | ⟨-, h2⟩
          · exact absurd h2 (lt_irrefl _)
          · exact Nat.le_antisymm h1 h2
      obtain ⟨rfl, hrest⟩ := List.append_inj hps hlen
      simp only [List.cons.injEq] at hrest
      obtain ⟨rfl, rfl, rfl⟩ := hrest
      rfl

theorem not_step_final {ps qs : List (List α)} (h : ∀ pre k, ¬ Mergeable rank ps pre k) :
    ¬ Step rank ps qs := by
  intro hs
  cases hs with
  | @merge pre post p q k hk _ => exact h pre k ⟨p, q, post, rfl, hk⟩

theorem run_final {ps qs : List (List α)} (h : ∀ pre k, ¬ Mergeable rank ps pre k)
    (hr : Run rank ps qs) : qs = ps := by
  cases Relation.ReflTransGen.cases_head hr with
  | inl heq => exact heq.symm
  | inr hstep =>
    obtain ⟨c, hs, -⟩ := hstep
    exact absurd hs (not_step_final h)

/-- **There is at most one outcome.** -/
theorem merges_unique {w : List α} {qs qs' : List (List α)} (h : Merges rank w qs)
    (h' : Merges rank w qs') : qs = qs' := by
  rcases Relation.ReflTransGen.total_of_right_unique step_unique h.run h'.run with hr | hr
  · exact (run_final h.final hr).symm
  · exact run_final h'.final hr

/-! ## The pieces of an outcome -/

/-- What a merge does to a stretch of the pieces after it: it is a merge of that stretch, or
changes nothing there. -/
theorem step_stretch {ps xs ys zs : List (List α)} (h : Step rank ps (xs ++ (ys ++ zs))) :
    ∃ xs' ys' zs', ps = xs' ++ (ys' ++ zs') ∧ (ys' = ys ∨ Step rank ys' ys) := by
  generalize hqs : xs ++ (ys ++ zs) = qs at h
  cases h with
  | @merge pre post p q k hk best =>
    rcases cons_append_split hqs.symm with ⟨mid, -, hpost⟩ | ⟨mid, hys, hpre⟩
    · exact ⟨pre ++ p :: q :: mid, ys, zs, by simp [hpost], .inl rfl⟩
    · rcases cons_append_split hys.symm with ⟨mid', rfl, hpost⟩ | ⟨mid', -, hmid⟩
      · -- the pair is in the stretch, and the best of a part of what it was the best of
        subst hpre hpost
        refine ⟨xs, mid ++ p :: q :: mid', zs, by simp, .inr (.merge hk fun pre' k' hm => ?_)⟩
        have heq : xs ++ mid ++ p :: q :: (mid' ++ zs)
            = xs ++ (mid ++ p :: q :: mid' ++ zs) := by simp
        rw [heq] at best
        have hb := best (xs ++ pre') k' (mergeable_append hm)
        simp only [List.length_append] at hb
        exact hb.imp_right fun ⟨hk', hle⟩ => ⟨hk', by omega⟩
      · exact ⟨xs, ys, mid' ++ p :: q :: post, by simp [hpre, hmid], .inl rfl⟩

theorem run_stretch {ps qs : List (List α)} (h : Run rank ps qs) :
    ∀ {xs zs : List (List α)} (ys : List (List α)), qs = xs ++ (ys ++ zs) →
      ∃ xs' ys' zs', ps = xs' ++ (ys' ++ zs') ∧ Run rank ys' ys := by
  induction h with
  | refl => exact fun {xs zs} ys heq => ⟨xs, ys, zs, heq, .refl⟩
  | tail _ hs ih =>
    rintro xs zs ys rfl
    obtain ⟨xs1, ys1, zs1, rfl, hone⟩ := step_stretch hs
    obtain ⟨xs2, ys2, zs2, hps, hrun⟩ := ih ys1 rfl
    refine ⟨xs2, ys2, zs2, hps, ?_⟩
    rcases hone with rfl | hone
    · exact hrun
    · exact hrun.tail hone

/-- **Every piece of an outcome is what its own letters merge to.** -/
theorem merges_piece {w v : List α} {qs : List (List α)} (h : Merges rank w qs) (hv : v ∈ qs) :
    Merges rank v [v] := by
  obtain ⟨xs, zs, rfl⟩ := List.mem_iff_append.mp hv
  obtain ⟨xs', ys', zs', hps, hrun⟩ := run_stretch h.run [v] rfl
  rw [← List.append_assoc] at hps
  have hys := letters_append hps
  have hflat := hrun.flatten
  rw [List.flatten_singleton] at hflat
  rw [hys, ← hflat] at hrun
  exact ⟨hrun, single_final v⟩

/-- No piece of an outcome is empty. -/
theorem merges_ne_nil {w v : List α} {qs : List (List α)} (h : Merges rank w qs) (hv : v ∈ qs) :
    v ≠ [] := by
  rintro rfl
  have hrun := (merges_piece h hv).run
  have hnone : ∀ pre k, ¬ Mergeable rank (letters ([] : List α)) pre k := by
    rintro pre k ⟨p, q, post, heq, -⟩
    simp [letters] at heq
  cases run_final hnone hrun

theorem run_rank {w : List α} {qs : List (List α)} (h : Run rank (letters w) qs) :
    ∀ v ∈ qs, (∃ a, v = [a]) ∨ (rank v).isSome := by
  induction h with
  | refl =>
    intro v hv
    obtain ⟨a, -, rfl⟩ := List.mem_map.mp hv
    exact .inl ⟨a, rfl⟩
  | tail _ hs ih =>
    cases hs with
    | @merge pre post p q k hk _ =>
      intro v hv
      rcases List.mem_append.mp hv with hv | hv
      · exact ih v (List.mem_append_left _ hv)
      · rcases List.mem_cons.mp hv with rfl | hv
        · exact .inr (by rw [hk]; rfl)
        · exact ih v (List.mem_append_right _ (List.mem_cons_of_mem _ (List.mem_cons_of_mem _ hv)))

/-- Every piece of an outcome is one letter, or has a rank. -/
theorem merges_rank {w v : List α} {qs : List (List α)} (h : Merges rank w qs) (hv : v ∈ qs) :
    (∃ a, v = [a]) ∨ (rank v).isSome := run_rank h.run v hv

/-- A single letter merges to itself. -/
theorem merges_letter (a : α) : Merges rank [a] [[a]] := ⟨.refl, single_final [a]⟩

end Infra.Merging
