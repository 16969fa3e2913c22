import Mathlib

/-!
# Taking a maximum out of a list

A priority queue as the list of what is in it: `popMax` takes out an entry that no other entry
comes after in a given order.

* `popMax_perm` — nothing is lost and nothing is made up
* `popMax_max` — for a lawful order, what is taken out is a maximum
* `transCmp_then` — an order by one key, and by another the other way round, is lawful
-/

namespace Infra

variable {α : Type} {cmp : α → α → Ordering}

/-- A maximum of the list, and the rest. -/
def popMax (cmp : α → α → Ordering) : List α → Option (α × List α)
  | [] => none
  | a :: l =>
    match popMax cmp l with
    | none => some (a, [])
    | some (m, rest) => if cmp a m = .lt then some (m, a :: rest) else some (a, m :: rest)

theorem popMax_eq_none {l : List α} : popMax cmp l = none ↔ l = [] := by
  cases l with
  | nil => simp [popMax]
  | cons a l =>
    rw [popMax]
    cases popMax cmp l with
    | none => simp
    | some out => simp only; split <;> simp

/-- Nothing is lost and nothing is made up. -/
theorem popMax_perm : ∀ {l rest : List α} {m : α}, popMax cmp l = some (m, rest) →
    l.Perm (m :: rest)
  | [], _, _, h => by simp [popMax] at h
  | a :: l, rest, m, h => by
    rw [popMax] at h
    cases hl : popMax cmp l with
    | none =>
      rw [hl] at h
      obtain ⟨rfl, rfl⟩ := Prod.mk.inj (Option.some.inj h)
      rw [popMax_eq_none.mp hl]
    | some out =>
      obtain ⟨m', rest'⟩ := out
      have ih := popMax_perm hl
      rw [hl] at h
      simp only at h
      split at h
      · obtain ⟨rfl, rfl⟩ := Prod.mk.inj (Option.some.inj h)
        exact (ih.cons a).trans (List.Perm.swap _ _ _)
      · obtain ⟨rfl, rfl⟩ := Prod.mk.inj (Option.some.inj h)
        exact ih.cons a

/-- **What is taken out is a maximum.** -/
theorem popMax_max [Std.TransCmp cmp] : ∀ {l rest : List α} {m : α},
    popMax cmp l = some (m, rest) → ∀ b ∈ rest, cmp m b ≠ .lt
  | [], _, _, h => by simp [popMax] at h
  | a :: l, rest, m, h => by
    rw [popMax] at h
    cases hl : popMax cmp l with
    | none =>
      rw [hl] at h
      obtain ⟨rfl, rfl⟩ := Prod.mk.inj (Option.some.inj h)
      simp
    | some out =>
      obtain ⟨m', rest'⟩ := out
      have ih := popMax_max hl
      rw [hl] at h
      simp only at h
      split at h
      · next hlt =>
        obtain ⟨rfl, rfl⟩ := Prod.mk.inj (Option.some.inj h)
        intro b hb
        rcases List.mem_cons.mp hb with rfl | hb
        · rw [Std.OrientedCmp.gt_iff_lt.mpr hlt]
          simp
        · exact ih b hb
      · next hnot =>
        obtain ⟨rfl, rfl⟩ := Prod.mk.inj (Option.some.inj h)
        intro b hb
        rcases List.mem_cons.mp hb with rfl | hb
        · exact hnot
        · -- were `m` below `b`, it would be below `m'`
          intro hab
          have hswap : cmp b m' = (cmp m' b).swap := Std.OrientedCmp.eq_swap
          have hle : (cmp b m').isLE = true := by
            rw [hswap]
            have hne := ih b hb
            cases h : cmp m' b with
            | lt => exact absurd h hne
            | eq => rfl
            | gt => rfl
          exact hnot (Std.TransCmp.lt_of_lt_of_isLE hab hle)

/-! ## Two keys -/

/-- The higher `f` comes first, and the lower `g` among equals. -/
theorem transCmp_then {β γ : Type} [Ord β] [Std.TransOrd β] [Ord γ] [Std.TransOrd γ] (f : α → β)
    (g : α → γ) :
    Std.TransCmp fun a b => (compare (f a) (f b)).then (compare (g b) (g a)) :=
  inferInstanceAs (Std.TransCmp (compareLex (compareOn f) fun a b => compareOn g b a))

end Infra
