import Mathlib

/-!
# Runs of a partial step function

`step : S → A → Option S` takes one action; `none` means that the action is not enabled (or
has failed). `runList` takes a list of actions and stops at the first `none`.

* `runList_invariant` — what every step keeps, every run keeps
* `runList_fold` — a run carries along what is computed from its actions alone
* `EachStep.invariant` — what every step keeps under a condition, a run keeps whose steps meet it
* `since_concat` — what one more action does to "`E` happened and `Q` has held ever since"
-/

namespace Infra

variable {S A B : Type}

def runList (step : S → A → Option S) : List A → S → Option S
  | [], s => some s
  | a :: as, s => (step s a).bind (runList step as)

section

variable {step : S → A → Option S}

@[simp] theorem runList_nil (s : S) : runList step [] s = some s := rfl

theorem runList_cons {a : A} {as : List A} {s t : S} :
    runList step (a :: as) s = some t ↔ ∃ m, step s a = some m ∧ runList step as m = some t := by
  rw [runList, Option.bind_eq_some_iff]

theorem runList_append {as bs : List A} : ∀ {s t : S},
    runList step (as ++ bs) s = some t ↔
      ∃ m, runList step as s = some m ∧ runList step bs m = some t := by
  induction as with
  | nil => intro s t; simp
  | cons a as ih =>
    intro s t
    rw [List.cons_append, runList_cons]
    constructor
    · rintro ⟨m, hm, hr⟩
      obtain ⟨k, hk, hr⟩ := ih.mp hr
      exact ⟨k, runList_cons.mpr ⟨m, hm, hk⟩, hr⟩
    · rintro ⟨k, hk, hr⟩
      obtain ⟨m, hm, hk⟩ := runList_cons.mp hk
      exact ⟨m, hm, ih.mpr ⟨k, hk, hr⟩⟩

/-- **What every step keeps, every run keeps.** -/
theorem runList_invariant {P : S → Prop} (hstep : ∀ s a t, step s a = some t → P s → P t) :
    ∀ {as : List A} {s t : S}, runList step as s = some t → P s → P t := by
  intro as
  induction as with
  | nil => intro s t h hp; rw [← Option.some.inj h]; exact hp
  | cons a as ih =>
    intro s t h hp
    obtain ⟨m, hm, hr⟩ := runList_cons.mp h
    exact ih hr (hstep s a m hm hp)

/-- The same with a value `b` computed from the actions alone. -/
theorem runList_fold {P : S → B → Prop} (f : B → A → B)
    (hstep : ∀ s a t b, step s a = some t → P s b → P t (f b a)) :
    ∀ {as : List A} {s t : S} {b : B}, runList step as s = some t → P s b →
      P t (as.foldl f b) := by
  intro as
  induction as with
  | nil => intro s t b h hp; rw [← Option.some.inj h]; exact hp
  | cons a as ih =>
    intro s t b h hp
    obtain ⟨m, hm, hr⟩ := runList_cons.mp h
    exact ih hr (hstep s a m b hm hp)

theorem runList_concat {as : List A} {a : A} {s t : S} :
    runList step (as ++ [a]) s = some t ↔
      ∃ m, runList step as s = some m ∧ step m a = some t := by
  rw [runList_append]
  constructor
  · rintro ⟨m, hm, hr⟩
    obtain ⟨k, hk, hr⟩ := runList_cons.mp hr
    rw [← Option.some.inj hr]
    exact ⟨m, hm, hk⟩
  · rintro ⟨m, hm, hk⟩
    exact ⟨m, hm, runList_cons.mpr ⟨t, hk, rfl⟩⟩

/-! ## Runs whose steps all meet a condition -/

/-- Every action of the run is taken in a state where `C` allows it. -/
def EachStep (step : S → A → Option S) (C : S → A → Prop) (as : List A) (s : S) : Prop :=
  ∀ pre a post m, as = pre ++ a :: post → runList step pre s = some m → C m a

theorem EachStep.before {C : S → A → Prop} {as bs : List A} {s : S}
    (h : EachStep step C (as ++ bs) s) : EachStep step C as s := by
  intro pre a post m has
  exact h pre a (post ++ bs) m (by rw [has, List.append_assoc, List.cons_append])

theorem EachStep.tail {C : S → A → Prop} {a : A} {as : List A} {s m : S}
    (h : EachStep step C (a :: as) s) (hm : step s a = some m) : EachStep step C as m := by
  intro pre b post k has hk
  exact h (a :: pre) b post k (by rw [has, List.cons_append]) (runList_cons.mpr ⟨m, hm, hk⟩)

/-- **What every step keeps under a condition**, a run keeps whose steps all meet it. -/
theorem EachStep.invariant {C : S → A → Prop} {P : S → Prop}
    (hstep : ∀ s a t, step s a = some t → C s a → P s → P t) :
    ∀ {as : List A} {s t : S}, EachStep step C as s → runList step as s = some t → P s → P t := by
  intro as
  induction as with
  | nil => intro s t _ h hp; rw [← Option.some.inj h]; exact hp
  | cons a as ih =>
    intro s t hC h hp
    obtain ⟨m, hm, hr⟩ := runList_cons.mp h
    exact ih (hC.tail hm) hr (hstep s a m hm (hC [] a as s rfl rfl) hp)

theorem concat_eq_append_cons {as pre post : List A} {a b : A}
    (h : as ++ [a] = pre ++ b :: post) :
    (pre = as ∧ b = a ∧ post = []) ∨ ∃ post', post = post' ++ [a] ∧ as = pre ++ b :: post' := by
  rcases List.eq_nil_or_concat post with hp | ⟨post', c, hp⟩
  · subst hp
    obtain ⟨h1, h2⟩ := List.append_inj' h rfl
    exact Or.inl ⟨h1.symm, (List.singleton_inj.mp h2).symm, rfl⟩
  · subst hp
    have h' : as ++ [a] = (pre ++ b :: post') ++ [c] := by simpa using h
    obtain ⟨h1, h2⟩ := List.append_inj' h' rfl
    rw [List.singleton_inj.mp h2]
    exact Or.inr ⟨post', List.concat_eq_append, h1⟩

/-- One more action: it must meet the condition too. -/
theorem eachStep_concat {C : S → A → Prop} {as : List A} {a : A} {s m : S}
    (hm : runList step as s = some m) :
    EachStep step C (as ++ [a]) s ↔ EachStep step C as s ∧ C m a := by
  constructor
  · intro h
    exact ⟨h.before, h as a [] m rfl hm⟩
  · rintro ⟨h, hC⟩ pre b post k hsplit hk
    rcases concat_eq_append_cons hsplit with ⟨rfl, rfl, _⟩ | ⟨post', _, has⟩
    · rw [hm] at hk
      rw [← Option.some.inj hk]
      exact hC
    · exact h pre b post' k has hk

/-! ## Since -/

/-- `E` happened at a step of the run, and `Q` has held in every state after that step. -/
def Since (step : S → A → Option S) (E : S → A → Prop) (Q : S → Prop) (as : List A) (s : S) :
    Prop :=
  ∃ pre a post m, as = pre ++ a :: post ∧ runList step pre s = some m ∧ E m a ∧
    ∀ mid rest t, post = mid ++ rest → runList step (pre ++ a :: mid) s = some t → Q t

variable {E : S → A → Prop} {Q : S → Prop}

@[simp] theorem not_since_nil (s : S) : ¬ Since step E Q [] s := by
  rintro ⟨pre, a, post, m, h, _⟩
  simp at h

/-- **One more action**: `Q` must hold after it, and `E` happened before or happens now. -/
theorem since_concat {as : List A} {a : A} {s m t : S} (hm : runList step as s = some m)
    (ht : step m a = some t) :
    Since step E Q (as ++ [a]) s ↔ Q t ∧ (Since step E Q as s ∨ E m a) := by
  have hrun : runList step (as ++ [a]) s = some t := runList_concat.mpr ⟨m, hm, ht⟩
  constructor
  · rintro ⟨pre, b, post, k, hsplit, hk, hE, hQ⟩
    have hQt : Q t := hQ post [] t (List.append_nil _).symm (by rw [← hsplit]; exact hrun)
    refine ⟨hQt, ?_⟩
    rcases concat_eq_append_cons hsplit with ⟨hpre, hb, _⟩ | ⟨post', hpost, has⟩
    · right
      rw [hpre, hm] at hk
      rw [Option.some.inj hk, ← hb]
      exact hE
    · left
      refine ⟨pre, b, post', k, has, hk, hE, ?_⟩
      intro mid rest u hmid hu
      exact hQ mid (rest ++ [a]) u (by rw [hpost, hmid, List.append_assoc]) hu
  · rintro ⟨hQt, ⟨pre, b, post, k, hsplit, hk, hE, hQ⟩ | hE⟩
    · refine ⟨pre, b, post ++ [a], k, by rw [hsplit]; simp, hk, hE, ?_⟩
      intro mid rest u hmid hu
      rcases List.eq_nil_or_concat rest with hr | ⟨rest', c, hr⟩
      · rw [hr, List.append_nil] at hmid
        have hu' : runList step (as ++ [a]) s = some u := by
          rw [hsplit, List.append_assoc, List.cons_append, hmid]
          exact hu
        rw [hrun] at hu'
        rw [← Option.some.inj hu']
        exact hQt
      · rw [hr, List.concat_eq_append, ← List.append_assoc] at hmid
        exact hQ mid rest' u (List.append_inj' hmid rfl).1 hu
    · refine ⟨as, a, [], m, rfl, hm, hE, ?_⟩
      intro mid rest u hmid hu
      have hnil : mid = [] := (List.append_eq_nil_iff.mp hmid.symm).1
      rw [hnil, hrun] at hu
      rw [← Option.some.inj hu]
      exact hQt

end

end Infra
