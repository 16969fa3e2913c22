import Garuda.Infra.RowMajor
import Mathlib.Algebra.Order.Ring.Nat
import Mathlib.Data.List.Basic

/-!
# Attempts

Computations on a state that answer, fail or panic, and leave a state either way.

* `Attempt` is a state monad over `Checked`; `lift` takes in a computation without a state, and
  `focus` one on a part of the state.
* `Ends x w Q` says that `x` answers when it is run from `w`, and `Q` of the answer and of the
  state that is left.

`Ends` has a rule for each way in which attempts are put together; a loop's rule asks for what holds
after each part of the list.

* `pieces` are the chunks of a list, and `lastN` its last elements.
* `eachRow` makes the rows of a matrix, one after the other.
-/

namespace Infra

/-- A computation on a state. -/
def Attempt (ε W α : Type) := W → Checked ε α × W

namespace Attempt

variable {ε W V α β : Type}

instance : Monad (Attempt ε W) where
  pure a w := (.ok a, w)
  bind x f w :=
    match x w with
    | (.ok a, w) => f a w
    | (.err e, w) => (.err e, w)
    | (.panic, w) => (.panic, w)

/-- A computation that has no part in the state. -/
def lift (x : Checked ε α) : Attempt ε W α := fun w => (x, w)

/-- A refusal, or a bug, that leaves the state as it is. -/
def fail (e : ε) : Attempt ε W α := lift (.err e)

def crash : Attempt ε W α := lift .panic

/-- A computation on a part of the state; it is a bug if there is no such part. -/
def focus (get : W → Option V) (set : V → W → W) (x : Attempt ε V α) : Attempt ε W α := fun w =>
  match get w with
  | none => (.panic, w)
  | some v => ((x v).1, set (x v).2 w)

/-- What can be seen of the state. -/
def gets (f : W → α) : Attempt ε W α := fun w => (.ok (f w), w)

def modify (f : W → W) : Attempt ε W Unit := fun w => (.ok (), f w)

/-- A computation between two changes of the state; after a panic there is no second one. -/
def bracket (before after : W → W) (x : Attempt ε W α) : Attempt ε W α := fun w =>
  match x (before w) with
  | (.panic, w) => (.panic, w)
  | (.ok a, w) => (.ok a, after w)
  | (.err e, w) => (.err e, after w)

theorem pure_run (a : α) (w : W) : (pure a : Attempt ε W α) w = (.ok a, w) := rfl

theorem lift_run (x : Checked ε α) (w : W) : (lift x : Attempt ε W α) w = (x, w) := rfl

theorem bind_ok {x : Attempt ε W α} {f : α → Attempt ε W β} {w w' : W} {a : α}
    (h : x w = (.ok a, w')) : (x >>= f) w = f a w' := by
  show (match x w with
    | (.ok a, w) => f a w
    | (.err e, w) => (.err e, w)
    | (.panic, w) => (.panic, w)) = _
  rw [h]

theorem bind_err {x : Attempt ε W α} {f : α → Attempt ε W β} {w w' : W} {e : ε}
    (h : x w = (.err e, w')) : (x >>= f) w = (.err e, w') := by
  show (match x w with
    | (.ok a, w) => f a w
    | (.err e, w) => (.err e, w)
    | (.panic, w) => (.panic, w)) = _
  rw [h]

theorem lift_bind {x : Checked ε α} {a : α} (h : x = .ok a) (f : α → Attempt ε W β) (w : W) :
    (lift x >>= f) w = f a w := bind_ok (by rw [lift_run, h])

theorem gets_bind (g : W → α) (f : α → Attempt ε W β) (w : W) : (gets g >>= f) w = f (g w) w := rfl

theorem modify_bind (g : W → W) (f : Unit → Attempt ε W β) (w : W) :
    (modify g >>= f) w = f () (g w) := rfl

theorem bind_panic {x : Attempt ε W α} {f : α → Attempt ε W β} {w w' : W}
    (h : x w = (.panic, w')) : (x >>= f) w = (.panic, w') := by
  show (match x w with
    | (.ok a, w) => f a w
    | (.err e, w) => (.err e, w)
    | (.panic, w) => (.panic, w)) = _
  rw [h]

theorem bracket_ok {before after : W → W} {x : Attempt ε W α} {w w' : W} {a : α}
    (h : x (before w) = (.ok a, w')) : bracket before after x w = (.ok a, after w') := by
  rw [bracket, h]

theorem bracket_err {before after : W → W} {x : Attempt ε W α} {w w' : W} {e : ε}
    (h : x (before w) = (.err e, w')) : bracket before after x w = (.err e, after w') := by
  rw [bracket, h]

theorem assoc {γ : Type} (x : Attempt ε W α) (f : α → Attempt ε W β) (g : β → Attempt ε W γ) :
    x >>= f >>= g = x >>= fun a => f a >>= g := by
  funext w
  generalize h : x w = out
  obtain ⟨res, w'⟩ := out
  cases res with
  | ok a =>
    rw [bind_ok h]
    show (match (x >>= f) w with
      | (.ok b, w) => g b w
      | (.err e, w) => (.err e, w)
      | (.panic, w) => (.panic, w)) = _
    rw [bind_ok h]
    rfl
  | err e => rw [bind_err h, bind_err (bind_err h)]
  | panic => rw [bind_panic h, bind_panic (bind_panic h)]

/-! ## Attempts that answer -/

/-- Run from `w`, the computation answers, and `Q` of what it answers and leaves. -/
def Ends (x : Attempt ε W α) (w : W) (Q : α → W → Prop) : Prop :=
  ∃ a w', x w = (.ok a, w') ∧ Q a w'

namespace Ends

variable {w : W} {Q : α → W → Prop}

theorem pure {a : α} (h : Q a w) : Ends (Pure.pure a : Attempt ε W α) w Q := ⟨a, w, rfl, h⟩

theorem lift {x : Checked ε α} {a : α} (hx : x = .ok a) (h : Q a w) :
    Ends (Attempt.lift x) w Q := ⟨a, w, by rw [lift_run, hx], h⟩

theorem gets {f : W → α} (h : Q (f w) w) : Ends (Attempt.gets f : Attempt ε W α) w Q :=
  ⟨f w, w, rfl, h⟩

theorem mono {x : Attempt ε W α} {R : α → W → Prop} (h : Ends x w Q)
    (himp : ∀ a w', Q a w' → R a w') : Ends x w R := by
  obtain ⟨a, w', hx, hq⟩ := h
  exact ⟨a, w', hx, himp a w' hq⟩

theorem bind {x : Attempt ε W α} {f : α → Attempt ε W β} {R : β → W → Prop} (h : Ends x w Q)
    (hf : ∀ a w', Q a w' → Ends (f a) w' R) : Ends (x >>= f) w R := by
  obtain ⟨a, w', hx, hq⟩ := h
  obtain ⟨b, w'', hfa, hr⟩ := hf a w' hq
  exact ⟨b, w'', by rw [bind_ok hx, hfa], hr⟩

/-- A first step whose run is known. -/
theorem run_bind {x : Attempt ε W α} {a : α} {w' : W} {f : α → Attempt ε W β} {R : β → W → Prop}
    (hx : x w = (.ok a, w')) (hf : Ends (f a) w' R) : Ends (x >>= f) w R := by
  obtain ⟨b, w'', hrun, hr⟩ := hf
  exact ⟨b, w'', by rw [bind_ok hx, hrun], hr⟩

/-- A first step without a state. -/
theorem lift_bind {x : Checked ε α} {a : α} {f : α → Attempt ε W β} {R : β → W → Prop}
    (hx : x = .ok a) (hf : Ends (f a) w R) : Ends (Attempt.lift x >>= f) w R :=
  bind (lift (Q := fun b w' => b = a ∧ w' = w) hx ⟨rfl, rfl⟩) fun _ _ h => h.1 ▸ h.2 ▸ hf

/-- A first step that only looks. -/
theorem gets_bind {g : W → α} {f : α → Attempt ε W β} {R : β → W → Prop}
    (hf : Ends (f (g w)) w R) : Ends (Attempt.gets g >>= f) w R :=
  bind (gets (Q := fun b w' => b = g w ∧ w' = w) ⟨rfl, rfl⟩) fun _ _ h => h.1 ▸ h.2 ▸ hf

/-- A first step that only changes the state. -/
theorem modify_bind {g : W → W} {f : Unit → Attempt ε W β} {R : β → W → Prop}
    (hf : Ends (f ()) (g w) R) : Ends (Attempt.modify g >>= f) w R := hf

theorem focus {get : W → Option V} {set : V → W → W} {x : Attempt ε V α} {v : V}
    (hget : get w = some v) (h : Ends x v fun a v' => Q a (set v' w)) :
    Ends (Attempt.focus get set x) w Q := by
  obtain ⟨a, v', hx, hq⟩ := h
  refine ⟨a, set v' w, ?_, hq⟩
  simp only [Attempt.focus, hget, hx]

/-- **A loop over a list.** The induction is on the part of the list that is still to come. -/
theorem foldlM {l : List α} {f : β → α → Attempt ε W β} (I : List α → β → W → Prop)
    (hstep : ∀ done a rest b w, l = done ++ a :: rest → I done b w →
      Ends (f b a) w (I (done ++ [a]))) {b : β} (h : I [] b w) : Ends (l.foldlM f b) w (I l) := by
  have hrun : ∀ rest done b w, l = done ++ rest → I done b w → Ends (rest.foldlM f b) w (I l) := by
    intro rest
    induction rest with
    | nil =>
      intro done b w hl hI
      rw [List.append_nil] at hl
      exact pure (hl ▸ hI)
    | cons a rest ih =>
      intro done b w hl hI
      rw [List.foldlM_cons]
      exact bind (hstep done a rest b w hl hI) fun b' w' hI' =>
        ih (done ++ [a]) b' w' (by rw [hl, List.append_assoc]; rfl) hI'
  exact hrun l [] b w rfl h

/-- A loop over the numbers below `n`. -/
theorem range {n : Nat} {f : β → Nat → Attempt ε W β} (I : Nat → β → W → Prop)
    (hstep : ∀ i b w, i < n → I i b w → Ends (f b i) w (I (i + 1))) {b : β} (h : I 0 b w) :
    Ends ((List.range n).foldlM f b) w (I n) := by
  refine (foldlM (fun done b w => done = List.range done.length ∧ I done.length b w) ?_
    ⟨rfl, h⟩).mono fun b w' hI => by simpa using hI.2
  intro done a rest b w hl hI
  have ha : done.length = a ∧ a < n := by
    have hget : (List.range n)[done.length]? = some a := by rw [hl]; simp
    obtain ⟨hlt, hget⟩ := List.getElem?_eq_some_iff.mp hget
    rw [List.getElem_range] at hget
    exact ⟨hget, by rw [← hget]; simpa using hlt⟩
  obtain ⟨rfl, hlt⟩ := ha
  refine (hstep _ b w hlt hI.2).mono fun b' w' hI' => ?_
  rw [List.length_append, List.length_singleton, List.range_succ, ← hI.1]
  exact ⟨rfl, hI'⟩

end Ends

end Attempt

/-! ## Pieces of a list -/

section Pieces

variable {α : Type}

/-- Pieces of `n` elements, the last one of what is left. -/
def pieces (n : Nat) (xs : List α) : List (List α) :=
  (List.range ((xs.length + n - 1) / n)).map fun i => (xs.drop (i * n)).take n

@[simp] theorem pieces_nil (n : Nat) : pieces n ([] : List α) = [] := by
  rcases Nat.eq_zero_or_pos n with rfl | hn
  · simp [pieces]
  · rw [pieces, List.length_nil, Nat.zero_add, Nat.div_eq_of_lt (by omega)]
    rfl

theorem pieces_eq_cons {n : Nat} {xs : List α} (hn : 0 < n) (hxs : xs ≠ []) :
    pieces n xs = xs.take n :: pieces n (xs.drop n) := by
  have hpos := List.length_pos_iff.mpr hxs
  have hcount : (xs.length + n - 1) / n = ((xs.drop n).length + n - 1) / n + 1 := by
    rw [List.length_drop]
    rcases Nat.lt_or_ge n xs.length with hlt | hle
    · rw [show xs.length + n - 1 = (xs.length - n + n - 1) + n by omega, Nat.add_div_right _ hn]
    · rw [show xs.length + n - 1 = (xs.length - 1) + n by omega, Nat.add_div_right _ hn,
        Nat.div_eq_of_lt (by omega), Nat.div_eq_of_lt (by omega)]
  rw [pieces, hcount, List.range_succ_eq_map, List.map_cons, List.map_map, pieces]
  congr 1
  · simp
  · refine List.map_congr_left fun i _ => ?_
    rw [Function.comp_apply, List.drop_drop, Nat.succ_mul, Nat.add_comm]

theorem pieces_rule {n : Nat} (hn : 0 < n) (xs : List α) :
    (pieces n xs).flatten = xs ∧ ∀ p ∈ pieces n xs, p ≠ [] ∧ p.length ≤ n := by
  induction hlen : xs.length using Nat.strong_induction_on generalizing xs with
  | _ len ih =>
    rcases eq_or_ne xs [] with rfl | hxs
    · simp
    · have hpos := List.length_pos_iff.mpr hxs
      obtain ⟨hflat, hall⟩ := ih (xs.drop n).length (by rw [List.length_drop]; omega) _ rfl
      rw [pieces_eq_cons hn hxs]
      refine ⟨by rw [List.flatten_cons, hflat, List.take_append_drop], ?_⟩
      rw [List.forall_mem_cons]
      refine ⟨⟨?_, List.length_take_le _ _⟩, hall⟩
      exact List.ne_nil_of_length_pos (by rw [List.length_take]; omega)

/-- Whole pieces in front are pieces of their own. -/
theorem pieces_append {n : Nat} (hn : 0 < n) {xs : List α} (hdvd : n ∣ xs.length) (ys : List α) :
    pieces n (xs ++ ys) = pieces n xs ++ pieces n ys := by
  obtain ⟨k, hk⟩ := hdvd
  induction k generalizing xs with
  | zero =>
    rw [List.eq_nil_of_length_eq_zero hk, List.nil_append, pieces_nil, List.nil_append]
  | succ k ih =>
    have hle : n ≤ xs.length := by
      rw [hk]
      exact Nat.le_mul_of_pos_right n (Nat.succ_pos k)
    have hxs : xs ≠ [] := List.ne_nil_of_length_pos (by omega)
    rw [pieces_eq_cons hn hxs, pieces_eq_cons hn (by simp [hxs]),
      List.take_append_of_le_length hle, List.drop_append_of_le_length hle, ih, List.cons_append]
    rw [List.length_drop, hk, Nat.mul_succ, Nat.add_sub_cancel]

/-- The last `n` elements. -/
def lastN (n : Nat) (xs : List α) : List α := xs.drop (xs.length - n)

@[simp] theorem length_lastN (n : Nat) (xs : List α) : (lastN n xs).length = min n xs.length := by
  rw [lastN, List.length_drop]
  omega

theorem lastN_append_of_le {n : Nat} {ys : List α} (h : n ≤ ys.length) (xs : List α) :
    lastN n (xs ++ ys) = lastN n ys := by
  rw [lastN, lastN, List.length_append, List.drop_append, List.drop_eq_nil_of_le (by omega),
    List.nil_append]
  congr 1
  omega

/-- What was let go before is not among the last ones. -/
theorem lastN_append (n : Nat) (xs ys : List α) :
    lastN n (lastN n xs ++ ys) = lastN n (xs ++ ys) := by
  rcases Nat.lt_or_ge ys.length n with hlt | hge
  · rw [lastN, lastN, lastN, List.length_append, List.length_append, List.length_drop,
      List.drop_append_of_le_length (by rw [List.length_drop]; omega),
      List.drop_append_of_le_length (by omega), List.drop_drop]
    congr 2
    omega
  · rw [lastN_append_of_le hge, lastN_append_of_le hge]

theorem lastN_map {β : Type} (n : Nat) (f : α → β) (xs : List α) :
    lastN n (xs.map f) = (lastN n xs).map f := by
  rw [lastN, lastN, List.length_map, List.map_drop]

/-- The last `n` numbers below `m`. -/
theorem lastN_range {n m : Nat} (h : n ≤ m) :
    lastN n (List.range m) = (List.range n).map fun i => m - n + i := by
  rw [lastN, List.length_range]
  refine List.ext_getElem (by simp; omega) fun i h₁ h₂ => ?_
  simp

end Pieces

namespace Attempt

variable {ε W α β : Type} {w : W}

/-- **A loop over pieces**, by what holds after each part of the list that they make up. -/
theorem Ends.pieces {n : Nat} (hn : 0 < n) {xs : List α} {f : β → List α → Attempt ε W β}
    (I : List α → β → W → Prop)
    (hstep : ∀ done p b w, (∃ rest, xs = done ++ p ++ rest) → p ≠ [] → p.length ≤ n →
      I done b w → Ends (f b p) w (I (done ++ p))) {b : β} (h : I [] b w) :
    Ends ((Infra.pieces n xs).foldlM f b) w (I xs) := by
  obtain ⟨hflat, hpieces⟩ := pieces_rule hn xs
  refine (Ends.foldlM (fun done b w => I done.flatten b w) ?_ h).mono fun b w' hI => hflat ▸ hI
  intro done p rest b w hall hI
  obtain ⟨hne, hle⟩ := hpieces p (by rw [hall]; simp)
  rw [List.flatten_append, List.flatten_singleton]
  refine hstep _ p b w ⟨rest.flatten, ?_⟩ hne hle hI
  rw [← hflat, hall]
  simp

/-- A loop that is refused at an element, after those before it. -/
theorem Ends.foldlM_err {l : List α} (rest : List α) {a : α} {f : β → α → Attempt ε W β} {b : β} {e : ε}
    {Q : β → W → Prop} (h : Ends (l.foldlM f b) w Q)
    (herr : ∀ b' w', Q b' w' → f b' a w' = (.err e, w')) :
    ∃ b' w', Q b' w' ∧ (l ++ a :: rest).foldlM f b w = (.err e, w') := by
  induction l generalizing b w with
  | nil =>
    obtain ⟨b', w', hx, hq⟩ := h
    cases hx
    exact ⟨b, w, hq, bind_err (herr b w hq)⟩
  | cons x l ih =>
    obtain ⟨b', w', hx, hq⟩ := h
    rw [List.foldlM_cons] at hx
    generalize hfx : f b x w = out at hx
    obtain ⟨res, w₁⟩ := out
    cases res with
    | ok b₁ =>
      rw [bind_ok hfx] at hx
      obtain ⟨b₂, w₂, hq₂, hrun⟩ := ih ⟨b', w', hx, hq⟩
      refine ⟨b₂, w₂, hq₂, ?_⟩
      rw [List.cons_append, List.foldlM_cons, bind_ok hfx, hrun]
    | err e' =>
      rw [bind_err hfx] at hx
      cases hx
    | panic =>
      rw [bind_panic hfx] at hx
      cases hx

/-! ## Rows, one after the other -/

/-- `n` rows of `d` elements, one after the other; each is made of what is there. -/
def eachRow (z : α) (d n : Nat) (f : Nat → List α → Attempt ε W (List α)) :
    Attempt ε W (List α) :=
  (List.range n).foldlM (fun out i => do
    let row ← lift (rowAt d i out)
    let row ← f i row
    lift (writeRow d i row out)) (List.replicate (n * d) z)

/-- **A row for each element of a list**, by what holds after each of them. -/
theorem Ends.eachRow {z : α} {d : Nat} {f : Nat → List α → Attempt ε W (List α)} {l : List β}
    (found : β → List α) (hwide : ∀ x ∈ l, (found x).length = d) (I : Nat → W → Prop)
    (hstep : ∀ i x w, l[i]? = some x → I i w →
      Ends (f i (List.replicate d z)) w fun row w' => row = found x ∧ I (i + 1) w')
    (h : I 0 w) : Ends (Attempt.eachRow z d l.length f) w fun out w' =>
      out = l.flatMap found ∧ I l.length w' := by
  obtain ⟨rows, hrows⟩ : ∃ rows : Nat → List α,
      rows = fun i => (l[i]?).elim (List.replicate d z) found := ⟨_, rfl⟩
  have hat : ∀ i x, l[i]? = some x → rows i = found x := fun i x hi => by
    rw [hrows]
    simp only [hi, Option.elim_some]
  have hlen : ∀ i, i < l.length → (rows i).length = d := fun i hi => by
    rw [hat i _ (List.getElem?_eq_getElem hi)]
    exact hwide _ (List.getElem_mem hi)
  refine (Ends.range (fun i out w' => out = rowsUpTo d l.length i rows z ∧ I i w') ?_
    ⟨(rowsUpTo_zero ..).symm, h⟩).mono ?_
  · rintro i out w' hi ⟨rfl, hI⟩
    have hget := List.getElem?_eq_getElem hi
    refine Ends.lift_bind (rowAt_rowsUpTo hi hlen) (Ends.bind (hstep i _ w' hget hI) ?_)
    rintro _ w'' ⟨rfl, hI'⟩
    rw [← hat i _ hget]
    exact Ends.lift (writeRow_rowsUpTo hi hlen) ⟨rfl, hI'⟩
  · rintro out w' ⟨rfl, hI⟩
    refine ⟨?_, hI⟩
    rw [rowsUpTo_all, hrows, range_each]

end Attempt

end Infra
