import Mathlib

/-!
# Backtracking regular expressions

A regular expression as a backtracking engine runs it: `run r l` lists how many symbols of `l` the
expression can take, in the order the engine tries them. Alternatives are tried from the left and
repetitions are greedy; the first entry is the match.

* `firstMatch_alt`, `firstMatch_seq` — the first success, put together from the parts
* `run_star_sym`, `run_plus_sym` — a run of one class, and what it gives back
* `findAll_cons` — the leftmost match, and the search after it
-/

namespace Infra

variable {α : Type}

inductive Regex (α : Type) where
  | empty
  | sym (p : α → Bool)
  | seq (r s : Regex α)
  | alt (r s : Regex α)
  /-- Greedy. -/
  | star (r : Regex α)
  /-- `(?!r)`: what follows is no match of `r`. -/
  | notAhead (r : Regex α)

namespace Regex

/-- `r?`, greedy. -/
def opt (r : Regex α) : Regex α := .alt r .empty

/-- `r+`, greedy. -/
def plus (r : Regex α) : Regex α := .seq r (.star r)

/-! ## The order of the attempts -/

/-- Greedy iteration: as much as possible first, and nothing last. An iteration that takes nothing
is the last one. -/
def iterate (f : List α → List Nat) : Nat → List α → List Nat
  | 0, _ => [0]
  | fuel + 1, l =>
    ((f l).flatMap fun k => if k = 0 then [0] else (iterate f fuel (l.drop k)).map (k + ·)) ++ [0]

/-- How much of `l` is taken, in the order of the attempts. -/
def run : Regex α → List α → List Nat
  | .empty, _ => [0]
  | .sym _, [] => []
  | .sym p, a :: _ => if p a then [1] else []
  | .seq r s, l => (run r l).flatMap fun k => (run s (l.drop k)).map (k + ·)
  | .alt r s, l => run r l ++ run s l
  -- every iteration but the last takes a symbol
  | .star r, l => iterate (run r) (l.length + 1) l
  | .notAhead r, l => if run r l = [] then [0] else []

/-- The match that starts where `l` starts. -/
def firstMatch (r : Regex α) (l : List α) : Option Nat := (r.run l).head?

/-- The first place from which there is a match, and its length. -/
def leftmost (r : Regex α) : List α → Option (Nat × Nat)
  | [] => (r.firstMatch []).map fun n => (0, n)
  | a :: l =>
    match r.firstMatch (a :: l) with
    | some n => some (0, n)
    | none => (leftmost r l).map fun m => (m.1 + 1, m.2)

/-- The successive leftmost matches in `l`, as ranges of places; `l` stands at place `pos`. After a
match of nothing the search goes on one symbol further. -/
def findAll (r : Regex α) (pos : Nat) (l : List α) : List (Nat × Nat) :=
  match r.leftmost l with
  | none => []
  | some (k, n) =>
    (pos + k, pos + k + n) ::
      if l.length < k + max n 1 then [] else findAll r (pos + (k + max n 1)) (l.drop (k + max n 1))
termination_by l.length
decreasing_by
  rw [List.length_drop]
  omega

/-! ## Putting matches together -/

theorem firstMatch_alt (r s : Regex α) (l : List α) :
    (alt r s).firstMatch l = (r.firstMatch l).or (s.firstMatch l) := List.head?_append

theorem firstMatch_seq (r s : Regex α) (l : List α) :
    (seq r s).firstMatch l
      = (r.run l).findSome? fun k => (s.firstMatch (l.drop k)).map (k + ·) := by
  rw [firstMatch, run, List.head?_flatMap]
  simp only [List.head?_map]
  rfl

theorem firstMatch_notAhead (r : Regex α) (l : List α) :
    (notAhead r).firstMatch l = if r.firstMatch l = none then some 0 else none := by
  simp only [firstMatch, run, List.head?_eq_none_iff]
  split <;> rfl

/-! ## Runs of a class -/

theorem run_sym (p : α → Bool) (l : List α) :
    (sym p).run l = if l.head?.any p then [1] else [] := by
  cases l <;> rfl

theorem firstMatch_sym (p : α → Bool) (l : List α) :
    (sym p).firstMatch l = if l.head?.any p then some 1 else none := by
  rw [firstMatch, run_sym]
  split <;> rfl

/-- How many symbols of the class `l` starts with. -/
def runLength (p : α → Bool) (l : List α) : Nat := (l.takeWhile p).length

theorem runLength_pos_iff (p : α → Bool) (l : List α) :
    0 < runLength p l ↔ l.head?.any p = true := by
  cases l with
  | nil => simp [runLength]
  | cons a l => by_cases ha : p a <;> simp [runLength, ha]

/-- Inside a run is the class. -/
theorem any_of_lt_runLength {p : α → Bool} : ∀ {l : List α} {k : Nat}, k < runLength p l →
    l[k]?.any p = true
  | [], k, h => by simp [runLength] at h
  | a :: l, k, h => by
    by_cases ha : p a
    · cases k with
      | zero => simpa using ha
      | succ k =>
        have hlength : runLength p (a :: l) = runLength p l + 1 := by simp [runLength, ha]
        rw [List.getElem?_cons_succ]
        exact any_of_lt_runLength (by omega)
    · simp [runLength, ha] at h

/-- A run ends where the class does. -/
theorem any_runLength (p : α → Bool) : ∀ l : List α, l[runLength p l]?.any p = false
  | [] => rfl
  | a :: l => by
    by_cases ha : p a
    · have hlength : runLength p (a :: l) = runLength p l + 1 := by simp [runLength, ha]
      rw [hlength]
      exact any_runLength p l
    · have hlength : runLength p (a :: l) = 0 := by simp [runLength, ha]
      rw [hlength]
      simpa using ha

theorem iterate_sym (p : α → Bool) : ∀ (fuel : Nat) (l : List α), l.length ≤ fuel →
    iterate (sym p).run fuel l = (List.range (runLength p l + 1)).reverse
  | 0, [], _ => rfl
  | fuel + 1, [], _ => rfl
  | fuel + 1, a :: l, h => by
    rw [iterate, run]
    by_cases ha : p a
    · have ih := iterate_sym p fuel l (by simpa using h)
      have hlength : runLength p (a :: l) = runLength p l + 1 := by
        simp [runLength, ha]
      rw [if_pos ha, List.flatMap_singleton, if_neg one_ne_zero, List.drop_one, List.tail_cons, ih,
        hlength, List.range_succ_eq_map (n := runLength p l + 1)]
      simp [List.map_reverse, Nat.add_comm]
    · have hlength : runLength p (a :: l) = 0 := by
        simp [runLength, ha]
      rw [if_neg ha, hlength]
      rfl

/-- A greedy run of a class takes all of it first and gives back one symbol at a time. -/
theorem run_star_sym (p : α → Bool) (l : List α) :
    (star (sym p)).run l = (List.range (runLength p l + 1)).reverse :=
  iterate_sym p (l.length + 1) l (Nat.le_succ _)

/-- The first place to try in a run, and the ones before it. -/
theorem reverse_range_succ (n : Nat) :
    (List.range (n + 1)).reverse = n :: (List.range n).reverse := by
  rw [List.range_succ, List.reverse_append]
  rfl

theorem run_plus_sym (p : α → Bool) (l : List α) :
    (plus (sym p)).run l = (List.range (runLength p l)).reverse.map (· + 1) := by
  rw [plus, run, run_sym]
  cases l with
  | nil => rfl
  | cons a l =>
    by_cases ha : p a
    · have hlength : runLength p (a :: l) = runLength p l + 1 := by
        simp [runLength, ha]
      rw [hlength]
      simp [ha, run_star_sym, Nat.add_comm]
    · have hlength : runLength p (a :: l) = 0 := by
        simp [runLength, ha]
      rw [hlength]
      simp [ha]

theorem firstMatch_star_sym (p : α → Bool) (l : List α) :
    (star (sym p)).firstMatch l = some (runLength p l) := by
  rw [firstMatch, run_star_sym, reverse_range_succ]
  rfl

theorem firstMatch_plus_sym (p : α → Bool) (l : List α) :
    (plus (sym p)).firstMatch l = if 0 < runLength p l then some (runLength p l) else none := by
  rw [firstMatch, run_plus_sym]
  cases runLength p l with
  | zero => rfl
  | succ n =>
    rw [reverse_range_succ]
    simp

theorem run_opt_sym (p : α → Bool) (l : List α) :
    (opt (sym p)).run l = if l.head?.any p then [1, 0] else [0] := by
  rw [opt, run, run_sym]
  split <;> rfl

/-! ## Searching -/

theorem iterate_le {f : List α → List Nat} (hf : ∀ l, ∀ k ∈ f l, k ≤ l.length) :
    ∀ (fuel : Nat) (l : List α), ∀ k ∈ iterate f fuel l, k ≤ l.length
  | 0, l, k, hk => by
    rw [iterate, List.mem_singleton] at hk
    omega
  | fuel + 1, l, k, hk => by
    rw [iterate, List.mem_append, List.mem_singleton, List.mem_flatMap] at hk
    rcases hk with ⟨j, hj, hk⟩ | rfl
    · have hle := hf l j hj
      split at hk
      · rw [List.mem_singleton] at hk
        omega
      · obtain ⟨i, hi, rfl⟩ := List.mem_map.mp hk
        have hrest := iterate_le hf fuel (l.drop j) i hi
        rw [List.length_drop] at hrest
        omega
    · exact Nat.zero_le _

/-- Nothing past the end is taken. -/
theorem run_le (r : Regex α) : ∀ (l : List α), ∀ k ∈ r.run l, k ≤ l.length := by
  induction r with
  | empty =>
    intro l k hk
    rw [run, List.mem_singleton] at hk
    omega
  | sym p =>
    intro l k hk
    cases l with
    | nil => simp [run] at hk
    | cons a l =>
      rw [run] at hk
      split at hk
      · rw [List.mem_singleton] at hk
        simp [hk]
      · simp at hk
  | seq r s ihr ihs =>
    intro l k hk
    rw [run, List.mem_flatMap] at hk
    obtain ⟨j, hj, hk⟩ := hk
    obtain ⟨i, hi, rfl⟩ := List.mem_map.mp hk
    have hfirst := ihr l j hj
    have hrest := ihs (l.drop j) i hi
    rw [List.length_drop] at hrest
    omega
  | alt r s ihr ihs =>
    intro l k hk
    rw [run, List.mem_append] at hk
    exact hk.elim (ihr l k) (ihs l k)
  | star r ih => exact fun l => iterate_le ih (l.length + 1) l
  | notAhead r _ =>
    intro l k hk
    rw [run] at hk
    split at hk
    · rw [List.mem_singleton] at hk
      omega
    · simp at hk

theorem firstMatch_le {r : Regex α} {l : List α} {n : Nat} (h : r.firstMatch l = some n) :
    n ≤ l.length := r.run_le l n (List.mem_of_mem_head? h)

theorem findAll_nil {r : Regex α} (h : r.firstMatch [] = none) (pos : Nat) :
    r.findAll pos [] = [] := by
  rw [findAll, leftmost, h]
  rfl

/-- A match where the search stands is the leftmost one, and the search goes on behind it. -/
theorem findAll_cons {r : Regex α} {l : List α} {n : Nat} (h : r.firstMatch l = some n)
    (hn : 0 < n) (pos : Nat) :
    r.findAll pos l = (pos, pos + n) :: r.findAll (pos + n) (l.drop n) := by
  have hle := firstMatch_le h
  have hleft : r.leftmost l = some (0, n) := by
    cases l with
    | nil => rw [leftmost, h]; rfl
    | cons a l => rw [leftmost, h]
  rw [findAll, hleft]
  simp only [Nat.zero_add, Nat.add_zero, Nat.max_eq_left hn]
  rw [if_neg (by omega)]

end Regex

end Infra
