import Mathlib

/-!
# A list cut into pages

`page n vs b` is the `b`-th page of `n` elements of `vs`. A paged store keeps such pages
apart; the lemmas say what pushing one element or cutting the list does to each page, and
where an element is found.

`flatRow` is the other half: a page of vectors of one width stored as one flat run.
-/

namespace Infra

variable {α β : Type}

/-! ## Pages -/

def page (n : Nat) (vs : List α) (b : Nat) : List α := (vs.drop (b * n)).take n

/-- How many pages a list of `len` elements needs. -/
def pageCount (n len : Nat) : Nat := (len + n - 1) / n

theorem length_page (n : Nat) (vs : List α) (b : Nat) :
    (page n vs b).length = min n (vs.length - b * n) := by
  simp [page]

theorem lt_pageCount {n : Nat} (hn : 0 < n) {len b : Nat} : b < pageCount n len ↔ b * n < len := by
  unfold pageCount
  rw [Nat.lt_iff_add_one_le, Nat.le_div_iff_mul_le hn, Nat.add_mul]
  omega

/-- Every page but the last is full. -/
theorem length_page_full {n : Nat} (hn : 0 < n) {vs : List α} {b : Nat}
    (h : b + 1 < pageCount n vs.length) : (page n vs b).length = n := by
  rw [lt_pageCount hn, Nat.add_mul] at h
  rw [length_page]
  omega

theorem page_eq_nil {n : Nat} {vs : List α} {b : Nat} (h : vs.length ≤ b * n) :
    page n vs b = [] := by
  rw [page, List.drop_eq_nil_of_le h, List.take_nil]

/-- A pushed element lands on the page its index says. -/
theorem page_push_last {n : Nat} (hn : 0 < n) (vs : List α) (x : α) :
    page n (vs ++ [x]) (vs.length / n) = page n vs (vs.length / n) ++ [x] := by
  have hle : vs.length / n * n ≤ vs.length := Nat.div_mul_le_self _ _
  have hlt : vs.length < vs.length / n * n + n := Nat.lt_div_mul_add hn
  unfold page
  rw [List.drop_append_of_le_length hle, List.take_of_length_le, List.take_of_length_le]
  · simp; omega
  · simp; omega

/-- A pushed element leaves every other page as it was. -/
theorem page_push_ne {n : Nat} (hn : 0 < n) {vs : List α} {x : α} {b : Nat}
    (h : b ≠ vs.length / n) : page n (vs ++ [x]) b = page n vs b := by
  rcases Nat.lt_or_gt_of_ne h with hlt | hgt
  · have hfull : b * n + n ≤ vs.length := by
      have h1 : (b + 1) * n ≤ vs.length / n * n := Nat.mul_le_mul_right _ hlt
      have h2 : vs.length / n * n ≤ vs.length := Nat.div_mul_le_self _ _
      rw [Nat.add_mul] at h1
      omega
    unfold page
    rw [List.drop_append_of_le_length (by omega), List.take_append_of_le_length]
    simp; omega
  · have hbig : vs.length + 1 ≤ b * n := by
      rw [Nat.add_one_le_iff, ← Nat.div_lt_iff_lt_mul hn]
      exact hgt
    rw [page_eq_nil (by simpa using hbig), page_eq_nil (by omega)]

/-- Cutting the list keeps the pages before the cut. -/
theorem page_take_lt {n : Nat} {vs : List α} {m b : Nat} (h : b * n + n ≤ m) :
    page n (vs.take m) b = page n vs b := by
  unfold page
  rw [List.drop_take, List.take_take, Nat.min_eq_left (by omega)]

/-- The page a cut lands in keeps what precedes it. -/
theorem page_take_cut {n : Nat} (hn : 0 < n) (vs : List α) (m : Nat) :
    page n (vs.take m) (m / n) = (page n vs (m / n)).take (m % n) := by
  have hmod : m % n ≤ n := Nat.le_of_lt (Nat.mod_lt _ hn)
  have hsub : m - m / n * n = m % n := by
    have := Nat.div_add_mod' m n
    omega
  unfold page
  rw [List.drop_take, List.take_take, List.take_take, hsub, Nat.min_comm]

/-- Where an element lives. -/
theorem getElem?_page {n : Nat} (hn : 0 < n) (vs : List α) (j : Nat) :
    (page n vs (j / n))[j % n]? = vs[j]? := by
  unfold page
  rw [List.getElem?_take_of_lt (Nat.mod_lt _ hn), List.getElem?_drop, Nat.div_add_mod']

/-! ## A page of rows stored flat -/

/-- Row `i` of a flat run of rows of width `d`, when the run is long enough. -/
def flatRow (d : Nat) (flat : List β) (i : Nat) : Option (List β) :=
  if i * d + d ≤ flat.length then some ((flat.drop (i * d)).take d) else none

theorem length_flatten_rows {d : Nat} : ∀ {rows : List (List β)}, (∀ r ∈ rows, r.length = d) →
    rows.flatten.length = rows.length * d
  | [], _ => by simp
  | r :: rows, h => by
    rw [List.flatten_cons, List.length_append, h r (by simp),
      length_flatten_rows (fun x hx => h x (by simp [hx])), List.length_cons, Nat.succ_mul,
      Nat.add_comm]

theorem drop_flatten_rows {d : Nat} : ∀ {rows : List (List β)}, (∀ r ∈ rows, r.length = d) →
    ∀ i, rows.flatten.drop (i * d) = (rows.drop i).flatten
  | [], _, i => by simp
  | _, _, 0 => by simp
  | r :: rows, h, i + 1 => by
    have hr : r.length = d := h r (by simp)
    rw [List.flatten_cons, Nat.succ_mul, Nat.add_comm, List.drop_append, hr,
      List.drop_eq_nil_of_le (by omega), List.nil_append, Nat.add_sub_cancel_left,
      drop_flatten_rows (fun x hx => h x (by simp [hx])) i, List.drop_succ_cons]

theorem take_flatten_rows {d : Nat} : ∀ {rows : List (List β)}, (∀ r ∈ rows, r.length = d) →
    ∀ i, rows.flatten.take (i * d) = (rows.take i).flatten
  | [], _, i => by simp
  | _, _, 0 => by simp
  | r :: rows, h, i + 1 => by
    have hr : r.length = d := h r (by simp)
    rw [List.flatten_cons, Nat.succ_mul, Nat.add_comm, List.take_append, hr,
      List.take_of_length_le (by omega), Nat.add_sub_cancel_left,
      take_flatten_rows (fun x hx => h x (by simp [hx])) i, List.take_succ_cons, List.flatten_cons]

/-- Reading row `i` back from the flat run. -/
theorem flatRow_flatten {d : Nat} {rows : List (List β)} (h : ∀ r ∈ rows, r.length = d) {i : Nat}
    {r : List β} (hi : rows[i]? = some r) : flatRow d rows.flatten i = some r := by
  obtain ⟨hlt, hget⟩ := List.getElem?_eq_some_iff.mp hi
  have hr : r.length = d := h r (List.mem_of_getElem? hi)
  have hfit : i * d + d ≤ rows.flatten.length := by
    rw [length_flatten_rows h, ← Nat.succ_mul]
    exact Nat.mul_le_mul_right _ hlt
  rw [flatRow, if_pos hfit, drop_flatten_rows h, List.drop_eq_getElem_cons hlt, hget,
    List.flatten_cons, List.take_append_of_le_length (by omega), List.take_of_length_le (by omega)]

end Infra
