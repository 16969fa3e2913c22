import Garuda.Infra.Parser

/-!
# Matrices as one list

A matrix stored row after row, each of `w` entries.

* `rowOf w r s` is row `r`, and `setRow w r row s` puts another in its place.
* `rowsOf w s` are the rows; `rowAt`, `writeRow`, `chunks` and `setAt` are the same accesses as code
  makes them, which panics where they go wrong.
* `entry w s r j` is the entry of row `r` and column `j`.
* `matOf` and `vecOf` are the matrix and the vector that such lists stand for.
-/

namespace Infra

variable {α : Type}

/-- `&s[r * w..(r + 1) * w]` -/
def rowOf (w r : Nat) (s : List α) : List α := (s.drop (r * w)).take w

/-- What is left in `s` when row `r` was written. -/
def setRow (w r : Nat) (row s : List α) : List α :=
  s.take (r * w) ++ (row ++ s.drop ((r + 1) * w))

theorem row_le {w r rows : Nat} (h : r < rows) : (r + 1) * w ≤ rows * w :=
  Nat.mul_le_mul_right w h

/-- An entry of another row lies before row `r` or behind it. -/
theorem entry_apart {w r i j : Nat} (hj : j < w) (hne : i ≠ r) :
    i * w + j < r * w ∨ (r + 1) * w ≤ i * w + j := by
  rcases Nat.lt_or_gt_of_ne hne with hlt | hgt
  · have := row_le (w := w) hlt
    rw [Nat.add_one_mul] at this
    exact .inl (by omega)
  · have := row_le (w := w) hgt
    exact .inr (by omega)

/-- A place in the matrix is in one row, and in no other. -/
theorem existsUnique_row {w n base i : Nat} (hlo : base ≤ i) (hhi : i < base + n * w) :
    ∃! r, r < n ∧ base + r * w ≤ i ∧ i < base + r * w + w := by
  have hw : 0 < w := Nat.pos_of_ne_zero fun h => by
    rw [h, Nat.mul_zero] at hhi
    omega
  have hdiv := Nat.div_add_mod (i - base) w
  have hmod := Nat.mod_lt (i - base) hw
  rw [Nat.mul_comm] at hdiv
  refine ⟨(i - base) / w, ⟨(Nat.div_lt_iff_lt_mul hw).mpr (by omega), by omega, by omega⟩, ?_⟩
  rintro r ⟨-, hr, hr'⟩
  exact (Nat.div_eq_of_lt_le (by omega) (by rw [Nat.add_one_mul]; omega)).symm

theorem length_rowOf {w r : Nat} {s : List α} (h : (r + 1) * w ≤ s.length) :
    (rowOf w r s).length = w := by
  rw [Nat.add_one_mul] at h
  rw [rowOf, List.length_take, List.length_drop]
  omega

theorem rowOf_zero_one {w : Nat} {s : List α} (h : s.length = 1 * w) : rowOf w 0 s = s := by
  rw [rowOf, Nat.zero_mul, List.drop_zero, List.take_of_length_le (by omega)]

theorem getElem?_rowOf {w r j : Nat} (s : List α) (hj : j < w) :
    (rowOf w r s)[j]? = s[r * w + j]? := by
  rw [rowOf, List.getElem?_take_of_lt hj, List.getElem?_drop]

theorem length_setRow {w r : Nat} {row s : List α} (hrow : row.length = w)
    (h : (r + 1) * w ≤ s.length) : (setRow w r row s).length = s.length := by
  have hr := Nat.add_one_mul r w
  simp only [setRow, List.length_append, List.length_take, List.length_drop, hrow]
  omega

theorem getElem?_setRow_self {w r j : Nat} {row s : List α} (hrow : row.length = w)
    (h : (r + 1) * w ≤ s.length) (hj : j < w) : (setRow w r row s)[r * w + j]? = row[j]? := by
  have hr := Nat.add_one_mul r w
  have hlen : (s.take (r * w)).length = r * w := by
    rw [List.length_take]
    omega
  rw [setRow, List.getElem?_append_right (by omega), hlen, Nat.add_sub_cancel_left,
    List.getElem?_append_left (by omega)]

theorem getElem?_setRow_ne {w r i j : Nat} {row s : List α} (hrow : row.length = w)
    (h : (r + 1) * w ≤ s.length) (hj : j < w) (hne : i ≠ r) :
    (setRow w r row s)[i * w + j]? = s[i * w + j]? := by
  have hr := Nat.add_one_mul r w
  have hlen : (s.take (r * w)).length = r * w := by
    rw [List.length_take]
    omega
  rw [setRow]
  rcases entry_apart hj hne with hlt | hge
  · rw [List.getElem?_append_left (by omega), List.getElem?_take_of_lt hlt]
  · rw [List.getElem?_append_right (by omega), hlen, List.getElem?_append_right (by omega), hrow,
      List.getElem?_drop]
    congr 1
    omega

theorem rowOf_setRow_self {w r : Nat} {row s : List α} (hrow : row.length = w)
    (h : (r + 1) * w ≤ s.length) : rowOf w r (setRow w r row s) = row := by
  refine List.ext_getElem? fun j => ?_
  by_cases hj : j < w
  · rw [getElem?_rowOf _ hj, getElem?_setRow_self hrow h hj]
  · rw [List.getElem?_eq_none, List.getElem?_eq_none]
    · omega
    · rw [length_rowOf (by rw [length_setRow hrow h]; exact h)]
      omega

theorem rowOf_setRow_ne {w r i : Nat} {row s : List α} (hrow : row.length = w)
    (h : (r + 1) * w ≤ s.length) (hne : i ≠ r) : rowOf w i (setRow w r row s) = rowOf w i s := by
  refine List.ext_getElem? fun j => ?_
  by_cases hj : j < w
  · rw [getElem?_rowOf _ hj, getElem?_rowOf _ hj, getElem?_setRow_ne hrow h hj hne]
  · have hshort : ∀ l : List α, (rowOf w i l)[j]? = none := fun l => by
      rw [List.getElem?_eq_none]
      rw [rowOf, List.length_take]
      omega
    rw [hshort, hshort]

/-! ## All rows -/

/-- The rows, and nothing of what is left behind the last whole one. -/
def rowsOf (w : Nat) (s : List α) : List (List α) :=
  (List.range (s.length / w)).map fun r => rowOf w r s

theorem rowsOf_eq {w n : Nat} {s : List α} (hw : 0 < w) (h : s.length = n * w) :
    rowsOf w s = (List.range n).map fun r => rowOf w r s := by
  rw [rowsOf, h, Nat.mul_div_cancel n hw]

theorem length_of_mem_rowsOf {w : Nat} {s row : List α} (h : row ∈ rowsOf w s) :
    row.length = w := by
  obtain ⟨r, hr, rfl⟩ := List.mem_map.mp h
  exact length_rowOf ((row_le (List.mem_range.mp hr)).trans (Nat.div_mul_le_self _ _))

theorem length_flatMap_range {w n : Nat} {f : Nat → List α} (h : ∀ r, r < n → (f r).length = w) :
    ((List.range n).flatMap f).length = n * w := by
  rw [List.length_flatMap, List.map_congr_left fun r hr => h r (List.mem_range.mp hr),
    List.map_const', List.sum_replicate_nat, List.length_range]

/-- An entry of rows that were put behind each other. -/
theorem getElem?_flatten {β : Type} {w j : Nat} (hj : j < w) : ∀ {rows : List (List β)} {r : Nat}
    {row : List β}, (∀ row ∈ rows, row.length = w) → rows[r]? = some row →
    rows.flatten[r * w + j]? = row[j]?
  | [], _, _, _, h => by cases h
  | first :: rows, 0, row, hw, h => by
    cases h
    have hlen := hw first List.mem_cons_self
    rw [Nat.zero_mul, Nat.zero_add, List.flatten_cons, List.getElem?_append_left (by omega)]
  | first :: rows, r + 1, row, hw, h => by
    have hlen := hw first List.mem_cons_self
    have hr := Nat.add_one_mul r w
    have hrest := getElem?_flatten hj (fun row hrow => hw row (List.mem_cons_of_mem _ hrow)) h
    rw [List.flatten_cons, List.getElem?_append_right (by omega), ← hrest]
    congr 1
    omega

theorem rowOf_flatten {β : Type} {w r : Nat} {rows : List (List β)} {row : List β}
    (hw : ∀ row ∈ rows, row.length = w) (hr : rows[r]? = some row) :
    rowOf w r rows.flatten = row := by
  have hrow := hw row (List.mem_of_getElem? hr)
  refine List.ext_getElem? fun j => ?_
  rcases Nat.lt_or_ge j w with hj | hj
  · rw [getElem?_rowOf _ hj, getElem?_flatten hj hw hr]
  · rw [List.getElem?_eq_none, List.getElem?_eq_none (by omega)]
    rw [rowOf, List.length_take]
    omega

theorem rowOf_append {w n : Nat} {front row back : List α} (hfront : front.length = n * w)
    (hrow : row.length = w) : rowOf w n (front ++ (row ++ back)) = row := by
  rw [rowOf, List.drop_append_of_le_length hfront.ge, List.drop_eq_nil_of_le hfront.le,
    List.nil_append, List.take_append_of_le_length hrow.ge, List.take_of_length_le hrow.le]

/-- A row of what was put together row by row. -/
theorem rowOf_flatMap {w n r : Nat} {f : Nat → List α} (h : ∀ r, r < n → (f r).length = w)
    (hr : r < n) : rowOf w r ((List.range n).flatMap f) = f r := by
  obtain ⟨k, rfl⟩ := Nat.exists_eq_add_of_lt hr
  have hfront := length_flatMap_range (n := r) fun i hi => h i (by omega)
  rw [show r + k + 1 = r + (1 + k) by omega, List.range_add, List.flatMap_append, Nat.add_comm 1 k,
    List.range_succ_eq_map]
  simp only [List.map_cons, List.flatMap_cons, Nat.add_zero]
  exact rowOf_append hfront (h r (by omega))

/-- Rows of what was put together out of whole rows. -/
theorem rowsOf_append {w : Nat} (hw : 0 < w) {front : List α} (h : w ∣ front.length)
    (back : List α) : rowsOf w (front ++ back) = rowsOf w front ++ rowsOf w back := by
  obtain ⟨k, hk⟩ := h
  rw [Nat.mul_comm] at hk
  have hlen : (front ++ back).length / w = k + back.length / w := by
    rw [List.length_append, hk, Nat.add_comm, Nat.add_mul_div_right _ _ hw, Nat.add_comm]
  rw [rowsOf_eq hw hk, rowsOf, rowsOf, hlen, List.range_add, List.map_append, List.map_map]
  congr 1
  · refine List.map_congr_left fun r hr => ?_
    have := row_le (w := w) (List.mem_range.mp hr)
    rw [Nat.add_one_mul] at this
    rw [rowOf, rowOf, List.drop_append_of_le_length (by omega),
      List.take_append_of_le_length (by rw [List.length_drop]; omega)]
  · refine List.map_congr_left fun r _ => ?_
    rw [Function.comp_apply, rowOf, rowOf, List.drop_append, List.drop_eq_nil_of_le (by
      rw [hk, Nat.add_mul]; omega), List.nil_append, hk, Nat.add_mul, Nat.add_sub_cancel_left]

theorem rowsOf_flatMap {w m n : Nat} {f : Nat → List α} (hw : 0 < w) (hm : w ∣ m)
    (h : ∀ r, r < n → (f r).length = m) :
    rowsOf w ((List.range n).flatMap f) = (List.range n).flatMap fun r => rowsOf w (f r) := by
  induction n with
  | zero =>
    rw [List.range_zero, List.flatMap_nil, List.flatMap_nil, rowsOf, List.length_nil, Nat.zero_div]
    rfl
  | succ n ih =>
    have hfront : w ∣ ((List.range n).flatMap f).length := by
      rw [length_flatMap_range fun r hr => h r (by omega)]
      exact Dvd.dvd.mul_left hm n
    rw [List.range_succ, List.flatMap_append, rowsOf_append hw hfront,
      ih fun r hr => h r (by omega), List.flatMap_append, List.flatMap_singleton, List.flatMap_singleton]

/-- Lists of `n` rows are equal when their rows are. -/
theorem eq_flatMap_iff {w n : Nat} {f : Nat → List α} {s : List α}
    (h : ∀ r, r < n → (f r).length = w) :
    s = (List.range n).flatMap f ↔ s.length = n * w ∧ ∀ r, r < n → rowOf w r s = f r := by
  constructor
  · rintro rfl
    exact ⟨length_flatMap_range h, fun r hr => rowOf_flatMap h hr⟩
  · rintro ⟨hlen, hrows⟩
    induction n generalizing s with
    | zero =>
      rw [Nat.zero_mul] at hlen
      rw [List.eq_nil_of_length_eq_zero hlen]
      rfl
    | succ n ih =>
      have hsn := Nat.add_one_mul n w
      have hfront : s.take (n * w) = (List.range n).flatMap f := by
        refine ih (fun r hr => h r (by omega)) (by rw [List.length_take]; omega) fun r hr => ?_
        rw [← hrows r (by omega), rowOf, rowOf, List.drop_take, List.take_take,
          Nat.min_eq_left (by have := row_le (w := w) hr; rw [Nat.add_one_mul] at this; omega)]
      have hlast : s.drop (n * w) = f n := by
        rw [← hrows n (by omega), rowOf, List.take_of_length_le]
        rw [List.length_drop]
        omega
      rw [List.range_succ, List.flatMap_append, ← hfront, List.flatMap_singleton, ← hlast,
        List.take_append_drop]

/-- Mapping each row by its number. -/
theorem flatMap_map_rowOf {β : Type} {w n : Nat} {s : List α} {f : Nat → α → β}
    (h : s.length = n * w) :
    ((List.range n).flatMap fun r => (rowOf w r s).map (f r))
      = s.mapIdx fun i a => f (i / w) a := by
  have hlen : ∀ r, r < n → ((rowOf w r s).map (f r)).length = w := fun r hr => by
    rw [List.length_map, length_rowOf (h ▸ row_le hr)]
  refine Eq.symm ((eq_flatMap_iff hlen).mpr ⟨by rw [List.length_mapIdx, h], fun r hr => ?_⟩)
  refine List.ext_getElem? fun j => ?_
  rcases Nat.lt_or_ge j w with hj | hj
  · have hdiv : (r * w + j) / w = r := by
      rw [Nat.mul_comm, Nat.mul_add_div (by omega), Nat.div_eq_of_lt hj, Nat.add_zero]
    rw [getElem?_rowOf _ hj, List.getElem?_mapIdx, List.getElem?_map, getElem?_rowOf _ hj, hdiv]
  · rw [List.getElem?_eq_none, List.getElem?_eq_none (by rwa [hlen r hr])]
    rw [rowOf, List.length_take]
    omega

/-- Counting on from row to row. -/
theorem mapIdx_flatMap_range {β : Type} {w n : Nat} {f : Nat → List α} {g : Nat → α → β}
    (h : ∀ r, r < n → (f r).length = w) :
    ((List.range n).flatMap f).mapIdx g
      = (List.range n).flatMap fun r => (f r).mapIdx fun i => g (r * w + i) := by
  induction n with
  | zero => rfl
  | succ n ih =>
    rw [List.range_succ, List.flatMap_append, List.flatMap_append, List.mapIdx_append,
      ih fun r hr => h r (by omega), length_flatMap_range fun r hr => h r (by omega),
      List.flatMap_singleton, List.flatMap_singleton]
    simp only [Nat.add_comm]

theorem mapIdx_map_range {β : Type} (n : Nat) (f : Nat → α) (g : Nat → α → β) :
    ((List.range n).map f).mapIdx g = (List.range n).map fun i => g i (f i) := by
  refine List.ext_getElem? fun i => ?_
  rw [List.getElem?_mapIdx, List.getElem?_map, List.getElem?_map]
  rcases Nat.lt_or_ge i n with hi | hi
  · rw [List.getElem?_range hi]
    rfl
  · rw [List.getElem?_eq_none (by simpa using hi)]
    rfl

theorem zipWith_flatMap_range {β γ : Type} {w n : Nat} (op : α → β → γ) {f : Nat → List α}
    {f' : Nat → List β} (hf : ∀ r, r < n → (f r).length = w)
    (hf' : ∀ r, r < n → (f' r).length = w) :
    List.zipWith op ((List.range n).flatMap f) ((List.range n).flatMap f')
      = (List.range n).flatMap fun r => List.zipWith op (f r) (f' r) := by
  have hlen : ∀ r, r < n → (List.zipWith op (f r) (f' r)).length = w := fun r hr => by
    rw [List.length_zipWith, hf r hr, hf' r hr, Nat.min_self]
  refine (eq_flatMap_iff hlen).mpr ⟨?_, fun r hr => ?_⟩
  · rw [List.length_zipWith, length_flatMap_range hf, length_flatMap_range hf', Nat.min_self]
  · rw [rowOf, List.drop_zipWith, List.take_zipWith]
    exact congrArg₂ (List.zipWith op) (rowOf_flatMap hf hr) (rowOf_flatMap hf' hr)

/-! ## Access from code -/

section Access

variable {ε : Type}

/-- `&s[r * w..(r + 1) * w]`, of a row that must be there. -/
def rowAt (w r : Nat) (s : List α) : Checked ε (List α) :=
  if (r + 1) * w ≤ s.length then .ok (rowOf w r s) else .panic

theorem rowAt_eq {w n r : Nat} {s : List α} (h : s.length = n * w) (hr : r < n) :
    (rowAt w r s : Checked ε (List α)) = .ok (rowOf w r s) :=
  if_pos (h ▸ row_le hr)

/-- `s[r * w..(r + 1) * w].copy_from_slice(row)` -/
def writeRow (w r : Nat) (row s : List α) : Checked ε (List α) :=
  if (r + 1) * w ≤ s.length ∧ row.length = w then .ok (setRow w r row s) else .panic

/-- `n` rows, of which the first `k` have been written. -/
def rowsUpTo (w n k : Nat) (f : Nat → List α) (z : α) : List α :=
  (List.range k).flatMap f ++ (List.replicate (n * w) z).drop (k * w)

theorem rowsUpTo_zero (w n : Nat) (f : Nat → List α) (z : α) :
    rowsUpTo w n 0 f z = List.replicate (n * w) z := by
  rw [rowsUpTo, Nat.zero_mul, List.drop_zero]
  rfl

theorem rowsUpTo_all (w n : Nat) (f : Nat → List α) (z : α) :
    rowsUpTo w n n f z = (List.range n).flatMap f := by
  rw [rowsUpTo, List.drop_eq_nil_of_le (by rw [List.length_replicate]), List.append_nil]

theorem writeRow_rowsUpTo {w n k : Nat} {f : Nat → List α} {z : α} (hk : k < n)
    (h : ∀ r, r < n → (f r).length = w) :
    (writeRow w k (f k) (rowsUpTo w n k f z) : Checked ε (List α))
      = .ok (rowsUpTo w n (k + 1) f z) := by
  have hlen := length_flatMap_range fun r hr => h r (hr.trans hk)
  have hrows := row_le (w := w) hk
  have hsucc := Nat.add_one_mul k w
  rw [writeRow, if_pos]
  · rw [setRow, rowsUpTo, List.take_append_of_le_length hlen.ge, List.take_of_length_le hlen.le,
      List.drop_append, List.drop_eq_nil_of_le (by omega), List.nil_append, hlen, List.drop_drop,
      Nat.add_sub_cancel' (by omega), rowsUpTo, List.range_succ, List.flatMap_append,
      List.flatMap_singleton, List.append_assoc]
  · refine ⟨?_, h k hk⟩
    rw [rowsUpTo, List.length_append, hlen, List.length_drop, List.length_replicate]
    omega

/-- A row that has not been written is as it was. -/
theorem rowAt_rowsUpTo {w n k : Nat} {f : Nat → List α} {z : α} (hk : k < n)
    (h : ∀ r, r < n → (f r).length = w) :
    (rowAt w k (rowsUpTo w n k f z) : Checked ε (List α)) = .ok (List.replicate w z) := by
  have hlen := length_flatMap_range fun r hr => h r (hr.trans hk)
  have hrows := row_le (w := w) hk
  rw [Nat.add_one_mul] at hrows
  rw [rowAt, if_pos, rowOf, rowsUpTo, List.drop_left' hlen, List.drop_replicate,
    List.take_replicate, Nat.min_eq_left (by omega)]
  rw [rowsUpTo, List.length_append, hlen, List.length_drop, List.length_replicate,
    Nat.add_one_mul]
  omega

/-- Of the rows of `s`, the first `k` have been worked on. -/
structure Updated (w n k : Nat) (g : Nat → List α → List α) (s t : List α) : Prop where
  length : t.length = n * w
  rows : ∀ r, r < n → rowOf w r t = if r < k then g r (rowOf w r s) else rowOf w r s

section Updated

variable {w n k : Nat} {g : Nat → List α → List α} {s t : List α}

theorem Updated.zero (hs : s.length = n * w) : Updated w n 0 g s s := ⟨hs, fun r _ => by simp⟩

theorem Updated.rowAt (h : Updated w n k g s t) (hk : k < n) :
    (rowAt w k t : Checked ε (List α)) = .ok (rowOf w k s) := by
  rw [rowAt_eq h.length hk, h.rows k hk, if_neg (lt_irrefl k)]

theorem Updated.writeRow (h : Updated w n k g s t) (hk : k < n)
    (hg : (g k (rowOf w k s)).length = w) :
    (writeRow w k (g k (rowOf w k s)) t : Checked ε (List α))
        = .ok (setRow w k (g k (rowOf w k s)) t) ∧
      Updated w n (k + 1) g s (setRow w k (g k (rowOf w k s)) t) := by
  have hin : (k + 1) * w ≤ t.length := h.length ▸ row_le hk
  refine ⟨if_pos ⟨hin, hg⟩, by rw [length_setRow hg hin, h.length], fun r hr => ?_⟩
  rcases eq_or_ne r k with rfl | hne
  · rw [rowOf_setRow_self hg hin, if_pos (by omega)]
  · rw [rowOf_setRow_ne hg hin hne, h.rows r hr]
    exact if_congr (by omega) rfl rfl

theorem Updated.all (h : Updated w n n g s t) (hg : ∀ r, r < n → (g r (rowOf w r s)).length = w) :
    t = (List.range n).flatMap fun r => g r (rowOf w r s) :=
  (eq_flatMap_iff hg).mpr ⟨h.length, fun r hr => by rw [h.rows r hr, if_pos hr]⟩

end Updated

/-- Every row in turn, in place. -/
def updateRows (w n : Nat) (f : Nat → List α → Checked ε (List α)) (s : List α) :
    Checked ε (List α) :=
  (List.range n).foldlM (fun s r => do
    let row ← rowAt w r s
    let row ← f r row
    writeRow w r row s) s

/-- A row is worked on as it was at the start. The induction is on the rows that are done. -/
theorem updateRows_eq {w n : Nat} {f : Nat → List α → Checked ε (List α)}
    {g : Nat → List α → List α} {s : List α} (hs : s.length = n * w)
    (hf : ∀ r, r < n → f r (rowOf w r s) = .ok (g r (rowOf w r s)))
    (hg : ∀ r, r < n → (g r (rowOf w r s)).length = w) :
    updateRows w n f s = .ok ((List.range n).flatMap fun r => g r (rowOf w r s)) := by
  have hrun : ∀ k, k ≤ n → ∃ t, updateRows w k f s = .ok t ∧ Updated w n k g s t := by
    intro k
    induction k with
    | zero => exact fun _ => ⟨s, rfl, .zero hs⟩
    | succ k ih =>
      intro hk
      obtain ⟨t, hrun, ht⟩ := ih (by omega)
      obtain ⟨hwrite, hnext⟩ := ht.writeRow (ε := ε) hk (hg k hk)
      refine ⟨_, ?_, hnext⟩
      rw [updateRows] at hrun ⊢
      rw [List.range_succ, List.foldlM_append, hrun, Checked.ok_bind, List.foldlM_cons,
        ht.rowAt hk, Checked.ok_bind, hf k hk, Checked.ok_bind, hwrite]
      rfl
  obtain ⟨t, hrun, ht⟩ := hrun n le_rfl
  rw [hrun, ht.all hg]

/-- Every row of two matrices in turn, in place. -/
def updateBoth (w v n : Nat) (f : Nat → List α → List α → Checked ε (List α × List α))
    (s t : List α) : Checked ε (List α × List α) :=
  (List.range n).foldlM (fun (s, t) r => do
    let row ← rowAt w r s
    let other ← rowAt v r t
    let out ← f r row other
    let s ← writeRow w r out.1 s
    let t ← writeRow v r out.2 t
    .ok (s, t)) (s, t)

/-- The rows of each are worked on as they were at the start. -/
theorem updateBoth_eq {w v n : Nat} {f : Nat → List α → List α → Checked ε (List α × List α)}
    {g : Nat → List α × List α} {s t : List α} (hs : s.length = n * w) (ht : t.length = n * v)
    (hf : ∀ r, r < n → f r (rowOf w r s) (rowOf v r t) = .ok (g r))
    (hg : ∀ r, r < n → (g r).1.length = w ∧ (g r).2.length = v) :
    updateBoth w v n f s t
      = .ok ((List.range n).flatMap fun r => (g r).1, (List.range n).flatMap fun r => (g r).2) := by
  have hrun : ∀ k, k ≤ n → ∃ s' t', updateBoth w v k f s t = .ok (s', t') ∧
      Updated w n k (fun r _ => (g r).1) s s' ∧ Updated v n k (fun r _ => (g r).2) t t' := by
    intro k
    induction k with
    | zero => exact fun _ => ⟨s, t, rfl, .zero hs, .zero ht⟩
    | succ k ih =>
      intro hk
      obtain ⟨s', t', hrun, hs', ht'⟩ := ih (by omega)
      obtain ⟨hwrite, hnext⟩ := hs'.writeRow (ε := ε) hk (hg k hk).1
      obtain ⟨hwrite', hnext'⟩ := ht'.writeRow (ε := ε) hk (hg k hk).2
      refine ⟨_, _, ?_, hnext, hnext'⟩
      rw [updateBoth] at hrun ⊢
      rw [List.range_succ, List.foldlM_append, hrun, Checked.ok_bind, List.foldlM_cons]
      dsimp only
      rw [hs'.rowAt hk, Checked.ok_bind, ht'.rowAt hk, Checked.ok_bind, hf k hk, Checked.ok_bind,
        hwrite, Checked.ok_bind, hwrite', Checked.ok_bind]
      rfl
  obtain ⟨s', t', hrun, hs', ht'⟩ := hrun n le_rfl
  rw [hrun, hs'.all fun r hr => (hg r hr).1, ht'.all fun r hr => (hg r hr).2]

/-! A row for each element of a list. -/

section Each

variable {β γ : Type} {w : Nat} {l : List β} {f : β → List α}

theorem length_each (h : ∀ x ∈ l, (f x).length = w) : (l.flatMap f).length = l.length * w := by
  rw [List.length_flatMap, List.map_congr_left h, List.map_const', List.sum_replicate_nat]

theorem rowOf_each (h : ∀ x ∈ l, (f x).length = w) {i : Nat} {x : β} (hi : l[i]? = some x) :
    rowOf w i (l.flatMap f) = f x := by
  rw [List.flatMap_def]
  refine rowOf_flatten (fun row hrow => ?_) (by rw [List.getElem?_map, hi]; rfl)
  obtain ⟨y, hy, rfl⟩ := List.mem_map.mp hrow
  exact h y hy

theorem rowAt_each (h : ∀ x ∈ l, (f x).length = w) {i : Nat} {x : β} (hi : l[i]? = some x) :
    (rowAt w i (l.flatMap f) : Checked ε (List α)) = .ok (f x) := by
  rw [rowAt_eq (length_each h) (List.getElem?_eq_some_iff.mp hi).1, rowOf_each h hi]

theorem range_each (f : β → List α) (z : List α) :
    (List.range l.length).flatMap (fun i => (l[i]?).elim z f) = l.flatMap f := by
  rw [List.flatMap_def, List.flatMap_def]
  congr 1
  refine List.ext_getElem (by simp) fun i h₁ h₂ => ?_
  simp only [List.length_map, List.length_range] at h₁
  simp [h₁]

/-- What is done with every row is done with every element's. -/
theorem flatMap_rowOf_each (h : ∀ x ∈ l, (f x).length = w) (g : List α → List γ) :
    (List.range l.length).flatMap (fun i => g (rowOf w i (l.flatMap f)))
      = l.flatMap fun x => g (f x) := by
  rw [← range_each (fun x => g (f x)) []]
  refine List.flatMap_congr fun i hi => ?_
  have hget := List.getElem?_eq_getElem (List.mem_range.mp hi)
  rw [rowOf_each h hget, hget]
  rfl

end Each

/-- `chunks_exact(w)`, which takes no width of zero. -/
def chunks (w : Nat) (s : List α) : Checked ε (List (List α)) :=
  if w = 0 then .panic else .ok (rowsOf w s)

theorem chunks_zero (s : List α) : (chunks 0 s : Checked ε (List (List α))) = .panic := rfl

theorem chunks_eq {w n : Nat} {s : List α} (hw : 0 < w) (h : s.length = n * w) :
    (chunks w s : Checked ε (List (List α))) = .ok ((List.range n).map fun r => rowOf w r s) := by
  rw [chunks, if_neg hw.ne', rowsOf_eq hw h]

/-- The assignments `s[i] = v`, in turn. -/
def setAll : List (Nat × α) → List α → Checked ε (List α)
  | [], s => .ok s
  | (i, v) :: rest, s => if i < s.length then setAll rest (s.set i v) else .panic

/-- Assignments that agree on `G`, at indices that are there, leave what `G` says wherever one was
made. -/
theorem setAll_eq {G : Nat → α} {ws : List (Nat × α)} {s : List α}
    (h : ∀ p ∈ ws, p.1 < s.length ∧ p.2 = G p.1) :
    ∃ s', (setAll ws s : Checked ε (List α)) = .ok s' ∧ s'.length = s.length ∧
      ∀ i < s.length, (s[i]? = some (G i) ∨ ∃ p ∈ ws, p.1 = i) → s'[i]? = some (G i) := by
  induction ws generalizing s with
  | nil => exact ⟨s, rfl, rfl, fun i _ hi => hi.resolve_right (by simp)⟩
  | cons p ws ih =>
    obtain ⟨i, v⟩ := p
    obtain ⟨hi, rfl⟩ : i < s.length ∧ v = G i := h _ List.mem_cons_self
    have hrest : ∀ p ∈ ws, p.1 < (s.set i (G i)).length ∧ p.2 = G p.1 := fun p hp => by
      rw [List.length_set]
      exact h p (List.mem_cons_of_mem _ hp)
    obtain ⟨s', hrun, hlen, hval⟩ := ih hrest
    rw [List.length_set] at hlen hval
    refine ⟨s', by rw [setAll, if_pos hi, hrun], hlen, fun j hj hset => hval j hj ?_⟩
    rcases eq_or_ne i j with rfl | hne
    · exact .inl (List.getElem?_set_self hi)
    · rw [List.getElem?_set_ne hne]
      refine hset.imp_right ?_
      rintro ⟨p, hp, rfl⟩
      rcases List.mem_cons.mp hp with rfl | hp
      · exact absurd rfl hne
      · exact ⟨p, hp, rfl⟩

/-- The results of `rows` tasks, `n` each, put where the results of one vector stand together. -/
def flipBack (rows n : Nat) (byRow out : List α) : Checked ε (List α) := do
  let dsts ← chunks n byRow
  setAll (dsts.zipIdx.flatMap fun (dst, r) => dst.zipIdx.map fun (v, b) => (b * rows + r, v)) out

theorem zipIdx_map_range {β : Type} (n : Nat) (f : Nat → β) :
    ((List.range n).map f).zipIdx = (List.range n).map fun i => (f i, i) := by
  refine List.ext_getElem? fun i => ?_
  rw [List.getElem?_zipIdx, List.getElem?_map, List.getElem?_map]
  rcases Nat.lt_or_ge i n with hi | hi
  · rw [List.getElem?_range hi]
    simp
  · rw [List.getElem?_eq_none (by simpa using hi)]
    rfl

theorem mem_zipIdx_map_range {β : Type} {n i : Nat} {f : Nat → β} {y : β} :
    (y, i) ∈ ((List.range n).map f).zipIdx ↔ i < n ∧ y = f i := by
  rw [zipIdx_map_range, List.mem_map]
  constructor
  · rintro ⟨i', hi', heq⟩
    cases heq
    exact ⟨List.mem_range.mp hi', rfl⟩
  · rintro ⟨hi, rfl⟩
    exact ⟨i, List.mem_range.mpr hi, rfl⟩

theorem flipBack_eq {rows n : Nat} {g : Nat → Nat → α} {out : List α} (hn : 0 < n)
    (hout : out.length = n * rows) :
    (flipBack rows n ((List.range rows).flatMap fun r => (List.range n).map (g r)) out :
      Checked ε (List α))
      = .ok ((List.range n).flatMap fun b => (List.range rows).map (g · b)) := by
  have hwidth : ∀ r, r < rows → ((List.range n).map (g r)).length = n := by simp
  have hheight : ∀ b, b < n → ((List.range rows).map (g · b)).length = rows := by simp
  rw [flipBack, chunks_eq hn (length_flatMap_range hwidth), Checked.ok_bind,
    List.map_congr_left fun r hr => rowOf_flatMap hwidth (List.mem_range.mp hr)]
  -- the value that belongs at an index of `out`
  let G : Nat → α := fun i => g (i % rows) (i / rows)
  have hG : ∀ {r b}, r < rows → G (b * rows + r) = g r b := fun {r b} hr => by
    have hdiv : (b * rows + r) / rows = b := by
      rw [Nat.mul_comm, Nat.mul_add_div (by omega), Nat.div_eq_of_lt hr, Nat.add_zero]
    simp only [G, Nat.mul_add_mod_of_lt hr, hdiv]
  have hmem : ∀ p : Nat × α,
      p ∈ ((List.range rows).map fun r => (List.range n).map (g r)).zipIdx.flatMap
        (fun (dst, r) => dst.zipIdx.map fun (v, b) => (b * rows + r, v)) ↔
      ∃ r b, r < rows ∧ b < n ∧ p = (b * rows + r, g r b) := fun p => by
    simp only [List.mem_flatMap, List.mem_map, Prod.exists, mem_zipIdx_map_range]
    constructor
    · rintro ⟨dst, r, ⟨hr, rfl⟩, v, b, hv, rfl⟩
      obtain ⟨hb, rfl⟩ := mem_zipIdx_map_range.mp hv
      exact ⟨r, b, hr, hb, rfl⟩
    · rintro ⟨r, b, hr, hb, rfl⟩
      exact ⟨_, r, ⟨hr, rfl⟩, g r b, b, mem_zipIdx_map_range.mpr ⟨hb, rfl⟩, rfl⟩
  have hplace : ∀ {r b}, r < rows → b < n → b * rows + r < out.length := fun {r b} hr hb => by
    have := row_le (w := rows) hb
    rw [Nat.add_one_mul] at this
    omega
  obtain ⟨s', hrun, hlen, hval⟩ := setAll_eq (ε := ε) (G := G) fun p hp => by
    obtain ⟨r, b, hr, hb, rfl⟩ := (hmem p).mp hp
    exact ⟨hplace hr hb, (hG hr).symm⟩
  rw [hrun]
  congr 1
  refine (eq_flatMap_iff hheight).mpr ⟨hlen.trans hout, fun b hb => List.ext_getElem? fun r => ?_⟩
  rcases Nat.lt_or_ge r rows with hr | hr
  · have hset := (hmem _).mpr ⟨r, b, hr, hb, rfl⟩
    rw [getElem?_rowOf _ hr, hval _ (hplace hr hb) (.inr ⟨_, hset, rfl⟩), hG hr, List.getElem?_map, List.getElem?_range hr]
    rfl
  · rw [List.getElem?_eq_none, List.getElem?_eq_none]
    · simpa using hr
    · rw [rowOf, List.length_take]
      omega

end Access

/-! ## Entries -/

section Entries

variable [Zero α]

def entry (w : Nat) (s : List α) (r j : Nat) : α := s.getD (r * w + j) 0

theorem getD_rowOf {w r j : Nat} (s : List α) (hj : j < w) :
    (rowOf w r s).getD j 0 = entry w s r j := by
  rw [entry, List.getD_eq_getElem?_getD, List.getD_eq_getElem?_getD, getElem?_rowOf s hj]

theorem entry_setRow_self {w r j : Nat} {row s : List α} (hrow : row.length = w)
    (h : (r + 1) * w ≤ s.length) (hj : j < w) : entry w (setRow w r row s) r j = row.getD j 0 := by
  rw [entry, List.getD_eq_getElem?_getD, List.getD_eq_getElem?_getD,
    getElem?_setRow_self hrow h hj]

theorem entry_setRow_ne {w r i j : Nat} {row s : List α} (hrow : row.length = w)
    (h : (r + 1) * w ≤ s.length) (hj : j < w) (hne : i ≠ r) :
    entry w (setRow w r row s) i j = entry w s i j := by
  rw [entry, entry, List.getD_eq_getElem?_getD, List.getD_eq_getElem?_getD,
    getElem?_setRow_ne hrow h hj hne]

/-- The matrix that a list stands for. -/
def matOf (rows w : Nat) (s : List α) : Matrix (Fin rows) (Fin w) α :=
  .of fun r j => entry w s r j

def vecOf (n : Nat) (x : List α) : Fin n → α := fun i => x.getD i 0

end Entries

end Infra
