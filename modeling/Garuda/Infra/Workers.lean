import Garuda.Infra.RowMajor

/-!
# Loops divided among workers

A parallel loop over a list of tasks. The list is cut anywhere and as often as the runtime likes;
each piece goes to a worker, which takes its tasks in order and carries a buffer from one to the
next.

* `Split` is a way to cut the list.
* `work` is one worker's turn, and `spread` is the loop.
* `single` and `batched` are loops over the rows of a matrix, with one result and with `n` for each.

`spread_eq` says that no cut matters, if no answer depends on what the buffer was left with;
`single_eq` and `batched_eq` say where the results come to stand.
-/

namespace Infra

/-- One worker for the whole list, or a cut before task `k`. -/
inductive Split where
  | whole
  | cut (k : Nat) (left right : Split)

variable {ε σ τ β : Type}

/-- One worker, whose buffer is `s`. -/
def work (step : σ → τ → Checked ε (β × σ)) : σ → List τ → Checked ε (List β)
  | _, [] => .ok []
  | s, t :: rest => do
    let (y, s) ← step s t
    let ys ← work step s rest
    .ok (y :: ys)

/-- All workers, each of which starts with the buffer `init`. -/
def spread (step : σ → τ → Checked ε (β × σ)) (init : σ) : Split → List τ → Checked ε (List β)
  | .whole, tasks => work step init tasks
  | .cut k left right, tasks => do
    let ys ← spread step init left (tasks.take k)
    let zs ← spread step init right (tasks.drop k)
    .ok (ys ++ zs)

variable {step : σ → τ → Checked ε (β × σ)} {f : τ → β}

theorem work_eq (inv : σ → Prop) {tasks : List τ}
    (h : ∀ s t, inv s → t ∈ tasks → ∃ s', step s t = .ok (f t, s') ∧ inv s') {s : σ}
    (hs : inv s) : work step s tasks = .ok (tasks.map f) := by
  induction tasks generalizing s with
  | nil => rfl
  | cons t tasks ih =>
    obtain ⟨s', hstep, hs'⟩ := h s t hs List.mem_cons_self
    rw [work, hstep, Checked.ok_bind]
    simp only [ih (fun s t hs ht => h s t hs (List.mem_cons_of_mem _ ht)) hs', Checked.ok_bind,
      List.map_cons]

/-- **How a loop is divided makes no difference.** -/
theorem spread_eq (inv : σ → Prop) {tasks : List τ} {init : σ} (hinit : inv init)
    (h : ∀ s t, inv s → t ∈ tasks → ∃ s', step s t = .ok (f t, s') ∧ inv s') (plan : Split) :
    spread step init plan tasks = .ok (tasks.map f) := by
  induction plan generalizing tasks with
  | whole => exact work_eq inv h hinit
  | cut k left right ihl ihr =>
    have hleft : spread step init left (tasks.take k) = .ok ((tasks.take k).map f) :=
      ihl fun s t hs ht => h s t hs (List.mem_of_mem_take ht)
    have hright : spread step init right (tasks.drop k) = .ok ((tasks.drop k).map f) :=
      ihr fun s t hs ht => h s t hs (List.mem_of_mem_drop ht)
    rw [spread, hleft, Checked.ok_bind, hright, Checked.ok_bind, ← List.map_append,
      List.take_append_drop]

/-- Tasks in pairs, of which only the second matters. -/
theorem spread_zip {α γ : Type} {step : σ → α × γ → Checked ε (β × σ)} {f : γ → β} (inv : σ → Prop)
    {as : List α} {cs : List γ} {init : σ} (hinit : inv init)
    (h : ∀ s a c, inv s → a ∈ as → c ∈ cs → ∃ s', step s (a, c) = .ok (f c, s') ∧ inv s')
    (hlen : cs.length ≤ as.length) (plan : Split) :
    spread step init plan (as.zip cs) = .ok (cs.map f) := by
  have hstep : ∀ s t, inv s → t ∈ as.zip cs → ∃ s', step s t = .ok (f t.2, s') ∧ inv s' := by
    rintro s ⟨a, c⟩ hs ht
    obtain ⟨ha, hc⟩ := List.of_mem_zip ht
    exact h s a c hs ha hc
  have hsnd : (as.zip cs).map (fun t => f t.2) = ((as.zip cs).map Prod.snd).map f := by
    rw [List.map_map]
    rfl
  rw [spread_eq (f := fun t => f t.2) inv hinit hstep, hsnd, List.map_snd_zip hlen]

/-! ## A result for each row -/

section Rows

variable {α ρ : Type}

/-- `out.par_iter_mut().zip(rows)`: what is behind the last row stays. -/
def single (step : σ → α × ρ → Checked ε (α × σ)) (init : σ) (plan : Split) (rows : List ρ)
    (out : List α) : Checked ε (List α) := do
  let ys ← spread step init plan (out.zip rows)
  .ok (ys ++ out.drop ys.length)

/-- `n` results for each row, which land row by row in `byRow` and are flipped back. -/
def batched (step : σ → List α × ρ → Checked ε (List α × σ)) (init : σ) (plan : Split)
    (rows : List ρ) (n : Nat) (byRow out : List α) : Checked ε (List α) := do
  let dsts ← chunks n byRow
  let done ← spread step init plan (dsts.zip rows)
  flipBack rows.length n (done.flatten ++ byRow.drop done.flatten.length) out

variable {rows : List ρ} {init : σ} {out byRow : List α} {n : Nat}

theorem single_eq {step : σ → α × ρ → Checked ε (α × σ)} {f : ρ → α} (inv : σ → Prop)
    (hinit : inv init)
    (h : ∀ s a row, inv s → row ∈ rows → ∃ s', step s (a, row) = .ok (f row, s') ∧ inv s')
    (hout : out.length = rows.length) (plan : Split) :
    single step init plan rows out = .ok (rows.map f) := by
  rw [single, spread_zip inv hinit (fun s a row hs _ hrow => h s a row hs hrow) hout.ge,
    Checked.ok_bind, List.drop_eq_nil_of_le (by rw [List.length_map, hout]), List.append_nil]

/-- **Every result of a batch comes to stand where its vector's results stand.** -/
theorem batched_eq {step : σ → List α × ρ → Checked ε (List α × σ)} {row : Nat → ρ} {k : Nat}
    {g : ρ → Nat → α} (inv : σ → Prop) (hinit : inv init)
    (h : ∀ s dst r, inv s → dst.length = n → r < k →
      ∃ s', step s (dst, row r) = .ok ((List.range n).map (g (row r)), s') ∧ inv s')
    (hn : 0 < n) (hbyRow : byRow.length = k * n) (hout : out.length = n * k) (plan : Split) :
    batched step init plan ((List.range k).map row) n byRow out
      = .ok ((List.range n).flatMap fun t => (List.range k).map fun r => g (row r) t) := by
  have hstep : ∀ s dst c, inv s → dst ∈ (List.range k).map (fun r => rowOf n r byRow) →
      c ∈ (List.range k).map row →
      ∃ s', step s (dst, c) = .ok ((List.range n).map (g c), s') ∧ inv s' := by
    intro s dst c hs hdst hc
    obtain ⟨i, hi, rfl⟩ := List.mem_map.mp hdst
    obtain ⟨r, hr, rfl⟩ := List.mem_map.mp hc
    have hlen : (rowOf n i byRow).length = n :=
      length_rowOf (hbyRow ▸ row_le (List.mem_range.mp hi))
    exact h s _ r hs hlen (List.mem_range.mp hr)
  have hdone : (((List.range k).map row).map fun c => (List.range n).map (g c)).flatten
      = (List.range k).flatMap fun r => (List.range n).map (g (row r)) := by
    rw [List.map_map, ← List.flatMap_def]
    rfl
  have hall : ((List.range k).flatMap fun r => (List.range n).map (g (row r))).length = k * n :=
    length_flatMap_range (by simp)
  rw [batched, chunks_eq hn hbyRow, Checked.ok_bind, spread_zip inv hinit hstep (by simp),
    Checked.ok_bind, hdone, List.drop_eq_nil_of_le (by rw [hall, hbyRow]), List.append_nil,
    List.length_map, List.length_range]
  exact flipBack_eq hn hout

/-- A batch that is its columns, as a list. -/
theorem columns_iff {whole : Checked ε (List α)} {column : Nat → Checked ε (List α)}
    {f : Nat → List α} {w : Nat} (hlen : ∀ t, t < n → (f t).length = w)
    (hwhole : whole = .ok ((List.range n).flatMap f)) (hcolumn : ∀ t, t < n → column t = .ok (f t))
    (res : List α) :
    whole = .ok res ↔ res.length = n * w ∧ ∀ t, t < n → column t = .ok (rowOf w t res) := by
  rw [hwhole, Checked.ok.injEq, eq_comm, eq_flatMap_iff hlen]
  refine and_congr_right fun _ => forall₂_congr fun t ht => ?_
  rw [hcolumn t ht, Checked.ok.injEq, eq_comm]

/-- A batch that is refused, as its first column is. -/
theorem columns_refused {whole : Checked ε (List α)} {column : Nat → Checked ε (List α)} {w : Nat}
    (hn : 0 < n) (hwhole : ∀ res, whole ≠ .ok res) (hcolumn : ∀ res, column 0 ≠ .ok res)
    (res : List α) :
    whole = .ok res ↔ res.length = n * w ∧ ∀ t, t < n → column t = .ok (rowOf w t res) :=
  iff_of_false (hwhole res) fun h => hcolumn _ (h.2 0 hn)

end Rows

end Infra
