import Mathlib.Algebra.Order.Ring.Nat
import Mathlib.Data.List.Basic

/-!
# Causal stacks

Layers that a list of tokens goes through one token after the other. Each layer keeps an entry for
every token it has seen; what comes out of it for a token depends on the token's own input and on
the entries up to its own.

* `Causal.input` is what a layer is given for the last of the tokens.
* `Causal.entries` is what the layer has kept after them.

As functions of the tokens they say what *any* order of work must come to: layer after layer,
token after token, or several lists of tokens side by side.

A batch is a list of tokens, each with the list that it is the last of; `Follows` says that every
one of them is next in its list. `reached` is how far each layer has come while one of them is
working on a batch, whichever lists the tokens are of.
-/

namespace Infra

variable {T X E : Type}

/-- Layers, numbered from `0`. -/
structure Causal (T X E : Type) where
  embed : T → X
  /-- What a layer keeps for the token at a position, given the layer's input there. -/
  entry : Nat → Nat → X → E
  /-- What comes out of a layer, given the entries up to the token's own and its input. -/
  out : Nat → List E → X → X

namespace Causal

variable (C : Causal T X E) [Inhabited T]

/-- The input of layer `l` for the last of the tokens. -/
def input : Nat → List T → X
  | 0, us => C.embed (us.getLastD default)
  | l + 1, us =>
    C.out l ((List.range us.length).map fun i => C.entry l i (input l (us.take (i + 1))))
      (input l us)

/-- What layer `l` keeps for the last of the tokens. -/
def entryAt (l : Nat) (us : List T) : E := C.entry l (us.length - 1) (C.input l us)

/-- What layer `l` has kept after the tokens. -/
def entries (l : Nat) (us : List T) : List E :=
  (List.range us.length).map fun i => C.entryAt l (us.take (i + 1))

@[simp] theorem length_entries (l : Nat) (us : List T) : (C.entries l us).length = us.length := by
  simp [entries]

@[simp] theorem entries_nil (l : Nat) : C.entries l [] = [] := rfl

theorem input_concat (us : List T) (t : T) : C.input 0 (us ++ [t]) = C.embed t := by
  simp [input]

theorem input_succ (l : Nat) (us : List T) :
    C.input (l + 1) us = C.out l (C.entries l us) (C.input l us) := by
  rw [input, entries]
  congr 1
  refine List.map_congr_left fun i hi => ?_
  have hlt : i < us.length := List.mem_range.mp hi
  rw [entryAt, List.length_take, Nat.min_eq_left (Nat.succ_le_of_lt hlt)]
  rfl

theorem entries_concat (l : Nat) (us : List T) (t : T) :
    C.entries l (us ++ [t]) = C.entries l us ++ [C.entryAt l (us ++ [t])] := by
  rw [entries, List.length_append, List.length_singleton, List.range_succ, List.map_append]
  congr 1
  · refine List.map_congr_left fun i hi => ?_
    have hlt : i < us.length := List.mem_range.mp hi
    rw [List.take_append_of_le_length hlt]
  · rw [List.map_singleton, List.take_of_length_le (by simp)]

/-- What holds of the input that the last token is turned into, and that every layer keeps, holds of
its input to every layer. -/
theorem input_rule {P : X → Prop} {us : List T} {t : T} (hembed : P (C.embed t))
    (hout : ∀ l es x, P x → P (C.out l es x)) (l : Nat) : P (C.input l (us ++ [t])) := by
  induction l with
  | zero =>
    rw [C.input_concat]
    exact hembed
  | succ l ih =>
    rw [C.input_succ]
    exact hout l _ _ ih

end Causal

/-! ## Batches -/

section Batches

/-- The lists after a batch: list `j` is now what the last of its tokens made it. -/
def grown (before : Nat → List T) (rows : List (Nat × List T)) : Nat → List T :=
  rows.foldl (fun lists r => Function.update lists r.1 r.2) before

/-- Every token of the batch is the next one of its list. -/
def Follows (before : Nat → List T) (rows : List (Nat × List T)) : Prop :=
  ∀ i r, rows[i]? = some r → ∃ t, r.2 = grown before (rows.take i) r.1 ++ [t]

variable {before : Nat → List T} {rows : List (Nat × List T)}

theorem grown_take_succ {i : Nat} {r : Nat × List T} (hi : rows[i]? = some r) :
    grown before (rows.take (i + 1)) = Function.update (grown before (rows.take i)) r.1 r.2 := by
  rw [List.take_add_one, hi, Option.toList_some, grown, List.foldl_append]
  rfl

/-- The tokens that are next in one list, one after the other. -/
def inOrder (j : Nat) (seen new : List T) : List (Nat × List T) :=
  (List.range new.length).map fun i => (j, seen ++ new.take (i + 1))

@[simp] theorem length_inOrder (j : Nat) (seen new : List T) :
    (inOrder j seen new).length = new.length := by simp [inOrder]

theorem getElem?_inOrder {j i : Nat} {seen new : List T} (hi : i < new.length) :
    (inOrder j seen new)[i]? = some (j, seen ++ new.take (i + 1)) := by
  rw [inOrder, List.getElem?_map, List.getElem?_range hi]
  rfl

theorem grown_take_inOrder (before : Nat → List T) (j : Nat) {new : List T} {k : Nat}
    (hk : k ≤ new.length) : grown before ((inOrder j (before j) new).take k)
      = Function.update before j (before j ++ new.take k) := by
  induction k with
  | zero => simp [grown]
  | succ k ih =>
    rw [grown_take_succ (getElem?_inOrder hk), ih (by omega), Function.update_idem]

theorem grown_inOrder (before : Nat → List T) (j : Nat) (new : List T) :
    grown before (inOrder j (before j) new) = Function.update before j (before j ++ new) := by
  have hall := grown_take_inOrder before j (le_refl new.length)
  rwa [List.take_of_length_le (by simp), List.take_length] at hall

theorem follows_inOrder (before : Nat → List T) (j : Nat) (new : List T) :
    Follows before (inOrder j (before j) new) := by
  intro i r hr
  have hlt : i < new.length := by simpa using (List.getElem?_eq_some_iff.mp hr).1
  rw [getElem?_inOrder hlt] at hr
  cases hr
  refine ⟨new[i], ?_⟩
  rw [grown_take_inOrder before j hlt.le, Function.update_self, List.append_assoc,
    List.take_append_getElem hlt]

/-- One token of each list. -/
def oneEach (lists : List (List T)) : List (Nat × List T) := lists.zipIdx.map fun (us, j) => (j, us)

@[simp] theorem length_oneEach (lists : List (List T)) : (oneEach lists).length = lists.length := by
  simp [oneEach]

@[simp] theorem map_snd_oneEach (lists : List (List T)) : (oneEach lists).map Prod.snd = lists := by
  rw [oneEach, List.map_map]
  exact List.zipIdx_map_fst 0 lists

theorem getElem?_oneEach {lists : List (List T)} {j : Nat} {us : List T}
    (hj : lists[j]? = some us) : (oneEach lists)[j]? = some (j, us) := by
  rw [oneEach, List.getElem?_map, List.getElem?_zipIdx, hj]
  simp

theorem grown_take_oneEach {lists : List (List T)} (before : Nat → List T) {k : Nat}
    (hk : k ≤ lists.length) (j : Nat) : grown before ((oneEach lists).take k) j
      = if j < k then (lists[j]?).getD (before j) else before j := by
  induction k with
  | zero => simp [grown]
  | succ k ih =>
    have hget := List.getElem?_eq_getElem (show k < lists.length from hk)
    rw [grown_take_succ (getElem?_oneEach hget)]
    rcases eq_or_ne j k with rfl | hne
    · rw [Function.update_self, if_pos (by omega), hget]
      rfl
    · rw [Function.update_of_ne hne, ih (by omega)]
      exact if_congr (by omega) rfl rfl

theorem grown_oneEach {lists : List (List T)} (before : Nat → List T) (j : Nat) :
    grown before (oneEach lists) j = (lists[j]?).getD (before j) := by
  have hall := grown_take_oneEach before (le_refl lists.length) j
  rw [List.take_of_length_le (by simp)] at hall
  rw [hall]
  split
  · rfl
  · next h => rw [List.getElem?_eq_none (by omega)]; rfl

theorem follows_oneEach {lists : List (List T)}
    (h : ∀ j us, lists[j]? = some us → ∃ t, us = before j ++ [t]) :
    Follows before (oneEach lists) := by
  intro j r hr
  have hlt : j < lists.length := by simpa using (List.getElem?_eq_some_iff.mp hr).1
  have hget := List.getElem?_eq_getElem hlt
  rw [getElem?_oneEach hget] at hr
  cases hr
  obtain ⟨t, ht⟩ := h j _ hget
  refine ⟨t, ?_⟩
  rw [grown_take_oneEach before hlt.le, if_neg (lt_irrefl _), ← ht]

/-- What layer `l'` has had of list `j`, when the first `i` tokens of a batch have been through layer
`l`, and all of them through the layers before it. -/
def reached (before : Nat → List T) (rows : List (Nat × List T)) (l i j l' : Nat) : List T :=
  if l' < l then grown before rows j
  else if l' = l then grown before (rows.take i) j
  else before j

theorem reached_zero (before : Nat → List T) (rows : List (Nat × List T)) (j l' : Nat) :
    reached before rows 0 0 j l' = before j := by
  rw [reached, if_neg (Nat.not_lt_zero _)]
  split <;> rfl

theorem reached_of_lt {l l' : Nat} (h : l' < l) (before : Nat → List T) (rows : List (Nat × List T))
    (i j : Nat) : reached before rows l i j l' = grown before rows j := if_pos h

theorem reached_self (before : Nat → List T) (rows : List (Nat × List T)) (l i j : Nat) :
    reached before rows l i j l = grown before (rows.take i) j := by
  rw [reached, if_neg (lt_irrefl _), if_pos rfl]

/-- A layer that is done is one of those before the next. -/
theorem reached_next (before : Nat → List T) (rows : List (Nat × List T)) (l : Nat) :
    reached before rows l rows.length = reached before rows (l + 1) 0 := by
  funext j l'
  rw [reached, reached, List.take_length]
  rcases Nat.lt_trichotomy l' l with hlt | rfl | hgt
  · rw [if_pos hlt, if_pos (by omega)]
  · rw [if_neg (lt_irrefl _), if_pos rfl, if_pos (by omega)]
  · rw [if_neg (by omega), if_neg (by omega), if_neg (by omega)]
    split <;> rfl

/-- **A token that goes through a layer** is the last that the layer has had of its list. -/
theorem reached_step {l i j : Nat} {us : List T} (hi : rows[i]? = some (j, us)) :
    reached before rows l (i + 1) = Function.update (reached before rows l i) j
      (Function.update (reached before rows l i j) l us) := by
  have hnext : grown before (rows.take (i + 1)) = Function.update (grown before (rows.take i)) j us :=
    grown_take_succ hi
  funext j' l'
  rcases eq_or_ne j' j with rfl | hj
  · rw [Function.update_self]
    rcases eq_or_ne l' l with rfl | hl
    · rw [Function.update_self, reached_self, hnext, Function.update_self]
    · rw [Function.update_of_ne hl, reached, reached, if_neg hl, if_neg hl]
  · rw [Function.update_of_ne hj, reached, reached, hnext, Function.update_of_ne hj]

end Batches

end Infra
