import Mathlib

/-!
# Little-endian byte strings

Fixed-width little-endian encoding of naturals, and cutting a byte string into words.

* `toLE w n` writes the low `w` bytes of `n`, least significant first.
* `ofLE bs` reads a byte string of any length back as a number.
* `words w bs` cuts `bs` into words of `w` bytes, dropping a short tail.

The two round trips are `ofLE_toLE` (a number that fits comes back) and
`words_flatMap` (words written one after another are cut apart again).
-/

namespace Infra

abbrev Bytes := List UInt8

/-! ## One number -/

/-- The low `w` bytes of `n`, least significant first. -/
def toLE : Nat → Nat → Bytes
  | 0, _ => []
  | w + 1, n => UInt8.ofNat (n % 256) :: toLE w (n / 256)

def ofLE : Bytes → Nat
  | [] => 0
  | b :: rest => b.toNat + 256 * ofLE rest

@[simp] theorem length_toLE : ∀ w n, (toLE w n).length = w
  | 0, _ => rfl
  | w + 1, n => by rw [toLE, List.length_cons, length_toLE w]

theorem ofLE_toLE_mod : ∀ w n, ofLE (toLE w n) = n % 256 ^ w
  | 0, n => by simp [toLE, ofLE, Nat.mod_one]
  | w + 1, n => by
    rw [toLE, ofLE, ofLE_toLE_mod w, Nat.pow_succ', Nat.mod_mul]
    have hb : (UInt8.ofNat (n % 256)).toNat = n % 256 := by simp
    rw [hb]

/-- A number that fits in `w` bytes is read back unchanged. -/
theorem ofLE_toLE {w n : Nat} (h : n < 256 ^ w) : ofLE (toLE w n) = n := by
  rw [ofLE_toLE_mod, Nat.mod_eq_of_lt h]

/-! ## A run of words -/

/-- The words of `w` bytes in `bs`, in order; a tail shorter than a word is dropped. -/
def wordsAux (w : Nat) : Nat → Bytes → List Bytes
  | 0, _ => []
  | n + 1, bs => bs.take w :: wordsAux w n (bs.drop w)

def words (w : Nat) (bs : Bytes) : List Bytes := wordsAux w (bs.length / w) bs

theorem wordsAux_flatMap {α : Type} {w : Nat} {f : α → Bytes} (hf : ∀ a, (f a).length = w) :
    ∀ l : List α, wordsAux w l.length (l.flatMap f) = l.map f
  | [] => rfl
  | a :: l => by
    rw [List.length_cons, List.flatMap_cons, wordsAux, List.map_cons]
    rw [List.take_left' (hf a), List.drop_left' (hf a), wordsAux_flatMap hf l]

theorem length_flatMap_const {α : Type} {w : Nat} {f : α → Bytes} (hf : ∀ a, (f a).length = w) :
    ∀ l : List α, (l.flatMap f).length = l.length * w
  | [] => by simp
  | a :: l => by
    rw [List.flatMap_cons, List.length_append, hf a, length_flatMap_const hf l, List.length_cons,
      Nat.succ_mul, Nat.add_comm]

/-- Words written one after another are cut apart again. -/
theorem words_flatMap {α : Type} {w : Nat} (hw : 0 < w) {f : α → Bytes}
    (hf : ∀ a, (f a).length = w) (l : List α) : words w (l.flatMap f) = l.map f := by
  rw [words, length_flatMap_const hf, Nat.mul_div_cancel _ hw, wordsAux_flatMap hf]

end Infra
