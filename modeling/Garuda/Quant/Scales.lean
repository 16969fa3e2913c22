import Garuda.Infra.BitLayout
import Garuda.Quant.Int8

/-!
# Six-bit scales

Sixteen numbers of six bits are kept in twelve bytes, in one layout for `block_q3_K` and in another
for `block_q4_K` and `block_q5_K`.

* `SixBits` is where the layout keeps one number: four bits of a byte and two bits of a byte.
* `q3_KField`, `scaleField` and `minField` are the layouts, and `unpackQ3KScales_value` and
  `getScaleMinK4_value` say that the unpackers read them.
* `q3_KPlace_bijective` and `k4Place_bijective` say that no bit is kept twice, and none is left out.

`unpackQ3KScales_bijOn` and `scaleMins_bijOn` conclude that the unpackers lose nothing.
-/

namespace Garuda.Quant

open Infra

/-! ## Where they are kept -/

/-- Where a six-bit number is kept in twelve bytes: its low nibble, and its two high bits. -/
structure SixBits where
  lowByte : Fin 12
  lowShift : Fin 5
  highByte : Fin 12
  highShift : Fin 7

namespace SixBits

variable (F : SixBits) (s : Bytes)

def value : Nat :=
  (nth s F.lowByte).toNat / 2 ^ F.lowShift.val % 16
    + 16 * ((nth s F.highByte).toNat / 2 ^ F.highShift.val % 4)

/-- Where one bit of the number is kept. -/
def place (i : Fin 6) : Fin 12 × Fin 8 :=
  if h : i.val < 4 then (F.lowByte, ⟨F.lowShift + i, by omega⟩)
  else (F.highByte, ⟨F.highShift + (i - 4), by omega⟩)

theorem value_lt : F.value s < 64 := by
  rw [value]
  omega

theorem testBit_value (i : Fin 6) :
    (F.value s).testBit i = (nth s (F.place i).1).toNat.testBit (F.place i).2 := by
  have hlow : (nth s F.lowByte).toNat / 2 ^ F.lowShift.val % 2 ^ 4 < 2 ^ 4 :=
    Nat.mod_lt _ (by decide)
  rw [value, Nat.add_comm, show (16 : Nat) = 2 ^ 4 from rfl, Nat.testBit_two_pow_mul_add _ hlow,
    place]
  split
  · rename_i hlt
    rw [Nat.testBit_mod_two_pow, decide_eq_true hlt, Bool.true_and, Nat.testBit_div_two_pow,
      Nat.add_comm]
  · have hhigh : ((nth s F.highByte).toNat / 2 ^ F.highShift.val % 2 ^ 2).testBit (i - 4)
        = (nth s F.highByte).toNat.testBit (F.highShift + (i - 4)) := by
      rw [Nat.testBit_mod_two_pow, decide_eq_true (by omega), Bool.true_and,
        Nat.testBit_div_two_pow, Nat.add_comm]
    exact hhigh

end SixBits

/-! ## `block_q3_K` -/

/-- Number `j` of a `block_q3_K`. -/
def q3_KField (j : Fin 16) : SixBits where
  lowByte := ⟨j % 8, by omega⟩
  lowShift := ⟨4 * (j / 8), by omega⟩
  highByte := ⟨8 + j % 4, by omega⟩
  highShift := ⟨2 * (j / 4), by omega⟩

/-- A nibble of each byte of one word, and two bits of each byte of another. -/
def packedWord (a t lo hi : UInt32) : UInt32 :=
  ((a >>> lo) &&& (0x0f0f0f0f : UInt32)) ||| (((t >>> hi) &&& (0x03030303 : UInt32)) <<< 4)

theorem nibbleMask : ∀ k < 4, ∀ i < 8,
    (0x0f0f0f0f : UInt32).toNat.testBit (8 * k + i) = decide (i < 4) := by decide

theorem pairMask : ∀ k < 4, ∀ i < 8,
    (decide (4 ≤ 8 * k + i) && (0x03030303 : UInt32).toNat.testBit (8 * k + i - 4))
      = decide (4 ≤ i ∧ i < 6) := by decide

theorem testBit_packedWord {a t : UInt32} {lo hi k i : Nat} (hlo : lo < 32) (hhi : hi < 32)
    (hk : k < 4) (hi8 : i < 8) :
    (packedWord a t (UInt32.ofNat lo) (UInt32.ofNat hi)).toNat.testBit (8 * k + i)
      = if i < 4 then a.toNat.testBit (8 * k + (lo + i))
        else if i < 6 then t.toNat.testBit (8 * k + (hi + (i - 4))) else false := by
  have hlo' : (UInt32.ofNat lo).toNat = lo :=
    UInt32.toNat_ofNat_of_lt (hlo.trans (by decide))
  have hhi' : (UInt32.ofNat hi).toNat = hi :=
    UInt32.toNat_ofNat_of_lt (hhi.trans (by decide))
  have h4 : (4 : UInt32).toNat % 32 = 4 := rfl
  have hnibble := nibbleMask k hk i hi8
  have hpair := pairMask k hk i hi8
  rw [packedWord, UInt32.toNat_or, Nat.testBit_or, UInt32.toNat_and, Nat.testBit_and, hnibble,
    UInt32.toNat_shiftRight, hlo', Nat.mod_eq_of_lt hlo, Nat.testBit_shiftRight,
    UInt32.toNat_shiftLeft, h4, Nat.testBit_mod_two_pow, decide_eq_true (by omega : 8 * k + i < 32),
    Bool.true_and, Nat.testBit_shiftLeft, UInt32.toNat_and, Nat.testBit_and, Bool.and_left_comm,
    hpair, UInt32.toNat_shiftRight, hhi', Nat.mod_eq_of_lt hhi, Nat.testBit_shiftRight]
  by_cases hnib : i < 4
  · rw [if_pos hnib, decide_eq_true hnib, decide_eq_false (by omega), Bool.and_true, Bool.and_false,
      Bool.or_false, Nat.add_left_comm]
  · rw [if_neg hnib, decide_eq_false hnib, Bool.and_false, Bool.false_or]
    split
    · rw [decide_eq_true (by omega), Bool.and_true]
      congr 1
      omega
    · rw [decide_eq_false (by omega), Bool.and_false]

/-- Word `m` of the packed bytes. -/
def auxWord (s : Bytes) (m : Nat) : UInt32 := UInt32.ofNat (ofLE (slice s (m * 4) 4))

theorem testBit_auxWord (s : Bytes) {m k i : Nat} (hk : k < 4) (hi : i < 8) :
    (auxWord s m).toNat.testBit (8 * k + i) = (nth s (m * 4 + k)).toNat.testBit i := by
  have hword : (auxWord s m).toNat = ofLE (slice s (m * 4) 4) % 2 ^ 32 := UInt32.toNat_ofNat'
  rw [hword, Nat.testBit_mod_two_pow, decide_eq_true (by omega), Bool.true_and, testBit_ofLE hi,
    ← nth, nth_slice hk]

theorem unpackQ3KScales_eq (s : Bytes) :
    unpackQ3KScales s = (List.range 4).flatMap fun w =>
      (toLE 4 (packedWord (auxWord s (w % 2)) (auxWord s 2) (UInt32.ofNat (4 * (w / 2)))
        (UInt32.ofNat (2 * w))).toNat).map UInt8.toInt8 := by
  -- the words that are not shifted are shifted by nothing
  have hlow : ∀ a b hi : UInt32, packedWord a b 0 hi
      = (a &&& (0x0f0f0f0f : UInt32)) ||| (((b >>> hi) &&& (0x03030303 : UInt32)) <<< 4) :=
    fun a b hi => by rw [packedWord, UInt32.shiftRight_zero]
  show _ = [packedWord (auxWord s 0) (auxWord s 2) 0 0, packedWord (auxWord s 1) (auxWord s 2) 0 2,
    packedWord (auxWord s 0) (auxWord s 2) 4 4, packedWord (auxWord s 1) (auxWord s 2) 4 6].flatMap
      fun a => (toLE 4 a.toNat).map UInt8.toInt8
  rw [hlow, hlow, UInt32.shiftRight_zero]
  rfl

/-- The byte that number `j` of a `block_q3_K` is unpacked into. -/
def q3_KByte (s : Bytes) (j : Nat) : UInt8 :=
  (toLE 4 (packedWord (auxWord s (j / 4 % 2)) (auxWord s 2) (UInt32.ofNat (4 * (j / 4 / 2)))
    (UInt32.ofNat (2 * (j / 4)))).toNat).getD (j % 4) 0

theorem q3_KByte_toNat (s : Bytes) (j : Fin 16) :
    (q3_KByte s j).toNat = (q3_KField j).value s := by
  have hk : j.val % 4 < 4 := Nat.mod_lt j (by decide)
  refine eq_of_testBit_lt (w := 8) (UInt8.toNat_lt _)
    (((q3_KField j).value_lt s).trans (by decide)) fun i hi => ?_
  rw [q3_KByte, testBit_toLE hi _ hk, testBit_packedWord (by omega) (by omega) hk hi]
  rcases Nat.lt_or_ge i 6 with hsix | hsix
  · rw [SixBits.testBit_value _ s ⟨i, hsix⟩, SixBits.place]
    split
    · have hbyte : j / 4 % 2 * 4 + j % 4 = j.val % 8 := by omega
      have hshift : 4 * (j / 4 / 2) + i = 4 * (j / 8) + i := by omega
      rw [testBit_auxWord s hk (by omega), hbyte, hshift]
      rfl
    · rw [testBit_auxWord s hk (by omega)]
      rfl
  · have hpow : 2 ^ 6 ≤ 2 ^ i := Nat.pow_le_pow_right (by decide) hsix
    rw [if_neg (by omega), if_neg (by omega),
      Nat.testBit_lt_two_pow (((q3_KField j).value_lt s).trans_le hpow)]

theorem unpackQ3KScales_ofFn (s : Bytes) :
    unpackQ3KScales s = List.ofFn fun j : Fin 16 => (q3_KByte s j).toInt8 := by
  rw [unpackQ3KScales_eq]
  rfl

/-- **The sixteen numbers of a `block_q3_K` are those of its layout.** -/
theorem unpackQ3KScales_value (s : Bytes) (j : Fin 16) :
    ((unpackQ3KScales s).getD j 0).toInt = (q3_KField j).value s := by
  have hlen : j.val < (List.ofFn fun j : Fin 16 => (q3_KByte s j).toInt8).length := by
    rw [List.length_ofFn]
    exact j.isLt
  have hvalue := q3_KByte_toNat s j
  have hlt := (q3_KField j).value_lt s
  rw [unpackQ3KScales_ofFn, List.getD_eq_getElem _ _ hlen, List.getElem_ofFn, ← hvalue]
  exact toInt_ofByte (show (q3_KByte s j).toNat < 128 by omega)

/-! ## `block_q4_K` and `block_q5_K` -/

/-- The scale of sub-block `j`. -/
def scaleField (j : Fin 8) : SixBits :=
  if j.val < 4 then ⟨⟨j, by omega⟩, 0, ⟨j, by omega⟩, 4⟩
  else ⟨⟨j + 4, by omega⟩, 0, ⟨j - 4, by omega⟩, 6⟩

/-- The minimum of sub-block `j`. -/
def minField (j : Fin 8) : SixBits :=
  if j.val < 4 then ⟨⟨j + 4, by omega⟩, 0, ⟨j + 4, by omega⟩, 4⟩
  else ⟨⟨j + 4, by omega⟩, 4, ⟨j, by omega⟩, 6⟩

/-- Four bits, and the two highest of another byte above them. -/
theorem toNat_or_high {low b : UInt8} (hl : low.toNat < 16) :
    (low ||| ((b >>> 6) <<< 4)).toNat = low.toNat + 16 * (b.toNat / 2 ^ 6 % 4) := by
  have hb := UInt8.toNat_lt b
  have hhigh : (b >>> 6).toNat = b.toNat / 2 ^ 6 := by
    rw [UInt8.toNat_shiftRight, Nat.shiftRight_eq_div_pow]
    rfl
  have hlt : b.toNat / 2 ^ 6 < 4 := by omega
  rw [toNat_sixBits hl (hhigh ▸ hlt), hhigh, Nat.mod_eq_of_lt hlt]

theorem toNat_and_63 (b : UInt8) :
    (b &&& 63).toNat = b.toNat / 2 ^ 0 % 16 + 16 * (b.toNat / 2 ^ 4 % 4) := by
  have hmask : (b &&& 63).toNat = b.toNat % 2 ^ 6 := by
    rw [UInt8.toNat_and]
    exact Nat.and_two_pow_sub_one_eq_mod b.toNat 6
  rw [hmask, pow_zero, Nat.div_one]
  omega

/-- **The scale and the minimum of a sub-block are those of their layout.** -/
theorem getScaleMinK4_value (s : Bytes) (j : Fin 8) :
    (getScaleMinK4 j s).1.toNat = (scaleField j).value s ∧
      (getScaleMinK4 j s).2.toNat = (minField j).value s := by
  by_cases hj : j.val < 4
  · rw [getScaleMinK4, if_pos hj, scaleField, if_pos hj, minField, if_pos hj]
    exact ⟨toNat_and_63 _, toNat_and_63 _⟩
  · rw [getScaleMinK4, if_neg hj, scaleField, if_neg hj, minField, if_neg hj]
    dsimp only
    have hlow : ∀ b : UInt8, (lowNibble b).toNat = b.toNat / 2 ^ 0 % 16 := fun b => by
      rw [lowNibble_toNat, pow_zero, Nat.div_one]
    have hhigh : ∀ b : UInt8, (highNibble b).toNat = b.toNat / 2 ^ 4 % 16 := fun b => by
      rw [← Nat.mod_eq_of_lt (highNibble_lt b), highNibble_toNat]
      rfl
    rw [toNat_or_high (lowNibble_lt _), toNat_or_high (highNibble_lt _), hlow, hhigh]
    exact ⟨rfl, rfl⟩

/-! ## Nothing is lost -/

/-- Where the bits of the numbers of a `block_q3_K` are kept. -/
def q3_KPlace (q : Fin 16 × Fin 6) : Fin 12 × Fin 8 := (q3_KField q.1).place q.2

/-- No bit of the twelve bytes is kept twice, and none is left out. -/
theorem q3_KPlace_bijective : Function.Bijective q3_KPlace :=
  (Fintype.bijective_iff_injective_and_card _).mpr ⟨by decide +kernel, rfl⟩

/-- Where the bits of the scales and minima of a `block_q4_K` are kept. -/
def k4Place (q : Fin 8 × Bool × Fin 6) : Fin 12 × Fin 8 :=
  (if q.2.1 then minField q.1 else scaleField q.1).place q.2.2

theorem k4Place_bijective : Function.Bijective k4Place :=
  (Fintype.bijective_iff_injective_and_card _).mpr ⟨by decide +kernel, rfl⟩

theorem toInt_injOn : Set.InjOn (fun (x : Int8) (i : Fin 6) => x.toInt.toNat.testBit i)
    {x | 0 ≤ x.toInt ∧ x.toInt < 64} := by
  rintro x ⟨hx0, hx⟩ y ⟨hy0, hy⟩ heq
  have hnat : x.toInt.toNat = y.toInt.toNat :=
    eq_of_testBit_lt (w := 6) (by omega) (by omega) fun i hi => congrFun heq (⟨i, hi⟩ : Fin 6)
  exact Int8.toInt_inj.mp (by omega)

theorem pair_injOn : Set.InjOn
    (fun (p : UInt8 × UInt8) (q : Bool × Fin 6) => (if q.1 then p.2 else p.1).toNat.testBit q.2)
    {p | p.1.toNat < 64 ∧ p.2.toNat < 64} := by
  rintro x ⟨hx1, hx2⟩ y ⟨hy1, hy2⟩ heq
  have hfst : x.1.toNat = y.1.toNat :=
    eq_of_testBit_lt (w := 6) hx1 hy1 fun i hi => congrFun heq (false, (⟨i, hi⟩ : Fin 6))
  have hsnd : x.2.toNat = y.2.toNat :=
    eq_of_testBit_lt (w := 6) hx2 hy2 fun i hi => congrFun heq (true, (⟨i, hi⟩ : Fin 6))
  exact Prod.ext (UInt8.toNat_inj.mp hfst) (UInt8.toNat_inj.mp hsnd)

/-- **The unpacker of a `block_q3_K` is a bijection.** -/
theorem unpackQ3KScales_bijOn : Set.BijOn unpackQ3KScales {s | s.length = 12}
    {v | v.length = 16 ∧ ∀ x ∈ v, 0 ≤ x.toInt ∧ x.toInt < 64} := by
  refine bijOn_of_bits (byteBits_bijOn 12) (entryBits_injOn 16 0 toInt_injOn) (fun s _ => ?_)
    q3_KPlace_bijective fun s _ q => ?_
  · refine ⟨?_, fun x hx => ?_⟩
    · rw [unpackQ3KScales_ofFn, List.length_ofFn]
    · obtain ⟨k, hk, rfl⟩ := List.mem_iff_getElem.mp hx
      have hlen : (unpackQ3KScales s).length = 16 := by
        rw [unpackQ3KScales_ofFn, List.length_ofFn]
      have hvalue := unpackQ3KScales_value s ⟨k, hlen ▸ hk⟩
      have hlt := (q3_KField ⟨k, hlen ▸ hk⟩).value_lt s
      rw [List.getD_eq_getElem _ _ hk] at hvalue
      exact ⟨by omega, by omega⟩
  · rw [entryBits, unpackQ3KScales_value, Int.toNat_natCast, SixBits.testBit_value]
    rfl

/-- The scales and minima of all sub-blocks. -/
def scaleMins (s : Bytes) : List (UInt8 × UInt8) := (List.range 8).map fun j => getScaleMinK4 j s

theorem scaleMins_getD (s : Bytes) (j : Fin 8) :
    (scaleMins s).getD j (0, 0) = getScaleMinK4 j s := by
  rw [scaleMins, List.getD_eq_getElem _ _ (by simp), List.getElem_map, List.getElem_range]

/-- **The unpacker of a `block_q4_K` is a bijection**, over all its sub-blocks. -/
theorem scaleMins_bijOn : Set.BijOn scaleMins {s | s.length = 12}
    {v | v.length = 8 ∧ ∀ p ∈ v, p.1.toNat < 64 ∧ p.2.toNat < 64} := by
  refine bijOn_of_bits (byteBits_bijOn 12) (entryBits_injOn 8 (0, 0) pair_injOn) (fun s _ => ?_)
    k4Place_bijective fun s _ q => ?_
  · refine ⟨by rw [scaleMins, List.length_map, List.length_range], fun p hp => ?_⟩
    obtain ⟨j, hj, rfl⟩ := List.mem_map.mp hp
    obtain ⟨hscale, hmin⟩ := getScaleMinK4_value s ⟨j, List.mem_range.mp hj⟩
    exact ⟨hscale ▸ SixBits.value_lt _ s, hmin ▸ SixBits.value_lt _ s⟩
  · obtain ⟨j, isMin, i⟩ := q
    obtain ⟨hscale, hmin⟩ := getScaleMinK4_value s j
    rw [entryBits, scaleMins_getD]
    cases isMin
    · exact (congrArg (Nat.testBit · i) hscale).trans (SixBits.testBit_value _ s i)
    · exact (congrArg (Nat.testBit · i) hmin).trans (SixBits.testBit_value _ s i)

/--
**The unpackers of six-bit scales lose nothing.**

Each number is the one its layout keeps, and over all of a block's numbers each unpacker is a
bijection from the strings of twelve bytes.
-/
theorem scales_lossless :
    (∀ s (j : Fin 16), ((unpackQ3KScales s).getD j 0).toInt = (q3_KField j).value s) ∧
    (∀ s (j : Fin 8), (getScaleMinK4 j s).1.toNat = (scaleField j).value s ∧
      (getScaleMinK4 j s).2.toNat = (minField j).value s) ∧
    Set.BijOn unpackQ3KScales {s | s.length = 12}
      {v | v.length = 16 ∧ ∀ x ∈ v, 0 ≤ x.toInt ∧ x.toInt < 64} ∧
    Set.BijOn scaleMins {s | s.length = 12}
      {v | v.length = 8 ∧ ∀ p ∈ v, p.1.toNat < 64 ∧ p.2.toNat < 64} :=
  ⟨unpackQ3KScales_value, getScaleMinK4_value, unpackQ3KScales_bijOn, scaleMins_bijOn⟩

end Garuda.Quant
