import Garuda.Infra.LittleEndian

/-!
# Bits and where they are kept

* `testBit_ofLE` and `testBit_toLE` find a byte's bits in its word, and a word's in its bytes.
* `bytesOfBits` is the byte string of given bits, and `byteBits_bijOn` says that the strings of one
  length are the choices of their bits.
* `bijOn_of_bits` is the rule for a decoder: it is a bijection once every bit of what it yields is
  a bit of what it reads, and every bit it reads is so used exactly once.
-/

namespace Infra

/-! ## Bits of one number -/

/-- Numbers of `w` bits are equal once those bits are. -/
theorem eq_of_testBit_lt {w m n : Nat} (hm : m < 2 ^ w) (hn : n < 2 ^ w)
    (h : ∀ i < w, m.testBit i = n.testBit i) : m = n := by
  refine Nat.eq_of_testBit_eq fun i => ?_
  rcases Nat.lt_or_ge i w with hi | hi
  · exact h i hi
  · have hpow : 2 ^ w ≤ 2 ^ i := Nat.pow_le_pow_right (by decide) hi
    rw [Nat.testBit_lt_two_pow (hm.trans_le hpow), Nat.testBit_lt_two_pow (hn.trans_le hpow)]

theorem testBit_ofLE {i : Nat} (hi : i < 8) :
    ∀ (bs : Bytes) (k : Nat), (ofLE bs).testBit (8 * k + i) = (bs.getD k 0).toNat.testBit i
  | [], k => by
    rw [ofLE, Nat.zero_testBit, List.getD_nil]
    exact (Nat.zero_testBit i).symm
  | b :: bs, 0 => by
    have hb : b.toNat < 2 ^ 8 := UInt8.toNat_lt b
    rw [ofLE, Nat.add_comm, Nat.mul_zero, Nat.zero_add,
      Nat.testBit_two_pow_mul_add (i := 8) (ofLE bs) hb, if_pos hi, List.getD_cons_zero]
  | b :: bs, k + 1 => by
    have hb : b.toNat < 2 ^ 8 := UInt8.toNat_lt b
    rw [ofLE, Nat.add_comm, Nat.testBit_two_pow_mul_add (i := 8) (ofLE bs) hb, if_neg (by omega),
      List.getD_cons_succ, ← testBit_ofLE hi bs k]
    congr 1
    omega

theorem testBit_toLE {i : Nat} (hi : i < 8) :
    ∀ {w k : Nat} (n : Nat), k < w →
      ((toLE w n).getD k 0).toNat.testBit i = n.testBit (8 * k + i)
  | 0, k, n, hk => absurd hk (Nat.not_lt_zero k)
  | w + 1, 0, n, _ => by
    have hb : (UInt8.ofNat (n % 256)).toNat = n % 2 ^ 8 := by simp
    rw [toLE, List.getD_cons_zero, hb, Nat.testBit_mod_two_pow, decide_eq_true hi, Bool.true_and,
      Nat.mul_zero, Nat.zero_add]
  | w + 1, k + 1, n, hk => by
    rw [toLE, List.getD_cons_succ, testBit_toLE hi (n / 256) (Nat.lt_of_succ_lt_succ hk),
      show n / 256 = n / 2 ^ 8 from rfl, Nat.testBit_div_two_pow]
    congr 1
    omega

/-! ## Bits of a list -/

section Entries

variable {β Q : Type}

/-- The bits of a list of `n` entries, by entry and by place in it. -/
def entryBits (n : Nat) (z : β) (bits : β → Q → Bool) (l : List β) (p : Fin n × Q) : Bool :=
  bits (l.getD p.1 z) p.2

/-- The bits of the entries tell lists apart when those of an entry tell entries apart. -/
theorem entryBits_injOn (n : Nat) (z : β) {bits : β → Q → Bool} {T : Set β}
    (h : Set.InjOn bits T) :
    Set.InjOn (entryBits n z bits) {l | l.length = n ∧ ∀ x ∈ l, x ∈ T} := by
  rintro s ⟨hs, hsT⟩ t ⟨ht, htT⟩ heq
  refine List.ext_getElem (hs.trans ht.symm) fun k hks hkt => ?_
  refine h (hsT _ (List.getElem_mem hks)) (htT _ (List.getElem_mem hkt)) (funext fun q => ?_)
  have hbit := congrFun heq (⟨k, hs ▸ hks⟩, q)
  simpa only [entryBits, List.getD_eq_getElem _ _ hks, List.getD_eq_getElem _ _ hkt] using hbit

end Entries

/-- The bits of a string of `n` bytes. -/
def byteBits (n : Nat) : Bytes → Fin n × Fin 8 → Bool :=
  entryBits n 0 fun b i => b.toNat.testBit i

def bytesOfBits (n : Nat) (f : Fin n × Fin 8 → Bool) : Bytes :=
  List.ofFn fun k : Fin n => UInt8.ofNat (Nat.ofBits fun i : Fin 8 => f (k, i))

theorem byteBits_bytesOfBits (n : Nat) (f : Fin n × Fin 8 → Bool) :
    byteBits n (bytesOfBits n f) = f := by
  funext ⟨k, i⟩
  have hlt : (Nat.ofBits fun i : Fin 8 => f (k, i)) < 256 := Nat.ofBits_lt_two_pow _
  have hbyte : (bytesOfBits n f).getD k 0 = UInt8.ofNat (Nat.ofBits fun i : Fin 8 => f (k, i)) := by
    rw [bytesOfBits, List.getD_eq_getElem _ _ (by rw [List.length_ofFn]; exact k.isLt),
      List.getElem_ofFn]
  rw [byteBits, entryBits, hbyte, UInt8.toNat_ofNat_of_lt' hlt]
  exact Nat.testBit_ofBits_lt _ i i.isLt

theorem byteBits_injOn (n : Nat) : Set.InjOn (byteBits n) {s | s.length = n} := by
  have hbyte : Set.InjOn (fun (b : UInt8) (i : Fin 8) => b.toNat.testBit i) Set.univ :=
    fun a _ b _ heq => UInt8.toNat_inj.mp <| eq_of_testBit_lt (UInt8.toNat_lt a)
      (UInt8.toNat_lt b) fun i hi => congrFun heq (⟨i, hi⟩ : Fin 8)
  have hsub : {s : Bytes | s.length = n} ⊆ {s | s.length = n ∧ ∀ b ∈ s, b ∈ Set.univ} :=
    fun s hs => ⟨hs, fun _ _ => Set.mem_univ _⟩
  exact (entryBits_injOn n 0 hbyte).mono hsub

/-- The strings of one length are the choices of their bits. -/
theorem byteBits_bijOn (n : Nat) : Set.BijOn (byteBits n) {s | s.length = n} Set.univ :=
  ⟨fun _ _ => Set.mem_univ _, byteBits_injOn n,
    fun f _ => ⟨bytesOfBits n f, List.length_ofFn, byteBits_bytesOfBits n f⟩⟩

/-! ## Bits rearranged -/

section Rearranged

variable {α β P Q : Type} {S : Set α} {T : Set β} {bitsS : α → P → Bool} {bitsT : β → Q → Bool}
  {f : α → β} {place : Q → P}

/-- **A decoder that puts every bit it reads in exactly one place is a bijection.** -/
theorem bijOn_of_bits (hS : Set.BijOn bitsS S Set.univ) (hT : Set.InjOn bitsT T)
    (hf : Set.MapsTo f S T) (hplace : Function.Bijective place)
    (hbits : ∀ a ∈ S, ∀ q, bitsT (f a) q = bitsS a (place q)) : Set.BijOn f S T := by
  refine ⟨hf, fun a ha a' ha' heq => hS.injOn ha ha' (funext fun p => ?_), fun b hb => ?_⟩
  · -- the bit is read for some bit of the value, which the two have in common
    obtain ⟨q, rfl⟩ := hplace.surjective p
    rw [← hbits a ha q, ← hbits a' ha' q, heq]
  · obtain ⟨a, ha, hbitsa⟩ :=
      hS.surjOn (Set.mem_univ fun p => bitsT b (Function.surjInv hplace.surjective p))
    refine ⟨a, ha, hT (hf ha) hb (funext fun q => ?_)⟩
    rw [hbits a ha q, hbitsa]
    exact congrArg (bitsT b) (Function.leftInverse_surjInv hplace q)

end Rearranged

end Infra
