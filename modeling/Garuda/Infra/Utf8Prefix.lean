import Garuda.Infra.Utf8

/-!
# Beginnings of UTF-8

Where validation stops, and what stands there.

* `utf8_of_fromUtf8`: what is accepted is the encoding of what was read.
* `Beginning bs`: more bytes can still turn `bs` into a valid text.
* `Unfinished p`: some bytes of a single character, but not all of them.
* `Blocked p`: no character stands at the front of `p`.

`blocked_of_error` says that validation stops at a blocked rest, and `Beginning.unfinished` that
the blocked rest of a beginning is one unfinished character. `lossy_cons_length` bounds how much
longer a byte makes a lossy reading.
-/

namespace Infra

/-! ## Accepted bytes -/

theorem toNat_val_ofNat {v : Nat} (h : v.isValidChar) : (Char.ofNat v).val.toNat = v := by
  have := toNat_charOfNat v
  rwa [if_pos h] at this

theorem ofNat_toNat_eq {b : UInt8} {n : Nat} (h : n = b.toNat) : UInt8.ofNat n = b := by
  rw [h]
  exact UInt8.ofNat_toNat

theorem tail_char_cons {owed bits more lo hi : Nat} {s : Bytes} {c : Char} {n : Nat}
    (h : tail (owed + 1) bits more lo hi s = .char c n) :
    ∃ b rest, s = b :: rest ∧ lo ≤ b.toNat ∧ b.toNat ≤ hi ∧
      tail owed (bits * 64 + (b.toNat - 0x80)) (more + 1) 0x80 0xBF rest = .char c n := by
  cases s with
  | nil => rw [tail] at h; cases h
  | cons b rest =>
    rw [tail] at h
    split at h
    next hb => exact ⟨b, rest, rfl, hb.1, hb.2, h⟩
    · cases h

theorem tail_char_zero {bits more lo hi : Nat} {s : Bytes} {c : Char} {n : Nat}
    (h : tail 0 bits more lo hi s = .char c n) : c = Char.ofNat bits ∧ n = more := by
  rw [tail] at h
  cases h
  exact ⟨rfl, rfl⟩

/-- A first byte, and the values that its character can have. -/
theorem lead_cases {b : UInt8} {l : Lead} (h : lead b = some l) :
    (l.owed = 0 ∧ l.bits = b.toNat ∧ b.toNat < 0x80) ∨
    (l.owed = 1 ∧ l.bits + 0xC0 = b.toNat ∧ 2 ≤ l.bits ∧ l.bits < 0x20 ∧
      l.lo = 0x80 ∧ l.hi = 0xBF) ∨
    (l.owed = 2 ∧ l.bits + 0xE0 = b.toNat ∧ l.bits < 0x10 ∧ 0x80 ≤ l.lo ∧ l.hi ≤ 0xBF ∧
      (l.bits = 0 → 0xA0 ≤ l.lo) ∧ (l.bits = 0xD → l.hi ≤ 0x9F)) ∨
    (l.owed = 3 ∧ l.bits + 0xF0 = b.toNat ∧ l.bits ≤ 4 ∧ 0x80 ≤ l.lo ∧ l.hi ≤ 0xBF ∧
      (l.bits = 0 → 0x90 ≤ l.lo) ∧ (l.bits = 4 → l.hi ≤ 0x8F)) := by
  simp only [lead] at h
  split_ifs at h <;> cases h <;> dsimp only <;> omega

/-- **The bytes read as a character are its encoding.** -/
theorem utf8EncodeChar_of_head {b : UInt8} {rest : Bytes} {c : Char} {n : Nat}
    (h : head b rest = .char c n) : String.utf8EncodeChar c = b :: rest.take n := by
  unfold head at h
  split at h
  · cases h
  next l hl =>
    rcases lead_cases hl with ⟨h0, hbits, hb⟩ | ⟨h1, hbits, hlo2, hhi2, hlo, hhi⟩ |
      ⟨h2, hbits, hlt, hlo, hhi, hlo0, hhiD⟩ | ⟨h3, hbits, hle, hlo, hhi, hlo0, hhi4⟩
    · rw [h0, hbits] at h
      obtain ⟨hc, hn⟩ := tail_char_zero h
      rw [hc, hn]
      simp only [String.utf8EncodeChar, toNat_val_ofNat (.inl (show b.toNat < 0xD800 by omega))]
      rw [if_pos (by omega), List.take_zero, ofNat_toNat_eq rfl]
    · rw [h1] at h
      obtain ⟨x, rest, rfl, hx, hx', h⟩ := tail_char_cons h
      obtain ⟨hc, hn⟩ := tail_char_zero h
      rw [hc, hn]
      generalize hv : l.bits * 64 + (x.toNat - 0x80) = v
      simp only [String.utf8EncodeChar, toNat_val_ofNat (.inl (show v < 0xD800 by omega))]
      rw [if_neg (by omega), if_pos (by omega), ofNat_toNat_eq (b := b) (by omega),
        ofNat_toNat_eq (b := x) (by omega)]
      rfl
    · rw [h2] at h
      obtain ⟨x, rest, rfl, hx, hx', h⟩ := tail_char_cons h
      obtain ⟨y, rest, rfl, hy, hy', h⟩ := tail_char_cons h
      obtain ⟨hc, hn⟩ := tail_char_zero h
      rw [hc, hn]
      generalize hv : (l.bits * 64 + (x.toNat - 0x80)) * 64 + (y.toNat - 0x80) = v
      have hvalid : v.isValidChar := by
        simp only [Nat.isValidChar]
        omega
      simp only [String.utf8EncodeChar, toNat_val_ofNat hvalid]
      rw [if_neg (by omega), if_neg (by omega), if_pos (by omega),
        ofNat_toNat_eq (b := b) (by omega), ofNat_toNat_eq (b := x) (by omega),
        ofNat_toNat_eq (b := y) (by omega)]
      rfl
    · rw [h3] at h
      obtain ⟨x, rest, rfl, hx, hx', h⟩ := tail_char_cons h
      obtain ⟨y, rest, rfl, hy, hy', h⟩ := tail_char_cons h
      obtain ⟨z, rest, rfl, hz, hz', h⟩ := tail_char_cons h
      obtain ⟨hc, hn⟩ := tail_char_zero h
      rw [hc, hn]
      generalize hv : ((l.bits * 64 + (x.toNat - 0x80)) * 64 + (y.toNat - 0x80)) * 64
        + (z.toNat - 0x80) = v
      have hvalid : v.isValidChar := by
        simp only [Nat.isValidChar]
        omega
      simp only [String.utf8EncodeChar, toNat_val_ofNat hvalid]
      rw [if_neg (by omega), if_neg (by omega), if_neg (by omega),
        ofNat_toNat_eq (b := b) (by omega), ofNat_toNat_eq (b := x) (by omega),
        ofNat_toNat_eq (b := y) (by omega), ofNat_toNat_eq (b := z) (by omega)]
      rfl

/-- **What is accepted is the encoding of what was read.** -/
theorem utf8_of_fromUtf8 : ∀ {s : Bytes} {cs : List Char}, fromUtf8 s = .ok cs → utf8 cs = s
  | [], cs, h => by
    rw [fromUtf8_nil] at h
    cases h
    rfl
  | b :: rest, cs, h => by
    obtain ⟨c, more, cs', hh, hcs, rfl⟩ := fromUtf8_cons_ok h
    rw [utf8_cons, utf8EncodeChar_of_head hh, utf8_of_fromUtf8 hcs, List.cons_append,
      List.take_append_drop]
termination_by s => s.length
decreasing_by simp only [List.length_cons, List.length_drop]; omega

/-! ## Where validation stops -/

/-- No character stands at the front. -/
def Blocked : Bytes → Prop
  | [] => True
  | b :: rest => ∀ c n, head b rest ≠ .char c n

/-- The rest from the first fault on is blocked. -/
theorem blocked_of_error : ∀ {s : Bytes} {e : Utf8Error}, fromUtf8 s = .error e →
    Blocked (s.drop e.validUpTo)
  | [], e, h => by rw [fromUtf8_nil] at h; cases h
  | b :: rest, e, h => by
    rw [fromUtf8] at h
    split at h
    next c more hh =>
      split at h
      · cases h
      next e' he' =>
        cases h
        have := blocked_of_error he'
        rwa [List.drop_drop, ← List.drop_succ_cons (a := b), Nat.add_right_comm] at this
    next more hh =>
      cases h
      intro c n hc
      rw [hh] at hc
      cases hc
    next hh =>
      cases h
      intro c n hc
      rw [hh] at hc
      cases hc
termination_by s => s.length
decreasing_by simp only [List.length_cons, List.length_drop]; omega

/-! ## Beginnings -/

/-- More bytes can turn it into a valid text. -/
def Beginning (s : Bytes) : Prop :=
  ∃ (cs : List Char) (more : Bytes), utf8 cs = s ++ more

/-- A proper part of the bytes of one character, from its first byte on. -/
def Unfinished (p : Bytes) : Prop :=
  ∃ (c : Char) (more : Bytes), more ≠ [] ∧ String.utf8EncodeChar c = p ++ more

theorem Unfinished.beginning {p : Bytes} (h : Unfinished p) : Beginning p := by
  obtain ⟨c, more, -, hc⟩ := h
  exact ⟨[c], more, by rw [utf8_cons, utf8_nil, List.append_nil, hc]⟩

theorem Beginning.append {p : Bytes} (h : Beginning p) (s : List Char) :
    Beginning (utf8 s ++ p) := by
  obtain ⟨cs, more, hcs⟩ := h
  exact ⟨s ++ cs, more, by rw [utf8_append, hcs, List.append_assoc]⟩

theorem Beginning.of_append {p t : Bytes} (h : Beginning (p ++ t)) : Beginning p := by
  obtain ⟨cs, more, hcs⟩ := h
  exact ⟨cs, t ++ more, by rw [hcs, List.append_assoc]⟩

/-- A text already complete can be cut off the front of a beginning. -/
theorem Beginning.of_utf8_append {p : Bytes} {s : List Char} (h : Beginning (utf8 s ++ p)) :
    Beginning p := by
  obtain ⟨cs, more, hcs⟩ := h
  induction s generalizing cs with
  | nil => exact ⟨cs, more, hcs⟩
  | cons c s ih =>
    obtain ⟨b, tl, hb, hh, -⟩ := head_utf8EncodeChar c (utf8 s ++ p ++ more)
    rw [utf8_cons, List.append_assoc, hb] at hcs
    cases cs with
    | nil => cases hcs
    | cons c' cs =>
      obtain ⟨b', tl', hb', hh', -⟩ := head_utf8EncodeChar c' (utf8 cs)
      rw [utf8_cons, hb', List.cons_append, List.append_assoc, List.cons_append,
        List.cons.injEq] at hcs
      obtain ⟨rfl, htl⟩ := hcs
      rw [htl, ← List.append_assoc (utf8 s) p more, hh, Head.char.injEq] at hh'
      obtain ⟨rfl, -⟩ := hh'
      rw [hb, List.cons.injEq] at hb'
      obtain ⟨-, rfl⟩ := hb'
      rw [List.append_cancel_left_eq, ← List.append_assoc] at htl
      exact ih cs htl

/-- **The blocked rest of a beginning is one unfinished character.** -/
theorem Beginning.unfinished {p : Bytes} (h : Beginning p) (hp : Blocked p) : Unfinished p := by
  obtain ⟨cs, more, hcs⟩ := h
  cases p with
  | nil => exact ⟨'A', [0x41], by simp, rfl⟩
  | cons a q =>
    cases cs with
    | nil => cases hcs
    | cons c cs =>
      obtain ⟨b, tl, hb, hh, -⟩ := head_utf8EncodeChar c []
      rw [List.append_nil] at hh
      rw [utf8_cons, hb, List.cons_append, List.cons_append, List.cons.injEq] at hcs
      obtain ⟨rfl, htl⟩ := hcs
      rcases List.append_eq_append_iff.mp htl with ⟨left, rfl, -⟩ | ⟨left, rfl, -⟩
      · -- the whole character would stand at the front of `p`
        refine absurd ?_ (hp c tl.length)
        rw [head_append left (by rw [hh]; simp), hh]
      · refine ⟨c, left, ?_, hb⟩
        rintro rfl
        rw [List.append_nil] at hh
        exact hp c q.length hh

/-! ## How long a reading is -/

/-- A byte that only continues characters is replaced on its own. -/
theorem lossy_continuation {b : UInt8} (hlo : 0x80 ≤ b.toNat) (hhi : b.toNat ≤ 0xBF) (t : Bytes) :
    lossy (b :: t) = replacement :: lossy t := by
  have hlead : lead b = none := by
    simp only [lead]
    rw [if_neg (by omega), if_pos (by omega)]
  have hhead : head b t = .invalid 0 := by rw [head, hlead]
  rw [lossy, hhead]
  rfl

/-- What a first byte takes along would be read as no fewer characters without it. -/
theorem tail_lossy_length {owed bits more lo hi : Nat} {s : Bytes} (hlo : 0x80 ≤ lo)
    (hhi : hi ≤ 0xBF) :
    (∀ c n, tail owed bits more lo hi s = .char c n →
      (lossy (s.drop (n - more))).length ≤ (lossy s).length) ∧
    ∀ n, tail owed bits more lo hi s = .invalid n →
      (lossy (s.drop (n - more))).length ≤ (lossy s).length := by
  induction owed generalizing bits more lo hi s with
  | zero =>
    refine ⟨fun c n h => ?_, fun n h => ?_⟩
    · obtain ⟨-, rfl⟩ := tail_char_zero h
      rw [Nat.sub_self, List.drop_zero]
    · rw [tail] at h
      cases h
  | succ owed ih =>
    cases s with
    | nil =>
      refine ⟨fun c n h => ?_, fun n h => ?_⟩ <;>
      · rw [tail] at h
        cases h
    | cons b rest =>
      rw [tail]
      by_cases hb : lo ≤ b.toNat ∧ b.toNat ≤ hi
      · rw [if_pos hb, lossy_continuation (by omega) (by omega), List.length_cons]
        obtain ⟨hchar, hinvalid⟩ := @ih (bits * 64 + (b.toNat - 0x80)) (more + 1) 0x80 0xBF rest
          (Nat.le_refl _) (Nat.le_refl _)
        have hdrop : ∀ {n : Nat}, more + 1 ≤ n →
            (b :: rest).drop (n - more) = rest.drop (n - (more + 1)) := by
          intro n hn
          rw [show n - more = n - (more + 1) + 1 by omega, List.drop_succ_cons]
        refine ⟨fun c n h => ?_, fun n h => ?_⟩
        · rw [hdrop (by have := (tail_char_more h).1; omega)]
          exact (hchar c n h).trans (Nat.le_succ _)
        · rw [hdrop (tail_invalid_more h).1]
          exact (hinvalid n h).trans (Nat.le_succ _)
      · rw [if_neg hb]
        refine ⟨fun c n h => ?_, fun n h => ?_⟩
        · cases h
        · cases h
          rw [Nat.sub_self, List.drop_zero]

/-- **One more byte in front is one more character at most.** -/
theorem lossy_cons_length (b : UInt8) (t : Bytes) :
    (lossy (b :: t)).length ≤ (lossy t).length + 1 := by
  have hdrop : (∀ c n, head b t = .char c n → (lossy (t.drop n)).length ≤ (lossy t).length) ∧
      ∀ n, head b t = .invalid n → (lossy (t.drop n)).length ≤ (lossy t).length := by
    unfold head
    cases hl : lead b with
    | none =>
      refine ⟨fun c n h => ?_, fun n h => ?_⟩
      · cases h
      · cases h
        exact Nat.le_refl _
    | some l =>
      obtain ⟨hlo, hhi⟩ := lead_range hl
      exact tail_lossy_length hlo hhi
  rw [lossy]
  cases hh : head b t with
  | char c n => exact Nat.succ_le_succ (hdrop.1 c n hh)
  | invalid n => exact Nat.succ_le_succ (hdrop.2 n hh)
  | incomplete => exact Nat.succ_le_succ (Nat.zero_le _)

theorem lossy_utf8_append (s : List Char) (t : Bytes) : lossy (utf8 s ++ t) = s ++ lossy t :=
  lossy_append_of_ok t (fromUtf8_utf8 s)

end Infra
