import Garuda.Infra.LittleEndian

/-!
# UTF-8

Reading bytes as UTF-8, whole and piece by piece.

* `utf8 s` is the encoding of the characters `s`.
* `fromUtf8 bs` validates: the characters, or how many bytes were valid and how many follow
  them that can be part of no character.
* `lossy bs` reads every byte string, with U+FFFD for each maximal ill-formed part.

`fromUtf8_utf8` reads an encoding back. `lossy_append_of_ok` cuts a valid prefix off a lossy
reading, and `Held` is the state of a reader that waits for the rest of a character: what one
more byte makes of it is `head_snoc`.
-/

namespace Infra

/-- The character that stands for ill-formed bytes. -/
def replacement : Char := Char.ofNat 0xFFFD

def utf8 (s : List Char) : Bytes := s.flatMap String.utf8EncodeChar

/-! ## One character -/

/-- What a first byte announces: the bytes it is owed, its own bits, and the range of the
second byte. -/
structure Lead where
  owed : Nat
  bits : Nat
  lo : Nat := 0x80
  hi : Nat := 0xBF

def lead (b : UInt8) : Option Lead :=
  let n := b.toNat
  if n < 0x80 then some { owed := 0, bits := n }
  else if n < 0xC2 then none
  else if n < 0xE0 then some { owed := 1, bits := n - 0xC0 }
  else if n = 0xE0 then some { owed := 2, bits := 0, lo := 0xA0 }
  else if n = 0xED then some { owed := 2, bits := 0xD, hi := 0x9F }
  else if n < 0xF0 then some { owed := 2, bits := n - 0xE0 }
  else if n = 0xF0 then some { owed := 3, bits := 0, lo := 0x90 }
  else if n < 0xF4 then some { owed := 3, bits := n - 0xF0 }
  else if n = 0xF4 then some { owed := 3, bits := 4, hi := 0x8F }
  else none

/-- What stands at the front of a byte string. -/
inductive Head where
  /-- A character: the first byte and `more` after it. -/
  | char (c : Char) (more : Nat)
  /-- The first byte and `more` after it can be part of no character. -/
  | invalid (more : Nat)
  /-- The string ends inside its first character. -/
  | incomplete
  deriving DecidableEq

/-- Reads the `owed` bytes still missing, of which the first lies in `lo..=hi`. -/
def tail : Nat → Nat → Nat → Nat → Nat → Bytes → Head
  | 0, bits, more, _, _, _ => .char (Char.ofNat bits) more
  | _ + 1, _, _, _, _, [] => .incomplete
  | owed + 1, bits, more, lo, hi, b :: rest =>
    if lo ≤ b.toNat ∧ b.toNat ≤ hi then
      tail owed (bits * 64 + (b.toNat - 0x80)) (more + 1) 0x80 0xBF rest
    else .invalid more

def head (b : UInt8) (rest : Bytes) : Head :=
  match lead b with
  | none => .invalid 0
  | some l => tail l.owed l.bits 0 l.lo l.hi rest

/-! ## A whole string -/

/-- `Utf8Error`. -/
structure Utf8Error where
  validUpTo : Nat
  errorLen : Option Nat
  deriving DecidableEq

/-- `str::from_utf8`. -/
def fromUtf8 : Bytes → Except Utf8Error (List Char)
  | [] => .ok []
  | b :: rest =>
    match head b rest with
    | .char c more =>
      match fromUtf8 (rest.drop more) with
      | .ok cs => .ok (c :: cs)
      | .error e => .error { e with validUpTo := more + 1 + e.validUpTo }
    | .invalid more => .error { validUpTo := 0, errorLen := some (more + 1) }
    | .incomplete => .error { validUpTo := 0, errorLen := none }
termination_by bs => bs.length
decreasing_by simp only [List.length_cons, List.length_drop]; omega

/-- `String::from_utf8_lossy`. -/
def lossy : Bytes → List Char
  | [] => []
  | b :: rest =>
    match head b rest with
    | .char c more => c :: lossy (rest.drop more)
    | .invalid more => replacement :: lossy (rest.drop more)
    | .incomplete => [replacement]
termination_by bs => bs.length
decreasing_by all_goals simp only [List.length_cons, List.length_drop]; omega

@[simp] theorem fromUtf8_nil : fromUtf8 [] = .ok [] := by rw [fromUtf8]

@[simp] theorem lossy_nil : lossy [] = [] := by rw [lossy]

/-! ## More bytes after a character -/

theorem tail_append {owed bits more lo hi : Nat} {s : Bytes} (t : Bytes)
    (h : tail owed bits more lo hi s ≠ .incomplete) :
    tail owed bits more lo hi (s ++ t) = tail owed bits more lo hi s := by
  induction owed generalizing bits more lo hi s with
  | zero => rw [tail, tail]
  | succ owed ih =>
    cases s with
    | nil => exact absurd (by rw [tail]) h
    | cons b rest =>
      rw [tail] at h
      rw [List.cons_append, tail, tail]
      split
      next hb =>
        rw [if_pos hb] at h
        exact ih h
      · rfl

theorem tail_char_more {owed bits more lo hi : Nat} {s : Bytes} {c : Char} {n : Nat}
    (h : tail owed bits more lo hi s = .char c n) : n = more + owed ∧ owed ≤ s.length := by
  induction owed generalizing bits more lo hi s with
  | zero =>
    rw [tail] at h
    cases h
    simp
  | succ owed ih =>
    cases s with
    | nil => rw [tail] at h; cases h
    | cons b rest =>
      rw [tail] at h
      split at h
      · have := ih h
        rw [List.length_cons]
        omega
      · cases h

theorem tail_take {owed bits more lo hi : Nat} {s : Bytes} {c : Char} {n m : Nat}
    (h : tail owed bits more lo hi s = .char c n) (hm : owed ≤ m) :
    tail owed bits more lo hi (s.take m) = .char c n := by
  induction owed generalizing bits more lo hi s m with
  | zero => rwa [tail] at h ⊢
  | succ owed ih =>
    cases s with
    | nil => rw [tail] at h; cases h
    | cons b rest =>
      obtain ⟨k, rfl⟩ : ∃ k, m = k + 1 := ⟨m - 1, by omega⟩
      rw [tail] at h
      rw [List.take_succ_cons, tail]
      split at h
      next hb =>
        rw [if_pos hb]
        exact ih h (by omega)
      · cases h

theorem tail_invalid_more {owed bits more lo hi : Nat} {s : Bytes} {n : Nat}
    (h : tail owed bits more lo hi s = .invalid n) : more ≤ n ∧ n < more + s.length := by
  induction owed generalizing bits more lo hi s with
  | zero => rw [tail] at h; cases h
  | succ owed ih =>
    cases s with
    | nil => rw [tail] at h; cases h
    | cons b rest =>
      rw [tail] at h
      rw [List.length_cons]
      split at h
      · have := ih h
        omega
      · cases h
        omega

/-- One more byte completes a character, spoils it, or leaves it incomplete. -/
theorem tail_snoc {owed bits more lo hi : Nat} {s : Bytes} (b : UInt8)
    (h : tail owed bits more lo hi s = .incomplete) :
    (∃ c, tail owed bits more lo hi (s ++ [b]) = .char c (more + s.length + 1)) ∨
      tail owed bits more lo hi (s ++ [b]) = .invalid (more + s.length) ∨
      tail owed bits more lo hi (s ++ [b]) = .incomplete := by
  induction owed generalizing bits more lo hi s with
  | zero => rw [tail] at h; cases h
  | succ owed ih =>
    cases s with
    | nil =>
      rw [List.nil_append, tail]
      split
      · cases owed with
        | zero => exact .inl ⟨_, by rw [tail]; rfl⟩
        | succ k => exact .inr (.inr (by rw [tail]))
      · exact .inr (.inl rfl)
    | cons a rest =>
      rw [tail] at h
      split at h
      next ha =>
        rw [List.cons_append, tail, if_pos ha, List.length_cons, ← Nat.add_assoc,
          Nat.add_right_comm more rest.length 1]
        exact ih h
      · cases h

/-- A byte that continues no character spoils an incomplete one. -/
theorem tail_append_spoiled {owed bits more lo hi : Nat} {s : Bytes} {b : UInt8}
    (h : tail owed bits more lo hi s = .incomplete) (hlo : 0x80 ≤ lo) (hhi : hi ≤ 0xBF)
    (hb : ¬ (0x80 ≤ b.toNat ∧ b.toNat ≤ 0xBF)) (t : Bytes) :
    tail owed bits more lo hi (s ++ b :: t) = .invalid (more + s.length) := by
  induction owed generalizing bits more lo hi s with
  | zero => rw [tail] at h; cases h
  | succ owed ih =>
    cases s with
    | nil =>
      rw [List.nil_append, tail, if_neg (by omega)]
      rfl
    | cons a rest =>
      rw [tail] at h
      split at h
      next ha =>
        rw [List.cons_append, tail, if_pos ha, ih h (Nat.le_refl _) (Nat.le_refl _),
          List.length_cons]
        congr 1
        omega
      · cases h

theorem lead_range {b : UInt8} {l : Lead} (h : lead b = some l) : 0x80 ≤ l.lo ∧ l.hi ≤ 0xBF := by
  simp only [lead] at h
  split_ifs at h <;> cases h <;> simp

theorem head_of_lead {b : UInt8} {l : Lead} {owed bits : Nat} (h : lead b = some l)
    (ho : l.owed = owed) (hb : l.bits = bits) (rest : Bytes) :
    head b rest = tail owed bits 0 l.lo l.hi rest := by
  rw [head, h, ← ho, ← hb]

theorem head_append {b : UInt8} {s : Bytes} (t : Bytes) (h : head b s ≠ .incomplete) :
    head b (s ++ t) = head b s := by
  unfold head at h ⊢
  cases hl : lead b with
  | none => rfl
  | some l =>
    rw [hl] at h
    exact tail_append t h

theorem head_char_more {b : UInt8} {s : Bytes} {c : Char} {n : Nat} (h : head b s = .char c n) :
    n ≤ s.length := by
  unfold head at h
  split at h
  · cases h
  · have := tail_char_more h
    omega

/-- A character needs only its own bytes. -/
theorem head_take {b : UInt8} {s : Bytes} {c : Char} {n m : Nat} (h : head b s = .char c n)
    (hm : n ≤ m) : head b (s.take m) = .char c n := by
  unfold head at h ⊢
  cases hl : lead b with
  | none => rw [hl] at h; cases h
  | some l =>
    rw [hl] at h
    have := tail_char_more h
    exact tail_take h (by omega)

theorem head_invalid_more {b : UInt8} {s : Bytes} {n : Nat} (h : head b s = .invalid n) :
    n ≤ s.length := by
  unfold head at h
  split at h
  · cases h
    exact Nat.zero_le _
  · have := tail_invalid_more h
    omega

/-! ## Encoded characters -/

theorem toNat_ofNat {n : Nat} (h : n < 256) : (UInt8.ofNat n).toNat = n := by
  rw [UInt8.toNat_ofNat']
  exact Nat.mod_eq_of_lt h

theorem tail_succ {owed bits more lo hi n : Nat} {rest : Bytes} (hn : n < 256) (hlo : lo ≤ n)
    (hhi : n ≤ hi) :
    tail (owed + 1) bits more lo hi (UInt8.ofNat n :: rest)
      = tail owed (bits * 64 + (n - 0x80)) (more + 1) 0x80 0xBF rest := by
  rw [tail, toNat_ofNat hn, if_pos ⟨hlo, hhi⟩]

/-- The first byte of a character of three bytes, and the range it leaves the second. -/
theorem lead_three {v : Nat} (hlo : 0x7FF < v) (hhi : v ≤ 0xFFFF)
    (hs : v < 0xD800 ∨ 0xDFFF < v) :
    ∃ l, lead (UInt8.ofNat (v / 4096 % 16 + 224)) = some l ∧ l.owed = 2 ∧ l.bits = v / 4096 ∧
      l.lo ≤ v / 64 % 64 + 128 ∧ v / 64 % 64 + 128 ≤ l.hi := by
  simp only [lead, toNat_ofNat (show v / 4096 % 16 + 224 < 256 by omega)]
  rw [if_neg (by omega), if_neg (by omega), if_neg (by omega)]
  split_ifs <;>
    first
    | exact ⟨_, rfl, rfl, by dsimp only; omega, by dsimp only; omega, by dsimp only; omega⟩
    | exfalso; omega

theorem lead_four {v : Nat} (hlo : 0xFFFF < v) (hhi : v < 0x110000) :
    ∃ l, lead (UInt8.ofNat (v / 262144 % 8 + 240)) = some l ∧ l.owed = 3 ∧ l.bits = v / 262144 ∧
      l.lo ≤ v / 4096 % 64 + 128 ∧ v / 4096 % 64 + 128 ≤ l.hi := by
  simp only [lead, toNat_ofNat (show v / 262144 % 8 + 240 < 256 by omega)]
  rw [if_neg (by omega), if_neg (by omega), if_neg (by omega), if_neg (by omega),
    if_neg (by omega), if_neg (by omega)]
  split_ifs <;>
    first
    | exact ⟨_, rfl, rfl, by dsimp only; omega, by dsimp only; omega, by dsimp only; omega⟩
    | exfalso; omega

/-- The front of an encoded character is the character, and its first byte continues none. -/
theorem head_utf8EncodeChar (c : Char) (t : Bytes) :
    ∃ b rest, String.utf8EncodeChar c = b :: rest ∧ head b (rest ++ t) = .char c rest.length ∧
      ¬ (0x80 ≤ b.toNat ∧ b.toNat ≤ 0xBF) := by
  have hc : Char.ofNat c.val.toNat = c := Char.ofNat_toNat c
  have hvalid : c.val.toNat < 0xD800 ∨ 0xDFFF < c.val.toNat ∧ c.val.toNat < 0x110000 := c.valid
  generalize hv : c.val.toNat = v at hc hvalid
  simp only [String.utf8EncodeChar, hv]
  by_cases h1 : v ≤ 0x7F
  · rw [if_pos h1]
    refine ⟨_, _, rfl, ?_, ?_⟩
    · simp only [head, lead, toNat_ofNat (show v < 256 by omega)]
      rw [if_pos (by omega)]
      simp only [tail, hc]
      rfl
    · rw [toNat_ofNat (by omega)]
      omega
  rw [if_neg h1]
  by_cases h2 : v ≤ 0x7FF
  · rw [if_pos h2]
    refine ⟨_, _, rfl, ?_, ?_⟩
    · simp only [head, lead, toNat_ofNat (show v / 64 % 32 + 192 < 256 by omega)]
      rw [if_neg (by omega), if_neg (by omega), if_pos (by omega)]
      simp only [List.cons_append, List.nil_append]
      rw [tail_succ (by omega) (by omega) (by omega), tail,
        show (v / 64 % 32 + 192 - 192) * 64 + (v % 64 + 128 - 128) = v by omega, hc]
      rfl
    · rw [toNat_ofNat (by omega)]
      omega
  rw [if_neg h2]
  by_cases h3 : v ≤ 0xFFFF
  · rw [if_pos h3]
    refine ⟨_, _, rfl, ?_, ?_⟩
    · obtain ⟨l, hl, ho, hb, hlo, hhi⟩ := lead_three (by omega) h3 (by omega)
      rw [head_of_lead hl ho hb]
      simp only [List.cons_append, List.nil_append]
      rw [tail_succ (by omega) hlo hhi, tail_succ (by omega) (by omega) (by omega), tail,
        show (v / 4096 * 64 + (v / 64 % 64 + 128 - 128)) * 64 + (v % 64 + 128 - 128) = v by omega,
        hc]
      rfl
    · rw [toNat_ofNat (by omega)]
      omega
  rw [if_neg h3]
  refine ⟨_, _, rfl, ?_, ?_⟩
  · obtain ⟨l, hl, ho, hb, hlo, hhi⟩ := lead_four (v := v) (by omega) (by omega)
    rw [head_of_lead hl ho hb]
    simp only [List.cons_append, List.nil_append]
    rw [tail_succ (by omega) hlo hhi, tail_succ (by omega) (by omega) (by omega),
      tail_succ (by omega) (by omega) (by omega), tail,
      show ((v / 262144 * 64 + (v / 4096 % 64 + 128 - 128)) * 64 + (v / 64 % 64 + 128 - 128)) * 64
        + (v % 64 + 128 - 128) = v by omega, hc]
    rfl
  · rw [toNat_ofNat (by omega)]
    omega

@[simp] theorem utf8_nil : utf8 [] = [] := rfl

theorem utf8_cons (c : Char) (s : List Char) : utf8 (c :: s) = String.utf8EncodeChar c ++ utf8 s :=
  List.flatMap_cons

theorem utf8_append (s t : List Char) : utf8 (s ++ t) = utf8 s ++ utf8 t := List.flatMap_append

/-- **An encoding is read back.** -/
theorem fromUtf8_utf8 : ∀ s : List Char, fromUtf8 (utf8 s) = .ok s
  | [] => fromUtf8_nil
  | c :: s => by
    obtain ⟨b, rest, hb, hh, -⟩ := head_utf8EncodeChar c (utf8 s)
    rw [utf8_cons, hb, List.cons_append, fromUtf8, hh]
    simp only [List.drop_left]
    rw [fromUtf8_utf8 s]

/-! ## Cutting a valid prefix off -/

theorem fromUtf8_cons_ok {b : UInt8} {rest : Bytes} {cs : List Char}
    (h : fromUtf8 (b :: rest) = .ok cs) :
    ∃ c more cs', head b rest = .char c more ∧ fromUtf8 (rest.drop more) = .ok cs' ∧
      cs = c :: cs' := by
  rw [fromUtf8] at h
  split at h
  next c more hh =>
    split at h
    next cs' hcs => exact ⟨c, more, cs', hh, hcs, (Except.ok.inj h).symm⟩
    · cases h
  · cases h
  · cases h

/-- **A valid prefix is read as it stands, whatever follows.** -/
theorem lossy_append_of_ok (t : Bytes) : ∀ {s : Bytes} {cs : List Char},
    fromUtf8 s = .ok cs → lossy (s ++ t) = cs ++ lossy t
  | [], cs, h => by
    rw [fromUtf8_nil] at h
    cases h
    rfl
  | b :: rest, cs, h => by
    obtain ⟨c, more, cs', hh, hcs, rfl⟩ := fromUtf8_cons_ok h
    have hne : head b rest ≠ .incomplete := by rw [hh]; exact nofun
    rw [List.cons_append, lossy, head_append t hne, hh]
    simp only
    rw [List.drop_append_of_le_length (head_char_more hh), lossy_append_of_ok t hcs,
      List.cons_append]
termination_by s => s.length
decreasing_by simp only [List.length_cons, List.length_drop]; omega

theorem lossy_of_ok {s : Bytes} {cs : List Char} (h : fromUtf8 s = .ok cs) : lossy s = cs := by
  have := lossy_append_of_ok [] h
  simpa using this

/-- The bytes before the first fault are valid. -/
theorem fromUtf8_take : ∀ {s : Bytes} {e : Utf8Error}, fromUtf8 s = .error e →
    ∃ cs, fromUtf8 (s.take e.validUpTo) = .ok cs
  | [], e, h => by rw [fromUtf8_nil] at h; cases h
  | b :: rest, e, h => by
    rw [fromUtf8] at h
    split at h
    next c more hh =>
      split at h
      · cases h
      next e' he' =>
        cases h
        obtain ⟨cs, hcs⟩ := fromUtf8_take he'
        refine ⟨c :: cs, ?_⟩
        simp only
        rw [Nat.add_right_comm, List.take_succ_cons, fromUtf8,
          head_take hh (Nat.le_add_right more e'.validUpTo)]
        simp only
        rw [List.drop_take, Nat.add_sub_cancel_left, hcs]
    · cases h
      exact ⟨[], by simp⟩
    · cases h
      exact ⟨[], by simp⟩
termination_by s => s.length
decreasing_by simp only [List.length_cons, List.length_drop]; omega

/-! ## A reader that waits -/

/-- Nothing, or the beginning of one character. -/
def Held : Bytes → Prop
  | [] => True
  | b :: rest => head b rest = .incomplete

/-- What one more byte makes of the beginning of a character. -/
theorem head_snoc {a : UInt8} {q : Bytes} (h : head a q = .incomplete) (b : UInt8) :
    (∃ c, head a (q ++ [b]) = .char c (q.length + 1)) ∨
      head a (q ++ [b]) = .invalid q.length ∨ head a (q ++ [b]) = .incomplete := by
  unfold head at h ⊢
  split at h
  · cases h
  next l hl =>
    have := tail_snoc b h
    rwa [Nat.zero_add] at this

theorem head_spoiled {a : UInt8} {q : Bytes} (h : head a q = .incomplete) {b : UInt8}
    (hb : ¬ (0x80 ≤ b.toNat ∧ b.toNat ≤ 0xBF)) (t : Bytes) :
    head a (q ++ b :: t) = .invalid q.length := by
  unfold head at h ⊢
  split at h
  · cases h
  next l hl =>
    obtain ⟨hlo, hhi⟩ := lead_range hl
    have := tail_append_spoiled h hlo hhi hb t
    rwa [Nat.zero_add] at this

theorem lead_isSome_of_held {a : UInt8} {q : Bytes} (h : head a q = .incomplete) :
    (lead a).isSome := by
  unfold head at h
  split at h
  · cases h
  next l hl => rw [hl]; rfl

/-- A byte that begins a character is one, or leaves it incomplete. -/
theorem head_nil_ne_invalid {b : UInt8} {l : Lead} (hl : lead b = some l) (n : Nat) :
    head b [] ≠ .invalid n := by
  intro h
  rw [head_of_lead hl rfl rfl] at h
  cases hk : l.owed with
  | zero =>
    rw [hk] at h
    cases h
  | succ k =>
    rw [hk] at h
    cases h

theorem lead_isSome_of_char {b : UInt8} {rest : Bytes} {c : Char} {n : Nat}
    (h : head b rest = .char c n) : (lead b).isSome := by
  unfold head at h
  split at h
  · cases h
  next l hl => rw [hl]; rfl

theorem lossy_held : ∀ {p : Bytes}, Held p → lossy p = if p = [] then [] else [replacement]
  | [], _ => by simp
  | a :: q, h => by
    have h : head a q = .incomplete := h
    rw [lossy, h, if_neg (List.cons_ne_nil a q)]

theorem lossy_ne_nil : ∀ {s : Bytes}, s ≠ [] → lossy s ≠ []
  | [], h => absurd rfl h
  | b :: rest, _ => by
    rw [lossy]
    split <;> simp

/-! ## Bytes that spoil no character -/

/-- Every ill-formed part, but for an incomplete tail, is a byte that begins no character. -/
def unspoilt : Bytes → Bool
  | [] => true
  | b :: rest =>
    match head b rest with
    | .char _ more => unspoilt (rest.drop more)
    | .invalid more => (lead b).isNone && unspoilt (rest.drop more)
    | .incomplete => true
termination_by bs => bs.length
decreasing_by all_goals simp only [List.length_cons, List.length_drop]; omega

@[simp] theorem unspoilt_nil : unspoilt [] = true := by rw [unspoilt]

theorem unspoilt_held : ∀ {p : Bytes}, Held p → unspoilt p = true
  | [], _ => unspoilt_nil
  | a :: q, h => by
    have h : head a q = .incomplete := h
    rw [unspoilt, h]

theorem unspoilt_append_of_ok (t : Bytes) : ∀ {s : Bytes} {cs : List Char},
    fromUtf8 s = .ok cs → unspoilt (s ++ t) = unspoilt t
  | [], cs, h => rfl
  | b :: rest, cs, h => by
    obtain ⟨c, more, cs', hh, hcs, rfl⟩ := fromUtf8_cons_ok h
    have hne : head b rest ≠ .incomplete := by rw [hh]; exact nofun
    rw [List.cons_append, unspoilt, head_append t hne, hh]
    simp only
    rw [List.drop_append_of_le_length (head_char_more hh), unspoilt_append_of_ok t hcs]
termination_by s => s.length
decreasing_by simp only [List.length_cons, List.length_drop]; omega

theorem unspoilt_of_append {t : Bytes} : ∀ {s : Bytes}, unspoilt (s ++ t) = true →
    unspoilt s = true
  | [], _ => unspoilt_nil
  | b :: rest, h => by
    rw [unspoilt]
    cases hh : head b rest with
    | incomplete => rfl
    | char c more =>
      rw [List.cons_append, unspoilt, head_append t (by rw [hh]; exact nofun), hh] at h
      simp only at h
      rw [List.drop_append_of_le_length (head_char_more hh)] at h
      exact unspoilt_of_append h
    | invalid more =>
      rw [List.cons_append, unspoilt, head_append t (by rw [hh]; exact nofun), hh] at h
      simp only [Bool.and_eq_true] at h
      rw [List.drop_append_of_le_length (head_invalid_more hh)] at h
      simp only [Bool.and_eq_true]
      exact ⟨h.1, unspoilt_of_append h.2⟩
termination_by s => s.length
decreasing_by all_goals simp only [List.length_cons, List.length_drop]; omega

/-! ## Spaces -/

theorem tail_large {owed bits more lo hi : Nat} {s : Bytes} {c : Char} {n : Nat}
    (h : tail owed bits more lo hi s = .char c n) :
    ∃ v, bits * 64 ^ owed ≤ v ∧ c = Char.ofNat v := by
  induction owed generalizing bits more lo hi s with
  | zero =>
    rw [tail] at h
    cases h
    exact ⟨bits, by omega, rfl⟩
  | succ owed ih =>
    cases s with
    | nil => rw [tail] at h; cases h
    | cons b rest =>
      rw [tail] at h
      split at h
      · obtain ⟨v, hv, hc⟩ := ih h
        refine ⟨v, Nat.le_trans ?_ hv, hc⟩
        rw [Nat.pow_succ', ← Nat.mul_assoc]
        exact Nat.mul_le_mul_right _ (Nat.le_add_right _ _)
      · cases h

theorem lead_size {b : UInt8} {l : Lead} (h : lead b = some l) :
    (l.owed = 0 ∧ l.bits = b.toNat) ∨
      ∃ k, l.owed = k + 1 ∧ 0x80 ≤ (l.bits * 64 + (l.lo - 0x80)) * 64 ^ k := by
  simp only [lead] at h
  split_ifs at h <;> cases h
  case pos => exact .inl ⟨rfl, rfl⟩
  all_goals exact .inr ⟨_, rfl, by dsimp only; omega⟩

theorem toNat_charOfNat (v : Nat) :
    (Char.ofNat v).toNat = if v.isValidChar then v else 0 := by
  unfold Char.ofNat
  split
  · rfl
  · rfl

theorem ofNat_eq_space {v : Nat} (h : Char.ofNat v = ' ') : v = 0x20 := by
  have hn : (Char.ofNat v).toNat = 0x20 := by rw [h]; rfl
  rw [toNat_charOfNat] at hn
  split at hn
  · exact hn
  · cases hn

/-- No longer sequence of bytes is read as a space. -/
theorem head_eq_space {b : UInt8} {rest : Bytes} {n : Nat} (h : head b rest = .char ' ' n) :
    b = 0x20 := by
  unfold head at h
  split at h
  · cases h
  next l hl =>
    rcases lead_size hl with ⟨h0, hbits⟩ | ⟨k, hk, hsize⟩
    · rw [h0, tail, hbits] at h
      exact UInt8.toNat_inj.mp (ofNat_eq_space (Head.char.inj h).1)
    · rw [hk] at h
      cases rest with
      | nil => rw [tail] at h; cases h
      | cons x rest =>
        rw [tail] at h
        split at h
        next hx =>
          obtain ⟨v, hv, hc⟩ := tail_large h
          have hle : (l.bits * 64 + (l.lo - 0x80)) * 64 ^ k
              ≤ (l.bits * 64 + (x.toNat - 0x80)) * 64 ^ k := Nat.mul_le_mul_right _ (by omega)
          have := ofNat_eq_space hc.symm
          omega
        · cases h

@[simp] theorem head_space (rest : Bytes) : head 0x20 rest = .char ' ' 0 := rfl

end Infra
