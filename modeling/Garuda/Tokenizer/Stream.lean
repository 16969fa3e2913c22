import Garuda.Core.Types
import Garuda.Infra.Utf8

/-!
# Streaming detokenisation

The traits every tokenizer implements, and the reader that two of the streaming decoders share:
bytes go in piece by piece, text comes out as soon as it is complete.

* `Tokenize` and `StreamDecode` are the traits; `StreamDecode.text` is what a client sees of a
  whole token sequence.
* `drainPending` is what a decoder makes of its pending bytes.
* `feed` is one push into a decoder that also drops a leading space, as SentencePiece's does.

`feedAll_eq` says when the pieces put together are the lossy reading of all the bytes, and
`exists_feedAll_ne` that they differ on some prefix otherwise.
-/

namespace Garuda

open Infra

/-! ## The traits -/

/-- `trait Tokenize`, less its streaming decoder. -/
structure Tokenize where
  encode : String → List Token
  encodeFragment : String → List Token
  tokenId : String → Option Token
  decode : List Token → Except GarudaError String
  eos : Token
  vocabSize : Nat

/-- `trait StreamDecode`, on a decoder's state `δ`. -/
structure StreamDecode (δ : Type) where
  push : δ → Token → String × δ
  finish : δ → String × δ

/-- The pieces from pushing `tokens` one by one and then finishing, put together. -/
def StreamDecode.text {δ : Type} (dec : StreamDecode δ) : δ → List Token → String
  | d, [] => (dec.finish d).1
  | d, t :: ts => (dec.push d t).1 ++ dec.text (dec.push d t).2 ts

/-! ## Draining the pending bytes -/

inductive Drained where
  /-- Text to emit, and the bytes that stay. -/
  | text (s : List Char) (rest : Bytes)
  /-- The first bytes are part of no character. -/
  | invalid
  /-- The first character is not complete yet. -/
  | hold

def drainPending (pending : Bytes) : Drained :=
  match fromUtf8 pending with
  | .ok s => .text s []
  | .error e =>
    if e.validUpTo = 0 then
      if e.errorLen.isSome then .invalid else .hold
    else .text (lossy (pending.take e.validUpTo)) (pending.drop e.validUpTo)

/-- `strip_prefix(' ')`, or the text itself. -/
def stripSpace : List Char → List Char
  | ' ' :: s => s
  | s => s

/-- A decoder that waits for the rest of a character, and for its first text. -/
structure Reader where
  pending : Bytes
  atStart : Bool

/-- One push: `bytes` join the pending ones, and what is complete comes out. -/
def Reader.feed (d : Reader) (bytes : Bytes) : List Char × Reader :=
  let pending := d.pending ++ bytes
  match drainPending pending with
  | .invalid => ([replacement], { d with pending := [] })
  | .hold => ([], { d with pending })
  | .text out rest =>
    if d.atStart && !out.isEmpty then (stripSpace out, { pending := rest, atStart := false })
    else (out, { d with pending := rest })

def Reader.feedAll : Reader → List Bytes → List Char
  | d, [] => lossy d.pending
  | d, u :: us => (d.feed u).1 ++ Reader.feedAll (d.feed u).2 us

/-! ## One push -/

/-- What a token stands for: at most one byte, or whole characters. -/
def Pushable (u : Bytes) : Prop := u.length ≤ 1 ∨ ∃ cs, u = utf8 cs

theorem stripSpace_of_ne {c : Char} (s : List Char) (h : c ≠ ' ') : stripSpace (c :: s) = c :: s := by
  unfold stripSpace
  split
  next heq => exact absurd (List.cons.inj heq).1 h
  · rfl

theorem stripSpace_append {cs : List Char} (h : cs ≠ []) (t : List Char) :
    stripSpace (cs ++ t) = stripSpace cs ++ t := by
  obtain ⟨c, cs, rfl⟩ := List.exists_cons_of_ne_nil h
  by_cases hc : c = ' '
  · subst hc; rfl
  · rw [List.cons_append, stripSpace_of_ne _ hc, stripSpace_of_ne _ hc, List.cons_append]

theorem fromUtf8_char {b : UInt8} {rest : Bytes} {c : Char}
    (h : head b rest = .char c rest.length) : fromUtf8 (b :: rest) = .ok [c] := by
  rw [fromUtf8, h]
  simp

theorem drainPending_incomplete {b : UInt8} {rest : Bytes} (h : head b rest = .incomplete) :
    drainPending (b :: rest) = .hold := by
  rw [drainPending, fromUtf8, h]
  rfl

theorem drainPending_invalid {b : UInt8} {rest : Bytes} {n : Nat} (h : head b rest = .invalid n) :
    drainPending (b :: rest) = .invalid := by
  rw [drainPending, fromUtf8, h]
  rfl

theorem drainPending_ok {s : Bytes} {cs : List Char} (h : fromUtf8 s = .ok cs) :
    drainPending s = .text cs [] := by
  rw [drainPending, h]

/-- How a push can go. -/
inductive Fed (d : Reader) (u : Bytes) : List Char × Reader → Prop where
  /-- Everything pending is text. -/
  | text {c : Char} {cs : List Char} (h : fromUtf8 (d.pending ++ u) = .ok (c :: cs)) :
    Fed d u (if d.atStart then stripSpace (c :: cs) else c :: cs,
      { pending := [], atStart := false })
  /-- Nothing is pending, or the beginning of a character. -/
  | hold (h : Held (d.pending ++ u)) : Fed d u ([], { d with pending := d.pending ++ u })
  /-- A byte that begins no character, with nothing before it. -/
  | lone {b : UInt8} (hp : d.pending = []) (hu : u = [b]) (h : lead b = none) :
    Fed d u ([replacement], { d with pending := [] })
  /-- The pushed bytes do not continue the character before them. -/
  | spoils {a : UInt8} {q : Bytes} (hp : d.pending = a :: q) (hu : u ≠ [])
      (h : ∀ t, head a (q ++ u ++ t) = .invalid q.length) :
    Fed d u ([replacement], { d with pending := [] })

theorem fed_of_ok {d : Reader} {u : Bytes} {cs : List Char}
    (h : fromUtf8 (d.pending ++ u) = .ok cs) : Fed d u (d.feed u) := by
  have hfeed : d.feed u = if d.atStart && !cs.isEmpty then
      (stripSpace cs, { pending := [], atStart := false }) else (cs, { d with pending := [] }) := by
    simp only [Reader.feed, drainPending_ok h]
  rw [hfeed]
  cases cs with
  | nil =>
    have hnil : d.pending ++ u = [] := by
      cases hs : d.pending ++ u with
      | nil => rfl
      | cons b rest =>
        rw [hs] at h
        obtain ⟨c, more, cs, -, -, heq⟩ := fromUtf8_cons_ok h
        cases heq
    have hf : Fed d u ([], { d with pending := d.pending ++ u }) := .hold (by rw [hnil]; trivial)
    rw [hnil] at hf
    simpa using hf
  | cons c cs =>
    have hf := Fed.text h
    cases hs : d.atStart with
    | true => simpa [hs] using hf
    | false => simpa [hs] using hf

theorem feed_hold {d : Reader} {u : Bytes} {a : UInt8} {q : Bytes} (hs : d.pending ++ u = a :: q)
    (h : head a q = .incomplete) : d.feed u = ([], { d with pending := d.pending ++ u }) := by
  have hd : drainPending (d.pending ++ u) = .hold := by rw [hs]; exact drainPending_incomplete h
  simp only [Reader.feed, hd]

theorem feed_invalid {d : Reader} {u : Bytes} {a : UInt8} {q : Bytes} {n : Nat}
    (hs : d.pending ++ u = a :: q) (h : head a q = .invalid n) :
    d.feed u = ([replacement], { d with pending := [] }) := by
  have hd : drainPending (d.pending ++ u) = .invalid := by rw [hs]; exact drainPending_invalid h
  simp only [Reader.feed, hd]

theorem fed_of_spoiled {d : Reader} {u : Bytes} {a : UInt8} {q : Bytes} (hp : d.pending = a :: q)
    (hu : u ≠ []) (h : ∀ t, head a (q ++ u ++ t) = .invalid q.length) : Fed d u (d.feed u) := by
  have hh := h []
  rw [List.append_nil] at hh
  rw [feed_invalid (by rw [hp]; rfl) hh]
  exact .spoils hp hu h

theorem fed_of_held {d : Reader} {u : Bytes} {a : UInt8} {q : Bytes} (hs : d.pending ++ u = a :: q)
    (h : head a q = .incomplete) : Fed d u (d.feed u) := by
  rw [feed_hold hs h]
  exact .hold (by rw [hs]; exact h)

theorem feed_fed_nil {d : Reader} {u : Bytes} (hp : d.pending = []) (hu : Pushable u) :
    Fed d u (d.feed u) := by
  rcases hu with hu | ⟨cs, rfl⟩
  · match u, hu with
    | [], _ => exact fed_of_ok (by rw [hp]; exact fromUtf8_nil)
    | [b], _ =>
      have hs : d.pending ++ [b] = [b] := by rw [hp]; rfl
      cases hl : lead b with
      | none =>
        have hb : head b [] = .invalid 0 := by rw [head, hl]
        rw [feed_invalid hs hb]
        exact .lone hp rfl hl
      | some l =>
        cases hh : head b [] with
        | char c n =>
          obtain rfl : n = 0 := Nat.le_zero.mp (head_char_more hh)
          exact fed_of_ok (by rw [hs]; exact fromUtf8_char hh)
        | invalid n => exact absurd hh (head_nil_ne_invalid hl n)
        | incomplete => exact fed_of_held hs hh
  · exact fed_of_ok (by rw [hp]; exact fromUtf8_utf8 cs)

theorem feed_fed {d : Reader} {u : Bytes} (hp : Held d.pending) (hu : Pushable u) :
    Fed d u (d.feed u) := by
  cases hd : d.pending with
  | nil => exact feed_fed_nil hd hu
  | cons a q =>
    rw [hd] at hp
    have hp : head a q = .incomplete := hp
    rcases hu with hu | ⟨cs, rfl⟩
    · match u, hu with
      | [], _ => exact fed_of_held (by rw [hd, List.append_nil]) hp
      | [b], _ =>
        rcases head_snoc hp b with ⟨c, hh⟩ | hh | hh
        · have hok : fromUtf8 (d.pending ++ [b]) = .ok [c] := by
            rw [hd, List.cons_append]
            refine fromUtf8_char ?_
            rw [hh, List.length_append]
            rfl
          exact fed_of_ok hok
        · refine fed_of_spoiled hd (List.cons_ne_nil b []) fun t => ?_
          rw [head_append t (by rw [hh]; exact nofun), hh]
        · exact fed_of_held (by rw [hd]; rfl) hh
    · cases cs with
      | nil => exact fed_of_held (by rw [hd, utf8_nil, List.append_nil]) hp
      | cons c cs =>
        obtain ⟨b, rest, hb, -, hcont⟩ := head_utf8EncodeChar c []
        refine fed_of_spoiled hd ?_ fun t => ?_
        · rw [utf8_cons, hb]
          exact List.cons_ne_nil _ _
        · rw [utf8_cons, hb, List.append_assoc, List.append_assoc, List.cons_append]
          exact head_spoiled hp hcont _

theorem held_feed {d : Reader} {u : Bytes} (hp : Held d.pending) (hu : Pushable u) :
    Held (d.feed u).2.pending := by
  have hfed := feed_fed hp hu
  generalize d.feed u = out at hfed
  cases hfed with
  | text h => trivial
  | hold h => exact h
  | lone hp hu h => trivial
  | spoils hp hu h => trivial

/-! ## What the bytes may not do -/

/-- A byte that begins no character. -/
def lone (b : UInt8) : Bool := (lead b).isNone

/-- Past the bytes that begin no character, the first is a space. -/
def spaceAhead (s : Bytes) : Bool := (s.dropWhile lone).head? == some 0x20

/-- At least one byte that begins no character, and then a space. -/
def spaceAfterInvalid (s : Bytes) : Bool := s.head?.any lone && spaceAhead s

/-- The bytes a decoder will not read as a whole reading would: from its start, or not, and
with bytes already replaced there, or not. -/
def faulty (atStart replaced : Bool) (s : Bytes) : Bool :=
  !unspoilt s || (atStart && (if replaced then spaceAhead s else spaceAfterInvalid s))

/-- The lossy reading, less its leading space where one is dropped. -/
def reading (atStart replaced : Bool) (s : Bytes) : List Char :=
  if atStart && !replaced then stripSpace (lossy s) else lossy s

theorem spaceAhead_of_lead {a : UInt8} {l : Lead} (h : lead a = some l) (s : Bytes) :
    spaceAhead (a :: s) = (a == 0x20) := by
  have hl : ¬ lone a = true := by simp [lone, h]
  rw [spaceAhead, List.dropWhile_cons_of_neg hl, List.head?_cons]
  rfl

theorem spaceAfterInvalid_of_lead {a : UInt8} {l : Lead} (h : lead a = some l) (s : Bytes) :
    spaceAfterInvalid (a :: s) = false := by
  simp [spaceAfterInvalid, lone, h]

theorem spaceAhead_append {s : Bytes} (t : Bytes) (h : spaceAhead s = true) :
    spaceAhead (s ++ t) = true := by
  induction s with
  | nil => cases h
  | cons b s ih =>
    rw [spaceAhead] at h ⊢
    rw [List.cons_append]
    by_cases hl : lone b = true
    · rw [List.dropWhile_cons_of_pos hl] at h ⊢
      exact ih h
    · rw [List.dropWhile_cons_of_neg hl] at h ⊢
      exact h

theorem spaceAfterInvalid_append {s : Bytes} (t : Bytes) (h : spaceAfterInvalid s = true) :
    spaceAfterInvalid (s ++ t) = true := by
  cases s with
  | nil => cases h
  | cons b s =>
    simp only [spaceAfterInvalid, Bool.and_eq_true] at h ⊢
    exact ⟨h.1, spaceAhead_append t h.2⟩

/-- What goes wrong stays wrong when more bytes follow. -/
theorem faulty_of_append {atStart replaced : Bool} {s t : Bytes}
    (h : faulty atStart replaced (s ++ t) = false) : faulty atStart replaced s = false := by
  by_contra hs
  rw [Bool.not_eq_false] at hs
  simp only [faulty, Bool.or_eq_true, Bool.and_eq_true, Bool.not_eq_true'] at hs
  rw [faulty, Bool.or_eq_false_iff] at h
  rcases hs with hs | ⟨hstart, hs⟩
  · have := unspoilt_of_append (by simpa using h.1)
    rw [this] at hs
    cases hs
  · subst hstart
    cases replaced with
    | true => simpa [spaceAhead_append t hs] using h.2
    | false => simpa [spaceAfterInvalid_append t hs] using h.2

/-! ### Bytes still held -/

theorem held_not_faulty {p : Bytes} (hp : Held p) (atStart replaced : Bool) :
    faulty atStart replaced p = false := by
  rw [faulty, unspoilt_held hp]
  cases p with
  | nil => cases replaced <;> simp [spaceAhead, spaceAfterInvalid]
  | cons a q =>
    have hp : head a q = .incomplete := hp
    obtain ⟨l, hl⟩ := Option.isSome_iff_exists.mp (lead_isSome_of_held hp)
    rw [spaceAhead_of_lead hl, spaceAfterInvalid_of_lead hl]
    have ha : a ≠ 0x20 := by
      rintro rfl
      rw [head_space] at hp
      cases hp
    simp [ha]

theorem reading_held {p : Bytes} (hp : Held p) (atStart replaced : Bool) :
    reading atStart replaced p = lossy p := by
  rw [reading, lossy_held hp]
  split
  · split
    · rfl
    · exact stripSpace_of_ne [] (by decide)
  · rfl

/-! ### Bytes that are text -/

theorem fromUtf8_cons {s : Bytes} {c : Char} {cs : List Char} (h : fromUtf8 s = .ok (c :: cs)) :
    ∃ b rest more, s = b :: rest ∧ head b rest = .char c more := by
  cases s with
  | nil => rw [fromUtf8_nil] at h; cases h
  | cons b rest =>
    obtain ⟨c', more, cs', hh, -, heq⟩ := fromUtf8_cons_ok h
    cases heq
    exact ⟨b, rest, more, rfl, hh⟩

theorem spaceAhead_of_ok {s : Bytes} {c : Char} {cs : List Char} (h : fromUtf8 s = .ok (c :: cs))
    (t : Bytes) : spaceAhead (s ++ t) = (c == ' ') := by
  obtain ⟨b, rest, more, rfl, hh⟩ := fromUtf8_cons h
  obtain ⟨l, hl⟩ := Option.isSome_iff_exists.mp (lead_isSome_of_char hh)
  rw [List.cons_append, spaceAhead_of_lead hl]
  by_cases hb : b = 0x20
  · subst hb
    rw [head_space] at hh
    cases hh
    rfl
  · have hc : c ≠ ' ' := by
      rintro rfl
      exact hb (head_eq_space hh)
    simp [hb, hc]

theorem spaceAfterInvalid_of_ok {s : Bytes} {c : Char} {cs : List Char}
    (h : fromUtf8 s = .ok (c :: cs)) (t : Bytes) : spaceAfterInvalid (s ++ t) = false := by
  obtain ⟨b, rest, more, rfl, hh⟩ := fromUtf8_cons h
  obtain ⟨l, hl⟩ := Option.isSome_iff_exists.mp (lead_isSome_of_char hh)
  exact spaceAfterInvalid_of_lead hl _

/-! ## All pushes -/

theorem unspoilt_lone {b : UInt8} (h : lead b = none) (t : Bytes) :
    unspoilt (b :: t) = unspoilt t := by
  have hb : head b t = .invalid 0 := by rw [head, h]
  rw [unspoilt, hb, h]
  rfl

theorem lossy_lone {b : UInt8} (h : lead b = none) (t : Bytes) :
    lossy (b :: t) = replacement :: lossy t := by
  have hb : head b t = .invalid 0 := by rw [head, h]
  rw [lossy, hb]
  rfl

theorem faulty_lone {b : UInt8} (h : lead b = none) (atStart replaced : Bool) (t : Bytes) :
    faulty atStart replaced (b :: t) = faulty atStart true t := by
  have hl : lone b = true := by simp [lone, h]
  have hahead : spaceAhead (b :: t) = spaceAhead t := by
    rw [spaceAhead, List.dropWhile_cons_of_pos hl]
    rfl
  have hafter : spaceAfterInvalid (b :: t) = spaceAhead t := by
    rw [spaceAfterInvalid, hahead, List.head?_cons, Option.any_some, hl, Bool.true_and]
  rw [faulty, faulty, unspoilt_lone h, hahead, hafter]
  cases replaced <;> rfl

theorem reading_lone {b : UInt8} (h : lead b = none) (atStart replaced : Bool) (t : Bytes) :
    reading atStart replaced (b :: t) = replacement :: reading atStart true t := by
  rw [reading, reading, lossy_lone h, stripSpace_of_ne _ (by decide)]
  simp

theorem unspoilt_spoiled {a : UInt8} {q s : Bytes} (hq : head a q = .incomplete)
    (h : head a s = .invalid q.length) : unspoilt (a :: s) = false := by
  rw [unspoilt, h]
  have hl := lead_isSome_of_held hq
  cases hs : lead a with
  | none => rw [hs] at hl; cases hl
  | some l => rfl

/-- A text whose leading space, if it has one, is rightly dropped or kept. -/
theorem reading_text {s : Bytes} {c : Char} {cs : List Char} (h : fromUtf8 s = .ok (c :: cs))
    {atStart replaced : Bool} (hc : ¬ (atStart = true ∧ replaced = true ∧ c = ' ')) (t : Bytes) :
    reading atStart replaced (s ++ t)
        = (if atStart then stripSpace (c :: cs) else c :: cs) ++ reading false true t ∧
      faulty atStart replaced (s ++ t) = faulty false true t := by
  constructor
  · rw [reading, reading, lossy_append_of_ok t h]
    cases atStart with
    | false => rfl
    | true =>
      cases replaced with
      | false => exact stripSpace_append (List.cons_ne_nil c cs) _
      | true =>
        show c :: cs ++ lossy t = stripSpace (c :: cs) ++ lossy t
        rw [stripSpace_of_ne _ fun hs => hc ⟨rfl, rfl, hs⟩]
  · rw [faulty, faulty, unspoilt_append_of_ok t h, spaceAhead_of_ok h, spaceAfterInvalid_of_ok h]
    cases atStart with
    | false => rfl
    | true =>
      cases replaced with
      | false => simp
      | true =>
        have hs : c ≠ ' ' := fun hs => hc ⟨rfl, rfl, hs⟩
        simp [hs]

/-- **The pieces are the reading of all the bytes, when no byte is faulty.** -/
theorem feedAll_eq {d : Reader} {replaced : Bool} {us : List Bytes} (hp : Held d.pending)
    (hus : ∀ u ∈ us, Pushable u)
    (hgood : faulty d.atStart replaced (d.pending ++ us.flatten) = false) :
    d.feedAll us = reading d.atStart replaced (d.pending ++ us.flatten) := by
  induction us generalizing d replaced with
  | nil =>
    rw [List.flatten_nil, List.append_nil, reading_held hp]
    rfl
  | cons u us ih =>
    have hus' : ∀ v ∈ us, Pushable v := fun v hv => hus v (List.mem_cons_of_mem u hv)
    rw [List.flatten_cons, ← List.append_assoc] at hgood ⊢
    have hfed := feed_fed hp (hus u List.mem_cons_self)
    rw [Reader.feedAll]
    generalize d.feed u = out at hfed
    cases hfed with
    | @text c cs h =>
      have hc : ¬ (d.atStart = true ∧ replaced = true ∧ c = ' ') := by
        rintro ⟨hstart, rfl, rfl⟩
        rw [faulty, hstart, spaceAhead_of_ok h] at hgood
        simp at hgood
      obtain ⟨hread, hfault⟩ := reading_text h hc us.flatten
      rw [hread, ih (d := { pending := [], atStart := false }) trivial hus' (hfault ▸ hgood)]
      rfl
    | hold h => exact ih (d := { d with pending := d.pending ++ u }) h hus' hgood
    | lone hnil hu h =>
      subst hu
      rw [hnil] at hgood ⊢
      simp only [List.nil_append, List.singleton_append] at hgood ⊢
      rw [faulty_lone h] at hgood
      rw [reading_lone h, ih (d := { d with pending := [] }) trivial hus' hgood]
      rfl
    | spoils hq hu h =>
      rw [hq] at hp
      rw [hq, List.cons_append, List.cons_append, faulty, unspoilt_spoiled hp (h _)] at hgood
      cases hgood

/-- **Where a byte is faulty, the pieces are not the reading of all the bytes so far.** -/
theorem exists_feedAll_ne {d : Reader} {replaced : Bool} {us : List Bytes} (hp : Held d.pending)
    (hus : ∀ u ∈ us, Pushable u)
    (hbad : faulty d.atStart replaced (d.pending ++ us.flatten) = true) :
    ∃ k, d.feedAll (us.take k)
      ≠ reading d.atStart replaced (d.pending ++ (us.take k).flatten) := by
  induction us generalizing d replaced with
  | nil =>
    rw [List.flatten_nil, List.append_nil, held_not_faulty hp] at hbad
    cases hbad
  | cons u us ih =>
    have hus' : ∀ v ∈ us, Pushable v := fun v hv => hus v (List.mem_cons_of_mem u hv)
    rw [List.flatten_cons, ← List.append_assoc] at hbad
    have hfed := feed_fed hp (hus u List.mem_cons_self)
    generalize hout : d.feed u = out at hfed
    cases hfed with
    | @text c cs h =>
      by_cases hc : d.atStart = true ∧ replaced = true ∧ c = ' '
      · -- the space is dropped although a replaced byte came out before it
        obtain ⟨hstart, rfl, rfl⟩ := hc
        refine ⟨1, ?_⟩
        rw [List.take_succ_cons, List.take_zero, List.flatten_singleton, Reader.feedAll, hout,
          hstart]
        show stripSpace (' ' :: cs) ++ lossy [] ≠ lossy (d.pending ++ u)
        rw [lossy_nil, List.append_nil, lossy_of_ok h]
        exact List.ne_cons_self
      · obtain ⟨hread, hfault⟩ := reading_text h hc us.flatten
        rw [hfault] at hbad
        obtain ⟨k, hk⟩ := ih (d := { pending := [], atStart := false }) trivial hus' hbad
        refine ⟨k + 1, ?_⟩
        rw [List.take_succ_cons, List.flatten_cons, ← List.append_assoc, Reader.feedAll, hout,
          (reading_text h hc _).1]
        exact fun heq => hk (List.append_cancel_left heq)
    | hold h =>
      obtain ⟨k, hk⟩ := ih (d := { d with pending := d.pending ++ u }) h hus' hbad
      refine ⟨k + 1, ?_⟩
      rw [List.take_succ_cons, List.flatten_cons, ← List.append_assoc, Reader.feedAll, hout]
      exact hk
    | lone hnil hu h =>
      subst hu
      rw [hnil] at hbad
      simp only [List.nil_append, List.singleton_append] at hbad
      rw [faulty_lone h] at hbad
      obtain ⟨k, hk⟩ := ih (d := { d with pending := [] }) trivial hus' hbad
      refine ⟨k + 1, ?_⟩
      rw [List.take_succ_cons, List.flatten_cons, Reader.feedAll, hout, hnil]
      simp only [List.nil_append, List.singleton_append]
      rw [reading_lone h]
      exact fun heq => hk (List.cons.inj heq).2
    | spoils hq hu h =>
      -- the pushed bytes are gone, and a whole reading makes something of them
      refine ⟨1, ?_⟩
      rw [List.take_succ_cons, List.take_zero, List.flatten_singleton, Reader.feedAll, hout]
      intro heq
      have hread : lossy (d.pending ++ u) = replacement :: lossy u := by
        have hh := h []
        rw [List.append_nil] at hh
        rw [hq, List.cons_append, lossy, hh]
        simp only
        rw [List.drop_left]
      have hne := lossy_ne_nil hu
      rw [reading, hread, stripSpace_of_ne _ (by decide), ite_self] at heq
      simp only [Reader.feedAll, lossy_nil, List.append_nil] at heq
      exact hne (List.cons.inj heq).2.symm

/-- **The pieces are the reading of all the bytes at every length, exactly when no byte is
faulty.** -/
theorem feedAll_take_iff {us : List Bytes} (hus : ∀ u ∈ us, Pushable u) (atStart : Bool) :
    (∀ k, Reader.feedAll ⟨[], atStart⟩ (us.take k) = reading atStart false (us.take k).flatten) ↔
      faulty atStart false us.flatten = false := by
  constructor
  · intro hall
    by_contra hbad
    rw [Bool.not_eq_false] at hbad
    obtain ⟨k, hne⟩ := exists_feedAll_ne (d := ⟨[], atStart⟩) trivial hus hbad
    exact hne (hall k)
  · intro hgood k
    have hsplit : us.flatten = (us.take k).flatten ++ (us.drop k).flatten := by
      rw [← List.flatten_append, List.take_append_drop]
    rw [hsplit] at hgood
    exact feedAll_eq (d := ⟨[], atStart⟩) trivial (fun u hu => hus u (List.mem_of_mem_take hu))
      (faulty_of_append hgood)

end Garuda
