import Garuda.Tokenizer.Bpe

/-!
# The BPE pre-tokenizer

`split` cuts a text into the pieces that merges may never cross: contractions, words, digits,
punctuation and runs of whitespace, tried in this order at every place.

The Unicode tables of the standard library that decide what is a letter and what is a digit are a
parameter, `CharTables`; nothing is assumed of them.

* `pieceLength_pos` — every step of the loop takes something
* `isWhitespace_of_none` — what the other alternatives leave is whitespace
-/

namespace Garuda

open Infra

namespace Bpe

/-! ## Character classes -/

/-- `char::is_alphabetic` and `char::is_numeric`. -/
structure CharTables where
  isAlphabetic : Char → Bool
  isNumeric : Char → Bool

/-- `char::is_whitespace`: the property `White_Space`. -/
def isWhitespace (c : Char) : Bool :=
  let v := c.toNat
  (0x09 ≤ v && v ≤ 0x0D) || v == 0x20 || v == 0x85 || v == 0xA0 || v == 0x1680 ||
    (0x2000 ≤ v && v ≤ 0x200A) || v == 0x2028 || v == 0x2029 || v == 0x202F || v == 0x205F ||
    v == 0x3000

/-- The blocks of combining marks that `is_alphabetic` does not report. -/
def markRanges : List (Nat × Nat) :=
  [(0x0300, 0x036F), (0x0483, 0x0489), (0x0591, 0x05C7), (0x0610, 0x061A), (0x064B, 0x065F),
    (0x0670, 0x0670), (0x06D6, 0x06DC), (0x0711, 0x0711), (0x0730, 0x074A), (0x07EB, 0x07F3),
    (0x0F71, 0x0F87), (0x135D, 0x135F), (0x1AB0, 0x1AFF), (0x1DC0, 0x1DFF), (0x20D0, 0x20F0),
    (0x2CEF, 0x2CF1), (0x302A, 0x302F), (0xFE00, 0xFE0F), (0xFE20, 0xFE2F)]

def isMark (c : Char) : Bool := markRanges.any fun r => r.1 ≤ c.toNat && c.toNat ≤ r.2

def isLineBreak (c : Char) : Bool := c == '\r' || c == '\n'

namespace CharTables

variable (u : CharTables)

def isLetterOrMark (c : Char) : Bool := u.isAlphabetic c || isMark c

/-- What a run of punctuation is made of. -/
def isSymbol (c : Char) : Bool := !(isWhitespace c || u.isLetterOrMark c || u.isNumeric c)

/-! ## The alternatives

Each looks at the text from the current place on and says how many characters it takes.
-/

end CharTables

/-- 1. English contractions, case-insensitive: 's 't 're 've 'm 'll 'd -/
def contraction : List Char → Option Nat
  | c :: one :: more =>
    if c = '\'' then
      let one := one.toLower
      let two := more.head?.map Char.toLower
      if one = 's' ∨ one = 't' ∨ one = 'm' ∨ one = 'd' then some 2
      else if one = 'r' ∧ two = some 'e' ∨ one = 'v' ∧ two = some 'e' ∨
          one = 'l' ∧ two = some 'l' then some 3
      else none
    else none
  | _ => none

/-- `for opt in [lead, false]`: with a leading character where there can be one, else without. -/
def withLead (lead : Bool) (attempt : Nat → Option Nat) : Option Nat :=
  [lead, false].findSome? fun opt => attempt opt.toNat

namespace CharTables

variable (u : CharTables)

/-- 2. A word, with one leading character that is no line break, letter or digit. -/
def word (rest : List Char) : Option Nat :=
  let lead := rest.head?.any fun c =>
    c != '\r' && c != '\n' && !u.isAlphabetic c && !u.isNumeric c
  withLead lead fun opt =>
    let run := ((rest.drop opt).takeWhile u.isLetterOrMark).length
    if 0 < run then some (opt + run) else none

/-- 3. One digit at a time. -/
def digit (rest : List Char) : Option Nat :=
  if rest.head?.any u.isNumeric then some 1 else none

/-- 4. Punctuation and symbols, with one leading space and trailing line breaks. -/
def punctuation (rest : List Char) : Option Nat :=
  let space := rest.head?.any (· == ' ')
  withLead space fun opt =>
    let run := ((rest.drop opt).takeWhile u.isSymbol).length
    if 0 < run then
      some (opt + run + ((rest.drop (opt + run)).takeWhile isLineBreak).length)
    else none

end CharTables

/-- 5. to 7. A run of whitespace: up to its last line break, else less the last character where
something follows, else all of it. -/
def whitespace (rest : List Char) : Nat :=
  let stop := (rest.takeWhile isWhitespace).length
  match (List.range stop).reverse.find? fun k => rest[k]?.any isLineBreak with
  | some last => last + 1
  | none =>
    let keep := if stop = rest.length then stop else stop - 1
    if 0 < keep then keep else stop

namespace CharTables

variable (u : CharTables)

/-- The alternatives in their order. -/
def pieceLength (rest : List Char) : Nat :=
  ((((contraction rest).or (u.word rest)).or (u.digit rest)).or (u.punctuation rest)).getD
    (whitespace rest)

/-! ## Every piece is of something -/

theorem withLead_pos {lead : Bool} {attempt : Nat → Option Nat}
    (h : ∀ opt n, attempt opt = some n → 0 < n) {n : Nat} (hn : withLead lead attempt = some n) :
    0 < n := by
  obtain ⟨opt, _, hopt⟩ := List.exists_of_findSome?_eq_some hn
  exact h _ n hopt

theorem withLead_none {lead : Bool} {attempt : Nat → Option Nat}
    (h : withLead lead attempt = none) : attempt 0 = none :=
  List.findSome?_eq_none_iff.mp h false (by simp)

theorem contraction_pos {rest : List Char} {n : Nat} (h : contraction rest = some n) : 0 < n := by
  unfold contraction at h
  grind

theorem word_pos {rest : List Char} {n : Nat} (h : u.word rest = some n) : 0 < n := by
  unfold word at h
  refine withLead_pos ?_ h
  intro opt n hn
  simp only at hn
  split at hn
  · cases hn; omega
  · cases hn

theorem digit_pos {rest : List Char} {n : Nat} (h : u.digit rest = some n) : 0 < n := by
  rw [digit] at h
  split at h
  · cases h; omega
  · cases h

theorem punctuation_pos {rest : List Char} {n : Nat} (h : u.punctuation rest = some n) :
    0 < n := by
  unfold punctuation at h
  refine withLead_pos ?_ h
  intro opt n hn
  simp only at hn
  split at hn
  · cases hn; omega
  · cases hn

theorem takeWhile_none {p : Char → Bool} {c : Char} {rest : List Char}
    (h : ¬ 0 < ((c :: rest).takeWhile p).length) : p c = false := by
  by_contra hc
  rw [Bool.not_eq_false] at hc
  exact h (by simp [hc])

/-- What no alternative before takes starts with whitespace. -/
theorem isWhitespace_of_none {c : Char} {rest : List Char} (hword : u.word (c :: rest) = none)
    (hdigit : u.digit (c :: rest) = none) (hpunct : u.punctuation (c :: rest) = none) :
    isWhitespace c = true := by
  have hletter : u.isLetterOrMark c = false := by
    unfold word at hword
    have h := withLead_none hword
    simp only [List.drop_zero] at h
    split at h
    · cases h
    · next hrun => exact takeWhile_none hrun
  have hnumeric : u.isNumeric c = false := by
    rw [digit] at hdigit
    split at hdigit
    · cases hdigit
    · next hnot => simpa using hnot
  have hsymbol : u.isSymbol c = false := by
    unfold punctuation at hpunct
    have h := withLead_none hpunct
    simp only [List.drop_zero] at h
    split at h
    · cases h
    · next hrun => exact takeWhile_none hrun
  rw [isSymbol, hletter, hnumeric] at hsymbol
  simpa using hsymbol

theorem whitespace_pos {c : Char} (rest : List Char) (hc : isWhitespace c = true) :
    0 < whitespace (c :: rest) := by
  have hstop : 0 < ((c :: rest).takeWhile isWhitespace).length := by simp [hc]
  have hkeep : ∀ keep stop : Nat, 0 < stop → 0 < if 0 < keep then keep else stop := by
    intro keep stop h
    split
    · assumption
    · exact h
  unfold whitespace
  simp only
  split
  · exact Nat.succ_pos _
  · exact hkeep _ _ hstop

/-- **Every step takes something.** -/
theorem pieceLength_pos {rest : List Char} (h : rest ≠ []) : 0 < u.pieceLength rest := by
  obtain ⟨c, rest, rfl⟩ := List.exists_cons_of_ne_nil h
  rw [pieceLength]
  cases hcontraction : contraction (c :: rest) with
  | some n => exact contraction_pos hcontraction
  | none =>
    cases hword : u.word (c :: rest) with
    | some n => exact u.word_pos hword
    | none =>
      cases hdigit : u.digit (c :: rest) with
      | some n => exact u.digit_pos hdigit
      | none =>
        cases hpunct : u.punctuation (c :: rest) with
        | some n => exact u.punctuation_pos hpunct
        | none => exact whitespace_pos rest (u.isWhitespace_of_none hword hdigit hpunct)

/-! ## The loop -/

end CharTables

/-- `byte(i)`: where the character at place `i` starts. -/
def byteAt (text : List Char) (i : Nat) : Nat := (utf8 (text.take i)).length

/-- The loop of `split`, from place `i` on. -/
def splitFrom (u : CharTables) (text : List Char) (i : Nat) : List (Nat × Nat) :=
  if _ : i < text.length then
    let stop := i + u.pieceLength (text.drop i)
    (byteAt text i, byteAt text stop) :: splitFrom u text stop
  else []
termination_by text.length - i
decreasing_by
  have hne : text.drop i ≠ [] := by
    rw [ne_eq, List.drop_eq_nil_iff]
    omega
  have hpos := u.pieceLength_pos hne
  omega

/-- The Qwen pre-tokenizer: `text` split into the pieces BPE may merge within. -/
def split (u : CharTables) (text : String) : List (Nat × Nat) := splitFrom u text.toList 0

end Bpe

end Garuda
