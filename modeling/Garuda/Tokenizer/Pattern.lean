import Garuda.Infra.Regex
import Garuda.Tokenizer.Split

/-!
# The pattern of the BPE pre-tokenizer

The pre-tokenizer is a regular expression run by hand. Here is the expression, and that the two
cut every text at the same places.

* `contraction_eq`, `word_eq`, `punctuation_eq`, `whitespace_eq` — one alternative each
* `firstMatch_pattern` — one step of the loop is one match
* `split_eq_findAll` — the pieces are the successive matches, and cover the text
-/

namespace Garuda

open Infra

namespace Bpe

open Regex

/-! ## The pattern -/

/-- `[..]`, or a character that stands for itself. -/
def oneOf (chars : List Char) : Regex Char := .sym chars.contains

/-- `(?:'[sS]|'[tT]|'[rR][eE]|'[vV][eE]|'[mM]|'[lL][lL]|'[dD])` -/
def contractions : Regex Char :=
  .alt (.seq (oneOf ['\'']) (oneOf ['s', 'S'])) <|
  .alt (.seq (oneOf ['\'']) (oneOf ['t', 'T'])) <|
  .alt (.seq (oneOf ['\'']) (.seq (oneOf ['r', 'R']) (oneOf ['e', 'E']))) <|
  .alt (.seq (oneOf ['\'']) (.seq (oneOf ['v', 'V']) (oneOf ['e', 'E']))) <|
  .alt (.seq (oneOf ['\'']) (oneOf ['m', 'M'])) <|
  .alt (.seq (oneOf ['\'']) (.seq (oneOf ['l', 'L']) (oneOf ['l', 'L']))) <|
  .seq (oneOf ['\'']) (oneOf ['d', 'D'])

/-- `[\r\n]` -/
def lineBreak : Regex Char := oneOf ['\r', '\n']

/-- `\s` -/
def space : Regex Char := .sym isWhitespace

/-- `\S` -/
def nonSpace : Regex Char := .sym fun c => !isWhitespace c

section

variable (u : CharTables)

/-- `[^\r\n\p{L}\p{N}]?[\p{L}\p{M}]+` -/
def wordPattern : Regex Char :=
  .seq (opt (.sym fun c => !(['\r', '\n'].contains c || u.isAlphabetic c || u.isNumeric c)))
    (plus (.sym fun c => u.isAlphabetic c || isMark c))

/-- `\p{N}` -/
def digitPattern : Regex Char := .sym u.isNumeric

/-- ` ?[^\s\p{L}\p{M}\p{N}]+[\r\n]*` -/
def punctuationPattern : Regex Char :=
  .seq (opt (oneOf [' '])) <|
  .seq (plus (.sym fun c => !(isWhitespace c || u.isAlphabetic c || isMark c || u.isNumeric c)))
    (.star lineBreak)

/-- `\s*[\r\n]+|\s+(?!\S)|\s+` -/
def whitespacePattern : Regex Char :=
  .alt (.seq (.star space) (plus lineBreak)) <|
  .alt (.seq (plus space) (.notAhead nonSpace)) <|
  plus space

/-- The pattern of the Qwen family. -/
def pattern : Regex Char :=
  .alt contractions <| .alt (wordPattern u) <| .alt (digitPattern u) <|
  .alt (punctuationPattern u) whitespacePattern

end

/-! ## Contractions -/

theorem firstMatch_oneOf_seq (chars : List Char) (r : Regex Char) (c : Char) (rest : List Char) :
    (seq (oneOf chars) r).firstMatch (c :: rest)
      = if c ∈ chars then (r.firstMatch rest).map (1 + ·) else none := by
  rw [firstMatch_seq, oneOf, run_sym]
  by_cases h : c ∈ chars
  · simp [h]
  · simp [h]

theorem firstMatch_oneOf (chars : List Char) (rest : List Char) :
    (oneOf chars).firstMatch rest = if rest.head?.any chars.contains then some 1 else none :=
  firstMatch_sym _ _

theorem firstMatch_seq_nil (chars : List Char) (r : Regex Char) :
    (seq (oneOf chars) r).firstMatch [] = none := by
  rw [firstMatch_seq, oneOf, run_sym]
  rfl

theorem toNat_toLower (c : Char) :
    c.toLower.toNat = if 65 ≤ c.toNat ∧ c.toNat ≤ 90 then c.toNat + 32 else c.toNat := by
  have hrange : ('A'.val ≤ c.val ∧ c.val ≤ 'Z'.val) ↔ 65 ≤ c.toNat ∧ c.toNat ≤ 90 := by
    rw [UInt32.le_iff_toNat_le, UInt32.le_iff_toNat_le]
    rfl
  unfold Char.toLower
  by_cases h : 65 ≤ c.toNat ∧ c.toNat ≤ 90
  · rw [if_pos h, dif_pos (hrange.mpr h)]
    show (c.val + ('a'.val - 'A'.val)).toNat = _
    rw [UInt32.toNat_add]
    have hv : c.val.toNat = c.toNat := rfl
    have h32 : ('a'.val - 'A'.val).toNat = 32 := rfl
    omega
  · rw [if_neg h, dif_neg (fun h' => h (hrange.mp h'))]

theorem toLower_eq_iff (c lower upper : Char) (hlower : 97 ≤ lower.toNat ∧ lower.toNat ≤ 122)
    (hupper : upper.toNat + 32 = lower.toNat) :
    c.toLower = lower ↔ c = lower ∨ c = upper := by
  rw [← Char.toNat_inj, ← Char.toNat_inj, ← Char.toNat_inj, toNat_toLower]
  split <;> omega

theorem head_toLower_iff (rest : List Char) (lower upper : Char)
    (hlower : 97 ≤ lower.toNat ∧ lower.toNat ≤ 122) (hupper : upper.toNat + 32 = lower.toNat) :
    rest.head?.map Char.toLower = some lower ↔ rest.head?.any [lower, upper].contains = true := by
  cases rest with
  | nil => simp
  | cons c rest => simp [toLower_eq_iff c lower upper hlower hupper]

theorem contraction_eq (rest : List Char) : contraction rest = contractions.firstMatch rest := by
  match rest with
  | [] => simp [contraction, contractions, firstMatch_alt, firstMatch_seq_nil]
  | [c] =>
    simp [contraction, contractions, firstMatch_alt, firstMatch_oneOf_seq, firstMatch_oneOf,
      firstMatch_seq_nil]
  | c :: one :: more =>
    have hs := toLower_eq_iff one 's' 'S' (by decide) rfl
    have ht := toLower_eq_iff one 't' 'T' (by decide) rfl
    have hm := toLower_eq_iff one 'm' 'M' (by decide) rfl
    have hd := toLower_eq_iff one 'd' 'D' (by decide) rfl
    have hr := toLower_eq_iff one 'r' 'R' (by decide) rfl
    have hv := toLower_eq_iff one 'v' 'V' (by decide) rfl
    have hl := toLower_eq_iff one 'l' 'L' (by decide) rfl
    have he := head_toLower_iff more 'e' 'E' (by decide) rfl
    have hll := head_toLower_iff more 'l' 'L' (by decide) rfl
    simp only [contraction, contractions, firstMatch_alt, firstMatch_oneOf_seq, firstMatch_oneOf,
      hs, ht, hm, hd, hr, hv, hl, he, hll, List.head?_cons, Option.any_some, List.mem_cons,
      List.not_mem_nil, or_false, List.contains_eq_mem, decide_eq_true_eq]
    by_cases hc : c = '\''
    · simp only [hc, if_true]
      grind
    · simp only [hc, if_false, Option.or_none]

/-! ## Words, digits and punctuation -/

theorem lineBreak_eq : lineBreak = .sym isLineBreak := by
  rw [lineBreak, oneOf]
  congr 1
  funext c
  simp only [List.contains_cons, List.contains_nil, Bool.or_false, isLineBreak]

/-- The leading character is tried first, as an engine tries `?`. -/
theorem withLead_eq (p : Char → Bool) (attempt : Nat → Option Nat) (rest : List Char) :
    withLead (rest.head?.any p) attempt = ((opt (.sym p)).run rest).findSome? attempt := by
  rw [run_opt_sym, withLead]
  cases rest.head?.any p with
  | true => rfl
  | false => cases h : attempt 0 <;> simp [h]

section

variable (u : CharTables)

theorem word_eq (rest : List Char) : u.word rest = (wordPattern u).firstMatch rest := by
  have hlead : (fun c => c != '\r' && c != '\n' && !u.isAlphabetic c && !u.isNumeric c)
      = fun c => !(['\r', '\n'].contains c || u.isAlphabetic c || u.isNumeric c) := by
    funext c
    simp only [List.contains_cons, List.contains_nil, Bool.or_false, Bool.not_or, bne]
  unfold CharTables.word
  rw [hlead, withLead_eq, wordPattern, firstMatch_seq]
  congr 1
  funext opt
  rw [firstMatch_plus_sym]
  show (if 0 < runLength u.isLetterOrMark (rest.drop opt) then _ else _) = _
  unfold CharTables.isLetterOrMark
  split <;> rfl

theorem digit_eq (rest : List Char) : u.digit rest = (digitPattern u).firstMatch rest :=
  (firstMatch_sym u.isNumeric rest).symm

/-- A run of one class, and all there is of another behind it. -/
theorem firstMatch_plus_star (p q : Char → Bool) (l : List Char) :
    (seq (plus (.sym p)) (.star (.sym q))).firstMatch l
      = if 0 < runLength p l then some (runLength p l + runLength q (l.drop (runLength p l)))
        else none := by
  rw [firstMatch_seq, run_plus_sym]
  simp only [firstMatch_star_sym, Option.map_some]
  cases runLength p l with
  | zero => rfl
  | succ n =>
    rw [reverse_range_succ]
    rfl

theorem punctuation_eq (rest : List Char) :
    u.punctuation rest = (punctuationPattern u).firstMatch rest := by
  have hspace : (fun c : Char => c == ' ') = [' '].contains := by
    funext c
    simp only [List.contains_cons, List.contains_nil, Bool.or_false]
  have hsymbol : (fun c => !(isWhitespace c || u.isAlphabetic c || isMark c || u.isNumeric c))
      = u.isSymbol := by
    funext c
    rw [CharTables.isSymbol, CharTables.isLetterOrMark, Bool.or_assoc (isWhitespace c)]
  unfold CharTables.punctuation
  rw [hspace, withLead_eq, punctuationPattern, oneOf, firstMatch_seq, hsymbol, lineBreak_eq]
  congr 1
  funext opt
  rw [firstMatch_plus_star]
  unfold runLength
  simp only [List.drop_drop]
  split
  · rw [Option.map_some, Nat.add_assoc]
  · rfl

end

/-! ## Whitespace -/

theorem isWhitespace_of_isLineBreak {c : Char} (h : isLineBreak c = true) :
    isWhitespace c = true := by
  rw [isLineBreak, Bool.or_eq_true, beq_iff_eq, beq_iff_eq] at h
  rcases h with rfl | rfl <;> decide

/-- Giving back from place `m` on stops at the last line break before it. -/
theorem findSome?_lastBreak (l : List Char) : ∀ m, l[m]?.any isLineBreak = false →
    ((List.range m).reverse.findSome? fun k =>
        ((plus (.sym isLineBreak)).firstMatch (l.drop k)).map (k + ·))
      = ((List.range m).reverse.find? fun k => l[k]?.any isLineBreak).map (· + 1)
  | 0, _ => rfl
  | m + 1, hnext => by
    have hpos := runLength_pos_iff isLineBreak (l.drop m)
    rw [List.head?_drop] at hpos
    rw [reverse_range_succ, List.findSome?_cons, List.find?_cons, firstMatch_plus_sym]
    by_cases hbreak : l[m]?.any isLineBreak = true
    · -- the last line break, so the run is of one
      have hone : runLength isLineBreak (l.drop m) = 1 := by
        by_contra hne
        have hsecond : 1 < runLength isLineBreak (l.drop m) := by
          have := hpos.mpr hbreak
          omega
        have hany := any_of_lt_runLength hsecond
        rw [List.getElem?_drop] at hany
        rw [hnext] at hany
        exact Bool.false_ne_true hany
      rw [hbreak, hone]
      rfl
    · rw [if_neg (fun h => hbreak (hpos.mp h)), Option.map_none,
        findSome?_lastBreak l m (by simpa using hbreak)]
      simp only [hbreak]

/-- 5: a run that holds a line break ends after the last one. -/
theorem firstMatch_breaks (l : List Char) :
    (seq (.star space) (plus lineBreak)).firstMatch l
      = ((List.range (runLength isWhitespace l)).reverse.find? fun k =>
          l[k]?.any isLineBreak).map (· + 1) := by
  have hstop : l[runLength isWhitespace l]?.any isLineBreak = false := by
    have h := any_runLength isWhitespace l
    cases hc : l[runLength isWhitespace l]? with
    | none => rfl
    | some c =>
      rw [hc] at h
      by_contra hbreak
      rw [Option.any_some, Bool.not_eq_false] at hbreak
      rw [Option.any_some, isWhitespace_of_isLineBreak hbreak] at h
      cases h
  have hnone : ¬ 0 < runLength isLineBreak (l.drop (runLength isWhitespace l)) := by
    rw [runLength_pos_iff, List.head?_drop, hstop]
    exact Bool.false_ne_true
  rw [firstMatch_seq, space, run_star_sym, lineBreak_eq, reverse_range_succ, List.findSome?_cons,
    firstMatch_plus_sym, if_neg hnone, Option.map_none]
  exact findSome?_lastBreak l _ hstop

theorem firstMatch_notAhead_nonSpace (l : List Char) (k : Nat) :
    (notAhead nonSpace).firstMatch (l.drop k)
      = if l[k]?.all isWhitespace then some 0 else none := by
  rw [firstMatch_notAhead, nonSpace, firstMatch_sym, List.head?_drop]
  cases l[k]? with
  | none => rfl
  | some c => cases h : isWhitespace c <;> simp [h]

/-- 6: whitespace that no other character follows. -/
theorem firstMatch_trailing (l : List Char) :
    (seq (plus space) (.notAhead nonSpace)).firstMatch l
      = let stop := runLength isWhitespace l
        let keep := if stop = l.length then stop else stop - 1
        if 0 < keep then some keep else none := by
  have hstop := any_runLength isWhitespace l
  have hinside := fun k => any_of_lt_runLength (p := isWhitespace) (l := l) (k := k)
  have hle : runLength isWhitespace l ≤ l.length := (List.takeWhile_sublist _).length_le
  rw [firstMatch_seq, space, run_plus_sym]
  simp only [firstMatch_notAhead_nonSpace]
  generalize runLength isWhitespace l = stop at hstop hinside hle
  cases stop with
  | zero => simp
  | succ n =>
    rw [reverse_range_succ, List.map_cons, List.findSome?_cons]
    by_cases hend : n + 1 = l.length
    · have hnone : l[n + 1]? = none := List.getElem?_eq_none hend.ge
      rw [hnone, if_pos hend]
      rfl
    · -- something else follows, and what is before it is whitespace
      obtain ⟨c, hc⟩ : ∃ c, l[n + 1]? = some c := ⟨_, List.getElem?_eq_getElem (by omega)⟩
      rw [hc, Option.any_some] at hstop
      rw [hc, Option.all_some, hstop, if_neg hend]
      cases n with
      | zero => rfl
      | succ n =>
        obtain ⟨d, hd⟩ : ∃ d, l[n + 1]? = some d := ⟨_, List.getElem?_eq_getElem (by omega)⟩
        have hspace := hinside (n + 1) (by omega)
        rw [hd, Option.any_some] at hspace
        rw [reverse_range_succ, List.map_cons, List.findSome?_cons, hd, Option.all_some, hspace]
        rfl

/-- 5. to 7. together, where the text goes on with whitespace. -/
theorem whitespace_eq {rest : List Char} (h : rest.head?.any isWhitespace = true) :
    whitespacePattern.firstMatch rest = some (whitespace rest) := by
  have hpos := (runLength_pos_iff isWhitespace rest).mpr h
  rw [whitespacePattern, firstMatch_alt, firstMatch_alt, firstMatch_breaks, firstMatch_trailing,
    space, firstMatch_plus_sym, if_pos hpos]
  have hrun : (rest.takeWhile isWhitespace).length = runLength isWhitespace rest := rfl
  unfold whitespace
  simp only [hrun]
  cases (List.range (runLength isWhitespace rest)).reverse.find? fun k =>
      rest[k]?.any isLineBreak with
  | some last => rfl
  | none =>
    rw [Option.map_none, Option.none_or]
    generalize (if runLength isWhitespace rest = rest.length then runLength isWhitespace rest
      else runLength isWhitespace rest - 1) = keep
    by_cases hkeep : 0 < keep
    · rw [if_pos hkeep, if_pos hkeep, Option.some_or]
    · rw [if_neg hkeep, if_neg hkeep, Option.none_or]

/-! ## The whole pattern -/

variable (u : CharTables)

/-- **One step of the loop is one match.** -/
theorem firstMatch_pattern {rest : List Char} (h : rest ≠ []) :
    (pattern u).firstMatch rest = some (u.pieceLength rest) := by
  obtain ⟨c, rest, rfl⟩ := List.exists_cons_of_ne_nil h
  rw [pattern, firstMatch_alt, firstMatch_alt, firstMatch_alt, firstMatch_alt, ← contraction_eq,
    ← word_eq, ← digit_eq, ← punctuation_eq, CharTables.pieceLength]
  cases contraction (c :: rest) with
  | some n => rfl
  | none =>
    cases hword : u.word (c :: rest) with
    | some n => rfl
    | none =>
      cases hdigit : u.digit (c :: rest) with
      | some n => rfl
      | none =>
        cases hpunct : u.punctuation (c :: rest) with
        | some n => rfl
        | none => exact whitespace_eq (u.isWhitespace_of_none hword hdigit hpunct)

theorem firstMatch_pattern_nil : (pattern u).firstMatch [] = none := by
  rw [pattern, firstMatch_alt, firstMatch_alt, firstMatch_alt, firstMatch_alt, ← contraction_eq,
    ← word_eq, ← digit_eq, ← punctuation_eq]
  rfl

/-! ## The pieces -/

/-- Ranges one behind the other from `start` to `stop`, none of them empty. -/
def Tile : Nat → List (Nat × Nat) → Nat → Prop
  | start, [], stop => start = stop
  | start, r :: ranges, stop => r.1 = start ∧ r.1 < r.2 ∧ Tile r.2 ranges stop

theorem byteAt_lt {text : List Char} {i j : Nat} (hij : i < j) (hj : j ≤ text.length) :
    byteAt text i < byteAt text j := by
  have hsplit : text.take j = text.take i ++ (text.take j).drop i := by
    rw [← List.take_append_drop i (text.take j), List.take_take, Nat.min_eq_left hij.le,
      List.drop_append_of_le_length (by simp; omega)]
    simp
  have hne : (text.take j).drop i ≠ [] := by
    rw [ne_eq, List.drop_eq_nil_iff, List.length_take]
    omega
  obtain ⟨c, rest, hc⟩ := List.exists_cons_of_ne_nil hne
  have hpos : 0 < (String.utf8EncodeChar c).length := by
    rw [String.length_utf8EncodeChar]
    exact c.utf8Size_pos
  rw [byteAt, byteAt, hsplit, hc, utf8_append, utf8_cons, List.length_append, List.length_append]
  omega

/-- `text.len()` -/
theorem utf8ByteSize_eq (text : String) : text.utf8ByteSize = (utf8 text.toList).length := by
  have hbytes := String.toByteArray_ofList (l := text.toList)
  rw [String.ofList_toList] at hbytes
  rw [← String.size_toByteArray, hbytes, List.utf8Encode]
  simp [utf8]

theorem splitFrom_eq_findAll (text : List Char) (i : Nat) :
    splitFrom u text i
      = ((pattern u).findAll i (text.drop i)).map fun m => (byteAt text m.1, byteAt text m.2) := by
  fun_induction splitFrom u text i with
  | case1 i hi stop ih =>
    have hne : text.drop i ≠ [] := by
      rw [ne_eq, List.drop_eq_nil_iff]
      omega
    rw [findAll_cons (firstMatch_pattern u hne) (u.pieceLength_pos hne), ih, List.map_cons,
      List.drop_drop]
  | case2 i hi =>
    rw [List.drop_eq_nil_iff.mpr (by omega), findAll_nil (firstMatch_pattern_nil u)]
    rfl

theorem tile_splitFrom (text : List Char) (i : Nat) (hle : i ≤ text.length) :
    Tile (byteAt text i) (splitFrom u text i) (utf8 text).length := by
  fun_induction splitFrom u text i with
  | case1 i hi stop ih =>
    have hne : text.drop i ≠ [] := by
      rw [ne_eq, List.drop_eq_nil_iff]
      omega
    have hpos := u.pieceLength_pos hne
    have hstop := firstMatch_le (firstMatch_pattern u hne)
    rw [List.length_drop] at hstop
    exact ⟨rfl, byteAt_lt (by omega) (by omega), ih (by omega)⟩
  | case2 i hi =>
    have hi : i = text.length := by omega
    rw [Tile, hi, byteAt, List.take_length]

/-- **The pre-tokenizer is the pattern**: the ranges are the successive leftmost matches, and they
lie one behind the other from the start of the text to its end. -/
theorem split_eq_findAll (text : String) :
    split u text = ((pattern u).findAll 0 text.toList).map
        (fun m => (byteAt text.toList m.1, byteAt text.toList m.2)) ∧
      Tile 0 (split u text) text.utf8ByteSize := by
  rw [utf8ByteSize_eq]
  exact ⟨splitFrom_eq_findAll u text.toList 0, tile_splitFrom u text.toList 0 (Nat.zero_le _)⟩

end Bpe

end Garuda
