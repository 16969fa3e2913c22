import Garuda.Infra.NaiveMerge
import Garuda.Infra.Utf8Prefix
import Garuda.Tokenizer.SpmControl

/-!
# What SentencePiece reads back

Encoding a text and decoding the tokens.

* `Indexed` — what the lookup and the byte table find, by the entries alone
* `isPlain` — a piece whose tokens stand for the piece, and for no byte and no control token
* `ReadsBack` — the texts of plain pieces, without the mark that stands for a space
* `Regular` — the vocabularies in which every byte and the mark have a token of their own

`decode_encode_iff` says which texts come back, and `special_texts_lost` shows some that do not.
-/

namespace Garuda

open Infra Infra.Merging

namespace SpmTokenizer

open Spm

variable {t : SpmTokenizer}

/-! ## The loaded tables -/

/-- The lookup finds a piece where it stands, and a byte token is spelled as one. -/
structure Sound (tables : Tables) : Prop where
  lookup : tables.tokens.length ≤ 2 ^ 32 → ∀ (w : String) (id : Token),
    tables.lookup[w]? = some id → ∃ e, tables.tokens[id.toNat]? = some e ∧ e.text = w
  bytes : ∀ e ∈ tables.tokens, ∀ b, e.byteValue = some b → parseByteToken e.text = some b

theorem sound_add (scores types : Option (List Value)) {tables : Tables} (s : String)
    (h : Sound tables) : Sound (tables.add scores types s) := by
  constructor
  · intro hlen w id hw
    have hlt : tables.tokens.length + 1 ≤ 2 ^ 32 := by simpa [Tables.add] using hlen
    simp only [Tables.add] at hw ⊢
    rw [Std.ExtTreeMap.getElem?_insertIfNew] at hw
    split at hw
    next hnew =>
      obtain rfl := Option.some.inj hw
      have hid : (UInt32.ofNat tables.tokens.length).toNat = tables.tokens.length := by
        rw [UInt32.toNat_ofNat', Nat.mod_eq_of_lt (by omega)]
      rw [hid]
      refine ⟨_, List.getElem?_concat_length, ?_⟩
      exact Std.LawfulEqCmp.eq_of_compare hnew.1
    next =>
      obtain ⟨e, he, hew⟩ := h.lookup (Nat.le_of_succ_le hlt) w id hw
      refine ⟨e, ?_, hew⟩
      rw [List.getElem?_append_left (List.getElem?_eq_some_iff.mp he).1]
      exact he
  · intro e he b hb
    rcases List.mem_append.mp he with he | he
    · exact h.bytes e he b hb
    · obtain rfl := List.mem_singleton.mp he
      simp only at hb ⊢
      split at hb
      · exact hb
      · cases hb

theorem fromGguf_sound {g : Gguf} (h : fromGguf g = .ok t) :
    Sound { tokens := t.vocab.tokens, lookup := t.lookup, byteToken := t.byteToken } :=
  fromGguf_invariant
    ⟨fun _ w id hid => by simp [Tables.empty] at hid, fun _ he => absurd he List.not_mem_nil⟩
    (fun scores types _ s hold => sound_add scores types s hold) h

/-- The entry of token `i`, whose text is `s`. -/
def entryOf (scores types : Option (List Value)) (i : Nat) (s : String) : Entry :=
  let ttype := ((types.bind (·[i]?)).bind Value.asU64).getD 1
  { text := s
    score := ((scores.bind (·[i]?)).bind Value.asF32).getD ⟨0⟩
    byteValue := if ttype = typeByte then parseByteToken s else none
    isControl := ttype = typeControl }

theorem tokens_add (scores types : Option (List Value)) (tables : Tables) (s : String) :
    (tables.add scores types s).tokens
      = tables.tokens ++ [entryOf scores types tables.tokens.length s] := rfl

/-- The tokens of a vocabulary whose entries are all strings. -/
theorem load_strings (scores types : Option (List Value)) (texts : List String) :
    ∀ tables : Tables, ∃ out, Tables.load scores types tables (texts.map .string) = .ok out ∧
      out.tokens = tables.tokens
        ++ texts.mapIdx fun i s => entryOf scores types (i + tables.tokens.length) s := by
  induction texts with
  | nil => exact fun tables => ⟨tables, rfl, (List.append_nil _).symm⟩
  | cons s texts ih =>
    intro tables
    obtain ⟨out, hload, htokens⟩ := ih (tables.add scores types s)
    refine ⟨out, hload, ?_⟩
    rw [htokens, tokens_add, List.mapIdx_cons, List.append_assoc, List.singleton_append,
      List.length_append, List.length_singleton, Nat.zero_add]
    simp only [Nat.add_right_comm, Nat.add_assoc]

/-- The lookup is by the first token of a text, and the byte table has the token that alone stands
for a byte. -/
structure Indexed (tables : Tables) : Prop where
  lookup : ∀ w : String, tables.lookup[w]?
    = (tables.tokens.findIdx? fun e => e.text == w).map UInt32.ofNat
  bytes : ∀ (b : UInt8) (i : Nat),
    (∀ j, tables.tokens[j]?.bind Entry.byteValue = some b ↔ j = i) →
      tables.byteToken b = UInt32.ofNat i

theorem lookup_add (scores types : Option (List Value)) (tables : Tables) (s w : String) :
    (tables.add scores types s).lookup[w]? = tables.lookup[w]?.or
      (if s = w then some (UInt32.ofNat tables.tokens.length) else none) := by
  simp only [Tables.add]
  rw [Std.ExtTreeMap.getElem?_insertIfNew]
  cases hw : tables.lookup[w]? with
  | some id =>
    rw [if_neg, Option.some_or]
    rintro ⟨heq, hnew⟩
    rw [Std.LawfulEqCmp.eq_of_compare heq, ← Std.ExtTreeMap.isSome_getElem?_iff_mem, hw] at hnew
    exact hnew rfl
  | none =>
    rw [Option.none_or]
    by_cases hsw : s = w
    · subst hsw
      have hnew : s ∉ tables.lookup := by
        rw [← Std.ExtTreeMap.isSome_getElem?_iff_mem, hw]
        exact Bool.false_ne_true
      rw [if_pos ⟨Std.ReflCmp.compare_self, hnew⟩, if_pos rfl]
    · rw [if_neg fun hnew => hsw (Std.LawfulEqCmp.eq_of_compare hnew.1), if_neg hsw]

theorem byteToken_add (scores types : Option (List Value)) (tables : Tables) (s : String)
    (b : UInt8) : (tables.add scores types s).byteToken b
      = if (entryOf scores types tables.tokens.length s).byteValue = some b then
          UInt32.ofNat tables.tokens.length
        else tables.byteToken b := by
  have hvalue : (entryOf scores types tables.tokens.length s).byteValue
      = if ((types.bind (·[tables.tokens.length]?)).bind Value.asU64).getD 1 = typeByte then
          parseByteToken s
        else none := rfl
  rw [Tables.add, ← hvalue]
  cases (entryOf scores types tables.tokens.length s).byteValue with
  | none => rfl
  | some b' =>
    dsimp only
    rw [Function.update_apply]
    simp only [Option.some.injEq, eq_comm]

theorem indexed_add (scores types : Option (List Value)) {tables : Tables} (s : String)
    (h : Indexed tables) : Indexed (tables.add scores types s) := by
  constructor
  · intro w
    rw [lookup_add, tokens_add, List.findIdx?_append, Option.map_or, ← h.lookup]
    by_cases hsw : s = w
    · simp [entryOf, hsw]
    · simp [entryOf, hsw]
  · intro b i honly
    have hlast : (tables.add scores types s).tokens[tables.tokens.length]?
        = some (entryOf scores types tables.tokens.length s) := List.getElem?_concat_length
    have hwhich := honly tables.tokens.length
    rw [hlast, Option.bind_some] at hwhich
    rw [byteToken_add]
    split
    · next hbyte => rw [hwhich.mp hbyte]
    · next hbyte =>
      -- the new entry is not the one of the byte, so that one is among the others
      refine h.bytes b i fun j => ?_
      rw [← honly j]
      rcases Nat.lt_or_ge j tables.tokens.length with hlt | hge
      · rw [tokens_add, List.getElem?_append_left hlt]
      · rw [List.getElem?_eq_none hge, Option.bind_none]
        refine iff_of_false nofun fun hj => ?_
        rcases Nat.eq_or_lt_of_le hge with rfl | hgt
        · rw [hlast] at hj
          exact hbyte hj
        · rw [List.getElem?_eq_none (by simpa [tokens_add] using hgt)] at hj
          cases hj

theorem fromGguf_indexed {g : Gguf} (h : fromGguf g = .ok t) :
    Indexed { tokens := t.vocab.tokens, lookup := t.lookup, byteToken := t.byteToken } :=
  fromGguf_invariant
    ⟨fun w => by simp [Tables.empty],
      fun b i honly => by simpa [Tables.empty] using (honly i).mpr rfl⟩
    (fun scores types _ s hold => indexed_add scores types s hold) h

/-! ## Plain pieces -/

/-- The token is an ordinary one, of the text `v`. -/
def isOrdinary (t : SpmTokenizer) (id : Token) (v : List Char) : Bool :=
  t.vocab.tokens[id.toNat]?.any (fun e =>
    e.text == String.ofList v && !e.isControl && e.byteValue.isNone) &&
    id != t.vocab.bos && id != t.vocab.eos

/-- The token that encoding gives the byte stands for it. -/
def isFaithful (t : SpmTokenizer) (b : UInt8) : Bool :=
  t.vocab.tokenBytes (t.byteToToken b) == [b]

def isPlain (t : SpmTokenizer) (v : List Char) : Bool :=
  match t.lookup[String.ofList v]? with
  | some id => t.isOrdinary id v
  | none => !v.contains spaceMark && (utf8 v).all t.isFaithful

/-- The bytes that a piece's tokens stand for. -/
def pieceBytes (t : SpmTokenizer) (v : List Char) : Bytes :=
  (t.pieceTokens v).flatMap t.vocab.tokenBytes

theorem tokenBytes_ordinary {id : Token} {v : List Char} (h : t.isOrdinary id v = true) :
    t.vocab.tokenBytes id = utf8 (unmarked v) := by
  simp only [isOrdinary, Bool.and_eq_true, bne_iff_ne, ne_eq] at h
  obtain ⟨⟨hany, hbos⟩, heos⟩ := h
  obtain ⟨e, he, hplain⟩ := (Option.any_eq_true _ _).mp hany
  simp only [Bool.and_eq_true, beq_iff_eq, Bool.not_eq_true', Option.isNone_iff_eq_none] at hplain
  obtain ⟨⟨htext, hcontrol⟩, hbyte⟩ := hplain
  have hskip : ¬ (e.isControl || id == t.vocab.bos || id == t.vocab.eos) = true := by
    simp [hcontrol, hbos, heos]
  rw [Vocab.tokenBytes, he]
  simp only [if_neg hskip, hbyte, htext, String.toList_ofList]

theorem unmarked_of_notMem {v : List Char} (h : spaceMark ∉ v) : unmarked v = v := by
  refine (List.map_congr_left fun c hc => if_neg ?_).trans (List.map_id v)
  rintro rfl
  exact h hc

theorem flatMap_tokenBytes {bs : Bytes} (h : ∀ b ∈ bs, t.isFaithful b = true) :
    (bs.map t.byteToToken).flatMap t.vocab.tokenBytes = bs := by
  rw [List.flatMap_map]
  have hone : ∀ b ∈ bs, t.vocab.tokenBytes (t.byteToToken b) = [b] :=
    fun b hb => eq_of_beq (h b hb)
  rw [List.flatMap_congr hone, List.flatMap_singleton']

/-- **The tokens of a plain piece stand for the piece.** -/
theorem pieceBytes_plain {v : List Char} (h : t.isPlain v = true) :
    t.pieceBytes v = utf8 (unmarked v) := by
  rw [pieceBytes, pieceTokens]
  rw [isPlain] at h
  cases hid : t.lookup[String.ofList v]? with
  | some id =>
    rw [hid] at h
    simp only at h ⊢
    rw [List.flatMap_singleton, tokenBytes_ordinary h]
  | none =>
    rw [hid] at h
    simp only [Bool.and_eq_true, Bool.not_eq_true', List.contains_eq_mem, decide_eq_false_iff_not,
      List.all_eq_true] at h ⊢
    rw [flatMap_tokenBytes h.2, unmarked_of_notMem h.1]

theorem flatMap_pieceBytes_plain {qs : List (List Char)} (h : ∀ v ∈ qs, t.isPlain v = true) :
    qs.flatMap t.pieceBytes = utf8 (unmarked qs.flatten) := by
  induction qs with
  | nil => rfl
  | cons v qs ih =>
    rw [List.flatMap_cons, pieceBytes_plain (h v List.mem_cons_self),
      ih fun q hq => h q (List.mem_cons_of_mem v hq), ← utf8_append, List.flatten_cons]
    simp [unmarked]

/-! ## Encoding and decoding -/

/-- The pieces of a text that leads. -/
def piecesOf (t : SpmTokenizer) (text : String) : List (List Char) :=
  naive t.rank (letters (normalize text.toList true))

theorem flatten_piecesOf (t : SpmTokenizer) (text : String) :
    (t.piecesOf text).flatten = normalize text.toList true := by
  rw [piecesOf, (naive_merges (normalize text.toList true)).run.flatten, flatten_letters]

theorem encode_pieces (ht : t.InRange) (b : Build) {text : String}
    (hlt : text.length + 1 < 2 ^ 31) : t.encode b text
      = .ok (t.leading true ++ (t.piecesOf text).flatMap t.pieceTokens) := by
  have hlen : (normalize text.toList true).length < 2 ^ 31 := by
    rw [length_normalize, String.length_toList]
    exact hlt
  obtain ⟨qs, hqs, heq⟩ := encodeSpm_merges ht b text true hlen
  rwa [merges_unique hqs (naive_merges _)] at heq

theorem tokenBytes_bos (t : SpmTokenizer) : t.vocab.tokenBytes t.vocab.bos = [] := by
  rw [Vocab.tokenBytes]
  split
  · rfl
  · rw [if_pos (by simp)]

/-- The tokens of the text decode to the text. -/
def Lossless (t : SpmTokenizer) (b : Build) (text : String) : Prop :=
  ∃ ids, t.encode b text = .ok ids ∧ t.decode ids = .ok text

theorem lossless_iff (ht : t.InRange) (b : Build) {text : String}
    (hlt : text.length + 1 < 2 ^ 31) : t.Lossless b text ↔
      stripSpace (lossy ((t.piecesOf text).flatMap t.pieceBytes)) = text.toList := by
  have heq := encode_pieces ht b hlt
  have hleading : (t.leading true).flatMap t.vocab.tokenBytes = [] := by
    rw [leading]
    split
    · rw [List.flatMap_singleton, tokenBytes_bos]
    · rfl
  have hbytes : (t.leading true ++ (t.piecesOf text).flatMap t.pieceTokens).flatMap
      t.vocab.tokenBytes = (t.piecesOf text).flatMap t.pieceBytes := by
    rw [List.flatMap_append, hleading, List.nil_append, List.flatMap_assoc]
    rfl
  have hdecode : t.decode (t.leading true ++ (t.piecesOf text).flatMap t.pieceTokens)
      = .ok (String.ofList (stripSpace (lossy ((t.piecesOf text).flatMap t.pieceBytes)))) := by
    rw [decode, hbytes]
  constructor
  · rintro ⟨ids, hids, hback⟩
    rw [heq] at hids
    cases hids
    rw [hdecode] at hback
    have htext := congrArg String.toList (Except.ok.inj hback)
    rwa [String.toList_ofList] at htext
  · intro h
    refine ⟨_, heq, ?_⟩
    rw [hdecode, h, String.ofList_toList]

/-- The text has no mark of its own, it can be counted, and its pieces are plain. -/
structure ReadsBack (t : SpmTokenizer) (text : String) : Prop where
  counted : text.length + 1 < 2 ^ 31
  unmarked : spaceMark ∉ text.toList
  plain : ∀ v ∈ t.piecesOf text, t.isPlain v = true

theorem unmarked_normalize (text : List Char) :
    Spm.unmarked (normalize text true) = ' ' :: Spm.unmarked text := by
  have hmark : Spm.unmarked [spaceMark] = [' '] := by decide
  have hmap : Spm.unmarked (text.map fun ch => if ch = ' ' then spaceMark else ch)
      = Spm.unmarked text := by
    rw [Spm.unmarked, Spm.unmarked, List.map_map]
    refine List.map_congr_left fun c _ => ?_
    show (if (if c = ' ' then spaceMark else c) = spaceMark then ' '
      else if c = ' ' then spaceMark else c) = _
    by_cases hc : c = ' '
    · subst hc
      decide
    · simp only [if_neg hc]
  rw [Spm.normalize, if_pos rfl, Spm.unmarked, List.map_append]
  exact congrArg₂ (· ++ ·) hmark hmap

/-- What plain pieces decode to. -/
theorem stripSpace_plain {text : String} (h : ∀ v ∈ t.piecesOf text, t.isPlain v = true) :
    stripSpace (lossy ((t.piecesOf text).flatMap t.pieceBytes)) = Spm.unmarked text.toList := by
  rw [flatMap_pieceBytes_plain h, flatten_piecesOf, unmarked_normalize,
    lossy_of_ok (fromUtf8_utf8 _)]
  rfl

theorem ReadsBack.lossless {text : String} (h : t.ReadsBack text) (ht : t.InRange) (b : Build) :
    t.Lossless b text := by
  rw [lossless_iff ht b h.counted, stripSpace_plain h.plain, unmarked_of_notMem h.unmarked]

/-! ## Lost characters -/

/-- The bytes add at most `n` characters to what is read after them. -/
def Adds (bs : Bytes) (n : Nat) : Prop :=
  ∀ rest, (lossy (bs ++ rest)).length ≤ n + (lossy rest).length

theorem adds_nil (n : Nat) : Adds [] n := fun _ => Nat.le_add_left _ n

theorem adds_utf8 (s : List Char) : Adds (utf8 s) s.length := by
  intro rest
  rw [lossy_utf8_append, List.length_append]

theorem adds_byte (b : UInt8) : Adds [b] 1 := by
  intro rest
  have := lossy_cons_length b rest
  rw [List.singleton_append]
  omega

theorem Adds.append {bs bs' : Bytes} {n m : Nat} (h : Adds bs n) (h' : Adds bs' m) :
    Adds (bs ++ bs') (n + m) := by
  intro rest
  have h1 := h (bs' ++ rest)
  have h2 := h' rest
  rw [List.append_assoc]
  omega

theorem Adds.mono {bs : Bytes} {n m : Nat} (h : Adds bs n) (hle : n ≤ m) : Adds bs m :=
  fun rest => (h rest).trans (Nat.add_le_add_right hle _)

/-- Every byte and the mark have a token of their own, and no id is cut off. -/
structure Regular (t : SpmTokenizer) : Prop where
  narrow : t.vocab.tokens.length ≤ 2 ^ 32
  bytes : ∀ b, t.isFaithful b = true
  mark : ∃ id, t.lookup[String.ofList [spaceMark]]? = some id ∧ t.isOrdinary id [spaceMark] = true

theorem Regular.isPlain_mark (hr : t.Regular) : t.isPlain [spaceMark] = true := by
  obtain ⟨id, hid, hordinary⟩ := hr.mark
  rw [isPlain, hid]
  exact hordinary

theorem length_byteToken {v : List Char} {b : UInt8}
    (h : parseByteToken (String.ofList v) = some b) : 3 ≤ v.length := by
  rw [parseByteToken, String.toList_ofList] at h
  split at h
  · simp only [List.length_cons]
    omega
  · cases h

/-- **A piece that is not plain loses all its characters, or all but one of three or more.** -/
theorem adds_special {g : Gguf} (h : fromGguf g = .ok t) (hr : t.Regular) {v : List Char}
    (hpiece : (∃ id, t.lookup[String.ofList v]? = some id) ∨ ∃ c, v = [c])
    (hv : t.isPlain v = false) : Adds (t.pieceBytes v) (v.length - 2) := by
  have hsound := fromGguf_sound h
  rw [isPlain] at hv
  cases hid : t.lookup[String.ofList v]? with
  | none =>
    rw [hid] at hv hpiece
    rcases hpiece with ⟨id, hid'⟩ | ⟨c, rfl⟩
    · cases hid'
    · -- a character without an entry is no mark, and its bytes come back
      obtain ⟨id, hmark, -⟩ := hr.mark
      have hc : c ≠ spaceMark := by
        rintro rfl
        rw [hmark] at hid
        cases hid
      have hall : (utf8 [c]).all t.isFaithful = true := List.all_eq_true.mpr fun b _ => hr.bytes b
      simp [hall, hc.symm] at hv
  | some id =>
    rw [hid] at hv
    simp only at hv
    obtain ⟨e, he, htext⟩ := hsound.lookup hr.narrow _ id hid
    have he' : t.vocab.tokens[id.toNat]? = some e := he
    rw [pieceBytes, pieceTokens, hid, List.flatMap_singleton, Vocab.tokenBytes, he']
    simp only
    by_cases hskip : (e.isControl || id == t.vocab.bos || id == t.vocab.eos) = true
    · rw [if_pos hskip]
      exact adds_nil _
    · rw [if_neg hskip]
      simp only [Bool.or_eq_true, not_or, Bool.not_eq_true] at hskip
      obtain ⟨⟨hcontrol, hbos⟩, heos⟩ := hskip
      cases hbyte : e.byteValue with
      | none => simp [isOrdinary, he', htext, hcontrol, hbyte, bne, hbos, heos] at hv
      | some b =>
        have hparse := hsound.bytes e (List.mem_of_getElem? he) b hbyte
        rw [htext] at hparse
        have hlen := length_byteToken hparse
        exact (adds_byte b).mono (by omega)

theorem adds_plain {v : List Char} (hv : t.isPlain v = true) : Adds (t.pieceBytes v) v.length := by
  have hlen : (Spm.unmarked v).length = v.length := List.length_map _
  rw [pieceBytes_plain hv, ← hlen]
  exact adds_utf8 _

theorem adds_piece {g : Gguf} (h : fromGguf g = .ok t) (hr : t.Regular) {v : List Char}
    (hpiece : (∃ id, t.lookup[String.ofList v]? = some id) ∨ ∃ c, v = [c]) :
    Adds (t.pieceBytes v) v.length := by
  cases hv : t.isPlain v with
  | true => exact adds_plain hv
  | false => exact (adds_special h hr hpiece hv).mono (Nat.sub_le _ 2)

/-- Pieces of which one is not plain lose a character. -/
theorem adds_pieces {g : Gguf} (h : fromGguf g = .ok t) (hr : t.Regular) {qs : List (List Char)}
    (hpieces : ∀ v ∈ qs, v ≠ [] ∧
      ((∃ id, t.lookup[String.ofList v]? = some id) ∨ ∃ c, v = [c])) :
    Adds (qs.flatMap t.pieceBytes) qs.flatten.length ∧
      (∀ v ∈ qs, t.isPlain v = false → Adds (qs.flatMap t.pieceBytes) (qs.flatten.length - 1)) := by
  induction qs with
  | nil => exact ⟨adds_nil _, fun v hv => absurd hv List.not_mem_nil⟩
  | cons w qs ih =>
    obtain ⟨hw, hpiece⟩ := hpieces w List.mem_cons_self
    have hlen := List.length_pos_iff.mpr hw
    obtain ⟨hall, hlost⟩ := ih fun v hv => hpieces v (List.mem_cons_of_mem w hv)
    rw [List.flatMap_cons, List.flatten_cons, List.length_append]
    refine ⟨(adds_piece h hr hpiece).append hall, fun v hv hspecial => ?_⟩
    rcases List.mem_cons.mp hv with rfl | hv
    · exact ((adds_special h hr hpiece hspecial).append hall).mono (by omega)
    · have hne : qs.flatten.length ≠ 0 := by
        intro hzero
        have hnil := List.flatten_eq_nil_iff.mp (List.length_eq_zero_iff.mp hzero) v hv
        exact (hpieces v (List.mem_cons_of_mem w hv)).1 hnil
      exact ((adds_piece h hr hpiece).append (hlost v hv hspecial)).mono (by omega)

theorem length_stripSpace_le (s : List Char) : (stripSpace s).length ≤ s.length := by
  unfold stripSpace
  split
  · exact Nat.le_succ _
  · exact Nat.le_refl _

/-! ## The texts that come back -/

theorem piecesOf_cases (t : SpmTokenizer) (text : String) : ∀ v ∈ t.piecesOf text, v ≠ [] ∧
    ((∃ id, t.lookup[String.ofList v]? = some id) ∨ ∃ c, v = [c]) := by
  intro v hv
  have hmerges : Merges t.rank (normalize text.toList true) (t.piecesOf text) := naive_merges _
  refine ⟨merges_ne_nil hmerges hv, ?_⟩
  rcases piece_cases hmerges hv with hid | ⟨c, hc, -⟩
  · exact .inl hid
  · exact .inr ⟨c, hc⟩

/-- **A text that comes back has plain pieces only.** -/
theorem plain_of_stripSpace {g : Gguf} (h : fromGguf g = .ok t) (hr : t.Regular) {text : String}
    (hback : stripSpace (lossy ((t.piecesOf text).flatMap t.pieceBytes)) = text.toList) :
    ∀ v ∈ t.piecesOf text, t.isPlain v = true := by
  have hcases := piecesOf_cases t text
  have hflat := flatten_piecesOf t text
  generalize t.piecesOf text = qs at hcases hflat hback
  cases qs with
  | nil => exact fun v hv => absurd hv List.not_mem_nil
  | cons w qs =>
    obtain ⟨hw, hwpiece⟩ := hcases w List.mem_cons_self
    have hrest := adds_pieces h hr fun v hv => hcases v (List.mem_cons_of_mem w hv)
    have hlen := congrArg List.length hflat
    rw [length_normalize, if_pos rfl, List.flatten_cons, List.length_append] at hlen
    obtain ⟨c, w, rfl⟩ := List.exists_cons_of_ne_nil hw
    have hc : c = spaceMark := (List.cons.inj hflat).1
    subst hc
    have hback' := congrArg List.length hback
    rw [List.flatMap_cons] at hback'
    cases hplain : t.isPlain (spaceMark :: w) with
    | true =>
      -- the mark in front is the space that is stripped, and no other character may go
      have hfront : t.pieceBytes (spaceMark :: w) = utf8 (' ' :: Spm.unmarked w) :=
        pieceBytes_plain hplain
      rw [hfront, lossy_utf8_append] at hback'
      have hstripped : (Spm.unmarked w ++ lossy (qs.flatMap t.pieceBytes)).length
          = text.toList.length := hback'
      have hunmarked : (Spm.unmarked w).length = w.length := List.length_map _
      rw [List.length_append, hunmarked] at hstripped
      intro v hv
      rcases List.mem_cons.mp hv with rfl | hv
      · exact hplain
      · rw [← Bool.not_eq_false]
        intro hspecial
        have hlost := hrest.2 v hv hspecial []
        have hne := List.length_pos_iff.mpr (hcases v (List.mem_cons_of_mem _ hv)).1
        have hle := (List.sublist_flatten_of_mem hv).length_le
        rw [List.append_nil, lossy_nil, List.length_nil] at hlost
        rw [List.length_cons] at hlen
        omega
    | false =>
      have hlong : w ≠ [] := by
        rintro rfl
        rw [hr.isPlain_mark] at hplain
        cases hplain
      have hpos := List.length_pos_iff.mpr hlong
      have hlost := ((adds_special h hr hwpiece hplain).append hrest.1) []
      have hle := length_stripSpace_le
        (lossy (t.pieceBytes (spaceMark :: w) ++ qs.flatMap t.pieceBytes))
      rw [List.append_nil, lossy_nil, List.length_nil, List.length_cons] at hlost
      rw [List.length_cons] at hlen
      omega

theorem notMem_of_unmarked {s : List Char} (h : Spm.unmarked s = s) : spaceMark ∉ s := by
  intro hmem
  have hspace : ∀ c ∈ Spm.unmarked s, c ≠ spaceMark := by
    intro c hc
    obtain ⟨d, -, rfl⟩ := List.mem_map.mp hc
    have hmark : ' ' ≠ spaceMark := by decide
    split
    · exact hmark
    next hd => exact hd
  rw [h] at hspace
  exact hspace _ hmem rfl

theorem not_lossless_uncounted {text : String} (hle : 2 ^ 31 ≤ text.length + 1) :
    ¬ t.Lossless .debug text := by
  rintro ⟨ids, hids, -⟩
  have hlen : 2 ^ 31 ≤ (normalize text.toList true).length := by
    rw [length_normalize, String.length_toList]
    exact hle
  rw [encode, encodeSpm_panic t text true hlen] at hids
  cases hids

/-- **A text comes back from a loaded vocabulary when it has no mark of its own and its pieces are
plain**, and in a regular vocabulary only then. A build that does not check for overflow encodes
longer texts than can be counted, of which nothing is said here. -/
theorem decode_encode_iff {g : Gguf} (h : fromGguf g = .ok t) (b : Build) (text : String) :
    (t.ReadsBack text → t.Lossless b text) ∧
    (t.Regular → b = .debug ∨ text.length + 1 < 2 ^ 31 →
      (t.Lossless b text ↔ t.ReadsBack text)) := by
  have ht := fromGguf_inRange h
  refine ⟨fun hread => hread.lossless ht b, fun hr hcount => ⟨fun hless => ?_, fun hread =>
    hread.lossless ht b⟩⟩
  have hlt : text.length + 1 < 2 ^ 31 := by
    rcases hcount with rfl | hlt
    · by_contra hle
      exact not_lossless_uncounted (Nat.le_of_not_lt hle) hless
    · exact hlt
  have hback := (lossless_iff ht b hlt).mp hless
  have hplain := plain_of_stripSpace h hr hback
  refine ⟨hlt, ?_, hplain⟩
  rw [stripSpace_plain hplain] at hback
  exact notMem_of_unmarked hback

/-! ## A vocabulary of all bytes -/

/-- The piece of a byte. -/
def bytePiece (b : Nat) : Value :=
  .string (String.ofList ['<', '0', 'x', Nat.digitChar (b / 16), Nat.digitChar (b % 16), '>'])

/-- A vocabulary with a token for every byte, the mark, and a word or two. -/
def bytesGguf : Gguf where
  version := 3
  metadata := ((∅ : Metadata).insert "tokenizer.ggml.model" (.string "llama")).insert
    "tokenizer.ggml.tokens" (.array ([.string "<unk>", .string "<s>", .string "</s>"]
      ++ (List.range 256).map bytePiece ++ [.string "\u2581", .string "</", .string "s>"])) |>.insert
    "tokenizer.ggml.token_type" (.array ([.u32 2, .u32 3, .u32 3]
      ++ List.replicate 256 (.u32 6) ++ [.u32 1, .u32 1, .u32 1]))
  tensors := []
  dataOffset := 0

/-- Every byte has an entry. -/
def HasByteTokens (t : SpmTokenizer) : Prop :=
  ∀ b : UInt8, ∃ e ∈ t.vocab.tokens, e.byteValue = some b

/-- A byte's piece. -/
def byteText (n : Nat) : String :=
  String.ofList ['<', '0', 'x', Nat.digitChar (n / 16), Nat.digitChar (n % 16), '>']

theorem parseByteToken_byteText {n : Nat} (h : n < 256) :
    parseByteToken (byteText n) = some (UInt8.ofNat n) := by
  have hdigits : ∀ n ∈ List.range 256,
      u8FromHex [Nat.digitChar (n / 16), Nat.digitChar (n % 16)] = some (UInt8.ofNat n) := by
    decide +kernel
  rw [parseByteToken, byteText, String.toList_ofList]
  exact hdigits n (List.mem_range.mpr h)

def byteEntry (n : Nat) : Entry := ⟨byteText n, ⟨0⟩, some (UInt8.ofNat n), false⟩

def wordEntry (s : String) : Entry := ⟨s, ⟨0⟩, none, false⟩

/-- A table with something for every byte. -/
def aroundBytes {α : Type} (front : List α) (f : Nat → α) (back : List α) : List α :=
  front ++ (List.range 256).map f ++ back

section AroundBytes

variable {α β : Type} {front back : List α} {f : Nat → α}

theorem aroundBytes_mid {n : Nat} (h : n < 256) :
    (aroundBytes front f back)[n + front.length]? = some (f n) := by
  have hlen : n < ((List.range 256).map f).length := by rwa [List.length_map, List.length_range]
  rw [aroundBytes, List.append_assoc, List.getElem?_append_right (Nat.le_add_left _ n),
    Nat.add_sub_cancel, List.getElem?_append_left hlen, List.getElem?_map, List.getElem?_range h]
  rfl

theorem aroundBytes_back (i : Nat) :
    (aroundBytes front f back)[i + (front.length + 256)]? = back[i]? := by
  have hlen : (front ++ (List.range 256).map f).length = front.length + 256 := by
    rw [List.length_append, List.length_map, List.length_range]
  have hle : (front ++ (List.range 256).map f).length ≤ i + (front.length + 256) := by
    rw [hlen]
    exact Nat.le_add_left _ i
  rw [aroundBytes, List.getElem?_append_right hle, hlen, Nat.add_sub_cancel]

theorem mapIdx_aroundBytes (g : Nat → α → β) : (aroundBytes front f back).mapIdx g
    = aroundBytes (front.mapIdx g) (fun n => g (n + front.length) (f n))
        (back.mapIdx fun i => g (i + (front.length + 256))) := by
  have hmid : ((List.range 256).map f).mapIdx (fun n => g (n + front.length))
      = (List.range 256).map fun n => g (n + front.length) (f n) :=
    List.ext_getElem (by simp) fun n _ _ => by simp
  rw [aroundBytes, List.mapIdx_append, List.mapIdx_append, hmid, List.length_append,
    List.length_map, List.length_range, aroundBytes]

end AroundBytes

def bytesTexts : List String := aroundBytes ["<unk>", "<s>", "</s>"] byteText ["\u2581", "</", "s>"]

def bytesTypes : List Value :=
  aroundBytes [.u32 2, .u32 3, .u32 3] (fun _ => .u32 6) [.u32 1, .u32 1, .u32 1]

/-- What the entries of `bytesGguf` are read as. -/
def bytesEntries : List Entry :=
  aroundBytes [⟨"<unk>", ⟨0⟩, none, false⟩, ⟨"<s>", ⟨0⟩, none, true⟩, ⟨"</s>", ⟨0⟩, none, true⟩]
    byteEntry (["\u2581", "</", "s>"].map wordEntry)

theorem entryOf_byte {n : Nat} (h : n < 256) :
    entryOf none (some bytesTypes) (n + 3) (byteText n) = byteEntry n := by
  have htype : bytesTypes[n + 3]? = some (.u32 6) := aroundBytes_mid h
  rw [entryOf, Option.bind_some, htype, parseByteToken_byteText h]
  rfl

theorem entryOf_word {i : Nat} (h : i < 3) {s : String} (hs : parseByteToken s = none) :
    entryOf none (some bytesTypes) (i + 259) s = wordEntry s := by
  have htype : bytesTypes[i + 259]? = [Value.u32 1, .u32 1, .u32 1][i]? := aroundBytes_back i
  rw [entryOf, Option.bind_some, htype, hs]
  interval_cases i <;> rfl

theorem bytesEntries_eq :
    (bytesTexts.mapIdx fun i s => entryOf none (some bytesTypes) i s) = bytesEntries := by
  have hfront : (["<unk>", "<s>", "</s>"].mapIdx fun i s => entryOf none (some bytesTypes) i s)
      = [⟨"<unk>", ⟨0⟩, none, false⟩, ⟨"<s>", ⟨0⟩, none, true⟩, ⟨"</s>", ⟨0⟩, none, true⟩] := rfl
  have hmid : (List.range 256).map (fun n => entryOf none (some bytesTypes) (n + 3) (byteText n))
      = (List.range 256).map byteEntry :=
    List.map_congr_left fun n hn => entryOf_byte (List.mem_range.mp hn)
  have hback : (["\u2581", "</", "s>"].mapIdx fun i s =>
      entryOf none (some bytesTypes) (i + 259) s) = ["\u2581", "</", "s>"].map wordEntry := by
    rw [List.mapIdx_cons, List.mapIdx_cons, List.mapIdx_cons, List.mapIdx_nil,
      entryOf_word (i := 0) (by decide) (by decide), entryOf_word (i := 1) (by decide) (by decide),
      entryOf_word (i := 2) (by decide) (by decide)]
    rfl
  rw [bytesTexts, mapIdx_aroundBytes, hfront]
  exact congrArg₂ (fun mid back => _ ++ mid ++ back) hmid hback

theorem bytesEntries_getElem? {n : Nat} (h : n < 256) :
    bytesEntries[n + 3]? = some (byteEntry n) := aroundBytes_mid h

/-- No other entry stands for a byte. -/
theorem bytesEntries_byte {j : Nat} {b : UInt8}
    (h : bytesEntries[j]?.bind Entry.byteValue = some b) : j = b.toNat + 3 := by
  obtain ⟨e, he, hbyte⟩ := Option.bind_eq_some_iff.mp h
  rcases Nat.lt_or_ge j 3 with hlt | hge
  · interval_cases j <;> cases he <;> cases hbyte
  · obtain ⟨n, rfl⟩ := Nat.exists_eq_add_of_le' hge
    rcases Nat.lt_or_ge n 256 with hlt | hge
    · rw [bytesEntries_getElem? hlt] at he
      cases he
      obtain rfl : UInt8.ofNat n = b := Option.some.inj hbyte
      rw [UInt8.toNat_ofNat_of_lt' hlt]
    · obtain ⟨i, rfl⟩ := Nat.exists_eq_add_of_le' hge
      have hword : (["\u2581", "</", "s>"].map wordEntry)[i]? = some e :=
        (aroundBytes_back i).symm.trans he
      obtain ⟨s, -, rfl⟩ := List.mem_map.mp (List.mem_of_getElem? hword)
      cases hbyte

theorem bytesGguf_get (key : String) : bytesGguf.get key
    = if key = "tokenizer.ggml.token_type" then some (.array bytesTypes)
      else if key = "tokenizer.ggml.tokens" then some (.array (bytesTexts.map .string))
      else if key = "tokenizer.ggml.model" then some (.string "llama") else none := by
  rw [Gguf.get, bytesGguf]
  dsimp only
  rw [Std.ExtTreeMap.getElem?_insert, Std.ExtTreeMap.getElem?_insert,
    Std.ExtTreeMap.getElem?_insert, Std.ExtTreeMap.getElem?_empty]
  simp only [Std.LawfulEqCmp.compare_eq_iff_eq, eq_comm (b := key)]
  rw [bytesTexts, bytesTypes, aroundBytes, aroundBytes, List.map_append, List.map_append,
    List.map_map, List.map_const', List.length_range]
  rfl

/-- What loading makes of the vocabulary. -/
structure OfBytes (t : SpmTokenizer) : Prop where
  vocab : t.vocab = ⟨bytesEntries, 1, 2⟩
  indexed : Indexed { tokens := bytesEntries, lookup := t.lookup, byteToken := t.byteToken }
  addBos : t.addBos = true

theorem bytesGguf_ok : ∃ t, fromGguf bytesGguf = .ok t ∧ OfBytes t := by
  obtain ⟨out, hload, htokens⟩ := load_strings none (some bytesTypes) bytesTexts .empty
  have hentries : out.tokens = bytesEntries := by
    rw [htokens, Tables.empty, List.nil_append, ← bytesEntries_eq]
    rfl
  have hok : fromGguf bytesGguf
      = .ok ⟨⟨out.tokens, 1, 2⟩, out.lookup, out.byteToken, 0, true⟩ := by
    simp [fromGguf, bytesGguf_get, Value.asStr, Value.asArray, hload]
  have hindexed := fromGguf_indexed hok
  rw [hentries] at hok hindexed
  exact ⟨_, hok, rfl, hindexed, rfl⟩

namespace OfBytes

theorem lookup_eq (h : OfBytes t) (w : String) :
    t.lookup[w]? = (bytesEntries.findIdx? fun e => e.text == w).map UInt32.ofNat :=
  h.indexed.lookup w

theorem byteToken_eq (h : OfBytes t) (b : UInt8) : t.byteToken b = UInt32.ofNat (b.toNat + 3) := by
  refine h.indexed.bytes b (b.toNat + 3) fun j => ⟨bytesEntries_byte, ?_⟩
  rintro rfl
  show bytesEntries[b.toNat + 3]?.bind Entry.byteValue = some b
  rw [bytesEntries_getElem? b.toNat_lt, Option.bind_some, byteEntry, UInt8.ofNat_toNat]

theorem isFaithful (h : OfBytes t) (b : UInt8) : t.isFaithful b = true := by
  have hlt := b.toNat_lt
  have htoken : (UInt32.ofNat (b.toNat + 3)).toNat = b.toNat + 3 :=
    UInt32.toNat_ofNat_of_lt' (show b.toNat + 3 < 2 ^ 32 by omega)
  have hid : ∀ id : Token, id.toNat < 3 → UInt32.ofNat (b.toNat + 3) ≠ id := by
    rintro id hlt rfl
    rw [htoken] at hlt
    omega
  have hbytes : t.vocab.tokenBytes (UInt32.ofNat (b.toNat + 3)) = [b] := by
    rw [Vocab.tokenBytes, h.vocab]
    dsimp only
    rw [htoken, bytesEntries_getElem? hlt, byteEntry, UInt8.ofNat_toNat]
    dsimp only
    rw [if_neg]
    simpa using ⟨hid 1 (by decide), hid 2 (by decide)⟩
  rw [SpmTokenizer.isFaithful, byteToToken, h.byteToken_eq, if_neg (hid 0 (by decide)), hbytes]
  exact beq_self_eq_true [b]

/-- How the entries rank a piece. -/
theorem rank_eq (h : OfBytes t) : t.rank = fun w =>
    ((bytesEntries.findIdx? fun e => e.text == String.ofList w).map UInt32.ofNat).bind fun id =>
      bytesEntries[id.toNat]?.bind fun e => some e.score.totalKey := by
  funext w
  rw [rank, h.lookup_eq, h.vocab]
  rfl

theorem pieces (h : OfBytes t) : t.piecesOf "a b" = [[spaceMark], ['a'], [spaceMark], ['b']] ∧
    t.piecesOf "\u2581" = [[spaceMark], [spaceMark]] ∧
    t.piecesOf "</s>" = [[spaceMark], ['<', '/', 's', '>']] := by
  rw [piecesOf, piecesOf, piecesOf, h.rank_eq]
  refine ⟨?_, ?_, ?_⟩
  · decide +kernel
  · decide +kernel
  · decide +kernel

theorem lookups (h : OfBytes t) : t.lookup[String.ofList [spaceMark]]? = some 259 ∧
    t.lookup[String.ofList ['<', '/', 's', '>']]? = some 2 ∧
    t.lookup[String.ofList ['a']]? = none ∧ t.lookup[String.ofList ['b']]? = none := by
  simp only [h.lookup_eq]
  decide +kernel

theorem decodes (h : OfBytes t) :
    t.decode [1, 259, 259] = .ok " " ∧ t.decode [1, 259, 2] = .ok "" := by
  rw [decode, decode, h.vocab]
  decide +kernel

theorem regular (h : OfBytes t) : t.Regular where
  narrow := by
    rw [h.vocab, bytesEntries, aroundBytes]
    simp only [List.length_append, List.length_map, List.length_range]
    decide
  bytes := h.isFaithful
  mark := by
    refine ⟨259, h.lookups.1, ?_⟩
    rw [isOrdinary, h.vocab]
    decide +kernel

theorem hasByteTokens (h : OfBytes t) : t.HasByteTokens := by
  intro b
  rw [h.vocab]
  exact ⟨_, List.mem_of_getElem? (bytesEntries_getElem? b.toNat_lt),
    congrArg some (UInt8.ofNat_toNat (x := b))⟩

theorem plain (h : OfBytes t) : ∀ v ∈ t.piecesOf "a b", t.isPlain v = true := by
  obtain ⟨-, -, ha, hb⟩ := h.lookups
  have hletter : ∀ c, c ≠ spaceMark → t.lookup[String.ofList [c]]? = none →
      t.isPlain [c] = true := by
    intro c hc hnone
    have hall : (utf8 [c]).all t.isFaithful = true :=
      List.all_eq_true.mpr fun b _ => h.isFaithful b
    rw [isPlain, hnone]
    simp [hall, hc.symm]
  rw [h.pieces.1]
  intro v hv
  simp only [List.mem_cons, List.not_mem_nil, or_false] at hv
  rcases hv with rfl | rfl | rfl | rfl
  · exact h.regular.isPlain_mark
  · exact hletter 'a' (by decide) ha
  · exact h.regular.isPlain_mark
  · exact hletter 'b' (by decide) hb

theorem leading_eq (h : OfBytes t) : t.leading true = [1] := by
  rw [leading, h.addBos, h.vocab]
  rfl

theorem pieceTokens_some {v : List Char} {id : Token} (hid : t.lookup[String.ofList v]? = some id) :
    t.pieceTokens v = [id] := by
  rw [pieceTokens, hid]

theorem encode_mark (h : OfBytes t) (ht : t.InRange) (b : Build) :
    t.encode b "\u2581" = .ok [1, 259, 259] := by
  have hmark := pieceTokens_some h.lookups.1
  rw [encode_pieces ht b (by decide), h.pieces.2.1, h.leading_eq]
  simp [hmark]

theorem encode_control (h : OfBytes t) (ht : t.InRange) (b : Build) :
    t.encode b "</s>" = .ok [1, 259, 2] := by
  have hmark := pieceTokens_some h.lookups.1
  have hcontrol := pieceTokens_some h.lookups.2.1
  rw [encode_pieces ht b (by decide), h.pieces.2.2, h.leading_eq]
  simp [hmark, hcontrol]

end OfBytes

/-- What loading makes of the vocabulary, and of three texts. -/
theorem bytesGguf_loads : ∃ t, fromGguf bytesGguf = .ok t ∧ t.HasByteTokens ∧ t.Regular ∧
    (∀ v ∈ t.piecesOf "a b", t.isPlain v = true) ∧
    ∀ b, (t.encode b "\u2581" = .ok [1, 259, 259] ∧ t.decode [1, 259, 259] = .ok " ") ∧
      (t.encode b "</s>" = .ok [1, 259, 2] ∧ t.decode [1, 259, 2] = .ok "") := by
  obtain ⟨t, ht, h⟩ := bytesGguf_ok
  exact ⟨t, ht, h.hasByteTokens, h.regular, h.plain, fun b =>
    ⟨⟨h.encode_mark (fromGguf_inRange ht) b, h.decodes.1⟩,
      h.encode_control (fromGguf_inRange ht) b, h.decodes.2⟩⟩

theorem decode_encode_iff_words : ∃ t, fromGguf bytesGguf = .ok t ∧ t.Regular ∧
    ∀ b, t.Lossless b "a b" := by
  obtain ⟨t, ht, -, hr, hplain, -⟩ := bytesGguf_loads
  exact ⟨t, ht, hr, fun b => (decode_encode_iff ht b "a b").1 ⟨by decide, by decide, hplain⟩⟩

/-- The mark comes back as a space, and the text `</s>` as the control token that is no text. -/
theorem special_texts_lost : ∃ t, fromGguf bytesGguf = .ok t ∧ t.HasByteTokens ∧
    ∀ b, (t.encode b "\u2581" = .ok [1, 259, 259] ∧ t.decode [1, 259, 259] = .ok " ") ∧
      (t.encode b "</s>" = .ok [1, 259, 2] ∧ t.decode [1, 259, 2] = .ok "") ∧
      ¬ t.Lossless b "\u2581" ∧ ¬ t.Lossless b "</s>" := by
  obtain ⟨t, ht, hbytes, -, -, hboth⟩ := bytesGguf_loads
  refine ⟨t, ht, hbytes, fun b => ?_⟩
  obtain ⟨⟨hmark, hspace⟩, hcontrol, hnothing⟩ := hboth b
  refine ⟨⟨hmark, hspace⟩, ⟨hcontrol, hnothing⟩, ?_, ?_⟩
  · rintro ⟨ids, hids, hback⟩
    rw [hmark] at hids
    cases hids
    rw [hspace] at hback
    revert hback
    decide
  · rintro ⟨ids, hids, hback⟩
    rw [hcontrol] at hids
    cases hids
    rw [hnothing] at hback
    revert hback
    decide

end SpmTokenizer

end Garuda
