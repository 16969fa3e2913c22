import Garuda.Tokenizer.BpeEncode

/-!
# BPE encoding is lossless

What `fromGguf` puts into the lookup, and from it that encoding a text and decoding the ids gives
the text back. An id is the place of its entry in the vocabulary, cast to 32 bits: the lookup is
right as long as every piece has its first ordinary entry below `2^32`.

* `getElem?_loadLookup` — the lookup answers the first ordinary entry of a piece
* `narrow_iff` — when it answers the right one
* `encode_lossless` — encoding gives ordinary ids, and nothing is lost
* `encode_wraps` — a vocabulary whose byte alphabet starts at place `2^32`
-/

namespace Garuda

open Infra

namespace Bpe

/-! ## The lookup -/

/-- Neither control nor unused nor user-defined. -/
def isOrdinary (types : List UInt64) (i : Nat) : Bool :=
  typeAt types i != typeControl && typeAt types i != typeUnused &&
    typeAt types i != typeUserDefined

/-- The first ordinary entry of a piece. -/
def entryOf (tokens : List String) (types : List UInt64) (p : String) : Option Nat :=
  (tokens.zipIdx.find? fun e => e.1 == p && isOrdinary types e.2).map Prod.snd

theorem isOrdinary_eq_false {types : List UInt64} {i : Nat} :
    isOrdinary types i = false ↔ typeAt types i = typeControl ∨ typeAt types i = typeUnused ∨
      typeAt types i = typeUserDefined := by
  simp [isOrdinary, bne, or_assoc, Decidable.imp_iff_not_or]

/-- A map filled one entry at a time, where the first entry that counts decides. -/
theorem foldl_first {p : String} (test : String × Nat → Bool) (value : String × Nat → Token)
    {step : Std.ExtTreeMap String Token → String × Nat → Std.ExtTreeMap String Token}
    (hstep : ∀ lookup e,
      (step lookup e)[p]? = lookup[p]?.or (if test e then some (value e) else none)) :
    ∀ (entries : List (String × Nat)) (lookup : Std.ExtTreeMap String Token),
    (entries.foldl step lookup)[p]? = lookup[p]?.or ((entries.find? test).map value)
  | [], lookup => by simp
  | e :: entries, lookup => by
    rw [List.foldl_cons, foldl_first test value hstep entries, hstep, Option.or_assoc,
      List.find?_cons]
    cases test e <;> simp

theorem getElem?_insertIfNew (lookup : Std.ExtTreeMap String Token) (tok p : String)
    (id : Token) : (lookup.insertIfNew tok id)[p]?
      = lookup[p]?.or (if tok == p then some id else none) := by
  rw [Std.ExtTreeMap.getElem?_insertIfNew]
  by_cases heq : tok = p
  · subst heq
    by_cases hmem : tok ∈ lookup
    · simp [hmem]
    · simp [hmem]
  · have hne : compare tok p ≠ .eq := fun h => heq (Std.LawfulEqCmp.eq_of_compare h)
    simp [heq, hne]

/-- **The lookup answers the first ordinary entry of a piece**, cast to 32 bits. -/
theorem getElem?_loadLookup (tokens : List String) (types : List UInt64) (p : String) :
    (loadLookup tokens types)[p]? = (entryOf tokens types p).map UInt32.ofNat := by
  rw [loadLookup, entryOf, Option.map_map]
  refine (foldl_first (fun e => e.1 == p && isOrdinary types e.2) (fun e => UInt32.ofNat e.2)
    ?_ tokens.zipIdx ∅).trans ?_
  · intro lookup e
    simp only
    by_cases hordinary : isOrdinary types e.2 = true
    · rw [if_neg (fun h => by rw [isOrdinary_eq_false.mpr h] at hordinary; cases hordinary),
        getElem?_insertIfNew, hordinary, Bool.and_true]
    · rw [Bool.not_eq_true] at hordinary
      rw [if_pos (isOrdinary_eq_false.mp hordinary), hordinary]
      simp
  · simp [Function.comp_def]

/-- What `find?` finds among numbered items is the first that passes. -/
theorem find?_zipIdx {α : Type} {f : α × Nat → Bool} : ∀ {l : List α} {k : Nat} {e : α × Nat},
    (l.zipIdx k).find? f = some e → ∃ i, e.2 = k + i ∧ l[i]? = some e.1 ∧ f e = true ∧
      ∀ (j : Nat) (a : α), l[j]? = some a → f (a, k + j) = true → i ≤ j
  | [], _, _, h => by simp at h
  | a :: l, k, e, h => by
    rw [List.zipIdx_cons, List.find?_cons] at h
    cases hf : f (a, k) with
    | true =>
      rw [hf] at h
      cases h
      exact ⟨0, rfl, rfl, hf, fun j _ _ _ => Nat.zero_le j⟩
    | false =>
      rw [hf] at h
      obtain ⟨i, hi, hget, hpass, hfirst⟩ := find?_zipIdx h
      refine ⟨i + 1, by omega, hget, hpass, ?_⟩
      intro j b hj hb
      cases j with
      | zero =>
        cases hj
        rw [Nat.add_zero, hf] at hb
        cases hb
      | succ j =>
        have hle := hfirst j b hj (by rwa [Nat.add_assoc, Nat.add_comm 1])
        omega

theorem entryOf_spec {tokens : List String} {types : List UInt64} {p : String} {i : Nat}
    (h : entryOf tokens types p = some i) : tokens[i]? = some p ∧ isOrdinary types i = true ∧
      ∀ j, tokens[j]? = some p → isOrdinary types j = true → i ≤ j := by
  obtain ⟨e, he, rfl⟩ := Option.map_eq_some_iff.mp h
  obtain ⟨i, hi, hget, hpass, hfirst⟩ := find?_zipIdx he
  rw [Nat.zero_add] at hi
  rw [Bool.and_eq_true, beq_iff_eq] at hpass
  obtain ⟨rfl, hordinary⟩ := hpass
  rw [hi] at hordinary ⊢
  refine ⟨hget, hordinary, fun j hj hjo => hfirst j _ hj ?_⟩
  rw [Nat.zero_add, hjo, Bool.and_true, beq_self_eq_true]

/-! ## What is loaded -/

end Bpe

namespace BpeTokenizer

open Bpe

/-- The token list of a file. -/
def pieces (g : Gguf) : List String :=
  (((g.get "tokenizer.ggml.tokens").bind Value.asArray).getD []).map fun v => v.asStr.getD ""

/-- The token types of a file; without them every token is a normal one. -/
def tokenTypes (g : Gguf) : List UInt64 :=
  match (g.get "tokenizer.ggml.token_type").bind Value.asArray with
  | some a => a.map fun v => v.asU64.getD 1
  | none => List.replicate (pieces g).length 1

/-- The parts of a loaded tokenizer that encoding and decoding read. -/
structure LoadedFrom (g : Gguf) (t : BpeTokenizer) : Prop where
  tokens : t.vocab.tokens = (pieces g).zipIdx.map fun e =>
    { text := e.1
      isSpecial := typeAt (tokenTypes g) e.2 = typeControl ∨
        typeAt (tokenTypes g) e.2 = typeUnused }
  charToByte : t.vocab.charToByte = Bpe.charToByte
  lookup : t.lookup = loadLookup (pieces g) (tokenTypes g)
  byteToChar : t.byteToChar = Bpe.byteToChar
  complete : missingByte t.lookup = none

theorem fromGguf_loadedFrom {g : Gguf} {t : BpeTokenizer} (h : fromGguf g = .ok t) :
    LoadedFrom g t := by
  unfold fromGguf at h
  simp only at h
  split at h
  · cases h
  · split at h
    · cases h
    · next tokArr htok =>
      split at h
      · cases h
      · split at h
        · cases h
        · split at h
          · cases h
          · next hmissing =>
            have hpieces : pieces g = tokArr.map fun v => v.asStr.getD "" := by
              rw [pieces, htok, Option.getD_some]
            cases htype : (g.get "tokenizer.ggml.token_type").bind Value.asArray with
            | some a =>
              have htypes : tokenTypes g = a.map fun v => v.asU64.getD 1 := by
                rw [tokenTypes, htype]
              simp only [htype, ← hpieces, ← htypes] at h hmissing
              cases h
              exact ⟨rfl, by with_reducible rfl, rfl, by with_reducible rfl, hmissing⟩
            | none =>
              have htypes : tokenTypes g = List.replicate (pieces g).length 1 := by
                rw [tokenTypes, htype]
              simp only [htype, ← hpieces, ← htypes] at h hmissing
              cases h
              exact ⟨rfl, by with_reducible rfl, rfl, by with_reducible rfl, hmissing⟩

/-! ## The byte alphabet -/

theorem length_byteToChar : Bpe.byteToChar.length = 256 := by decide +kernel

/-- Every byte is read back from its character. -/
theorem charToByte_byteToChar (b : UInt8) :
    Bpe.charToByte[Bpe.byteToChar.getD b.toNat '\x00']? = some b := by
  have hall : ∀ n ∈ List.range 256,
      Bpe.charToByte[Bpe.byteToChar.getD n '\x00']? = some (UInt8.ofNat n) := by decide +kernel
  have hb := hall b.toNat (List.mem_range.mpr b.toNat_lt)
  rwa [UInt8.ofNat_toNat] at hb

theorem mem_byteToChar (b : UInt8) : Bpe.byteToChar.getD b.toNat '\x00' ∈ Bpe.byteToChar := by
  have hlt : b.toNat < Bpe.byteToChar.length := by
    rw [length_byteToChar]
    exact b.toNat_lt
  rw [List.getD_eq_getElem _ _ hlt]
  exact List.getElem_mem hlt

theorem isByteChar_of_complete {lookup : Std.ExtTreeMap String Token}
    (h : missingByte lookup = none) {c : Char} (hc : c ∈ Bpe.byteToChar) :
    ∃ id, lookup[String.ofList [c]]? = some id := by
  obtain ⟨i, hi, rfl⟩ := List.getElem_of_mem hc
  have hmem : (Bpe.byteToChar[i], i) ∈ Bpe.byteToChar.zipIdx :=
    List.mk_mem_zipIdx_iff_getElem?.mpr (List.getElem?_eq_getElem hi)
  have hcontains := List.find?_eq_none.mp h _ hmem
  simp only [Bool.not_eq_true', Bool.not_eq_false] at hcontains
  exact Option.isSome_iff_exists.mp
    (Std.ExtTreeMap.mem_iff_isSome_getElem?.mp (Std.ExtTreeMap.mem_iff_contains.mpr hcontains))

/-! ## Narrow vocabularies -/

/-- The first ordinary entry of every piece has a place of 32 bits. -/
def Narrow (g : Gguf) : Prop :=
  ∀ p i, entryOf (pieces g) (tokenTypes g) p = some i → i < 2 ^ 32

theorem narrow_of_length {g : Gguf} (h : (pieces g).length ≤ 2 ^ 32) : Narrow g := by
  intro p i hi
  have hlt := (List.getElem?_eq_some_iff.mp (entryOf_spec hi).1).1
  omega

section

variable {g : Gguf} {t : BpeTokenizer}

/-- What the lookup of a narrow vocabulary answers. -/
theorem LoadedFrom.lookup_spec (h : LoadedFrom g t) (hnarrow : Narrow g) {p : String} {id : Token}
    (hid : t.lookup[p]? = some id) :
    (pieces g)[id.toNat]? = some p ∧ isOrdinary (tokenTypes g) id.toNat = true := by
  rw [h.lookup, getElem?_loadLookup] at hid
  obtain ⟨i, hi, rfl⟩ := Option.map_eq_some_iff.mp hid
  obtain ⟨hget, hordinary, _⟩ := entryOf_spec hi
  rw [UInt32.toNat_ofNat', Nat.mod_eq_of_lt (hnarrow p i hi)]
  exact ⟨hget, hordinary⟩

/-- **The lookup is right where the vocabulary is narrow**, and there only. -/
theorem LoadedFrom.narrow_iff (h : LoadedFrom g t) :
    Narrow g ↔ ∀ (p : String) (id : Token), t.lookup[p]? = some id →
      (pieces g)[id.toNat]? = some p ∧ isOrdinary (tokenTypes g) id.toNat = true := by
  refine ⟨fun hnarrow p id => h.lookup_spec hnarrow, fun hright p i hi => ?_⟩
  by_contra hwide
  -- the cast gives the place of an entry before the first one
  have hid : t.lookup[p]? = some (UInt32.ofNat i) := by
    rw [h.lookup, getElem?_loadLookup, hi]
    rfl
  obtain ⟨hget, hordinary⟩ := hright p _ hid
  rw [UInt32.toNat_ofNat'] at hget hordinary
  have hfirst := (entryOf_spec hi).2.2 _ hget hordinary
  have hmod : i % 2 ^ 32 < 2 ^ 32 := Nat.mod_lt _ (by decide)
  omega

theorem LoadedFrom.looksUp (h : LoadedFrom g t) (hnarrow : Narrow g) : LooksUp t where
  entry := by
    intro p id hid
    obtain ⟨hget, hordinary⟩ := h.lookup_spec hnarrow hid
    have hplain : ¬ (typeAt (tokenTypes g) id.toNat = typeControl ∨
        typeAt (tokenTypes g) id.toNat = typeUnused) := by
      intro hspecial
      rw [isOrdinary_eq_false.mpr (hspecial.imp_right .inl)] at hordinary
      cases hordinary
    refine ⟨{ text := p, isSpecial := false }, ?_, rfl, rfl⟩
    rw [h.tokens, List.getElem?_map, List.getElem?_zipIdx, hget]
    simpa using hplain
  byteChar := by
    intro b
    rw [h.byteToChar]
    exact isByteChar_of_complete h.complete (mem_byteToChar b)
  byteBack := by
    intro b
    rw [h.byteToChar, h.charToByte]
    exact charToByte_byteToChar b

/-- What the ids of a text are. -/
theorem LoadedFrom.of_mem_encode (h : LoadedFrom g t) (hnarrow : Narrow g) {u : CharTables}
    {text : String} {id : Token} (hid : id ∈ t.encode u text) :
    id.toNat < t.vocab.tokens.length ∧ isOrdinary (tokenTypes g) id.toNat = true := by
  obtain ⟨range, _, hid⟩ := List.mem_flatMap.mp hid
  obtain ⟨symbol, _, hid⟩ := List.mem_flatMap.mp hid
  obtain ⟨p, hp⟩ := exists_of_mem_symbolIds hid
  obtain ⟨hget, hordinary⟩ := h.lookup_spec hnarrow hp
  refine ⟨?_, hordinary⟩
  rw [h.tokens, List.length_map, List.length_zipIdx]
  exact (List.getElem?_eq_some_iff.mp hget).1

theorem decodeBytes_eq {t : BpeTokenizer} : ∀ {ids : List Token},
    (∀ id ∈ ids, id.toNat < t.vocab.tokens.length) →
    t.decodeBytes ids = .ok (ids.flatMap t.vocab.tokenBytes)
  | [], _ => rfl
  | id :: ids, hids => by
    obtain ⟨hid, hrest⟩ := List.forall_mem_cons.mp hids
    rw [decodeBytes, if_neg (by omega), decodeBytes_eq hrest]
    rfl

/-- **BPE encoding is safe and lossless** for a narrow vocabulary, and a vocabulary is narrow
exactly where the lookup gives every piece an ordinary entry of its own text. -/
theorem encode_lossless (h : fromGguf g = .ok t) :
    (Narrow g ↔ ∀ (p : String) (id : Token), t.lookup[p]? = some id →
      (pieces g)[id.toNat]? = some p ∧ isOrdinary (tokenTypes g) id.toNat = true) ∧
    (Narrow g → ∀ (u : CharTables) (text : String),
      (∀ id ∈ t.encode u text,
        id.toNat < t.vocab.tokens.length ∧ isOrdinary (tokenTypes g) id.toNat = true) ∧
      t.decode (t.encode u text) = .ok text) := by
  have hloaded := fromGguf_loadedFrom h
  refine ⟨hloaded.narrow_iff, fun hnarrow u text => ?_⟩
  have hids : ∀ id ∈ t.encode u text, id.toNat < t.vocab.tokens.length ∧
      isOrdinary (tokenTypes g) id.toNat = true := fun id => hloaded.of_mem_encode hnarrow
  refine ⟨hids, ?_⟩
  rw [decode, decodeBytes_eq fun id hid => (hids id hid).1,
    (hloaded.looksUp hnarrow).encode_bytes]
  show Except.ok (String.ofList (lossy (utf8 text.toList))) = .ok text
  rw [lossy_of_ok (fromUtf8_utf8 text.toList), String.ofList_toList]

end

/-! ## A vocabulary behind padding -/

/-- So many tokens of padding, and the byte alphabet behind them. -/
def paddedTokens (padding : Nat) : List Value :=
  List.replicate padding (.string "<pad>")
    ++ Bpe.byteToChar.map fun c => .string (String.ofList [c])

/-- The padding is of type control, the rest is normal. -/
def paddedTypes (padding : Nat) : List Value :=
  List.replicate padding (.u32 3) ++ Bpe.byteToChar.map fun _ => .u32 1

def paddedGguf (padding : Nat) : Gguf where
  version := 3
  metadata := (((∅ : Metadata).insert "tokenizer.ggml.model" (.string "gpt2")).insert
    "tokenizer.ggml.tokens" (.array (paddedTokens padding))).insert
    "tokenizer.ggml.token_type" (.array (paddedTypes padding)) |>.insert
    "tokenizer.ggml.merges" (.array [.string "h i"])
  tensors := []
  dataOffset := 0

section

variable (padding : Nat)

theorem paddedGguf_model : (paddedGguf padding).get "tokenizer.ggml.model"
    = some (.string "gpt2") := by
  simp [Gguf.get, paddedGguf, Std.ExtTreeMap.getElem_insert]

theorem paddedGguf_tokens : (paddedGguf padding).get "tokenizer.ggml.tokens"
    = some (.array (paddedTokens padding)) := by
  simp [Gguf.get, paddedGguf, Std.ExtTreeMap.getElem_insert]

theorem paddedGguf_types : (paddedGguf padding).get "tokenizer.ggml.token_type"
    = some (.array (paddedTypes padding)) := by
  simp [Gguf.get, paddedGguf, Std.ExtTreeMap.getElem_insert]

theorem paddedGguf_merges : (paddedGguf padding).get "tokenizer.ggml.merges"
    = some (.array [.string "h i"]) := by
  simp [Gguf.get, paddedGguf]

theorem pieces_paddedGguf : pieces (paddedGguf padding)
    = List.replicate padding "<pad>" ++ Bpe.byteToChar.map fun c => String.ofList [c] := by
  rw [pieces, paddedGguf_tokens, Option.bind_some, Value.asArray, Option.getD_some, paddedTokens,
    List.map_append, List.map_replicate, List.map_map]
  rfl

theorem tokenTypes_paddedGguf : tokenTypes (paddedGguf padding)
    = List.replicate padding typeControl ++ Bpe.byteToChar.map fun _ => 1 := by
  rw [tokenTypes, paddedGguf_types, Option.bind_some, Value.asArray]
  simp only
  rw [paddedTypes, List.map_append, List.map_replicate, List.map_map]
  rfl

theorem typeAt_paddedGguf (i : Nat) : typeAt (tokenTypes (paddedGguf padding)) i
    = if i < padding then typeControl else 1 := by
  rw [typeAt, tokenTypes_paddedGguf]
  by_cases hi : i < padding
  · rw [List.getElem?_append_left (by simpa using hi), if_pos hi, List.getElem?_replicate,
      if_pos hi, Option.getD_some]
  · rw [List.getElem?_append_right (by simpa using hi), if_neg hi, List.getElem?_map]
    cases Bpe.byteToChar[i - (List.replicate padding typeControl).length]? <;> rfl

/-- The entries of the padding are not ordinary, those behind it are. -/
theorem isOrdinary_paddedGguf (i : Nat) :
    isOrdinary (tokenTypes (paddedGguf padding)) i = decide (padding ≤ i) := by
  rw [isOrdinary, typeAt_paddedGguf]
  by_cases hi : i < padding
  · rw [if_pos hi, decide_eq_false (by omega)]
    rfl
  · rw [if_neg hi, decide_eq_true (by omega)]
    rfl

theorem getElem?_pieces_paddedGguf (i : Nat) :
    (pieces (paddedGguf padding))[padding + i]?
      = Bpe.byteToChar[i]?.map fun c => String.ofList [c] := by
  rw [pieces_paddedGguf, List.getElem?_append_right (by simp), List.getElem?_map]
  simp

theorem exists_entryOf_paddedGguf {c : Char} (hc : c ∈ Bpe.byteToChar) :
    ∃ i, entryOf (pieces (paddedGguf padding)) (tokenTypes (paddedGguf padding))
      (String.ofList [c]) = some i := by
  obtain ⟨i, hi, rfl⟩ := List.getElem_of_mem hc
  have hmem : (String.ofList [Bpe.byteToChar[i]], padding + i)
      ∈ (pieces (paddedGguf padding)).zipIdx := by
    rw [List.mk_mem_zipIdx_iff_getElem?, getElem?_pieces_paddedGguf,
      List.getElem?_eq_getElem hi, Option.map_some]
  cases hentry : entryOf (pieces (paddedGguf padding)) (tokenTypes (paddedGguf padding))
      (String.ofList [Bpe.byteToChar[i]]) with
  | some j => exact ⟨j, rfl⟩
  | none =>
    have hnot := List.find?_eq_none.mp (Option.map_eq_none_iff.mp hentry) _ hmem
    rw [isOrdinary_paddedGguf] at hnot
    simp at hnot

/-- Every byte has its entry behind the padding. -/
theorem missingByte_paddedGguf :
    missingByte (loadLookup (pieces (paddedGguf padding)) (tokenTypes (paddedGguf padding)))
      = none := by
  rw [missingByte, List.find?_eq_none]
  rintro ⟨c, i⟩ hmem
  have hc : c ∈ Bpe.byteToChar :=
    List.mem_of_getElem? (List.mk_mem_zipIdx_iff_getElem?.mp hmem)
  obtain ⟨j, hj⟩ := exists_entryOf_paddedGguf padding hc
  have hget := getElem?_loadLookup (pieces (paddedGguf padding)) (tokenTypes (paddedGguf padding))
    (String.ofList [c])
  rw [hj, Option.map_some] at hget
  have hcontains := Std.ExtTreeMap.contains_iff_mem.mpr
    (Std.ExtTreeMap.mem_iff_isSome_getElem?.mpr (by rw [hget]; rfl))
  simp only [hcontains]
  exact Bool.false_ne_true

theorem fromGguf_paddedGguf : ∃ t, fromGguf (paddedGguf padding) = .ok t := by
  have hmerges : (loadMerges [Value.string "h i"]).isEmpty = false := by decide +kernel
  have hcomplete := missingByte_paddedGguf padding
  have hlength : Bpe.byteToChar.length ≠ 0 := by
    rw [length_byteToChar]
    decide
  have hpieces : pieces (paddedGguf padding)
      = (paddedTokens padding).map fun v => v.asStr.getD "" := by
    rw [pieces, paddedGguf_tokens]
    rfl
  have hne : (pieces (paddedGguf padding)).isEmpty = false := by
    rw [pieces_paddedGguf]
    cases hb : Bpe.byteToChar with
    | nil => exact absurd (by rw [hb]; rfl) hlength
    | cons c rest => simp
  have hstr : (Value.string "gpt2").asStr = some "gpt2" := rfl
  have harray : ∀ a, (Value.array a).asArray = some a := fun _ => rfl
  simp only [tokenTypes, paddedGguf_types, Option.bind_some, harray] at hcomplete
  unfold fromGguf
  simp only [paddedGguf_model, paddedGguf_tokens, paddedGguf_types, paddedGguf_merges,
    Option.bind_some, Option.getD_some, hstr, harray, ← hpieces, hne, hmerges, hcomplete]
  exact ⟨_, rfl⟩

theorem entryOf_letter : entryOf (pieces (paddedGguf padding)) (tokenTypes (paddedGguf padding)) "A"
    = some (padding + 65) := by
  have hat : Bpe.byteToChar[65]? = some 'A' := by decide +kernel
  have honly : ∀ i ∈ List.range 256, Bpe.byteToChar[i]? = some 'A' → i = 65 := by decide +kernel
  obtain ⟨i, hi⟩ := exists_entryOf_paddedGguf padding (List.mem_of_getElem? hat)
  have hi : entryOf (pieces (paddedGguf padding)) (tokenTypes (paddedGguf padding)) "A"
      = some i := hi
  obtain ⟨hget, hordinary, _⟩ := entryOf_spec hi
  rw [isOrdinary_paddedGguf, decide_eq_true_eq] at hordinary
  obtain ⟨j, rfl⟩ := Nat.exists_eq_add_of_le hordinary
  rw [getElem?_pieces_paddedGguf] at hget
  obtain ⟨c, hc, hA⟩ := Option.map_eq_some_iff.mp hget
  have hchar : c = 'A' := by
    have hlist := congrArg String.toList hA
    rw [String.toList_ofList] at hlist
    exact List.head_eq_of_cons_eq hlist
  have hlt := (List.getElem?_eq_some_iff.mp hc).1
  rw [length_byteToChar] at hlt
  rw [hi, honly j (List.mem_range.mpr hlt) (by rw [hc, hchar])]

end

theorem tile_one {ranges : List (Nat × Nat)} (h : Tile 0 ranges 1) : ranges = [(0, 1)] := by
  match ranges with
  | [] => exact absurd h Nat.zero_ne_one
  | (start, stop) :: rest =>
    obtain ⟨rfl, hlt, hrest⟩ := h
    have hle := tile_le hrest
    simp only at hlt hle hrest
    obtain rfl : stop = 1 := by omega
    cases rest with
    | nil => rfl
    | cons r rest =>
      obtain ⟨hr, hrlt, hrest⟩ := hrest
      have := tile_le hrest
      omega

/-- A text of one letter is one symbol. -/
theorem encode_letter {t : BpeTokenizer} (h : t.byteToChar = Bpe.byteToChar) (u : CharTables) :
    t.encode u "A" = t.symbolIds "A" := by
  have htile := tile_splitFrom u ['A'] 0 (Nat.zero_le _)
  have hsplit : split u "A" = [(0, 1)] := tile_one htile
  have hat : Bpe.byteToChar.getD 65 '\x00' = 'A' := by decide +kernel
  have hrewrite : t.rewrite (slice (utf8 "A".toList) (0, 1)) = ["A"] := by
    show [String.ofList [t.byteToChar.getD 65 '\x00']] = ["A"]
    rw [h, hat]
  have hmerge : t.merge ["A"] = ["A"] := by
    rw [merge]
    rfl
  rw [encode, hsplit, List.flatMap_singleton, hrewrite, hmerge, List.flatMap_singleton]

theorem symbolIds_letter {padding : Nat} {t : BpeTokenizer}
    (h : LoadedFrom (paddedGguf padding) t) :
    t.symbolIds "A" = [UInt32.ofNat (padding + 65)] := by
  rw [symbolIds, h.lookup, getElem?_loadLookup, entryOf_letter]
  rfl

/-- Padding is control tokens. -/
theorem entry_padding {padding : Nat} {t : BpeTokenizer} (h : LoadedFrom (paddedGguf padding) t)
    {id : Token} (hid : id.toNat < padding) :
    t.vocab.tokens[id.toNat]? = some { text := "<pad>", isSpecial := true } := by
  have hget : (pieces (paddedGguf padding))[id.toNat]? = some "<pad>" := by
    rw [pieces_paddedGguf, List.getElem?_append_left (by simpa using hid),
      List.getElem?_replicate, if_pos hid]
  rw [h.tokens, List.getElem?_map, List.getElem?_zipIdx, hget]
  simp [typeAt_paddedGguf, hid]

/-- Padding carries no text. -/
theorem tokenBytes_padding {padding : Nat} {t : BpeTokenizer}
    (h : LoadedFrom (paddedGguf padding) t) {id : Token} (hid : id.toNat < padding) :
    t.vocab.tokenBytes id = [] := by
  rw [Vocab.tokenBytes, entry_padding h hid]
  rfl

theorem decode_padding {padding : Nat} {t : BpeTokenizer}
    (h : LoadedFrom (paddedGguf padding) t) {id : Token} (hid : id.toNat < padding) :
    t.decode [id] = .ok "" := by
  have hlt := (List.getElem?_eq_some_iff.mp (entry_padding h hid)).1
  rw [decode, decodeBytes_eq (by simpa using hlt), List.flatMap_singleton, tokenBytes_padding h hid]
  show Except.ok (String.ofList (lossy [])) = .ok ""
  rw [lossy]

/-- The byte alphabet alone encodes every text. -/
theorem encode_lossless_alphabet : ∃ t, fromGguf (paddedGguf 0) = .ok t ∧
    ∀ (u : CharTables) (text : String), t.decode (t.encode u text) = .ok text := by
  obtain ⟨t, ht⟩ := fromGguf_paddedGguf 0
  have hlength : (pieces (paddedGguf 0)).length ≤ 2 ^ 32 := by
    rw [pieces_paddedGguf, List.length_append, List.length_replicate, List.length_map,
      length_byteToChar]
    decide
  exact ⟨t, ht, fun u text => ((encode_lossless ht).2 (narrow_of_length hlength) u text).2⟩

/-- **Behind `2^32` control tokens the byte alphabet is lost**: every id wraps round to one of
them. -/
theorem encode_wraps : ∃ t, fromGguf (paddedGguf (2 ^ 32)) = .ok t ∧
    (∀ u : CharTables, t.encode u "A" = [65]) ∧
    typeAt (tokenTypes (paddedGguf (2 ^ 32))) 65 = typeControl ∧ t.decode [65] = .ok "" := by
  obtain ⟨t, ht⟩ := fromGguf_paddedGguf (2 ^ 32)
  have hloaded := fromGguf_loadedFrom ht
  have hwrap : UInt32.ofNat (2 ^ 32 + 65) = 65 := by decide
  refine ⟨t, ht, fun u => ?_, ?_, ?_⟩
  · rw [encode_letter hloaded.byteToChar, symbolIds_letter hloaded, hwrap]
  · rw [typeAt_paddedGguf, if_pos (by decide)]
  · exact decode_padding hloaded (by decide)

end BpeTokenizer

end Garuda
