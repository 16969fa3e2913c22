import Garuda.Gguf.Document
import Garuda.Tokenizer.Byte

/-!
# The SentencePiece vocabulary

Loading a llama vocabulary out of a GGUF file, and decoding with it.

* `SpmTokenizer.fromGguf` builds the tables: the pieces by id, the ids by piece, the tokens that
  stand for bytes.
* `SpmTokenizer.decode` is batch decoding; `SpmTokenizer.streamDecoder` decodes token by token.

`SpmTokenizer.text_eq_decode_iff` says for which tokens the two agree at every length.
-/

namespace Garuda

open Infra

namespace Spm

def typeControl : UInt64 := 3
def typeByte : UInt64 := 6

/-- The mark SentencePiece uses for a space. -/
def spaceMark : Char := Char.ofNat 0x2581

/-- One entry of the vocabulary, from the parallel tables of the decode side and the scores. -/
structure Entry where
  text : String
  score : F32
  /-- The byte of a byte-fallback token. -/
  byteValue : Option UInt8
  isControl : Bool

structure Vocab where
  tokens : List Entry
  bos : Token
  eos : Token

/-- A piece with its space marks turned back into spaces. -/
def unmarked (text : List Char) : List Char :=
  text.map fun ch => if ch = spaceMark then ' ' else ch

/-- One token's raw bytes. -/
def Vocab.tokenBytes (v : Vocab) (id : Token) : Bytes :=
  match v.tokens[id.toNat]? with
  | none => []
  | some e =>
    if e.isControl || id == v.bos || id == v.eos then []
    else
      match e.byteValue with
      | some b => [b]
      | none => utf8 (unmarked e.text.toList)

/-! ## Byte-fallback pieces -/

def hexDigit (c : Char) : Option Nat :=
  if '0' ≤ c ∧ c ≤ '9' then some (c.toNat - '0'.toNat)
  else if 'a' ≤ c ∧ c ≤ 'f' then some (c.toNat - 'a'.toNat + 10)
  else if 'A' ≤ c ∧ c ≤ 'F' then some (c.toNat - 'A'.toNat + 10)
  else none

/-- `u8::from_str_radix(s, 16)`. -/
def u8FromHex (s : List Char) : Option UInt8 :=
  -- a sign may stand before digits, and no digits are no number
  let digits := match s with
    | '+' :: c :: rest => c :: rest
    | s => s
  if digits.isEmpty then none
  else
    (digits.foldlM (fun n c => do
      let d ← hexDigit c
      if n * 16 + d < 256 then some (n * 16 + d) else none) 0).map UInt8.ofNat

/-- The byte of a piece such as `<0xAB>`. -/
def parseByteToken (s : String) : Option UInt8 :=
  match s.toList with
  | '<' :: '0' :: 'x' :: rest =>
    if rest.getLast? = some '>' then u8FromHex rest.dropLast else none
  | _ => none

example : parseByteToken "<0x41>" = some 0x41 := by decide
example : parseByteToken "<s>" = none := by decide

end Spm

/-! ## Loading -/

structure SpmTokenizer where
  vocab : Spm.Vocab
  lookup : Std.ExtTreeMap String Token
  byteToken : UInt8 → Token
  unk : Token
  addBos : Bool

namespace Spm

/-- The tables while the tokens are read. -/
structure Tables where
  tokens : List Entry
  lookup : Std.ExtTreeMap String Token
  byteToken : UInt8 → Token

def Tables.empty : Tables := { tokens := [], lookup := ∅, byteToken := fun _ => 0 }

/-- Read token `i`, whose text is `s`. -/
def Tables.add (scores types : Option (List Value)) (t : Tables) (s : String) : Tables :=
  let i := t.tokens.length
  let score := ((scores.bind (·[i]?)).bind Value.asF32).getD ⟨0⟩
  let ttype := ((types.bind (·[i]?)).bind Value.asU64).getD 1
  let byteValue := if ttype = typeByte then parseByteToken s else none
  { tokens := t.tokens ++ [{ text := s, score, byteValue, isControl := ttype = typeControl }]
    -- the first token of a text keeps it
    lookup := t.lookup.insertIfNew s (UInt32.ofNat i)
    byteToken := match byteValue with
      | some b => Function.update t.byteToken b (UInt32.ofNat i)
      | none => t.byteToken }

def Tables.load (scores types : Option (List Value)) : Tables → List Value →
    Except GarudaError Tables
  | t, [] => .ok t
  | t, tv :: rest =>
    match tv.asStr with
    | none => .error (.model "a token is not a string")
    | some s => Tables.load scores types (t.add scores types s) rest

end Spm

namespace SpmTokenizer

open Spm

/-- Load the vocabulary from a parsed GGUF file. -/
def fromGguf (g : Gguf) : Except GarudaError SpmTokenizer :=
  let model := ((g.get "tokenizer.ggml.model").bind Value.asStr).getD ""
  if model ≠ "llama" then
    .error (.model s!"tokenizer model '{model}' is not supported (only llama SPM)")
  else
    match (g.get "tokenizer.ggml.tokens").bind Value.asArray with
    | none => .error (.model "gguf has no tokenizer.ggml.tokens")
    | some tokArr =>
      let scoreArr := (g.get "tokenizer.ggml.scores").bind Value.asArray
      let typeArr := (g.get "tokenizer.ggml.token_type").bind Value.asArray
      let id (key : String) (default : Token) : Token :=
        (((g.get key).bind Value.asU64).map UInt64.toUInt32).getD default
      match Tables.load scoreArr typeArr .empty tokArr with
      | .error e => .error e
      | .ok t => .ok {
          vocab := {
            tokens := t.tokens
            bos := id "tokenizer.ggml.bos_token_id" 1
            eos := id "tokenizer.ggml.eos_token_id" 2 }
          lookup := t.lookup
          byteToken := t.byteToken
          unk := id "tokenizer.ggml.unknown_token_id" 0
          addBos := ((g.get "tokenizer.ggml.add_bos_token").bind Value.asBool).getD true }

/-- What reading one more token preserves holds of the tables that are read. -/
theorem load_invariant {P : Tables → Prop} {scores types : Option (List Value)}
    (hadd : ∀ tables s, P tables → P (tables.add scores types s)) (values : List Value) :
    ∀ {tables out : Tables}, Tables.load scores types tables values = .ok out → P tables →
      P out := by
  induction values with
  | nil =>
    intro tables out hload h
    cases hload
    exact h
  | cons v values ih =>
    intro tables out hload h
    rw [Tables.load] at hload
    split at hload
    · cases hload
    next s _ => exact ih hload (hadd tables s h)

/-- What is true of no tokens, and stays true, is true of a loaded vocabulary. -/
theorem fromGguf_invariant {P : Tables → Prop} (hempty : P .empty)
    (hadd : ∀ scores types tables s, P tables → P (tables.add scores types s)) {g : Gguf}
    {t : SpmTokenizer} (h : fromGguf g = .ok t) :
    P { tokens := t.vocab.tokens, lookup := t.lookup, byteToken := t.byteToken } := by
  unfold fromGguf at h
  simp only at h
  split at h
  · cases h
  · split at h
    · cases h
    · split at h
      · cases h
      next out hload =>
        cases h
        exact load_invariant (hadd _ _) _ hload hempty

/-! ## Decoding -/

def decode (t : SpmTokenizer) (tokens : List Token) : Except GarudaError String :=
  .ok (String.ofList (stripSpace (lossy (tokens.flatMap t.vocab.tokenBytes))))

/-- `SpmStreamDecoder` is a `Reader` that turns each token into bytes first. -/
def push (v : Vocab) (d : Reader) (token : Token) : String × Reader :=
  let (out, d) := d.feed (v.tokenBytes token)
  (String.ofList out, d)

def finish (d : Reader) : String × Reader :=
  if d.pending.isEmpty then ("", d)
  else (String.ofList (lossy d.pending), { d with pending := [] })

def streamDecoder (t : SpmTokenizer) : StreamDecode Reader where
  push := push t.vocab
  finish := finish

def newStreamDecoder : Reader := { pending := [], atStart := true }

/-! ## Streaming against batch -/

theorem pushable_tokenBytes (v : Vocab) (id : Token) : Pushable (v.tokenBytes id) := by
  unfold Vocab.tokenBytes
  split
  · exact .inl (Nat.zero_le 1)
  next e _ =>
    split
    · exact .inl (Nat.zero_le 1)
    · split
      · exact .inl (Nat.le_refl 1)
      · exact .inr ⟨_, rfl⟩

theorem text_eq_feedAll (t : SpmTokenizer) (d : Reader) (tokens : List Token) :
    (t.streamDecoder.text d tokens).toList = d.feedAll (tokens.map t.vocab.tokenBytes) := by
  induction tokens generalizing d with
  | nil =>
    show (finish d).1.toList = lossy d.pending
    unfold finish
    split
    next h =>
      rw [List.isEmpty_iff.mp h]
      simp
    · simp
  | cons id tokens ih =>
    rw [StreamDecode.text, String.toList_append, List.map_cons, Reader.feedAll, ih]
    simp [streamDecoder, push]

/-- **Streaming and batch agree at every length exactly when no byte spoils a character and no
replaced byte stands before a leading space.** -/
theorem text_eq_decode_iff (t : SpmTokenizer) (tokens : List Token) :
    (∀ k, t.decode (tokens.take k) = .ok (t.streamDecoder.text newStreamDecoder (tokens.take k))) ↔
      unspoilt (tokens.flatMap t.vocab.tokenBytes) = true ∧
        spaceAfterInvalid (tokens.flatMap t.vocab.tokenBytes) = false := by
  have hus : ∀ u ∈ tokens.map t.vocab.tokenBytes, Pushable u := by
    intro u hu
    obtain ⟨id, -, rfl⟩ := List.mem_map.mp hu
    exact pushable_tokenBytes t.vocab id
  have hk : ∀ k,
      t.decode (tokens.take k) = .ok (t.streamDecoder.text newStreamDecoder (tokens.take k)) ↔
      Reader.feedAll ⟨[], true⟩ ((tokens.map t.vocab.tokenBytes).take k)
        = reading true false ((tokens.map t.vocab.tokenBytes).take k).flatten := by
    intro k
    rw [decode, Except.ok.injEq, ← String.toList_inj, String.toList_ofList, text_eq_feedAll,
      ← List.map_take, ← List.flatMap_def]
    exact eq_comm
  rw [List.flatMap_def, forall_congr' hk, feedAll_take_iff hus]
  simp [faulty]

end SpmTokenizer

/-! ## Both tokenizers -/

/-- **Streaming and batch agree at every length of a token sequence exactly when** no byte spoils
an incomplete character and, for a SentencePiece vocabulary, no replaced byte stands before a
leading space. -/
theorem streaming_eq_batch_iff (tokens : List Token) :
    (∀ s, Tokenizer.decode tokens = .ok s →
      ((∀ k, Tokenizer.decode (tokens.take k)
          = .ok (Tokenizer.streamDecoder.text .new (tokens.take k))) ↔
        unspoilt (tokens.flatMap Tokenizer.tokenBytes) = true)) ∧
    (∀ g t, SpmTokenizer.fromGguf g = .ok t →
      ((∀ k, t.decode (tokens.take k)
          = .ok (t.streamDecoder.text SpmTokenizer.newStreamDecoder (tokens.take k))) ↔
        unspoilt (tokens.flatMap t.vocab.tokenBytes) = true ∧
          spaceAfterInvalid (tokens.flatMap t.vocab.tokenBytes) = false)) :=
  ⟨fun _ h => Tokenizer.text_eq_decode_iff h,
    fun _ t _ => SpmTokenizer.text_eq_decode_iff t tokens⟩

/-- A vocabulary with two byte-fallback tokens. -/
def byteFallbackGguf : Gguf where
  version := 3
  metadata := ((∅ : Metadata).insert "tokenizer.ggml.model" (.string "llama")).insert
    "tokenizer.ggml.tokens" (.array [.string "<unk>", .string "<s>", .string "</s>",
      .string "<0xE2>", .string "<0xFF>", .string "A", .string "\u2581A"]) |>.insert
    "tokenizer.ggml.token_type" (.array [.u32 2, .u32 3, .u32 3, .u32 6, .u32 6, .u32 1, .u32 1])
  tensors := []
  dataOffset := 0

theorem eq_ok_of_toOption {ε α : Type} {x : Except ε α} {a : α} (h : x.toOption = some a) :
    x = .ok a := by
  cases x with
  | error e => cases h
  | ok b => exact congrArg Except.ok (Option.some.inj h)

theorem streaming_eq_batch_iff_short :
    (∀ k, Tokenizer.decode (List.take k [199, 173])
      = .ok (Tokenizer.streamDecoder.text .new (List.take k [199, 173]))) ∧
    ∃ t, SpmTokenizer.fromGguf byteFallbackGguf = .ok t ∧
      ∀ k, t.decode (List.take k [6, 4, 5])
        = .ok (t.streamDecoder.text SpmTokenizer.newStreamDecoder (List.take k [6, 4, 5])) := by
  have hbytes : Tokenizer.decode [199, 173] = .ok "é" := by decide +kernel
  have hspm : (SpmTokenizer.fromGguf byteFallbackGguf).toOption.any (fun t => decide (
      unspoilt ([6, 4, 5].flatMap t.vocab.tokenBytes) = true ∧
      spaceAfterInvalid ([6, 4, 5].flatMap t.vocab.tokenBytes) = false)) = true := by
    decide +kernel
  obtain ⟨t, ht, hclean⟩ := (Option.any_eq_true _ _).mp hspm
  have hload := eq_ok_of_toOption ht
  exact ⟨((streaming_eq_batch_iff _).1 _ hbytes).mpr (by decide +kernel), t, hload,
    ((streaming_eq_batch_iff _).2 _ t hload).mpr (of_decide_eq_true hclean)⟩

/-- The bytes `E2 41` lose their `A` in both decoders, and the bytes `FF 20 41` their space in
SentencePiece's. -/
theorem streaming_drops_text :
    (Tokenizer.decode [230, 69] = .ok "\uFFFDA" ∧
      Tokenizer.streamDecoder.text .new [230, 69] = "\uFFFD") ∧
    ∃ t, SpmTokenizer.fromGguf byteFallbackGguf = .ok t ∧
      (t.decode [3, 5] = .ok "\uFFFDA" ∧
        t.streamDecoder.text SpmTokenizer.newStreamDecoder [3, 5] = "\uFFFD") ∧
      (t.decode [4, 6] = .ok "\uFFFD A" ∧
        t.streamDecoder.text SpmTokenizer.newStreamDecoder [4, 6] = "\uFFFDA") := by
  refine ⟨by decide +kernel, ?_⟩
  have h : (SpmTokenizer.fromGguf byteFallbackGguf).toOption.any (fun t => decide (
      (t.decode [3, 5] = .ok "\uFFFDA" ∧
        t.streamDecoder.text SpmTokenizer.newStreamDecoder [3, 5] = "\uFFFD") ∧
      (t.decode [4, 6] = .ok "\uFFFD A" ∧
        t.streamDecoder.text SpmTokenizer.newStreamDecoder [4, 6] = "\uFFFDA"))) = true := by
    decide +kernel
  obtain ⟨t, ht, hd⟩ := (Option.any_eq_true _ _).mp h
  exact ⟨t, eq_ok_of_toOption ht, of_decide_eq_true hd⟩

end Garuda
