import Garuda.Gguf.Document
import Garuda.Tokenizer.Stream

/-!
# The byte-level BPE vocabulary

Loading a gpt2 vocabulary out of a GGUF file, and decoding with it.

* `Bpe.byteToChar` is the table that gives every byte a printable character.
* `BpeTokenizer.fromGguf` builds the tables: the pieces, the merges and their ranks.
* `BpeTokenizer.decode` is batch decoding; `BpeTokenizer.streamDecoder` decodes token by token.

`BpeTokenizer.text_eq_decode` says that the two agree on every token sequence.
-/

namespace Garuda

open Infra

namespace Bpe

def typeControl : UInt64 := 3
def typeUserDefined : UInt64 := 4
def typeUnused : UInt64 := 5

/-! ## Bytes as characters -/

def printable (b : Nat) : Bool :=
  (0x21 ≤ b && b < 0x7F) || (0xA1 ≤ b && b < 0xAD) || (0xAE ≤ b && b < 0x100)

/-- The characters of the bytes from `b` on; `next` of the bytes before were displaced. -/
def charsFrom : Nat → Nat → Nat → List Char
  | 0, _, _ => []
  | left + 1, b, next =>
    if printable b then Char.ofNat b :: charsFrom left (b + 1) next
    else Char.ofNat (0x100 + next) :: charsFrom left (b + 1) (next + 1)

/-- `byte_to_char()`. -/
def byteToChar : List Char := charsFrom 256 0 0

def charToByte : Std.ExtTreeMap Char UInt8 :=
  byteToChar.zipIdx.foldl (fun m (c, b) => m.insert c (UInt8.ofNat b)) ∅

/-! ## The decode side -/

/-- One entry of the vocabulary, from the parallel tables of the decode side. -/
structure Entry where
  text : String
  /-- Control and unused entries, which carry no text. -/
  isSpecial : Bool

structure Vocab where
  tokens : List Entry
  charToByte : Std.ExtTreeMap Char UInt8

/-- One token's raw bytes. -/
def Vocab.tokenBytes (v : Vocab) (id : Token) : Bytes :=
  match v.tokens[id.toNat]? with
  | none => []
  | some e =>
    if e.isSpecial then []
    else
      e.text.toList.flatMap fun ch =>
        match v.charToByte[ch]? with
        | some b => [b]
        -- a user-defined entry can hold text outside the byte alphabet
        | none => String.utf8EncodeChar ch

end Bpe

/-! ## Loading -/

structure BpeTokenizer where
  vocab : Bpe.Vocab
  lookup : Std.ExtTreeMap String Token
  /-- `(left, right)` and its rank, the entry inserted last first. -/
  merges : List ((String × String) × UInt32)
  byteToChar : List Char
  eos : Token

namespace Bpe

/-- `str::split_once(' ')`. -/
def splitOnce (s : String) : Option (String × String) :=
  match s.toList.dropWhile (· ≠ ' ') with
  | [] => none
  | _ :: right => some (String.ofList (s.toList.takeWhile (· ≠ ' ')), String.ofList right)

def loadMerges (list : List Value) : List ((String × String) × UInt32) :=
  list.zipIdx.foldl (fun merges (entry, rank) =>
    match entry.asStr.bind splitOnce with
    | some pair => (pair, UInt32.ofNat rank) :: merges
    | none => merges) []

def typeAt (types : List UInt64) (i : Nat) : UInt64 := types[i]?.getD 1

/-- Ids reachable by merging ordinary text. -/
def loadLookup (tokens : List String) (types : List UInt64) : Std.ExtTreeMap String Token :=
  tokens.zipIdx.foldl (fun lookup (tok, id) =>
    let t := typeAt types id
    if t = typeControl ∨ t = typeUnused ∨ t = typeUserDefined then lookup
    else lookup.insertIfNew tok (UInt32.ofNat id)) ∅

/-- `{b:#04x}`. -/
def hexByte (b : Nat) : String :=
  "0x" ++ String.ofList [Nat.digitChar (b / 16), Nat.digitChar (b % 16)]

/-- The first byte whose character the vocabulary does not name. -/
def missingByte (lookup : Std.ExtTreeMap String Token) : Option (Char × Nat) :=
  byteToChar.zipIdx.find? fun (c, _) => !lookup.contains (String.ofList [c])

end Bpe

namespace BpeTokenizer

open Bpe

/-- Load the vocabulary and merge list from a parsed GGUF file. -/
def fromGguf (g : Gguf) : Except GarudaError BpeTokenizer :=
  let model := ((g.get "tokenizer.ggml.model").bind Value.asStr).getD ""
  if model ≠ "gpt2" then
    .error (.model s!"tokenizer model '{model}' is not byte-level BPE")
  else
    match (g.get "tokenizer.ggml.tokens").bind Value.asArray with
    | none => .error (.model "gguf has no token list")
    | some tokArr =>
      let tokens := tokArr.map fun v => v.asStr.getD ""
      if tokens.isEmpty then .error (.model "gguf token list is empty")
      else
        let types := match (g.get "tokenizer.ggml.token_type").bind Value.asArray with
          | some a => a.map fun v => v.asU64.getD 1
          | none => List.replicate tokens.length 1
        let merges := loadMerges
          (((g.get "tokenizer.ggml.merges").bind Value.asArray).getD [])
        if merges.isEmpty then
          .error (.model "gguf has no BPE merge list, so its vocabulary cannot be applied")
        else
          let lookup := loadLookup tokens types
          match missingByte lookup with
          | some (c, b) => .error (.model (s!"this vocabulary has no entry for byte {hexByte b} "
              ++ s!"('{c}'), so it cannot encode arbitrary text"))
          | none => .ok {
              vocab := {
                tokens := tokens.zipIdx.map fun (text, i) =>
                  { text, isSpecial := typeAt types i = typeControl ∨ typeAt types i = typeUnused }
                charToByte }
              lookup
              merges
              byteToChar := Bpe.byteToChar
              eos := (((g.get "tokenizer.ggml.eos_token_id").bind Value.asU64).map
                UInt64.toUInt32).getD 0 }

/-! ## Decoding -/

/-- The loop of `decode`: the bytes the tokens stand for. -/
def decodeBytes (t : BpeTokenizer) : List Token → Except GarudaError Bytes
  | [] => .ok []
  | id :: ids =>
    if id.toNat ≥ t.vocab.tokens.length then .error (.invalidToken id)
    else (decodeBytes t ids).map (t.vocab.tokenBytes id ++ ·)

def decode (t : BpeTokenizer) (tokens : List Token) : Except GarudaError String :=
  (t.decodeBytes tokens).map fun bytes => String.ofList (lossy bytes)

/-- One push into a stream decoder, whose state is its pending bytes. -/
def push (v : Vocab) (pending : Bytes) (token : Token) : String × Bytes :=
  let pending := pending ++ v.tokenBytes token
  match fromUtf8 pending with
  | .ok s => (String.ofList s, [])
  | .error e =>
    -- everything up to the incomplete tail goes out, and the tail stays
    (String.ofList (lossy (pending.take e.validUpTo)), pending.drop e.validUpTo)

def finish (pending : Bytes) : String × Bytes := (String.ofList (lossy pending), [])

def streamDecoder (t : BpeTokenizer) : StreamDecode Bytes where
  push := push t.vocab
  finish := finish

/-! ## Streaming against batch -/

/-- What a push emits is read off the pending bytes, whatever follows them. -/
theorem push_lossy (v : Vocab) (pending : Bytes) (token : Token) (t : Bytes) :
    lossy (pending ++ v.tokenBytes token ++ t)
      = (push v pending token).1.toList ++ lossy ((push v pending token).2 ++ t) := by
  simp only [push]
  split
  next s hs =>
    rw [String.toList_ofList, List.nil_append]
    exact lossy_append_of_ok t hs
  next e he =>
    obtain ⟨cs, hcs⟩ := fromUtf8_take he
    rw [String.toList_ofList, lossy_of_ok hcs, ← lossy_append_of_ok _ hcs, ← List.append_assoc,
      List.take_append_drop]

theorem text_eq_lossy (t : BpeTokenizer) (pending : Bytes) (tokens : List Token) :
    (t.streamDecoder.text pending tokens).toList
      = lossy (pending ++ tokens.flatMap t.vocab.tokenBytes) := by
  induction tokens generalizing pending with
  | nil =>
    rw [List.flatMap_nil, List.append_nil]
    exact String.toList_ofList
  | cons id ids ih =>
    rw [StreamDecode.text, String.toList_append, List.flatMap_cons, ← List.append_assoc]
    exact (congrArg _ (ih _)).trans (push_lossy t.vocab pending id _).symm

theorem decodeBytes_ok {t : BpeTokenizer} : ∀ {tokens : List Token} {bytes : Bytes},
    t.decodeBytes tokens = .ok bytes → bytes = tokens.flatMap t.vocab.tokenBytes
  | [], bytes, h => by cases h; rfl
  | id :: ids, bytes, h => by
    rw [decodeBytes] at h
    split at h
    · cases h
    · cases hr : t.decodeBytes ids with
      | error e => rw [hr] at h; cases h
      | ok rest =>
        rw [hr] at h
        cases h
        rw [List.flatMap_cons, decodeBytes_ok hr]

/-- **Pushing the tokens one by one and then finishing is decoding them all at once.** -/
theorem text_eq_decode (t : BpeTokenizer) (tokens : List Token) (s : String)
    (h : t.decode tokens = .ok s) : t.streamDecoder.text [] tokens = s := by
  rw [decode] at h
  cases hb : t.decodeBytes tokens with
  | error e => rw [hb] at h; cases h
  | ok bytes =>
    rw [hb] at h
    rw [← Except.ok.inj h, ← String.toList_inj, String.toList_ofList, text_eq_lossy,
      decodeBytes_ok hb]
    rfl

end BpeTokenizer

end Garuda
