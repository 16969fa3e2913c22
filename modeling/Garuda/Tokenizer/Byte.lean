import Garuda.Tokenizer.Stream

/-!
# The byte tokenizer

One token for each byte: ids `0..4` are special, ids `4..260` are the byte values.

* `Tokenizer.encode` and `Tokenizer.decode` are the batch directions.
* `StreamDecoder.push` and `StreamDecoder.finish` decode as tokens come in.

`Tokenizer.text_eq_decode_iff` says for which tokens streaming and batch agree at every length.
-/

namespace Garuda

open Infra

def pad : Token := 0
def bos : Token := 1
def eos : Token := 2
def unk : Token := 3

/-- First id that stands for a raw byte. -/
def byteOffset : Token := 4
def nSpecial : Nat := 4
def vocabSize : Nat := nSpecial + 256

namespace Tokenizer

/-- Ids that carry no text. -/
def isSpecial (token : Token) : Bool := token < byteOffset

def encode (text : String) : List Token :=
  (utf8 text.toList).map fun b => byteOffset + b.toUInt32

/-- The loop of `decode`: the bytes the tokens stand for. -/
def decodeBytes : List Token → Except GarudaError Bytes
  | [] => .ok []
  | t :: ts =>
    if isSpecial t then decodeBytes ts
    else if t ≥ UInt32.ofNat vocabSize then .error (.invalidToken t)
    else (decodeBytes ts).map ((t - byteOffset).toUInt8 :: ·)

/-- Inverse of `encode`. Special ids are skipped. -/
def decode (tokens : List Token) : Except GarudaError String :=
  (decodeBytes tokens).map fun bytes => String.ofList (lossy bytes)

end Tokenizer

/-- `impl Tokenize for Tokenizer` -/
def Tokenizer.byteLevel : Tokenize where
  encode := Tokenizer.encode
  encodeFragment := Tokenizer.encode
  tokenId _ := none
  decode := Tokenizer.decode
  eos := Garuda.eos
  vocabSize := Garuda.vocabSize

/-! ## Streaming -/

structure StreamDecoder where
  pending : Bytes

namespace StreamDecoder

def new : StreamDecoder := { pending := [] }

/-- Feed one token; returns whatever text is complete as a result. -/
def push (d : StreamDecoder) (token : Token) : String × StreamDecoder :=
  if token < byteOffset ∨ token ≥ UInt32.ofNat vocabSize then ("", d)
  else
    let pending := d.pending ++ [(token - byteOffset).toUInt8]
    match drainPending pending with
    | .invalid => (String.ofList [replacement], { pending := [] })
    | .hold => ("", { pending })
    | .text out rest => (String.ofList out, { pending := rest })

/-- Flush trailing bytes that never completed a character. -/
def finish (d : StreamDecoder) : String × StreamDecoder :=
  if d.pending.isEmpty then ("", d) else (String.ofList (lossy d.pending), { pending := [] })

end StreamDecoder

def Tokenizer.streamDecoder : StreamDecode StreamDecoder where
  push := StreamDecoder.push
  finish := StreamDecoder.finish

/-! ## What a token stands for -/

namespace Tokenizer

def tokenBytes (t : Token) : Bytes :=
  if t < byteOffset ∨ t ≥ UInt32.ofNat vocabSize then [] else [(t - byteOffset).toUInt8]

theorem pushable_tokenBytes (t : Token) : Pushable (tokenBytes t) := by
  left
  unfold tokenBytes
  split <;> simp

theorem decodeBytes_ok : ∀ {tokens : List Token} {bytes : Bytes},
    decodeBytes tokens = .ok bytes → bytes = tokens.flatMap tokenBytes
  | [], bytes, h => by cases h; rfl
  | t :: ts, bytes, h => by
    rw [decodeBytes] at h
    rw [List.flatMap_cons, tokenBytes]
    split at h
    next hs =>
      have hs : t < byteOffset := by simpa [isSpecial] using hs
      rw [if_pos (.inl hs), List.nil_append]
      exact decodeBytes_ok h
    next hs =>
      have hs : ¬ t < byteOffset := by simpa [isSpecial] using hs
      split at h
      · cases h
      next hv =>
        rw [if_neg (not_or.mpr ⟨hs, hv⟩)]
        cases hr : decodeBytes ts with
        | error e => rw [hr] at h; cases h
        | ok rest =>
          rw [hr] at h
          cases h
          rw [decodeBytes_ok hr]
          rfl

theorem decodeBytes_take {tokens : List Token} {bytes : Bytes}
    (h : decodeBytes tokens = .ok bytes) (k : Nat) :
    ∃ bytes', decodeBytes (tokens.take k) = .ok bytes' := by
  induction tokens generalizing bytes k with
  | nil =>
    rw [List.take_nil]
    exact ⟨bytes, h⟩
  | cons t ts ih =>
    cases k with
    | zero => exact ⟨[], rfl⟩
    | succ k =>
      rw [decodeBytes] at h
      rw [List.take_succ_cons, decodeBytes]
      split at h
      next hs =>
        rw [if_pos hs]
        exact ih h k
      next hs =>
        rw [if_neg hs]
        split at h
        · cases h
        next hv =>
          rw [if_neg hv]
          cases hr : decodeBytes ts with
          | error e => rw [hr] at h; cases h
          | ok rest =>
            obtain ⟨bytes', hb⟩ := ih hr k
            rw [hb]
            exact ⟨_, rfl⟩

/-- Every prefix of tokens that decode decodes to the lossy reading of its bytes. -/
theorem decode_take {tokens : List Token} {s : String} (h : decode tokens = .ok s) (k : Nat) :
    decode (tokens.take k) = .ok (String.ofList (lossy ((tokens.take k).flatMap tokenBytes))) := by
  rw [decode] at h
  cases hb : decodeBytes tokens with
  | error e => rw [hb] at h; cases h
  | ok bytes =>
    obtain ⟨bytes', hb'⟩ := decodeBytes_take hb k
    rw [decode, hb', decodeBytes_ok hb']
    rfl

/-! ## Streaming against batch -/

theorem push_eq_feed {d : StreamDecoder} (hd : Held d.pending) (t : Token) :
    (Reader.feed ⟨d.pending, false⟩ (tokenBytes t))
      = ((d.push t).1.toList, ⟨(d.push t).2.pending, false⟩) := by
  unfold StreamDecoder.push tokenBytes
  split
  · cases hp : d.pending with
    | nil => simp [Reader.feed, drainPending_ok fromUtf8_nil]
    | cons a q =>
      rw [hp] at hd
      simp [Reader.feed, drainPending_incomplete hd]
  · simp only [Reader.feed]
    cases drainPending (d.pending ++ [(t - byteOffset).toUInt8]) with
    | text out rest => simp
    | invalid => simp
    | hold => simp

theorem text_eq_feedAll {d : StreamDecoder} (hd : Held d.pending) (tokens : List Token) :
    (streamDecoder.text d tokens).toList
      = Reader.feedAll ⟨d.pending, false⟩ (tokens.map tokenBytes) := by
  induction tokens generalizing d with
  | nil =>
    show (d.finish).1.toList = lossy d.pending
    unfold StreamDecoder.finish
    split
    next h =>
      rw [List.isEmpty_iff.mp h]
      simp
    · simp
  | cons t ts ih =>
    have hfeed := push_eq_feed hd t
    have hheld : Held (d.push t).2.pending := by
      have := held_feed (d := ⟨d.pending, false⟩) hd (pushable_tokenBytes t)
      rwa [hfeed] at this
    rw [StreamDecode.text, String.toList_append, List.map_cons, Reader.feedAll, hfeed]
    exact congrArg _ (ih hheld)

/-- **Streaming and batch agree at every length exactly when no byte spoils a character.** -/
theorem text_eq_decode_iff {tokens : List Token} {s : String} (h : decode tokens = .ok s) :
    (∀ k, decode (tokens.take k) = .ok (streamDecoder.text .new (tokens.take k))) ↔
      unspoilt (tokens.flatMap tokenBytes) = true := by
  have hus : ∀ u ∈ tokens.map tokenBytes, Pushable u := by
    intro u hu
    obtain ⟨t, -, rfl⟩ := List.mem_map.mp hu
    exact pushable_tokenBytes t
  have hk : ∀ k, decode (tokens.take k) = .ok (streamDecoder.text .new (tokens.take k)) ↔
      Reader.feedAll ⟨[], false⟩ ((tokens.map tokenBytes).take k)
        = reading false false ((tokens.map tokenBytes).take k).flatten := by
    intro k
    rw [decode_take h k, Except.ok.injEq, ← String.toList_inj, String.toList_ofList,
      text_eq_feedAll (d := .new) trivial, ← List.map_take, ← List.flatMap_def]
    exact eq_comm
  rw [List.flatMap_def, forall_congr' hk, feedAll_take_iff hus]
  simp [faulty]

end Tokenizer

end Garuda
