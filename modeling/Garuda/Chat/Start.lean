import Garuda.Chat.Encode
import Garuda.Tokenizer.SpmControl

/-!
# How a chat prompt starts

A prompt that opens with a marker is to open with the checkpoint's leading token first, for which
the renderer encodes the empty text.

* `Drives` — a tokenizer of the renderer is this SentencePiece one, wherever that one returns
* `StartsCleanly` — the leading token, if any, and the marker right behind it
* `encodeChat_lead` — what a prompt starts with: the tokens of a space mark stand in between

`startsCleanly_iff` says when these are none but the marker itself.
-/

namespace Garuda.Chat

open Infra Infra.Merging Spm

/-- The marker that a format's prompt opens with, if its first piece is one. -/
def ChatFormat.firstMarker (fmt : ChatFormat) (role : String) : Option String :=
  match fmt.prefixPieces role with
  | .marker m :: _ => some m
  | _ => none

variable {t : SpmTokenizer} {b : Build} {tk : Tokenize} {fmt : ChatFormat} {role m : String}
  {id : Token}

theorem prefixPieces_of_firstMarker (h : fmt.firstMarker role = some m) :
    ∃ ps, fmt.prefixPieces role = .marker m :: ps := by
  rw [ChatFormat.firstMarker] at h
  split at h
  next m' ps hps =>
    cases h
    exact ⟨ps, hps⟩
  · cases h

/-- The renderer's tokenizer is `t`, as far as `t` returns. -/
structure Drives (t : SpmTokenizer) (b : Build) (tk : Tokenize) : Prop where
  encode : ∀ s ids, t.encode b s = .ok ids → tk.encode s = ids
  fragment : ∀ s ids, t.encodeFragment b s = .ok ids → tk.encodeFragment s = ids
  tokenId : ∀ s, tk.tokenId s = t.lookup[s]?
  eos : tk.eos = t.vocab.eos

/-- The empty text is the leading token and the space mark that SentencePiece puts before a text. -/
theorem encode_empty (ht : t.InRange) (b : Build) :
    t.encode b "" = .ok (t.leading true ++ t.pieceTokens [spaceMark]) := by
  have hnorm : normalize "".toList true = [spaceMark] := rfl
  obtain ⟨qs, hqs, heq⟩ := SpmTokenizer.encodeSpm_merges ht b "" true (by rw [hnorm]; decide)
  rw [hnorm] at hqs
  rw [SpmTokenizer.encode, heq, merges_unique hqs (merges_letter spaceMark), List.flatMap_singleton]

theorem pieceTokens_ne_nil (t : SpmTokenizer) : t.pieceTokens [spaceMark] ≠ [] := by
  rw [SpmTokenizer.pieceTokens]
  cases t.lookup[String.ofList [spaceMark]]? with
  | some id => exact List.cons_ne_nil id []
  | none => exact List.cons_ne_nil (t.byteToToken 0xE2) _

/-- A format whose first piece is a marker renders turn by turn. -/
theorem encodeChat_marker (h : fmt.firstMarker role = some m) (turns : List (String × String)) :
    encodeChat fmt tk turns
      = emit tk true (turns.flatMap (fun (role, content) => fmt.turnSegments tk role content) ++
          fmt.generationPieces.map (Piece.resolve tk)) := by
  cases fmt with
  | plain => cases h
  | mistral => cases h
  | zephyr => rfl
  | chatMl => rfl
  | qwen35 => rfl
  | qwen35Thinking => rfl
  | llama3 => rfl

/-- **What a prompt that opens with a marker starts with.** -/
theorem encodeChat_lead (ht : t.InRange) (htk : Drives t b tk) (hm : fmt.firstMarker role = some m)
    (hid : t.lookup[m]? = some id) (content : String) (turns : List (String × String)) :
    ∃ rest, encodeChat fmt tk ((role, content) :: turns)
      = t.leading true ++ t.pieceTokens [spaceMark] ++ id :: rest := by
  obtain ⟨ps, hps⟩ := prefixPieces_of_firstMarker hm
  have hmarker : Piece.resolve tk (.marker m) = .control id := by
    rw [Piece.resolve, htk.tokenId, hid]
  rw [encodeChat_marker hm, List.flatMap_cons]
  simp only [ChatFormat.turnSegments, hps, List.map_cons, hmarker, List.cons_append]
  rw [emit, if_pos rfl, htk.encode "" _ (encode_empty ht b)]
  exact ⟨_, rfl⟩

/-- The leading token once if the vocabulary asks for it, and the marker right behind it. -/
def StartsCleanly (t : SpmTokenizer) (marker : Token) (out : List Token) : Prop :=
  ∃ rest, out = t.leading true ++ marker :: rest

/-- **A prompt starts cleanly only where the space mark is taken for the marker**: where its own
entry, or the token of its first byte, is the marker's id. -/
theorem startsCleanly_iff {g : Gguf} (h : SpmTokenizer.fromGguf g = .ok t) (htk : Drives t b tk)
    (hm : fmt.firstMarker role = some m) (hid : t.lookup[m]? = some id) (content : String)
    (turns : List (String × String)) :
    StartsCleanly t id (encodeChat fmt tk ((role, content) :: turns)) ↔
      (t.pieceTokens [spaceMark]).head? = some id := by
  obtain ⟨rest, hout⟩ :=
    encodeChat_lead (SpmTokenizer.fromGguf_inRange h) htk hm hid content turns
  obtain ⟨first, more, hfirst⟩ := List.exists_cons_of_ne_nil (pieceTokens_ne_nil t)
  rw [StartsCleanly, hout, hfirst, List.head?_cons, Option.some.injEq]
  constructor
  · rintro ⟨rest', heq⟩
    rw [List.append_assoc, List.append_cancel_left_eq] at heq
    exact (List.cons.inj heq).1
  · rintro rfl
    exact ⟨more ++ first :: rest, by simp⟩

/-! ## A vocabulary with markers -/

/-- What an encoding returns, and nothing where the program ends. -/
def returned : Checked OutOfFuel (List Token) → List Token
  | .ok ids => ids
  | _ => []

/-- The tokenizer as the renderer sees it. -/
def tokenizeOf (t : SpmTokenizer) (b : Build) : Tokenize where
  encode s := returned (t.encode b s)
  encodeFragment s := returned (t.encodeFragment b s)
  tokenId s := t.lookup[s]?
  decode := t.decode
  eos := t.vocab.eos
  vocabSize := t.vocab.tokens.length

theorem drives_tokenizeOf (t : SpmTokenizer) (b : Build) : Drives t b (tokenizeOf t b) where
  encode _ _ h := congrArg returned h
  fragment _ _ h := congrArg returned h
  tokenId _ := rfl
  eos := rfl

/-- A vocabulary with the mark and the two markers of ChatML. -/
def markersGguf : Gguf where
  version := 3
  metadata := ((∅ : Metadata).insert "tokenizer.ggml.model" (.string "llama")).insert
    "tokenizer.ggml.tokens" (.array [.string "<unk>", .string "<s>", .string "</s>",
      .string "\u2581", .string "<|im_start|>", .string "<|im_end|>"]) |>.insert
    "tokenizer.ggml.token_type" (.array [.u32 2, .u32 3, .u32 3, .u32 1, .u32 3, .u32 3])
  tensors := []
  dataOffset := 0

theorem markersGguf_loads : ∃ t, SpmTokenizer.fromGguf markersGguf = .ok t ∧
    t.leading true = [1] ∧ t.lookup["<|im_start|>"]? = some 4 ∧
    ∀ b, (encodeChat .chatMl (tokenizeOf t b) [("user", "hi")]).take 3 = [1, 3, 4] := by
  have h : (SpmTokenizer.fromGguf markersGguf).toOption.any (fun t => decide (
      t.leading true = [1] ∧ t.lookup["<|im_start|>"]? = some 4 ∧
      ∀ b ∈ [Build.debug, .release],
        (encodeChat .chatMl (tokenizeOf t b) [("user", "hi")]).take 3 = [1, 3, 4])) = true := by
    decide +kernel
  obtain ⟨t, ht, hd⟩ := (Option.any_eq_true _ _).mp h
  obtain ⟨hlead, hid, hboth⟩ := of_decide_eq_true hd
  exact ⟨t, eq_ok_of_toOption ht, hlead, hid, fun b => hboth b (by cases b <;> simp)⟩

theorem startsCleanly_iff_chatMl : ∃ t, SpmTokenizer.fromGguf markersGguf = .ok t ∧
    ∀ b, (StartsCleanly t 4 (encodeChat .chatMl (tokenizeOf t b) [("user", "hi")]) ↔
      (t.pieceTokens [spaceMark]).head? = some 4) := by
  obtain ⟨t, ht, -, hid, -⟩ := markersGguf_loads
  exact ⟨t, ht, fun b => startsCleanly_iff ht (drives_tokenizeOf t b) rfl hid "hi" []⟩

/-- The token of a space mark stands between the begin-of-sequence and the first marker. -/
theorem mark_before_marker : ∃ t, SpmTokenizer.fromGguf markersGguf = .ok t ∧
    t.leading true = [1] ∧ t.lookup["<|im_start|>"]? = some 4 ∧ ∀ b,
      (encodeChat .chatMl (tokenizeOf t b) [("user", "hi")]).take 3 = [1, 3, 4] ∧
      ¬ StartsCleanly t 4 (encodeChat .chatMl (tokenizeOf t b) [("user", "hi")]) := by
  obtain ⟨t, ht, hlead, hid, hthree⟩ := markersGguf_loads
  refine ⟨t, ht, hlead, hid, fun b => ⟨hthree b, ?_⟩⟩
  rintro ⟨rest, hout⟩
  have htake := hthree b
  rw [hout, hlead] at htake
  cases htake

end Garuda.Chat
