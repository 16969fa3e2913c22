import Garuda.Infra.Utf8Prefix
import Garuda.Tokenizer.BpeLossless

/-!
# What a BPE stream holds back

The bytes that stay pending, over every run of pushes.

* `pushAll v pending tokens` pushes token by token: the text so far, and what is pending.
* `Delivered v tokens` says that the tokens' text has gone out, but for one unfinished character.

`delivered_iff` says when this is so after every push, and `push_stalled` what happens otherwise:
after a byte that begins no character nothing more goes out.
-/

namespace Garuda

open Infra

namespace BpeTokenizer

open Bpe

/-! ## Runs -/

/-- Push the tokens one by one: the pieces put together, and the bytes then pending. -/
def pushAll (v : Vocab) (pending : Bytes) : List Token → String × Bytes
  | [] => ("", pending)
  | id :: ids =>
    let pushed := push v pending id
    let rest := pushAll v pushed.2 ids
    (pushed.1 ++ rest.1, rest.2)

theorem text_eq_pushAll (t : BpeTokenizer) (pending : Bytes) (tokens : List Token) :
    t.streamDecoder.text pending tokens
      = (pushAll t.vocab pending tokens).1 ++ (finish (pushAll t.vocab pending tokens).2).1 := by
  induction tokens generalizing pending with
  | nil =>
    show _ = "" ++ _
    rw [String.empty_append]
    rfl
  | cons id ids ih =>
    rw [StreamDecode.text, ih, pushAll, String.append_assoc]
    rfl

/-- The text that went out is the valid part of the bytes, and a blocked rest is pending. -/
structure Read (bytes : Bytes) (emitted : List Char) (pending : Bytes) : Prop where
  bytes : bytes = utf8 emitted ++ pending
  blocked : Blocked pending

theorem read_nil : Read [] [] [] := ⟨rfl, trivial⟩

/-- One push. -/
theorem Read.push {v : Vocab} {bytes pending : Bytes} {emitted : List Char}
    (h : Read bytes emitted pending) (id : Token) :
    Read (bytes ++ v.tokenBytes id) (emitted ++ (push v pending id).1.toList)
      (push v pending id).2 := by
  simp only [BpeTokenizer.push]
  split
  next s hs =>
    refine ⟨?_, trivial⟩
    rw [h.bytes, String.toList_ofList, utf8_append, utf8_of_fromUtf8 hs, List.append_nil,
      List.append_assoc]
  next e he =>
    obtain ⟨cs, hcs⟩ := fromUtf8_take he
    refine ⟨?_, blocked_of_error he⟩
    rw [h.bytes, String.toList_ofList, lossy_of_ok hcs, utf8_append, utf8_of_fromUtf8 hcs,
      List.append_assoc, List.append_assoc, List.take_append_drop]

/-- A run of pushes. -/
theorem Read.pushAll (v : Vocab) (tokens : List Token) {bytes pending : Bytes}
    {emitted : List Char} (h : Read bytes emitted pending) :
    Read (bytes ++ tokens.flatMap v.tokenBytes) (emitted ++ (pushAll v pending tokens).1.toList)
      (pushAll v pending tokens).2 := by
  induction tokens generalizing bytes pending emitted with
  | nil =>
    rw [List.flatMap_nil, List.append_nil]
    show Read bytes (emitted ++ "".toList) pending
    rw [String.toList_empty, List.append_nil]
    exact h
  | cons id ids ih =>
    have := ih (h.push (v := v) id)
    rwa [List.append_assoc, List.append_assoc, ← String.toList_append] at this

/-! ## What is held back -/

/-- Of the bytes of `tokens`, pushed one by one into a fresh decoder, at most one unfinished
character is pending, and the text of all bytes before it has gone out. -/
def Delivered (v : Vocab) (tokens : List Token) : Prop :=
  ∃ before : Bytes, tokens.flatMap v.tokenBytes = before ++ (pushAll v [] tokens).2 ∧
    (pushAll v [] tokens).1.toList = lossy before ∧ Unfinished (pushAll v [] tokens).2

theorem delivered_of_beginning {v : Vocab} {tokens : List Token}
    (h : Beginning (tokens.flatMap v.tokenBytes)) : Delivered v tokens := by
  obtain ⟨hbytes, hblocked⟩ := read_nil.pushAll v tokens
  rw [List.nil_append, List.nil_append] at hbytes
  refine ⟨_, hbytes, (lossy_of_ok (fromUtf8_utf8 _)).symm, ?_⟩
  rw [hbytes] at h
  exact h.of_utf8_append.unfinished hblocked

theorem beginning_of_delivered {v : Vocab} {tokens : List Token} (h : Delivered v tokens) :
    Beginning (tokens.flatMap v.tokenBytes) := by
  obtain ⟨-, -, -, hunfinished⟩ := h
  obtain ⟨hbytes, -⟩ := read_nil.pushAll v tokens
  rw [List.nil_append] at hbytes
  rw [hbytes]
  exact hunfinished.beginning.append _

/-- **The stream holds back at most one unfinished character after every push, exactly when the
tokens' bytes are the beginning of a text**: when none of them can no longer become valid. -/
theorem delivered_iff (v : Vocab) (tokens : List Token) :
    (∀ seen, seen <+: tokens → Delivered v seen) ↔ Beginning (tokens.flatMap v.tokenBytes) := by
  refine ⟨fun h => beginning_of_delivered (h tokens (List.prefix_refl _)), ?_⟩
  rintro h seen ⟨unseen, rfl⟩
  rw [List.flatMap_append] at h
  exact delivered_of_beginning h.of_append

/-! ## A byte that begins no character -/

/-- The rest of the stream is held back. -/
theorem push_stalled {v : Vocab} {a : UInt8} {q : Bytes} {n : Nat} (h : head a q = .invalid n)
    (id : Token) : push v (a :: q) id = ("", a :: (q ++ v.tokenBytes id)) := by
  have hinvalid : head a (q ++ v.tokenBytes id) = .invalid n := by
    rw [head_append _ (by rw [h]; simp), h]
  simp only [push, List.cons_append]
  rw [fromUtf8, hinvalid]
  simp only [List.take_zero, List.drop_zero]
  rw [lossy_nil]

theorem pushAll_stalled {v : Vocab} {a : UInt8} {n : Nat} (tokens : List Token) :
    ∀ {q : Bytes}, head a q = .invalid n →
      pushAll v (a :: q) tokens = ("", a :: (q ++ tokens.flatMap v.tokenBytes)) := by
  induction tokens with
  | nil =>
    intro q _
    rw [List.flatMap_nil, List.append_nil]
    rfl
  | cons id ids ih =>
    intro q h
    have hinvalid : head a (q ++ v.tokenBytes id) = .invalid n := by
      rw [head_append _ (by rw [h]; simp), h]
    rw [pushAll, push_stalled h, ih hinvalid, List.flatMap_cons, List.append_assoc]
    rfl

/-- Behind the padding every byte is a token. -/
theorem entry_byte {padding : Nat} {t : BpeTokenizer} (h : LoadedFrom (paddedGguf padding) t)
    {b : UInt8} (hlt : b.toNat < Bpe.byteToChar.length) :
    t.vocab.tokens[padding + b.toNat]?
      = some { text := String.ofList [Bpe.byteToChar[b.toNat]], isSpecial := false } := by
  rw [h.tokens, List.getElem?_map, List.getElem?_zipIdx, getElem?_pieces_paddedGguf,
    List.getElem?_eq_getElem hlt]
  simp [typeAt_paddedGguf, typeControl, typeUnused]

theorem tokenBytes_byte {padding : Nat} {t : BpeTokenizer} (h : LoadedFrom (paddedGguf padding) t)
    {id : Token} {b : UInt8} (hid : id.toNat = padding + b.toNat) :
    t.vocab.tokenBytes id = [b] := by
  have hlt : b.toNat < Bpe.byteToChar.length := by
    rw [length_byteToChar]
    exact b.toNat_lt
  have hbyte := charToByte_byteToChar b
  rw [List.getD_eq_getElem?_getD, List.getElem?_eq_getElem hlt, Option.getD_some] at hbyte
  rw [Vocab.tokenBytes, hid, entry_byte h hlt, h.charToByte]
  simp only [String.toList_ofList, List.flatMap_singleton, hbyte, Bool.false_eq_true, if_false]

/-- The two bytes of a character, and one that is part of no character. -/
theorem lossy_split : lossy [0xC3, 0xA9, 0xFF] = ['é', replacement] := by
  have hhead : head 0xC3 [0xA9, 0xFF] = .char 'é' 1 := rfl
  have hbad : head 0xFF [] = .invalid 0 := rfl
  rw [lossy, hhead]
  show 'é' :: lossy [0xFF] = _
  rw [lossy, hbad]
  show 'é' :: replacement :: lossy [] = _
  rw [lossy_nil]

/-- Those bytes, with a control token between the first two. -/
theorem text_eq_decode_split : ∃ t, fromGguf (paddedGguf 1) = .ok t ∧
    t.decode [0xC4, 0, 0xAA, 0x100] = .ok "é\uFFFD" ∧
      t.streamDecoder.text [] [0xC4, 0, 0xAA, 0x100] = "é\uFFFD" := by
  obtain ⟨t, ht⟩ := fromGguf_paddedGguf 1
  have hloaded := fromGguf_loadedFrom ht
  have hlength : t.vocab.tokens.length = 257 := by
    rw [hloaded.tokens, List.length_map, List.length_zipIdx, pieces_paddedGguf, List.length_append,
      List.length_replicate, List.length_map, length_byteToChar]
  have hfirst : t.vocab.tokenBytes 0xC4 = [0xC3] := tokenBytes_byte hloaded rfl
  have hpad : t.vocab.tokenBytes 0 = [] := tokenBytes_padding hloaded Nat.one_pos
  have hsecond : t.vocab.tokenBytes 0xAA = [0xA9] := tokenBytes_byte hloaded rfl
  have hlast : t.vocab.tokenBytes 0x100 = [0xFF] := tokenBytes_byte hloaded rfl
  have hdecode : t.decode [0xC4, 0, 0xAA, 0x100] = .ok "é\uFFFD" := by
    rw [decode, decodeBytes_eq (by rw [hlength]; simp), List.flatMap_cons, List.flatMap_cons,
      List.flatMap_cons, List.flatMap_singleton, hfirst, hpad, hsecond, hlast]
    exact congrArg (fun cs => Except.ok (String.ofList cs)) lossy_split
  exact ⟨t, ht, hdecode, text_eq_decode t _ _ hdecode⟩

/-- **In the byte alphabet, nothing is delivered after the byte `FF`**, which can be part of no
character: it stays pending, and so does all that follows. -/
theorem stalls_alphabet : ∃ t, fromGguf (paddedGguf 0) = .ok t ∧ ¬ Delivered t.vocab [255] ∧
    ∀ tokens, pushAll t.vocab [] (255 :: tokens)
      = ("", 0xFF :: tokens.flatMap t.vocab.tokenBytes) := by
  obtain ⟨t, ht⟩ := fromGguf_paddedGguf 0
  have hff : t.vocab.tokenBytes 255 = [0xFF] := tokenBytes_byte (fromGguf_loadedFrom ht) rfl
  have hinvalid : head 0xFF [] = .invalid 0 := rfl
  have hpush : push t.vocab [] 255 = ("", [0xFF]) := by
    simp only [push, List.nil_append]
    rw [hff, fromUtf8, hinvalid]
    simp only [List.take_zero, List.drop_zero]
    rw [lossy_nil]
  have hstalled : ∀ tokens, pushAll t.vocab [] (255 :: tokens)
      = ("", 0xFF :: tokens.flatMap t.vocab.tokenBytes) := by
    intro tokens
    rw [pushAll, hpush]
    simp only
    rw [pushAll_stalled tokens hinvalid]
    rfl
  refine ⟨t, ht, ?_, hstalled⟩
  rintro ⟨-, -, -, c, more, -, hc⟩
  rw [hstalled [], List.flatMap_nil] at hc
  obtain ⟨b, rest, hb, hh, -⟩ := head_utf8EncodeChar c []
  rw [hb, List.cons_append, List.cons.injEq] at hc
  obtain ⟨rfl, -⟩ := hc
  cases hh

end BpeTokenizer

end Garuda
