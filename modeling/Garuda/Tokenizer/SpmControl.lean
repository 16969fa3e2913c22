import Garuda.Tokenizer.SpmPieces

/-!
# Text and control tokens

The lookup that merges go by holds the control pieces as well, so a text can merge to one.

* `SpmTokenizer.Harmless` — no token of the text is a control token, but for the leading one
* `SpmTokenizer.Guarded` — the vocabularies for which every text is harmless

`SpmTokenizer.harmless_iff` is the equivalence, and `SpmTokenizer.text_becomes_control` a
vocabulary that is not guarded.
-/

namespace Garuda

open Infra Infra.Merging

namespace SpmTokenizer

open Spm

/-! ## A loaded vocabulary -/

theorem inRange_add (scores types : Option (List Value)) {tables : Tables} (s : String)
    (h : ∀ (w : String) (id : Token), tables.lookup[w]? = some id →
      id.toNat < tables.tokens.length) (w : String) (id : Token)
    (hw : (tables.add scores types s).lookup[w]? = some id) :
    id.toNat < (tables.add scores types s).tokens.length := by
  have hlen : (tables.add scores types s).tokens.length = tables.tokens.length + 1 := by
    simp [Tables.add]
  have hold : tables.lookup[w]? = some id → id.toNat < tables.tokens.length + 1 :=
    fun hid => Nat.lt_succ_of_lt (h w id hid)
  simp only [Tables.add] at hw
  rw [Std.ExtTreeMap.getElem?_insertIfNew] at hw
  rw [hlen]
  split at hw
  · rw [Option.some.injEq] at hw
    rw [← hw, UInt32.toNat_ofNat']
    have := Nat.mod_le tables.tokens.length (2 ^ 32)
    omega
  · exact hold hw

/-- **A loaded vocabulary's lookup names only tokens it has.** -/
theorem fromGguf_inRange {g : Gguf} {t : SpmTokenizer} (h : fromGguf g = .ok t) : t.InRange :=
  fromGguf_invariant (P := fun tables => ∀ (w : String) (id : Token),
      tables.lookup[w]? = some id → id.toNat < tables.tokens.length)
    (fun w id hid => by simp [Tables.empty] at hid)
    (fun scores types _ s hold => inRange_add scores types s hold) h

/-! ## What a text may become -/

/-- Whether the id's type is control. -/
def isControl (t : SpmTokenizer) (id : Token) : Bool :=
  t.vocab.tokens[id.toNat]?.any Entry.isControl

def ControlFree (t : SpmTokenizer) (ids : List Token) : Prop :=
  ∀ id ∈ ids, t.isControl id = false

/-- No token of the text is a control token, but for the leading one. The index counts fewer than
`2^31` characters; a build that checks for overflow encodes no longer text. -/
structure Harmless (t : SpmTokenizer) (b : Build) (text : String) : Prop where
  fragment : text.length < 2 ^ 31 → ∃ ids, t.encodeFragment b text = .ok ids ∧ t.ControlFree ids
  whole : text.length + 1 < 2 ^ 31 →
    ∃ rest, t.encode b text = .ok (t.leading true ++ rest) ∧ t.ControlFree rest
  uncounted : b = .debug → (2 ^ 31 ≤ text.length → t.encodeFragment b text = .panic) ∧
    (2 ^ 31 ≤ text.length + 1 → t.encode b text = .panic)

/-- No control piece merges back together from its own characters, and no character that the
vocabulary lacks has a byte whose token is a control token. A piece with a space in it is spelled
by no text. -/
structure Guarded (t : SpmTokenizer) : Prop where
  pieces : ∀ (s : List Char) (id : Token), t.lookup[String.ofList s]? = some id →
    t.isControl id = true → ' ' ∉ s → s.length < 2 ^ 31 → ¬ Merges t.rank s [s]
  bytes : ∀ c : Char, c ≠ ' ' → t.lookup[String.ofList [c]]? = none →
    ∀ b ∈ utf8 [c], t.isControl (t.byteToToken b) = false

/-! ## Normalised text -/

theorem length_normalize (text : List Char) (lead : Bool) :
    (normalize text lead).length = text.length + if lead then 1 else 0 := by
  cases lead <;> simp [Spm.normalize]

theorem space_notMem_normalize (text : List Char) (lead : Bool) :
    ' ' ∉ normalize text lead := by
  have hmark : spaceMark ≠ ' ' := by decide
  intro hmem
  rcases List.mem_append.mp hmem with hmem | hmem
  · split at hmem
    · exact hmark (List.mem_singleton.mp hmem).symm
    · exact absurd hmem List.not_mem_nil
  · obtain ⟨c, -, hc⟩ := List.mem_map.mp hmem
    split at hc
    · exact hmark hc
    next hne => exact hne hc

theorem normalize_spaceless {text : List Char} (h : ' ' ∉ text) : normalize text false = text := by
  have hmap : text.map (fun ch => if ch = ' ' then spaceMark else ch) = text.map id :=
    by
    refine List.map_congr_left fun c hc => if_neg ?_
    rintro rfl
    exact h hc
  rw [Spm.normalize, hmap, List.map_id]
  rfl

variable {t : SpmTokenizer}

/-- The tokens of a text that is one piece. -/
theorem encodeFragment_piece (ht : t.InRange) (b : Build) {s : List Char} (hspace : ' ' ∉ s)
    (hlt : s.length < 2 ^ 31) (hs : Merges t.rank s [s]) :
    t.encodeFragment b (String.ofList s) = .ok (t.pieceTokens s) := by
  have hnorm : normalize (String.ofList s).toList false = s := by
    rw [String.toList_ofList, normalize_spaceless hspace]
  obtain ⟨qs, hqs, heq⟩ := encodeSpm_merges ht b (String.ofList s) false
    (by rw [hnorm]; exact hlt)
  rw [hnorm] at hqs
  rw [encodeFragment, heq, merges_unique hqs hs]
  simp [leading]

/-- A piece of a merged text is in the vocabulary, or one character. -/
theorem piece_cases {w v : List Char} {qs : List (List Char)} (h : Merges t.rank w qs)
    (hv : v ∈ qs) : (∃ id, t.lookup[String.ofList v]? = some id) ∨
      ∃ c, v = [c] ∧ t.lookup[String.ofList v]? = none := by
  cases hid : t.lookup[String.ofList v]? with
  | some id => exact .inl ⟨id, rfl⟩
  | none =>
    rcases merges_rank h hv with ⟨c, hc⟩ | hrank
    · exact .inr ⟨c, hc, rfl⟩
    · simp [rank, hid] at hrank

/-- The pieces of a guarded vocabulary give no control token. -/
theorem Guarded.pieceTokens (hg : t.Guarded) {w v : List Char} {qs : List (List Char)}
    (hspace : ' ' ∉ w) (hlt : w.length < 2 ^ 31) (h : Merges t.rank w qs) (hv : v ∈ qs) :
    t.ControlFree (t.pieceTokens v) := by
  have hflat : qs.flatten = w := by rw [h.run.flatten, flatten_letters]
  have hsub : v.Sublist w := hflat ▸ List.sublist_flatten_of_mem hv
  have hspace' : ' ' ∉ v := fun hmem => hspace (hsub.mem hmem)
  intro id hid
  rw [SpmTokenizer.pieceTokens] at hid
  rcases piece_cases h hv with ⟨id', hlook⟩ | ⟨c, rfl, hnone⟩
  · rw [hlook] at hid
    obtain rfl := List.mem_singleton.mp hid
    rw [← Bool.not_eq_true]
    exact fun hctl => hg.pieces v id hlook hctl hspace'
      (Nat.lt_of_le_of_lt hsub.length_le hlt) (merges_piece h hv)
  · rw [hnone] at hid
    obtain ⟨b, hb, rfl⟩ := List.mem_map.mp hid
    exact hg.bytes c (fun hc => hspace' (hc ▸ List.mem_singleton_self c)) hnone b hb

/-- What a guarded vocabulary makes of a text. -/
theorem Guarded.encodeSpm (hg : t.Guarded) (ht : t.InRange) (b : Build) (text : String)
    (lead : Bool) (hlt : (normalize text.toList lead).length < 2 ^ 31) :
    ∃ rest, t.encodeSpm b text lead = .ok (t.leading lead ++ rest) ∧ t.ControlFree rest := by
  obtain ⟨qs, hqs, heq⟩ := encodeSpm_merges ht b text lead hlt
  refine ⟨_, heq, fun id hid => ?_⟩
  obtain ⟨v, hv, hid⟩ := List.mem_flatMap.mp hid
  exact hg.pieceTokens (space_notMem_normalize text.toList lead) hlt hqs hv id hid

theorem guarded_of_harmless (ht : t.InRange) (b : Build) (h : ∀ text, t.Harmless b text) :
    t.Guarded := by
  have hfree : ∀ {s : List Char}, ' ' ∉ s → s.length < 2 ^ 31 → Merges t.rank s [s] →
      t.ControlFree (t.pieceTokens s) := by
    intro s hspace hlt hs
    obtain ⟨ids, heq, hids⟩ := (h (String.ofList s)).fragment (by simpa using hlt)
    rw [encodeFragment_piece ht b hspace hlt hs] at heq
    cases heq
    exact hids
  refine ⟨fun s id hlook hctl hspace hlt hs => ?_, fun c hc hnone b' hb' => ?_⟩
  · have hno := hfree hspace hlt hs id (by simp [pieceTokens, hlook])
    rw [hctl] at hno
    cases hno
  · refine hfree (s := [c]) (by simpa using Ne.symm hc) (by simp) (merges_letter c) _ ?_
    rw [pieceTokens, hnone]
    exact List.mem_map_of_mem hb'

/-- **Every text is harmless exactly when no control piece merges back together** from its own
characters and no byte stands for a control token. -/
theorem harmless_iff {g : Gguf} (h : fromGguf g = .ok t) (b : Build) :
    (∀ text, t.Harmless b text) ↔ t.Guarded := by
  have ht := fromGguf_inRange h
  have hlen : ∀ (text : String) (lead : Bool), (normalize text.toList lead).length
      = text.length + if lead then 1 else 0 := by
    intro text lead
    rw [length_normalize, String.length_toList]
  refine ⟨guarded_of_harmless ht b, fun hg text => ⟨fun hlt => ?_, fun hlt => ?_, ?_⟩⟩
  · obtain ⟨rest, heq, hrest⟩ := hg.encodeSpm ht b text false (by rw [hlen]; exact hlt)
    exact ⟨rest, by rw [encodeFragment, heq]; rfl, hrest⟩
  · exact hg.encodeSpm ht b text true (by rw [hlen]; exact hlt)
  · rintro rfl
    constructor
    · exact fun hle => encodeSpm_panic t text false (by rw [hlen]; exact hle)
    · exact fun hle => encodeSpm_panic t text true (by rw [hlen]; exact hle)

/-- A vocabulary whose end-of-sequence piece merges out of two ordinary ones. -/
def controlGguf : Gguf where
  version := 3
  metadata := ((∅ : Metadata).insert "tokenizer.ggml.model" (.string "llama")).insert
    "tokenizer.ggml.tokens" (.array [.string "<unk>", .string "<s>", .string "</s>",
      .string "</", .string "s>"]) |>.insert
    "tokenizer.ggml.token_type" (.array [.u32 2, .u32 3, .u32 3, .u32 1, .u32 1])
  tensors := []
  dataOffset := 0

theorem harmless_iff_control : ∃ t, fromGguf controlGguf = .ok t ∧
    ((∀ text, t.Harmless .release text) ↔ t.Guarded) := by
  have h : (fromGguf controlGguf).toOption.isSome = true := by decide +kernel
  cases hg : fromGguf controlGguf with
  | error e => rw [hg] at h; cases h
  | ok t => exact ⟨t, rfl, harmless_iff hg .release⟩

/-- The text `</s>` becomes the control token of that name. -/
theorem text_becomes_control : ∃ t, fromGguf controlGguf = .ok t ∧
    (∀ b, t.encodeFragment b "</s>" = .ok [2] ∧ t.encode b "</s>" = .ok [1, 0, 0, 0, 2]) ∧
    t.leading true = [1] ∧ t.isControl 2 = true ∧ ∀ b, ¬ t.Harmless b "</s>" := by
  have h : (fromGguf controlGguf).toOption.any (fun t => decide ((∀ b ∈ [Build.debug, .release],
      t.encodeFragment b "</s>" = .ok [2] ∧ t.encode b "</s>" = .ok [1, 0, 0, 0, 2]) ∧
      t.leading true = [1] ∧ t.isControl 2 = true)) = true := by decide +kernel
  obtain ⟨t, ht, hd⟩ := (Option.any_eq_true _ _).mp h
  obtain ⟨hboth, hlead, hctl⟩ := of_decide_eq_true hd
  have hall : ∀ b, t.encodeFragment b "</s>" = .ok [2] ∧ t.encode b "</s>" = .ok [1, 0, 0, 0, 2] :=
    fun b => hboth b (by cases b <;> simp)
  refine ⟨t, eq_ok_of_toOption ht, hall, hlead, hctl, fun b hb => ?_⟩
  obtain ⟨ids, heq, hids⟩ := hb.fragment (by decide)
  rw [(hall b).1] at heq
  cases heq
  have hno := hids 2 List.mem_cons_self
  rw [hctl] at hno
  cases hno

end SpmTokenizer

end Garuda
