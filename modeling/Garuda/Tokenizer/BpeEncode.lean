import Garuda.Tokenizer.Pattern

/-!
# BPE encoding

The pieces of a text, rewritten to the byte alphabet, merged lowest rank first, and looked up.

* `merge_join` — merging loses no character and makes none up
* `symbolIds_bytes` — a symbol's ids stand for its bytes
* `encode_bytes` — the ids of a text stand for its bytes
-/

namespace Garuda

open Infra

namespace BpeTokenizer

open Bpe

/-! ## Merging -/

/-- One pre-token's bytes as byte-level characters. -/
def rewrite (t : BpeTokenizer) (piece : Bytes) : List String :=
  piece.map fun b => String.ofList [t.byteToChar.getD b.toNat '\x00']

/-- The rank of a pair, as `merges.get` finds it. -/
def rankOf (t : BpeTokenizer) (left right : String) : Option UInt32 := t.merges.lookup (left, right)

/-- The scan for the lowest rank, the first one on a tie; `i` is the place of the first symbol. -/
def bestFrom (t : BpeTokenizer) : Nat → Option (Nat × UInt32) → List String →
    Option (Nat × UInt32)
  | i, best, left :: right :: rest =>
    let best := match t.rankOf left right with
      | some rank => if best.all fun b => rank < b.2 then some (i, rank) else best
      | none => best
    bestFrom t (i + 1) best (right :: rest)
  | _, best, _ => best

/-- `symbols.remove(i + 1)`, appended to `symbols[i]`. -/
def mergeAt : Nat → List String → List String
  | 0, left :: right :: rest => (left ++ right) :: rest
  | i + 1, s :: rest => s :: mergeAt i rest
  | _, symbols => symbols

/-- The place found is that of a pair. -/
theorem bestFrom_lt (t : BpeTokenizer) : ∀ (symbols : List String) (i : Nat)
    (best : Option (Nat × UInt32)), (∀ b, best = some b → b.1 + 1 < i + symbols.length) →
    ∀ b, t.bestFrom i best symbols = some b → b.1 + 1 < i + symbols.length
  | [], i, best, hbest, b, h => hbest b h
  | [s], i, best, hbest, b, h => hbest b h
  | left :: right :: rest, i, best, hbest, b, h => by
    rw [bestFrom] at h
    have hlt := bestFrom_lt t (right :: rest) (i + 1) _ ?_ b h
    · simp only [List.length_cons] at hlt ⊢
      omega
    · intro b' hb'
      have hcases : b' = (i, b'.2) ∨ best = some b' := by
        cases hrank : t.rankOf left right with
        | none =>
          rw [hrank] at hb'
          exact .inr hb'
        | some rank =>
          rw [hrank] at hb'
          simp only at hb'
          split at hb'
          · rw [← Option.some.inj hb']
            exact .inl rfl
          · exact .inr hb'
      rcases hcases with heq | hold
      · rw [heq]
        simp only [List.length_cons]
        omega
      · have := hbest b' hold
        simp only [List.length_cons] at this ⊢
        omega

theorem length_mergeAt : ∀ {i : Nat} {symbols : List String}, i + 1 < symbols.length →
    (mergeAt i symbols).length + 1 = symbols.length
  | 0, left :: right :: rest, _ => rfl
  | i + 1, s :: rest, h => by
    rw [mergeAt, List.length_cons, List.length_cons, length_mergeAt (by simpa using h)]
  | 0, [s], h => by simp at h
  | i, [], h => by simp at h

/-- Merge `symbols`, lowest-ranked pair first, until nothing merges. -/
def merge (t : BpeTokenizer) (symbols : List String) : List String :=
  match _ : t.bestFrom 0 none symbols with
  | none => symbols
  | some best => merge t (mergeAt best.1 symbols)
termination_by symbols.length
decreasing_by
  rename_i h
  have hlt := bestFrom_lt t symbols 0 none (fun _ h => by cases h) best h
  have hlength : (mergeAt best.1 symbols).length + 1 = symbols.length := length_mergeAt (by omega)
  omega

/-! ## Encoding -/

/-- What one symbol is looked up as. -/
def symbolIds (t : BpeTokenizer) (symbol : String) : List Token :=
  match t.lookup[symbol]? with
  | some id => [id]
  -- back to the characters, each of which is a byte
  | none => symbol.toList.filterMap fun ch => t.lookup[String.ofList [ch]]?

/-- `&text[from..to]`, as bytes. -/
def slice (text : Bytes) (range : Nat × Nat) : Bytes :=
  (text.drop range.1).take (range.2 - range.1)

/-- The pre-tokens in turn: rewritten, merged and looked up. -/
def encode (t : BpeTokenizer) (u : CharTables) (text : String) : List Token :=
  (split u text).flatMap fun range =>
    (t.merge (t.rewrite (slice (utf8 text.toList) range))).flatMap t.symbolIds

/-! ## What merging keeps -/

theorem mergeAt_join : ∀ (i : Nat) (symbols : List String),
    (mergeAt i symbols).flatMap String.toList = symbols.flatMap String.toList
  | 0, left :: right :: rest => by simp [mergeAt]
  | i + 1, s :: rest => by
    rw [mergeAt, List.flatMap_cons, List.flatMap_cons, mergeAt_join i rest]
  | 0, [s] => rfl
  | 0, [] => rfl
  | i + 1, [] => rfl

/-- **Merging loses no character and makes none up.** -/
theorem merge_join (t : BpeTokenizer) (symbols : List String) :
    (t.merge symbols).flatMap String.toList = symbols.flatMap String.toList := by
  fun_induction merge t symbols with
  | case1 => rfl
  | case2 symbols best _ ih => rw [ih, mergeAt_join]

/-! ## What the ids stand for -/

/-- The characters that have an id by themselves. -/
def IsByteChar (t : BpeTokenizer) (ch : Char) : Prop :=
  ∃ id, t.lookup[String.ofList [ch]]? = some id

/-- What the lookup answers is the id of an entry of that text, and every byte has a character
that it answers for. -/
structure LooksUp (t : BpeTokenizer) : Prop where
  entry : ∀ (p : String) (id : Token), t.lookup[p]? = some id →
    ∃ e : Entry, t.vocab.tokens[id.toNat]? = some e ∧ e.text = p ∧ e.isSpecial = false
  byteChar : ∀ b : UInt8, IsByteChar t (t.byteToChar.getD b.toNat '\x00')
  byteBack : ∀ b : UInt8, t.vocab.charToByte[t.byteToChar.getD b.toNat '\x00']? = some b

/-- The byte or the bytes of one character of a piece. -/
def charBytes (t : BpeTokenizer) (ch : Char) : Bytes :=
  match t.vocab.charToByte[ch]? with
  | some b => [b]
  | none => String.utf8EncodeChar ch

section

variable {t : BpeTokenizer}

theorem LooksUp.tokenBytes (h : LooksUp t) {p : String} {id : Token}
    (hid : t.lookup[p]? = some id) : t.vocab.tokenBytes id = p.toList.flatMap t.charBytes := by
  obtain ⟨e, he, rfl, hspecial⟩ := h.entry p id hid
  rw [Vocab.tokenBytes, he]
  simp only [hspecial]
  rfl

/-- Every id that a symbol is given is one that the lookup answers. -/
theorem exists_of_mem_symbolIds {symbol : String} {id : Token} (h : id ∈ t.symbolIds symbol) :
    ∃ p : String, t.lookup[p]? = some id := by
  rw [symbolIds] at h
  cases hsymbol : t.lookup[symbol]? with
  | some id' =>
    rw [hsymbol, List.mem_singleton] at h
    exact ⟨symbol, by rw [hsymbol, h]⟩
  | none =>
    rw [hsymbol] at h
    obtain ⟨ch, _, hch⟩ := List.mem_filterMap.mp h
    exact ⟨_, hch⟩

/-- The fallback gives every character its id. -/
theorem LooksUp.filterMap_bytes (h : LooksUp t) : ∀ {chars : List Char},
    (∀ ch ∈ chars, IsByteChar t ch) →
    (chars.filterMap fun ch => t.lookup[String.ofList [ch]]?).flatMap t.vocab.tokenBytes
      = chars.flatMap t.charBytes
  | [], _ => rfl
  | ch :: chars, hchars => by
    obtain ⟨⟨id, hid⟩, hrest⟩ := List.forall_mem_cons.mp hchars
    simp only [List.filterMap_cons, hid]
    rw [List.flatMap_cons, List.flatMap_cons, h.filterMap_bytes hrest, h.tokenBytes hid,
      String.toList_ofList, List.flatMap_singleton]

/-- **A symbol's ids stand for its bytes**, whether it is in the vocabulary or not. -/
theorem LooksUp.symbolIds_bytes (h : LooksUp t) {symbol : String}
    (hchars : ∀ ch ∈ symbol.toList, IsByteChar t ch) :
    (t.symbolIds symbol).flatMap t.vocab.tokenBytes = symbol.toList.flatMap t.charBytes := by
  rw [symbolIds]
  cases hsymbol : t.lookup[symbol]? with
  | some id => exact (List.flatMap_singleton _ _).trans (h.tokenBytes hsymbol)
  | none => exact h.filterMap_bytes hchars

theorem rewrite_join (t : BpeTokenizer) (piece : Bytes) :
    (t.rewrite piece).flatMap String.toList
      = piece.map fun b => t.byteToChar.getD b.toNat '\x00' := by
  induction piece with
  | nil => rfl
  | cons b piece ih =>
    rw [rewrite, List.map_cons, List.flatMap_cons, String.toList_ofList, ← rewrite, ih]
    rfl

/-- The ids of a pre-token stand for its bytes. -/
theorem LooksUp.piece_bytes (h : LooksUp t) (piece : Bytes) :
    ((t.merge (t.rewrite piece)).flatMap t.symbolIds).flatMap t.vocab.tokenBytes = piece := by
  have hjoin := merge_join t (t.rewrite piece)
  rw [rewrite_join] at hjoin
  have hchars : ∀ s ∈ t.merge (t.rewrite piece), ∀ ch ∈ s.toList, IsByteChar t ch := by
    intro s hs ch hch
    have hmem : ch ∈ (t.merge (t.rewrite piece)).flatMap String.toList :=
      List.mem_flatMap.mpr ⟨s, hs, hch⟩
    rw [hjoin] at hmem
    obtain ⟨b, _, rfl⟩ := List.mem_map.mp hmem
    exact h.byteChar b
  have hbytes : ∀ b : UInt8, t.charBytes (t.byteToChar.getD b.toNat '\x00') = [b] := by
    intro b
    rw [charBytes, h.byteBack b]
  calc ((t.merge (t.rewrite piece)).flatMap t.symbolIds).flatMap t.vocab.tokenBytes
      = (t.merge (t.rewrite piece)).flatMap fun s =>
          (t.symbolIds s).flatMap t.vocab.tokenBytes := List.flatMap_assoc
    _ = (t.merge (t.rewrite piece)).flatMap fun s => s.toList.flatMap t.charBytes :=
        List.flatMap_congr fun s hs => h.symbolIds_bytes (hchars s hs)
    _ = ((t.merge (t.rewrite piece)).flatMap String.toList).flatMap t.charBytes :=
        List.flatMap_assoc.symm
    _ = piece := by
        rw [hjoin, List.flatMap_map]
        simp only [hbytes, List.flatMap_singleton']

end

/-! ## The whole text -/

theorem tile_le : ∀ {ranges : List (Nat × Nat)} {start stop : Nat}, Tile start ranges stop →
    start ≤ stop
  | [], _, _, h => h.le
  | r :: ranges, start, stop, h => by
    obtain ⟨rfl, hlt, hrest⟩ := h
    exact hlt.le.trans (tile_le hrest)

/-- Ranges one behind the other cut a text without loss. -/
theorem tile_slices (text : Bytes) : ∀ {ranges : List (Nat × Nat)} {start stop : Nat},
    Tile start ranges stop → ranges.flatMap (slice text) = (text.drop start).take (stop - start)
  | [], start, stop, h => by
    rw [Tile] at h
    rw [h, Nat.sub_self, List.take_zero]
    rfl
  | r :: ranges, start, stop, h => by
    obtain ⟨rfl, hlt, hrest⟩ := h
    have hle := tile_le hrest
    have hlength : stop - r.1 = (r.2 - r.1) + (stop - r.2) := by omega
    have hdrop : r.1 + (r.2 - r.1) = r.2 := by omega
    rw [List.flatMap_cons, tile_slices text hrest, hlength, List.take_add, List.drop_drop, hdrop]
    rfl

/-- **The ids of a text stand for its bytes.** -/
theorem LooksUp.encode_bytes {t : BpeTokenizer} (h : LooksUp t) (u : CharTables) (text : String) :
    (t.encode u text).flatMap t.vocab.tokenBytes = utf8 text.toList := by
  have htile := tile_splitFrom u text.toList 0 (Nat.zero_le _)
  have hstart : byteAt text.toList 0 = 0 := rfl
  rw [encode, List.flatMap_assoc]
  simp only [h.piece_bytes]
  refine (tile_slices (utf8 text.toList) htile).trans ?_
  rw [hstart, List.drop_zero, Nat.sub_zero, List.take_length]

end BpeTokenizer

end Garuda
