import Garuda.Infra.Build
import Garuda.Infra.MaxQueue
import Garuda.Tokenizer.Spm

/-!
# SentencePiece encoding

Every character starts as a symbol of its own, the symbols form a linked list, and a heap holds the
candidate merges. A candidate whose symbols changed since it was queued stays in the heap and is
recognised when it comes up.

* `SpmTokenizer.tryBigram` queues a candidate, `SpmTokenizer.mergePopped` is one turn of the loop.
* `SpmTokenizer.encodeSpm` is the whole encoding.

The source indexes its symbols by `i32`, so the arithmetic on indices depends on the build.
-/

namespace Garuda

open Infra

/-- The integer whose order is that of `f32::total_cmp`. -/
def F32.totalKey (x : F32) : Int :=
  if x.bits.toNat < 2 ^ 31 then x.bits.toNat else 2 ^ 31 - 1 - x.bits.toNat

def F32.totalCmp (x y : F32) : Ordering := compare x.totalKey y.totalKey

namespace Spm

/-- A symbol in the merge list. `len = 0` marks one that was merged away. -/
structure Sym where
  start : Nat
  len : Nat
  prev : Int
  next : Int
  deriving DecidableEq

/-- A candidate merge. -/
structure Bigram where
  left : Int
  right : Int
  score : F32
  size : Nat
  deriving DecidableEq

/-- The highest score comes first, and the leftmost among equals. -/
def Bigram.cmp (a b : Bigram) : Ordering := (a.score.totalCmp b.score).then (compare b.left a.left)

/-- The error that no run ends with: the model's loops have made all the turns they may. -/
inductive OutOfFuel where
  | fuel
  deriving DecidableEq

/-! ## Indexing -/

/-- `v[i]` -/
def index {α : Type} (v : List α) (i : Nat) : Checked OutOfFuel α :=
  match v[i]? with
  | some a => .ok a
  | none => .panic

/-- `v[i] = f(v[i])` -/
def update {α : Type} (v : List α) (i : Nat) (f : α → α) : Checked OutOfFuel (List α) :=
  if i < v.length then .ok (v.modify i f) else .panic

/-- `str::is_char_boundary` -/
def isCharBoundary (s : Bytes) (i : Nat) : Bool :=
  match s[i]? with
  | some b => decide (i = 0 ∨ ¬ (0x80 ≤ b.toNat ∧ b.toNat ≤ 0xBF))
  | none => decide (i = s.length)

/-- `&s[start..end]` -/
def strSlice (s : Bytes) (start stop : Nat) : Checked OutOfFuel (List Char) :=
  if start ≤ stop ∧ isCharBoundary s start ∧ isCharBoundary s stop then
    match fromUtf8 ((s.drop start).take (stop - start)) with
    | .ok piece => .ok piece
    | .error _ => .panic
  else .panic

/-! ## The symbols of a text -/

/-- The text with its spaces marked, after a mark of its own if it leads. -/
def normalize (text : List Char) (lead : Bool) : List Char :=
  (if lead then [spaceMark] else []) ++ text.map fun ch => if ch = ' ' then spaceMark else ch

/-- The symbol of a character, after `count` others. -/
def newSym (b : Build) (count start : Nat) (ch : Char) : Checked OutOfFuel Sym := do
  let idx := Build.asI32 count
  let prev ← b.fitI32 (idx - 1)
  let next ← b.fitI32 (idx + 1)
  .ok { start, len := ch.utf8Size, prev, next }

/-- One symbol per character, after `count` others. -/
def symbolsFrom (b : Build) : Nat → Nat → List Char → Checked OutOfFuel (List Sym)
  | _, _, [] => .ok []
  | count, start, ch :: rest => do
    let sym ← newSym b count start ch
    let syms ← symbolsFrom b (count + 1) (start + ch.utf8Size) rest
    .ok (sym :: syms)

/-- `syms.last_mut().next = -1` -/
def endLast (syms : List Sym) : List Sym :=
  syms.modify (syms.length - 1) fun s => { s with next := -1 }

def symbols (b : Build) (chars : List Char) : Checked OutOfFuel (List Sym) := do
  let syms ← symbolsFrom b 0 0 chars
  .ok (endLast syms)

/-- `if r_next >= 0 { syms[r_next].prev = left }` -/
def relink (syms : List Sym) (rNext left : Int) : Checked OutOfFuel (List Sym) :=
  if 0 ≤ rNext then update syms rNext.toNat fun s => { s with prev := left } else .ok syms

/-- Symbol `r` goes into symbol `l`, and out of the list. -/
def joinSyms (syms : List Sym) (l r : Nat) (sr : Sym) (left : Int) :
    Checked OutOfFuel (List Sym) := do
  let syms ← update syms l fun s => { s with len := s.len + sr.len }
  let syms ← update syms r fun s => { s with len := 0 }
  let syms ← update syms l fun s => { s with next := sr.next }
  relink syms sr.next left

end Spm

namespace SpmTokenizer

open Spm

def byteToToken (t : SpmTokenizer) (b : UInt8) : Token :=
  if t.byteToken b = 0 then t.unk else t.byteToken b

/-- Queue the merge of `left` and `right`, if the vocabulary has it. -/
def tryBigram (t : SpmTokenizer) (norm : Bytes) (syms : List Sym) (left right : Int)
    (heap : List Bigram) : Checked OutOfFuel (List Bigram) :=
  if left < 0 ∨ right < 0 then .ok heap
  else do
    let l ← index syms left.toNat
    let r ← index syms right.toNat
    if l.len = 0 ∨ r.len = 0 then .ok heap
    else do
      let piece ← strSlice norm l.start (r.start + r.len)
      match t.lookup[String.ofList piece]? with
      | none => .ok heap
      | some id => do
        let entry ← index t.vocab.tokens id.toNat
        .ok ({ left, right, score := entry.score, size := (utf8 piece).length } :: heap)

/-- One turn of the loop, on the bigram popped. -/
def mergePopped (t : SpmTokenizer) (norm : Bytes) (syms : List Sym) (bg : Bigram)
    (heap : List Bigram) : Checked OutOfFuel (List Sym × List Bigram) := do
  let l := bg.left.toNat
  let r := bg.right.toNat
  let sl ← index syms l
  let sr ← index syms r
  -- one side was already merged away
  if sl.len = 0 ∨ sr.len = 0 then .ok (syms, heap)
  -- stale: the symbols changed since this pair was queued
  else if sl.len + sr.len ≠ bg.size then .ok (syms, heap)
  else do
    let syms ← joinSyms syms l r sr bg.left
    let sl ← index syms l
    let heap ← t.tryBigram norm syms sl.prev bg.left heap
    let heap ← t.tryBigram norm syms bg.left sl.next heap
    .ok (syms, heap)

/-- `while let Some(bg) = heap.pop()` -/
def mergeLoop (t : SpmTokenizer) (norm : Bytes) : Nat → List Sym → List Bigram →
    Checked OutOfFuel (List Sym)
  | 0, _, _ => .err .fuel
  | fuel + 1, syms, heap =>
    match popMax Bigram.cmp heap with
    | none => .ok syms
    | some (bg, heap) => do
      let (syms, heap) ← t.mergePopped norm syms bg heap
      mergeLoop t norm fuel syms heap

/-- The tokens of a piece that no merge takes further. -/
def pieceTokens (t : SpmTokenizer) (piece : List Char) : List Token :=
  match t.lookup[String.ofList piece]? with
  | some id => [id]
  | none => (utf8 piece).map t.byteToToken

def symTokens (t : SpmTokenizer) (norm : Bytes) (s : Sym) : Checked OutOfFuel (List Token) :=
  if 0 < s.len then do
    let piece ← strSlice norm s.start (s.start + s.len)
    .ok (t.pieceTokens piece)
  else .ok []

/-- `while i >= 0 && i < syms.len()` -/
def readOut (t : SpmTokenizer) (norm : Bytes) (syms : List Sym) (fuel : Nat) (i : Int) :
    Checked OutOfFuel (List Token) :=
  if 0 ≤ i ∧ i.toNat < syms.length then
    match fuel with
    | 0 => .err .fuel
    | fuel + 1 => do
      let s ← index syms i.toNat
      let out ← t.symTokens norm s
      let rest ← readOut t norm syms fuel s.next
      .ok (out ++ rest)
  else .ok []

/-- `for i in 1..syms.len() as i32`, which queues each symbol with the one before it. -/
def firstBigrams (t : SpmTokenizer) (norm : Bytes) (syms : List Sym) :
    Checked OutOfFuel (List Bigram) :=
  (List.range' 1 ((Build.asI32 syms.length).toNat - 1)).foldlM
    (fun heap (i : Nat) => t.tryBigram norm syms ((i : Int) - 1) i heap) []

/-- What stands before the first piece. -/
def leading (t : SpmTokenizer) (lead : Bool) : List Token :=
  if lead && t.addBos then [t.vocab.bos] else []

def encodeSpm (t : SpmTokenizer) (b : Build) (text : String) (lead : Bool) :
    Checked OutOfFuel (List Token) := do
  let chars := normalize text.toList lead
  let norm := utf8 chars
  let syms ← symbols b chars
  let heap ← t.firstBigrams norm syms
  -- a merge takes a symbol away and queues at most two candidates
  let syms ← t.mergeLoop norm (3 * syms.length + 1) syms heap
  let out ← t.readOut norm syms syms.length 0
  .ok (t.leading lead ++ out)

def encode (t : SpmTokenizer) (b : Build) (text : String) : Checked OutOfFuel (List Token) :=
  t.encodeSpm b text true

def encodeFragment (t : SpmTokenizer) (b : Build) (text : String) :
    Checked OutOfFuel (List Token) :=
  t.encodeSpm b text false

end SpmTokenizer

end Garuda
