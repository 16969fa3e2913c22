import Garuda.Core.Types
import Garuda.Infra.Pages

/-!
# The paged KV cache

`KVCacheState` of `cache/mod.rs`: attention state for one layer of one sequence, in blocks
of `blockSize` positions. Blocks past the residency budget are written to storage and
dropped from RAM; `ensureResident` reads them back.

Every operation takes the cache and the storage state and returns both, also when it fails:
a Rust method on `&mut self` may return `Err` after it has changed `self`.

`last_experts` and `last_predicted` are left out: no operation here reads them.
-/

namespace Garuda

open Infra

/-! ## Data -/

/-- One page of the KV cache: up to `blockSize` contiguous positions, row-major. -/
structure KvBlock where
  keys : List F32
  values : List F32
  filled : Nat
  deriving DecidableEq

/-- How a sequence's KV state is sized and where it may spill. -/
structure KvConfig (σ : Type) where
  dims : ModelDims
  /-- Width of one stored key/value vector. -/
  kvDim : UInt64
  nLayers : UInt64
  /-- Per-layer widths, for a model whose layers are not all the same. A width of `0` counts
  positions and stores nothing. -/
  kvDims : Option (List UInt64)
  maxPositions : UInt64
  maxResidentBlocks : UInt64
  slidingWindow : Option UInt64
  storage : Option (StorageBackend σ)

abbrev BlockMap (β : Type) := Std.ExtTreeMap Nat β

structure KVCacheState (σ : Type) where
  kvDim : Nat
  blockSize : Nat
  resident : BlockMap KvBlock
  spilled : BlockMap Path
  len : Nat
  maxPositions : Nat
  maxResidentBlocks : Nat
  slidingWindow : Option Nat
  storage : Option (StorageBackend σ)
  seqId : Nat
  layer : Nat
  spills : Nat
  reloads : Nat

variable {σ : Type}

/-! ## Spill files -/

def spillPath (seqId layer block : Nat) : Path :=
  s!"kv/seq_{seqId}/layer_{layer}/block_{block}.bin"

theorem spillPath_toList (seqId layer block : Nat) :
    (spillPath seqId layer block).toList
      = ['k', 'v', '/', 's', 'e', 'q', '_'] ++ (seqId.repr.toList ++ '/' ::
        (['l', 'a', 'y', 'e', 'r', '_'] ++ (layer.repr.toList ++ '/' ::
          (['b', 'l', 'o', 'c', 'k', '_'] ++ (block.repr.toList ++ '.' :: ['b', 'i', 'n']))))) := by
  simp [spillPath, toString, String.toList_append]

theorem repr_append_inj {m n : Nat} {c : Char} {u v : List Char} (hc : c.isDigit = false)
    (h : m.repr.toList ++ c :: u = n.repr.toList ++ c :: v) : m = n ∧ u = v := by
  have digits : ∀ (k : Nat) (w : List Char),
      (k.repr.toList ++ c :: w).takeWhile Char.isDigit = k.repr.toList := by
    intro k w
    rw [List.takeWhile_append_of_pos, List.takeWhile_cons_of_neg (by simp [hc]), List.append_nil]
    intro x hx
    rw [Nat.toList_repr] at hx
    exact Nat.isDigit_of_mem_toDigits (by decide) (by decide) hx
  have hrepr : m.repr.toList = n.repr.toList := by rw [← digits m u, h, digits n v]
  rw [hrepr] at h
  exact ⟨Nat.repr_inj.mp (String.toList_inj.mp hrepr),
    (List.cons.inj (List.append_cancel_left h)).2⟩

/-- A spill file names its sequence, its layer and its block. -/
theorem spillPath_inj {s l b s' l' b' : Nat} :
    spillPath s l b = spillPath s' l' b' ↔ s = s' ∧ l = l' ∧ b = b' := by
  constructor
  · intro h
    have hl := congrArg String.toList h
    rw [spillPath_toList, spillPath_toList] at hl
    obtain ⟨hs, hl⟩ := repr_append_inj (by decide) (List.append_cancel_left hl)
    obtain ⟨hly, hl⟩ := repr_append_inj (by decide) (List.append_cancel_left hl)
    exact ⟨hs, hly, (repr_append_inj (by decide) (List.append_cancel_left hl)).1⟩
  · rintro ⟨rfl, rfl, rfl⟩
    rfl

/-- What a spill file holds: the number of positions, then the keys, then the values. -/
def KvBlock.toBytes (block : KvBlock) : Bytes :=
  toLE 8 block.filled ++ (block.keys ++ block.values).flatMap F32.toLeBytes

namespace KVCacheState

/-! ## Construction and reads -/

def forLayer (cfg : KvConfig σ) (seqId layer : Nat) : KVCacheState σ where
  kvDim := match cfg.kvDims with
    | some dims => ((dims[layer]?).getD cfg.kvDim).toNat
    | none => max cfg.kvDim.toNat 1
  blockSize := max cfg.dims.blockSize.toNat 1
  resident := ∅
  spilled := ∅
  len := 0
  maxPositions := max cfg.maxPositions.toNat 1
  maxResidentBlocks := max cfg.maxResidentBlocks.toNat 1
  slidingWindow := cfg.slidingWindow.map UInt64.toNat
  storage := cfg.storage
  seqId := seqId
  layer := layer
  spills := 0
  reloads := 0

def new (cfg : KvConfig σ) (seqId : Nat) : KVCacheState σ := forLayer cfg seqId 0

/-- The oldest position attention may attend to, given the sliding window. -/
def attentionStart (kv : KVCacheState σ) : Nat :=
  match kv.slidingWindow with
  | some w => kv.len - w
  | none => 0

def sliceAt (kv : KVCacheState σ) (pos : Nat) (key : Bool) : Option (List F32) :=
  if kv.len ≤ pos then none
  else
    match kv.resident[pos / kv.blockSize]? with
    | none => none
    | some block =>
      flatRow kv.kvDim (if key then block.keys else block.values) (pos % kv.blockSize)

def keyAt (kv : KVCacheState σ) (pos : Nat) : Option (List F32) := kv.sliceAt pos true

def valueAt (kv : KVCacheState σ) (pos : Nat) : Option (List F32) := kv.sliceAt pos false

def hasSpill (kv : KVCacheState σ) : Bool := !kv.spilled.isEmpty

/-! ## Append and eviction -/

abbrev Step (σ : Type) := Except GarudaError Unit × KVCacheState σ × σ

/-- `victim` has been written to its file and leaves RAM. -/
def spillOut (kv : KVCacheState σ) (victim : Nat) : KVCacheState σ :=
  { kv with
    resident := kv.resident.erase victim
    spilled := kv.spilled.insert victim (spillPath kv.seqId kv.layer victim)
    spills := kv.spills + 1 }

/--
The eviction loop: spill the oldest block other than `current` until the budget is met.

The first argument bounds the iterations. Each one takes a block out of `resident`, so
`resident.size` of them are enough (`enforceLoop_done`).
-/
def enforceLoop (storage : StorageBackend σ) (current : Nat) :
    Nat → KVCacheState σ → σ → Step σ
  | 0, kv, st => (.ok (), kv, st)
  | n + 1, kv, st =>
    if kv.maxResidentBlocks < kv.resident.size then
      match kv.resident.keys.find? (fun k => k != current) with
      | none => (.ok (), kv, st)
      | some victim =>
        match kv.resident[victim]? with
        | none => (.ok (), kv, st) -- not reached: the key came from the map
        | some block =>
          match storage.write (spillPath kv.seqId kv.layer victim) block.toBytes st with
          | (.error e, st) =>
            -- keep the block in RAM rather than lose attention state
            (.error e,
              { kv with resident := (kv.resident.erase victim).insert victim block }, st)
          | (.ok (), st) => enforceLoop storage current n (kv.spillOut victim) st
    else (.ok (), kv, st)

/-- Spill oldest complete blocks until the residency budget is met. -/
def enforceResidency (current : Nat) (kv : KVCacheState σ) (st : σ) : Step σ :=
  if kv.kvDim = 0 then (.ok (), kv, st)
  else
    match kv.storage with
    | none => (.ok (), kv, st)
    | some storage => enforceLoop storage current kv.resident.size kv st

/-- The cache after the vectors are stored and before the budget is enforced. -/
def push (kv : KVCacheState σ) (key value : List F32) : KVCacheState σ :=
  let idx := kv.len / kv.blockSize
  let block := (kv.resident[idx]?).getD { keys := [], values := [], filled := 0 }
  { kv with
    resident := kv.resident.insert idx
      { keys := block.keys ++ key, values := block.values ++ value, filled := block.filled + 1 }
    len := kv.len + 1 }

/-- Append the key/value vectors for the next position. -/
def append (key value : List F32) (kv : KVCacheState σ) (st : σ) : Step σ :=
  if key.length ≠ kv.kvDim ∨ value.length ≠ kv.kvDim then
    (.error (.cache s!"kv append expects a {kv.kvDim}-dim key and value, got {key.length} and {value.length}"),
      kv, st)
  else if kv.maxPositions ≤ kv.len then
    (.error (.cache s!"context window of {kv.maxPositions} positions is exhausted"), kv, st)
  else enforceResidency (kv.len / kv.blockSize) (kv.push key value) st

/-! ## Reload -/

/-- `block` has been read back and is in RAM again; its file stays where it is. -/
def loadBlock (kv : KVCacheState σ) (block : Nat) (loaded : KvBlock) : KVCacheState σ :=
  { kv with
    resident := kv.resident.insert block loaded
    spilled := kv.spilled.erase block
    reloads := kv.reloads + 1 }

/-- Read `block` back from disk into RAM. -/
def reload (block : Nat) (kv : KVCacheState σ) (st : σ) : Step σ :=
  match kv.spilled[block]? with
  | none => (.error (.cache s!"block {block} was never spilled"), kv, st)
  | some path =>
    match kv.storage with
    | none => (.error (.cache "no storage backend to reload from"), kv, st)
    | some storage =>
      match storage.read path st with
      | (.error e, st) => (.error e, kv, st)
      | (.ok bytes, st) =>
        if bytes.length < 8 then
          (.error (.cache s!"spill file for block {block} is truncated"), kv, st)
        else
          let filled := ofLE (bytes.take 8)
          let expected := 8 + filled * kv.kvDim * 2 * 4
          if bytes.length ≠ expected ∨ kv.blockSize < filled then
            (.error (.cache s!"spill file for block {block} is malformed: {bytes.length} bytes, filled={filled}"),
              kv, st)
          else
            let vals := (words 4 (bytes.drop 8)).map F32.fromLeBytes
            (.ok (),
              kv.loadBlock block
                { keys := vals.take (filled * kv.kvDim), values := vals.drop (filled * kv.kvDim),
                  filled := filled }, st)

def reloadAll : List Nat → KVCacheState σ → σ → Step σ
  | [], kv, st => (.ok (), kv, st)
  | b :: rest, kv, st =>
    match kv.reload b st with
    | (.error e, kv, st) => (.error e, kv, st)
    | (.ok (), kv, st) => reloadAll rest kv st

/-- The spilled blocks among those covering `start..stop`. -/
def needed (start stop : Nat) (kv : KVCacheState σ) : List Nat :=
  (List.range' (start / kv.blockSize) ((stop - 1) / kv.blockSize + 1 - start / kv.blockSize)).filter
    (fun b => kv.spilled.contains b)

/-- Make every block covering `start..stop` resident. Call before reading. -/
def ensureResident (start stop : Nat) (kv : KVCacheState σ) (st : σ) : Step σ :=
  if stop ≤ start then (.ok (), kv, st)
  else reloadAll (kv.needed start stop) kv st

/-! ## Truncate -/

/-- `b` is no longer known to be on disk. -/
def forget (kv : KVCacheState σ) (b : Nat) : KVCacheState σ :=
  { kv with spilled := kv.spilled.erase b }

def removeStale : List Nat → KVCacheState σ → σ → KVCacheState σ × σ
  | [], kv, st => (kv, st)
  | b :: rest, kv, st =>
    match kv.spilled[b]? with
    | none => removeStale rest kv st
    | some path =>
      match kv.storage with
      | none => removeStale rest (kv.forget b) st
      | some storage =>
        -- the outcome of the removal is ignored
        removeStale rest (kv.forget b) (storage.remove path st).2

/-- The resident blocks that survive a cut before position `len`, the last of them cut short. -/
def cutResident (len : Nat) (kv : KVCacheState σ) : BlockMap KvBlock :=
  let cutBlock := len / kv.blockSize
  let keep := len % kv.blockSize
  let whole := kv.resident.filter (fun b _ => decide (b < cutBlock) || (b == cutBlock && decide (0 < keep)))
  if 0 < keep then
    whole.modify cutBlock (fun block =>
      { keys := block.keys.take (keep * kv.kvDim), values := block.values.take (keep * kv.kvDim),
        filled := keep })
  else whole

/-- Whole blocks past the cut that left a file behind. -/
def staleBlocks (len : Nat) (kv : KVCacheState σ) : List Nat :=
  kv.spilled.keys.filter (fun b =>
    decide (len / kv.blockSize < b) || (b == len / kv.blockSize && len % kv.blockSize == 0))

/-- The cut lands inside a block that is on disk. -/
def cutSpilled (len : Nat) (kv : KVCacheState σ) : Bool :=
  decide (0 < len % kv.blockSize) && kv.spilled.contains (len / kv.blockSize)

/-- Drop every position at or after `len`. -/
def truncate (len : Nat) (kv : KVCacheState σ) (st : σ) : Step σ :=
  if kv.len ≤ len then (.ok (), kv, st)
  else if kv.cutSpilled len then
    (.error (.cache s!"cannot truncate to {len}: block {len / kv.blockSize} is spilled to disk"),
      kv, st)
  else
    let out := removeStale (kv.staleBlocks len) { kv with resident := kv.cutResident len } st
    (.ok (), { out.1 with len := len }, out.2)

/-! ## Identity and clean-up -/

def rekey (seqId : Nat) (kv : KVCacheState σ) : Except GarudaError Unit × KVCacheState σ :=
  if kv.hasSpill then (.error (.cache "cannot rekey a sequence with spilled blocks"), kv)
  else (.ok (), { kv with seqId := seqId })

def removeFiles (storage : StorageBackend σ) : List Path → σ → σ
  | [], st => st
  | p :: rest, st => removeFiles storage rest (storage.remove p st).2

/-- Delete this sequence's spill files. -/
def purgeSpillFiles (kv : KVCacheState σ) (st : σ) : KVCacheState σ × σ :=
  ({ kv with spilled := ∅ },
    match kv.storage with
    | none => st
    | some storage => removeFiles storage (kv.spilled.toList.map Prod.snd) st)

end KVCacheState

end Garuda
