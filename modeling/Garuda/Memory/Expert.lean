import Garuda.Core.Types

/-!
# Experts

An expert's weights: synthesised from its id, and on disk.

* `synthesizeExpert` draws the weights from `splitmix64`; the `f32` expression that turns a word
  into a weight is a parameter `draw`, on which nothing here depends.
* `expertToBytes` and `expertFromBytes` are the format on disk.
* `expertFromBytes_toBytes` says that what is read back, if anything is, is what was written.
-/

namespace Garuda

open Infra

abbrev ExpertId := UInt32

/-- The part of `ModelDims` that the expert store reads. -/
structure ExpertDims where
  nExperts : Nat
  dModel : Nat
  dFf : Nat
  deriving DecidableEq, Repr

/-- An expert, less the time it was loaded at. -/
structure Expert where
  id : ExpertId
  gate : List F32
  up : List F32
  down : List F32
  dims : ExpertDims
  deriving DecidableEq, Repr

namespace Expert

/-- Number of `f32` values one expert occupies. -/
def nParams (dims : ExpertDims) : Nat := 2 * dims.dFf * dims.dModel + dims.dModel * dims.dFf

def sizeBytes (e : Expert) : Nat := (e.gate.length + e.up.length + e.down.length) * 4

/-- Three matrices of the sizes that `dims` gives them. -/
structure Shaped (dims : ExpertDims) (e : Expert) : Prop where
  gate : e.gate.length = dims.dFf * dims.dModel
  up : e.up.length = dims.dFf * dims.dModel
  down : e.down.length = dims.dModel * dims.dFf

end Expert

/-! ## Synthesis -/

/-- One step of `splitmix64`: the word drawn and the state left. -/
def splitmix64 (state : UInt64) : UInt64 × UInt64 :=
  let state := state + 0x9E3779B97F4A7C15
  let z := (state ^^^ (state >>> 30)) * 0xBF58476D1CE4E5B9
  let z := (z ^^^ (z >>> 27)) * 0x94D049BB133111EB
  (z ^^^ (z >>> 31), state)

variable (draw : UInt64 → Nat → F32)

/-- `n` values within the bound of a layer of `fanIn` inputs: `draw z fanIn` is
`((z >> 40) as f32 / (1 << 24) as f32 * 2.0 - 1.0) * bound(fanIn)`. -/
def seeded (fanIn : Nat) : Nat → UInt64 → List F32
  | 0, _ => []
  | n + 1, state => draw (splitmix64 state).1 fanIn :: seeded fanIn n (splitmix64 state).2

/-- `seeds::EXPERT`. -/
def expertSeed : UInt64 := 0x6761727564611000

/-- Deterministic weights for one expert. -/
def synthesizeExpert (id : ExpertId) (dims : ExpertDims) : Expert :=
  let seed := expertSeed ^^^ (id.toUInt64 * 0x9E3779B97F4A7C15)
  { id
    gate := seeded draw dims.dModel (dims.dFf * dims.dModel) seed
    up := seeded draw dims.dModel (dims.dFf * dims.dModel) (seed ^^^ 0xAAAAAAAA)
    down := seeded draw dims.dFf (dims.dModel * dims.dFf) (seed ^^^ 0x55555555)
    dims }

@[simp] theorem length_seeded (fanIn n : Nat) (state : UInt64) :
    (seeded draw fanIn n state).length = n := by
  induction n generalizing state with
  | zero => rfl
  | succ n ih => rw [seeded, List.length_cons, ih]

theorem synthesizeExpert_shaped (id : ExpertId) (dims : ExpertDims) :
    (synthesizeExpert draw id dims).Shaped dims :=
  ⟨length_seeded .., length_seeded .., length_seeded ..⟩

/-! ## On disk -/

/-- `is_finite`: the exponent is not all ones. -/
def F32.isFinite (x : F32) : Bool := x.bits.toNat / 2 ^ 23 % 2 ^ 8 != 255

/-- `gate`, then `up`, then `down`. -/
def expertToBytes (e : Expert) : Bytes :=
  e.gate.flatMap F32.toLeBytes ++ e.up.flatMap F32.toLeBytes ++ e.down.flatMap F32.toLeBytes

/-- Cuts the values of an expert into its matrices. -/
def ofValues (id : ExpertId) (dims : ExpertDims) (vals : List F32) : Expert where
  id := id
  gate := vals.take (dims.dFf * dims.dModel)
  up := (vals.drop (dims.dFf * dims.dModel)).take (dims.dFf * dims.dModel)
  down := vals.drop (2 * dims.dFf * dims.dModel)
  dims := dims

/-- Reads the layout that `expertToBytes` writes; any other length is refused. -/
def expertFromBytes (id : ExpertId) (dims : ExpertDims) (bytes : Bytes) :
    Except GarudaError Expert :=
  let expected := Expert.nParams dims * 4
  if bytes.length ≠ expected then
    .error (.model (s!"expert {id.toNat}: expected {expected} bytes for dims "
      ++ s!"{dims.dModel}x{dims.dFf}, found {bytes.length}"))
  else
    let vals := (words 4 bytes).map F32.fromLeBytes
    match vals.findIdx? fun v => !v.isFinite with
    | some bad => .error (.model s!"expert {id.toNat}: non-finite weight at index {bad}")
    | none => .ok (ofValues id dims vals)

theorem expertToBytes_eq (e : Expert) :
    expertToBytes e = (e.gate ++ e.up ++ e.down).flatMap F32.toLeBytes := by
  rw [expertToBytes, List.flatMap_append, List.flatMap_append]

theorem words_expertToBytes (e : Expert) :
    (words 4 (expertToBytes e)).map F32.fromLeBytes = e.gate ++ e.up ++ e.down := by
  rw [expertToBytes_eq, words_flatMap (by decide) F32.length_toLeBytes, List.map_map]
  have hid : F32.fromLeBytes ∘ F32.toLeBytes = id := funext F32.fromLeBytes_toLeBytes
  rw [hid, List.map_id]

theorem ofValues_eq {dims : ExpertDims} {e : Expert} (h : e.Shaped dims) (id : ExpertId) :
    ofValues id dims (e.gate ++ e.up ++ e.down) = { e with id := id, dims := dims } := by
  have hsplit : 2 * dims.dFf * dims.dModel = dims.dFf * dims.dModel + dims.dFf * dims.dModel := by
    rw [Nat.mul_assoc, Nat.two_mul]
  rw [ofValues, hsplit, ← h.gate, List.append_assoc, List.take_left, List.drop_left,
    List.take_left' (h.up.trans h.gate.symm), ← List.drop_drop, List.drop_left,
    List.drop_left' (h.up.trans h.gate.symm)]

/-- **What is written comes back unchanged, or not at all.** -/
theorem expertFromBytes_toBytes {dims : ExpertDims} {e : Expert} (h : e.Shaped dims)
    (hdims : e.dims = dims) :
    expertFromBytes e.id dims (expertToBytes e) =
      match (e.gate ++ e.up ++ e.down).findIdx? fun v => !v.isFinite with
      | some bad => .error (.model s!"expert {e.id.toNat}: non-finite weight at index {bad}")
      | none => .ok e := by
  subst hdims
  have hlen : (expertToBytes e).length = Expert.nParams e.dims * 4 := by
    rw [expertToBytes_eq, length_flatMap_const F32.length_toLeBytes, List.length_append,
      List.length_append, h.gate, h.up, h.down, Expert.nParams, Nat.mul_assoc 2, Nat.two_mul]
  simp only [expertFromBytes, hlen, ne_eq, not_true_eq_false, if_false, words_expertToBytes,
    ofValues_eq h]

theorem expertFromBytes_eq_ok {dims : ExpertDims} {e e' : Expert} (h : e.Shaped dims)
    (hdims : e.dims = dims) (hok : expertFromBytes e.id dims (expertToBytes e) = .ok e') :
    e' = e := by
  rw [expertFromBytes_toBytes h hdims] at hok
  split at hok
  · cases hok
  · cases hok
    rfl

end Garuda
