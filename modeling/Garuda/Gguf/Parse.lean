import Garuda.Gguf.Document
import Garuda.Infra.Parser
import Garuda.Infra.Utf8

/-!
# Parsing a GGUF header

The reader of header, metadata and tensor descriptors, on a 64-bit machine. A step that would
index out of range, overflow or fail an `expect` is `panic`.

* `take`, `word`, `string` and `value` are the cursor's reads.
* `document` is the body of `Gguf::parse`, and `Gguf.parse` runs it from the start of a file.

`reserve_for` only bounds what `Vec::with_capacity` is asked for, and memory is not modelled.
-/

namespace Garuda

open Infra

namespace Gguf

def magic : Bytes := [0x47, 0x47, 0x55, 0x46]

def bad (msg : String) : GarudaError := .model s!"gguf: {msg}"

/-! ## The machine's own checks -/

def usizeSub {ε : Type} (a b : Nat) : Checked ε Nat := if b ≤ a then .ok (a - b) else .panic

def usizeDiv {ε : Type} (a b : Nat) : Checked ε Nat := if b = 0 then .panic else .ok (a / b)

/-- `usize::next_multiple_of`. -/
def nextMultipleOf {ε : Type} (n multiple : Nat) : Checked ε Nat :=
  if multiple = 0 then .panic
  else
    let r := (n + multiple - 1) / multiple * multiple
    if r < 2 ^ 64 then .ok r else .panic

/-! ## Reading -/

def take (n : Nat) : Parse GarudaError Bytes := fun c =>
  if 2 ^ 64 ≤ c.pos + n then .err (bad "length overflow")
  else if c.pos + n ≤ c.buf.length then
    .ok ((c.buf.drop c.pos).take n, { c with pos := c.pos + n })
  else .err (bad s!"truncated: wanted {n} bytes at offset {c.pos}")

/-- `from_le_bytes(self.take(w)?.try_into().expect(..))`. -/
def word (w : Nat) : Parse GarudaError Nat := do
  let s ← take w
  if s.length = w then pure (ofLE s) else Parse.lift .panic

def readU8 : Parse GarudaError UInt8 := do
  let s ← take 1
  match s with
  | b :: _ => pure b
  | [] => Parse.lift .panic

def readU16 : Parse GarudaError UInt16 := do
  let n ← word 2
  pure (UInt16.ofNat n)

def readU32 : Parse GarudaError UInt32 := do
  let n ← word 4
  pure (UInt32.ofNat n)

def readU64 : Parse GarudaError UInt64 := do
  let n ← word 8
  pure (UInt64.ofNat n)

/-- `Utf8Error` as it prints. -/
def showUtf8Error (e : Utf8Error) : String :=
  match e.errorLen with
  | some len => s!"invalid utf-8 sequence of {len} bytes from index {e.validUpTo}"
  | none => s!"incomplete utf-8 byte sequence from index {e.validUpTo}"

/-- UTF-8 bytes of a length already read. -/
def stringBytes (len : Nat) : Parse GarudaError String := do
  let bytes ← take len
  match fromUtf8 bytes with
  | .ok s => pure (String.ofList s)
  | .error e => Parse.fail (bad s!"string is not valid UTF-8: {showUtf8Error e}")

/-- GGUF string: u64 length, then that many UTF-8 bytes. -/
def string : Parse GarudaError String := do
  let len ← readU64
  let c ← Parse.cursor
  let free ← Parse.lift (usizeSub c.buf.length (min c.pos c.buf.length))
  -- before allocating: a corrupt length must not drive a huge allocation
  if free < len.toNat then
    Parse.fail (bad s!"string of {len.toNat} bytes overruns the {c.buf.length}-byte file")
  else stringBytes len.toNat

/-- Smallest number of file bytes one value of `typeId` can occupy. -/
def minValueBytes (typeId : UInt32) : Nat :=
  match typeId with
  | 0 | 1 | 7 => 1
  | 2 | 3 => 2
  | 4 | 5 | 6 => 4
  | 8 => 8
  | 9 => 12
  | 10 | 11 | 12 => 8
  | _ => 1

def value (typeId : UInt32) (depth : Nat) : Parse GarudaError Value :=
  -- arrays nest; a file claiming arrays of arrays forever must not blow the stack
  if _h : 8 < depth then Parse.fail (bad "metadata nests too deeply")
  else
    match typeId with
    | 0 => do let v ← readU8; pure (.u8 v)
    | 1 => do let v ← readU8; pure (.i8 v.toInt8)
    | 2 => do let v ← readU16; pure (.u16 v)
    | 3 => do let v ← readU16; pure (.i16 v.toInt16)
    | 4 => do let v ← readU32; pure (.u32 v)
    | 5 => do let v ← readU32; pure (.i32 v.toInt32)
    | 6 => do let v ← readU32; pure (.f32 ⟨v⟩)
    | 7 => do let v ← readU8; pure (.bool (v != 0))
    | 8 => do let s ← string; pure (.string s)
    | 9 => do
      let elemType ← readU32
      let n ← readU64
      let c ← Parse.cursor
      let remaining ← Parse.lift (.ok (c.buf.length - c.pos))
      let most ← Parse.lift (usizeDiv remaining (max (minValueBytes elemType) 1))
      if most < n.toNat then
        Parse.fail (bad s!"array of {n.toNat} elements overruns the {c.buf.length}-byte file")
      else do
        let items ← Parse.times n.toNat (value elemType (depth + 1))
        pure (.array items)
    | 10 => do let v ← readU64; pure (.u64 v)
    | 11 => do let v ← readU64; pure (.i64 v.toInt64)
    | 12 => do let v ← readU64; pure (.f64 ⟨v⟩)
    | other => Parse.fail (bad s!"unknown metadata value type {other.toNat}")
termination_by 9 - depth

/-! ## The document -/

/-- One metadata entry. -/
def entry : Parse GarudaError (String × Value) := do
  let key ← string
  let typeId ← readU32
  let v ← value typeId 0
  pure (key, v)

/-- One tensor descriptor. -/
def tensorInfo : Parse GarudaError TensorInfo := do
  let name ← string
  let nDims ← readU32
  if 4 < nDims.toNat then
    Parse.fail (bad s!"tensor '{name}' claims {nDims.toNat} dimensions")
  else do
    let dims ← Parse.times nDims.toNat readU64
    let ggmlType ← readU32
    let offset ← readU64
    pure { name, dims, ggmlType, offset }

def minTensorBytes : Nat := 24
def minKvBytes : Nat := 13

/-- `general.alignment`, 32 by default. -/
def alignmentOf (metadata : Metadata) : UInt64 :=
  ((metadata["general.alignment"]?).bind Value.asU64).getD 32

def isPowerOfTwo (n : Nat) : Bool := n != 0 && 2 ^ Nat.log2 n == n

/-- The data section starts at the next alignment boundary. -/
def finishDocument (version : UInt32) (entries : List (String × Value))
    (tensors : List TensorInfo) : Parse GarudaError Gguf :=
  let metadata := entries.foldl (fun m (k, v) => m.insert k v) ∅
  let alignment := (alignmentOf metadata).toNat
  if alignment = 0 ∨ isPowerOfTwo alignment = false then
    Parse.fail (bad s!"alignment {alignment} is not a power of two")
  else do
    let c ← Parse.cursor
    let dataOffset ← Parse.lift (nextMultipleOf c.pos alignment)
    pure { version, metadata, tensors, dataOffset }

/-- Metadata entries and descriptors, once their numbers are known. -/
def body (version : UInt32) (tensorCount kvCount : Nat) : Parse GarudaError Gguf := do
  let entries ← Parse.times kvCount entry
  let tensors ← Parse.times tensorCount tensorInfo
  finishDocument version entries tensors

def hexByte (b : UInt8) : String :=
  String.ofList [Nat.digitChar (b.toNat / 16), Nat.digitChar (b.toNat % 16)]

/-- `{:02x?}` of a byte slice. -/
def showBytes (bs : Bytes) : String := "[" ++ ", ".intercalate (bs.map hexByte) ++ "]"

/-- Header, metadata and tensor descriptors. -/
def document : Parse GarudaError Gguf := do
  let m ← take 4
  if m ≠ magic then
    Parse.fail (bad s!"bad magic {showBytes m}, expected {showBytes magic}")
  else do
    let version ← readU32
    if version < 2 ∨ 3 < version then
      Parse.fail (bad s!"unsupported version {version.toNat}")
    else do
      let tensorCount ← readU64
      let kvCount ← readU64
      let c ← Parse.cursor
      let remaining ← Parse.lift (usizeSub c.buf.length c.pos)
      if remaining / minTensorBytes < tensorCount.toNat ∨ remaining / minKvBytes < kvCount.toNat then
        Parse.fail (bad (s!"header claims {tensorCount.toNat} tensors and {kvCount.toNat} metadata "
          ++ s!"entries, more than the remaining {remaining} bytes can describe"))
      else body version tensorCount.toNat kvCount.toNat

/-- Parse the header, metadata and tensor descriptors from `data`. -/
def parse (data : Bytes) : Checked GarudaError Gguf :=
  document { buf := data, pos := 0 } >>= fun (g, _) => .ok g

end Gguf

end Garuda
