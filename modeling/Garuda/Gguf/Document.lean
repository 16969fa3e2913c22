import Garuda.Core.Types

/-!
# GGUF documents

What a GGUF header holds: metadata values by key, and the tensors' descriptors.

* `Value` is a metadata value; `asU64`, `asStr`, … read it as a caller expects it.
* `F32.ofU64` and `F32.ofF64` are the conversions `as f32`, on bit patterns.
* `Gguf` is the parsed header. `dataOffset` is a `usize`, as a number.
-/

namespace Garuda

/-! ## Numbers as `f32` -/

/-- An `f64` as its bit pattern. -/
structure F64 where
  bits : UInt64
  deriving DecidableEq, Repr

namespace F32

/-- `m / 2^k` to the nearest number, ties to even. -/
def halfEven (m k : Nat) : Nat :=
  let q := m / 2 ^ k
  let r := m % 2 ^ k
  if 2 ^ k < 2 * r ∨ (2 * r = 2 ^ k ∧ q % 2 = 1) then q + 1 else q

/-- The bits, less the sign, of the `f32` nearest to `m * 2^e`. -/
def nearest (m : Nat) (e : Int) : Nat :=
  if m = 0 then 0
  else
    -- below 2^-126 the exponent stays and the leading bit goes
    let top := max (Nat.log2 m + e) (-126)
    let ulp := top - 23
    let digits := if ulp ≤ e then m * 2 ^ (e - ulp).toNat else halfEven m (ulp - e).toNat
    -- a carry out of the digits raises the exponent by itself
    min ((top + 126).toNat * 2 ^ 23 + digits) 0x7F800000

def ofU64 (n : UInt64) : F32 := ⟨UInt32.ofNat (nearest n.toNat 0)⟩

def ofF64 (x : F64) : F32 :=
  let sign := x.bits.toNat / 2 ^ 63
  let exponent : Nat := x.bits.toNat / 2 ^ 52 % 2 ^ 11
  let fraction := x.bits.toNat % 2 ^ 52
  let magnitude :=
    if exponent = 2047 then
      -- a NaN stays one: it is made quiet and keeps the high bits of its payload
      if fraction = 0 then 0x7F800000 else 0x7FC00000 ||| fraction / 2 ^ 29
    else if exponent = 0 then nearest fraction (-1074)
    else nearest (2 ^ 52 + fraction) ((exponent : Int) - 1075)
  ⟨UInt32.ofNat (sign * 2 ^ 31 + magnitude)⟩

example : ofU64 1 = ⟨0x3F800000⟩ := by decide +kernel
example : ofF64 ⟨0xBFB999999999999A⟩ = ⟨0xBDCCCCCD⟩ := by decide +kernel

end F32

/-! ## Values -/

inductive Value where
  | u8 (v : UInt8)
  | i8 (v : Int8)
  | u16 (v : UInt16)
  | i16 (v : Int16)
  | u32 (v : UInt32)
  | i32 (v : Int32)
  | f32 (v : F32)
  | bool (v : Bool)
  | string (v : String)
  | array (v : List Value)
  | u64 (v : UInt64)
  | i64 (v : Int64)
  | f64 (v : F64)

namespace Value

/-- The value as an integer, when it is one that is not negative. -/
def asU64 : Value → Option UInt64
  | u8 v => some v.toUInt64
  | u16 v => some v.toUInt64
  | u32 v => some v.toUInt64
  | u64 v => some v
  | i8 v => if 0 ≤ v then some v.toInt64.toUInt64 else none
  | i16 v => if 0 ≤ v then some v.toInt64.toUInt64 else none
  | i32 v => if 0 ≤ v then some v.toInt64.toUInt64 else none
  | i64 v => if 0 ≤ v then some v.toUInt64 else none
  | _ => none

def asStr : Value → Option String
  | string s => some s
  | _ => none

def asF32 : Value → Option F32
  | f32 v => some v
  | f64 v => some (F32.ofF64 v)
  | v => v.asU64.map F32.ofU64

def asArray : Value → Option (List Value)
  | array a => some a
  | _ => none

/-- A flag written as a boolean or as an integer. -/
def asBool : Value → Option Bool
  | bool b => some b
  | v => v.asU64.map fun u => u != 0

end Value

/-! ## The header -/

structure TensorInfo where
  name : String
  dims : List UInt64
  ggmlType : UInt32
  /-- Byte offset from the start of the tensor data section. -/
  offset : UInt64
  deriving DecidableEq, Repr

/-- `BTreeMap<String, Value>`. -/
abbrev Metadata := Std.ExtTreeMap String Value

structure Gguf where
  version : UInt32
  metadata : Metadata
  tensors : List TensorInfo
  /-- Offset of the tensor data section within the file. -/
  dataOffset : Nat

namespace Gguf

def get (g : Gguf) (key : String) : Option Value := g.metadata[key]?

def architecture (g : Gguf) : Option String := (g.get "general.architecture").bind Value.asStr

/-- An `{arch}.{suffix}` metadata integer. -/
def archU64 (g : Gguf) (suffix : String) : Option UInt64 := do
  let arch ← g.architecture
  let v ← g.get s!"{arch}.{suffix}"
  v.asU64

/-- The first tensor of that name. -/
def tensor (g : Gguf) (name : String) : Option TensorInfo := g.tensors.find? (·.name = name)

end Gguf

end Garuda
