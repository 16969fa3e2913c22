import Garuda.Infra.LittleEndian

/-!
# Core types

The types every subsystem shares: tokens, errors, the bit pattern of an `f32`, the model's
shape and the storage trait.

A storage backend is a trait object with interior state. Here its state `σ` is threaded
explicitly: an operation answers `Ok` or `Err` and leaves a new state either way.
-/

namespace Garuda

open Infra

abbrev Token := UInt32

/-- `PathBuf`, as the backends receive it. -/
abbrev Path := String

inductive GarudaError where
  | io (msg : String)
  | storage (msg : String)
  | inference (msg : String)
  | scheduler (msg : String)
  | cache (msg : String)
  | model (msg : String)
  | invalidToken (t : Token)
  | config (msg : String)
  | timeout
  | cancelled
  | busy
  | rateLimit
  deriving DecidableEq, Repr

/-! ## `f32` -/

/-- An `f32` as its bit pattern, which is all that storing and reloading one can see. -/
structure F32 where
  bits : UInt32
  deriving DecidableEq, Repr

namespace F32

def toLeBytes (x : F32) : Bytes := toLE 4 x.bits.toNat

def fromLeBytes (bs : Bytes) : F32 := ⟨UInt32.ofNat (ofLE bs)⟩

@[simp] theorem length_toLeBytes (x : F32) : x.toLeBytes.length = 4 := length_toLE _ _

@[simp] theorem fromLeBytes_toLeBytes (x : F32) : fromLeBytes x.toLeBytes = x := by
  unfold fromLeBytes toLeBytes
  rw [ofLE_toLE (by exact x.bits.toNat_lt)]
  simp

end F32

/-! ## The model's shape -/

/-- The part of `ModelDims` that the cache and the runtime read. -/
structure ModelDims where
  vocabSize : UInt64
  /-- Positions per KV cache block. -/
  blockSize : UInt64
  deriving Repr

/-! ## Storage -/

/-- Byte-level access to a tier of storage. -/
structure StorageBackend (σ : Type) where
  read : Path → σ → Except GarudaError Bytes × σ
  write : Path → Bytes → σ → Except GarudaError Unit × σ
  remove : Path → σ → Except GarudaError Unit × σ

/--
No spill storage, or one whose read returns what was last written.

`content` is what the storage holds at each path. Every operation may fail at any time;
a failed write or a removal may leave anything at its own path, and nothing touches the
other paths.
-/
structure ReadsBack {σ : Type} (storage : Option (StorageBackend σ)) where
  content : σ → Path → Option Bytes
  read_ok : ∀ b, storage = some b → ∀ p st bytes, (b.read p st).1 = .ok bytes →
    content st p = some bytes
  read_frame : ∀ b, storage = some b → ∀ p st, content (b.read p st).2 = content st
  write_ok : ∀ b, storage = some b → ∀ p data st, (b.write p data st).1 = .ok () →
    content (b.write p data st).2 p = some data
  write_frame : ∀ b, storage = some b → ∀ p data st q, q ≠ p →
    content (b.write p data st).2 q = content st q
  remove_frame : ∀ b, storage = some b → ∀ p st q, q ≠ p →
    content (b.remove p st).2 q = content st q

/-- A storage whose operations succeed, but for a read of a path that holds nothing. -/
structure Reliable {σ : Type} (b : StorageBackend σ) extends ReadsBack (some b) where
  read_succeeds : ∀ p st bytes, content st p = some bytes → (b.read p st).1 = .ok bytes
  write_succeeds : ∀ p data st, (b.write p data st).1 = .ok ()
  remove_succeeds : ∀ p st, (b.remove p st).1 = .ok ()
  remove_gone : ∀ p st, content (b.remove p st).2 p = none

/-- The same storage, keeping a log of every path it was asked to write. -/
def StorageBackend.recorded {σ : Type} (b : StorageBackend σ) :
    StorageBackend (σ × List Path) where
  read p st := ((b.read p st.1).1, (b.read p st.1).2, st.2)
  write p data st := ((b.write p data st.1).1, (b.write p data st.1).2, p :: st.2)
  remove p st := ((b.remove p st.1).1, (b.remove p st.1).2, st.2)

def Reliable.recorded {σ : Type} {b : StorageBackend σ} (law : Reliable b) :
    Reliable b.recorded where
  content st := law.content st.1
  read_ok := by
    intro c hc p st bytes h
    rw [← Option.some.inj hc] at h
    exact law.read_ok b rfl p st.1 bytes h
  read_frame := by
    intro c hc p st
    rw [← Option.some.inj hc]
    exact law.read_frame b rfl p st.1
  write_ok := by
    intro c hc p data st h
    rw [← Option.some.inj hc] at h ⊢
    exact law.write_ok b rfl p data st.1 h
  write_frame := by
    intro c hc p data st q hq
    rw [← Option.some.inj hc]
    exact law.write_frame b rfl p data st.1 q hq
  remove_frame := by
    intro c hc p st q hq
    rw [← Option.some.inj hc]
    exact law.remove_frame b rfl p st.1 q hq
  read_succeeds p st := law.read_succeeds p st.1
  write_succeeds p data st := law.write_succeeds p data st.1
  remove_succeeds p st := law.remove_succeeds p st.1
  remove_gone p st := law.remove_gone p st.1

/-! ## A storage in memory -/

/-- A storage as a map from paths to contents. -/
def memoryStorage : StorageBackend (Path → Option Bytes) where
  read p st :=
    match st p with
    | some bytes => (.ok bytes, st)
    | none => (.error (.storage s!"read {p}: not found"), st)
  write p data st := (.ok (), Function.update st p (some data))
  remove p st := (.ok (), Function.update st p none)

theorem memoryStorage_read {p : Path} {st : Path → Option Bytes} {bytes : Bytes} :
    (memoryStorage.read p st).1 = .ok bytes ↔ st p = some bytes := by
  simp only [memoryStorage]
  cases h : st p with
  | none => simp
  | some bs => simp

def memoryStorage_reliable : Reliable memoryStorage where
  content := id
  read_ok := by
    intro b hb p st bytes h
    rw [← Option.some.inj hb] at h
    exact memoryStorage_read.mp h
  read_frame := by
    intro b hb p st
    rw [← Option.some.inj hb]
    simp only [memoryStorage]
    split <;> rfl
  write_ok := by
    intro b hb p data st _
    rw [← Option.some.inj hb]
    exact Function.update_self p (some data) st
  write_frame := by
    intro b hb p data st q hq
    rw [← Option.some.inj hb]
    exact Function.update_of_ne hq (some data) st
  remove_frame := by
    intro b hb p st q hq
    rw [← Option.some.inj hb]
    exact Function.update_of_ne hq none st
  read_succeeds _ _ _ h := memoryStorage_read.mpr h
  write_succeeds _ _ _ := rfl
  remove_succeeds _ _ := rfl
  remove_gone p st := by
    show Function.update st p none p = none
    exact Function.update_self p none st

end Garuda
