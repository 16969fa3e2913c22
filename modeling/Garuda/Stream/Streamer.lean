import Garuda.Core.Types
import Garuda.Infra.Runs

/-!
# Streaming blocks off disk

`BlockStreamer` of `stream/mod.rs`: readers fill the slots of a ring ahead of the passes that
borrow them, and a pass whose block nobody has read reads it itself. How the file answers a read is
up to the environment; what bytes a read brings is not.

* `BlockStreamer.fill_ready` — a slot that is marked ready has the bytes of its block
* `BlockStreamer.streamed_block_iff` — when a pass is served as it should be
* `streamed_block_zeroed` — a run in which it is not
-/

namespace Garuda

open Infra

/-! ## Reads -/

/-- What the file answers to a read. -/
inductive ReadAnswer where
  /-- It brings up to this many bytes: fewer where the buffer or the file ends. -/
  | upTo (n : Nat)
  | failed

/-- Reads a checkpoint's blocks into a ring of buffers. -/
structure BlockStreamer where
  file : Bytes
  /-- `spans[l]` is block `l`'s start and length in the file; an empty one is never streamed. -/
  spans : List (Nat × Nat)

/-- One buffer in the ring. -/
structure SlotState where
  block : Option Nat
  ready : Bool
  buf : Bytes

/-- A slot and the block it is borrowed for, while a guard holds its lock. -/
structure StreamSlot where
  state : SlotState
  borrowed : Option Nat

namespace BlockStreamer

variable (s : BlockStreamer)

/-- True when this block is streamed rather than held resident. -/
def streams (l : Nat) : Bool := (s.spans[l]?).any fun span => decide (0 < span.2)

/-- Where block `l` starts in the file. -/
def base (l : Nat) : Nat := ((s.spans[l]?).map Prod.fst).getD 0

/-- The file's bytes of block `l`. -/
def blockBytes (l : Nat) : Bytes :=
  match s.spans[l]? with
  | none => []
  | some (start, len) => (s.file.drop start).take len

/-- The bytes that a read at offset `off` into a buffer with `room` bytes left brings. -/
def readAt (n room off : Nat) : Bytes := (s.file.drop off).take (min n room)

/-- `st.buf.resize(len, 0)` -/
def resize (len : Nat) (buf : Bytes) : Bytes :=
  buf.take len ++ List.replicate (len - buf.length) 0

/-- The loop of `fill` from position `pos`: where it stopped, or `none` for an error, and the
buffer. `answer` says what the file answers to the read at each position. -/
def readLoop (answer : Nat → ReadAnswer) (start : Nat) : Nat → Nat → Bytes → Option Nat × Bytes
  | 0, pos, buf => (some pos, buf)
  | fuel + 1, pos, buf =>
    if pos < buf.length then
      match answer pos with
      | .failed => (none, buf)
      | .upTo n =>
        let got := s.readAt n (buf.length - pos) (start + pos)
        if got.isEmpty then (some pos, buf)
        else
          readLoop answer start fuel (pos + got.length)
            (buf.take pos ++ got ++ buf.drop (pos + got.length))
    else (some pos, buf)

def fill (l : Nat) (answer : Nat → ReadAnswer) (st : SlotState) : SlotState :=
  match s.spans[l]? with
  | none => st
  | some (start, len) =>
    match s.readLoop answer start len 0 (resize len st.buf) with
    | (none, buf) => { block := none, ready := false, buf := buf }
    | (some pos, buf) =>
      if pos = len then { block := some l, ready := true, buf := buf }
      else { block := none, ready := false, buf := buf }

/-- The slot has been filled with block `l`. -/
def hit (l : Nat) (st : SlotState) : Bool := st.block == some l && st.ready

/-- What is in the slot when its lock has been taken for block `l`: a slot that has the block is
left alone. -/
def filled (l : Nat) (answer : Nat → ReadAnswer) (st : SlotState) : SlotState :=
  if hit l st then st else s.fill l answer st

/-! ## The ring -/

/-- What can happen. -/
inductive StreamAction where
  /-- A reader fetches a block. -/
  | fetch (l : Nat) (answer : Nat → ReadAnswer)
  /-- A pass borrows a block. -/
  | borrow (l : Nat) (answer : Nat → ReadAnswer)
  /-- The guard of slot `i` is dropped. -/
  | release (i : Nat)

/-- A step; `none` where it has to wait for the slot's lock. -/
def step (ring : List StreamSlot) : StreamAction → Option (List StreamSlot)
  | .fetch l answer =>
    if s.streams l then
      match ring[l % ring.length]? with
      | some ⟨st, none⟩ => some (ring.set (l % ring.length) ⟨s.filled l answer st, none⟩)
      | _ => none
    else some ring
  | .borrow l answer =>
    match ring[l % ring.length]? with
    | some ⟨st, none⟩ => some (ring.set (l % ring.length) ⟨s.filled l answer st, some l⟩)
    | _ => none
  | .release i =>
    match ring[i]? with
    | some ⟨st, some _⟩ => some (ring.set i ⟨st, none⟩)
    | _ => none

/-- `n` slots, as `open` makes them. -/
def ringOf (n : Nat) : List StreamSlot :=
  List.replicate n ⟨{ block := none, ready := false, buf := [] }, none⟩

/-- A run of readers and passes. -/
abbrev run (n : Nat) (as : List StreamAction) : Option (List StreamSlot) :=
  runList s.step as (ringOf n)

/-- `Guard::bytes`, right after a borrow. -/
def guardBytes (l : Nat) (answer : Nat → ReadAnswer) (st : SlotState) : Bytes :=
  (s.filled l answer st).buf

/-- One block of a pass: `layerBatch` gets the buffer and where it starts in the file. -/
def runLayer {α : Type} (layerBatch : Option (Bytes × Nat) → Except GarudaError α) (l : Nat)
    (answer : Nat → ReadAnswer) (st : SlotState) : Except GarudaError α :=
  if s.streams l then layerBatch (some (s.guardBytes l answer st, s.base l))
  else layerBatch none

/-! ## What the file answers -/

/-- Where the reads of a span stop, from position `pos` on; `none` for an error. -/
def reach (answer : Nat → ReadAnswer) (start len : Nat) : Nat → Nat → Option Nat
  | 0, pos => some pos
  | fuel + 1, pos =>
    if pos < len then
      match answer pos with
      | .failed => none
      | .upTo n =>
        if (s.readAt n (len - pos) (start + pos)).isEmpty then some pos
        else reach answer start len fuel (pos + (s.readAt n (len - pos) (start + pos)).length)
    else some pos

/-- The file answers the reads of block `l` with all its bytes. -/
def Delivers (l : Nat) (answer : Nat → ReadAnswer) : Prop :=
  ∃ start len, s.spans[l]? = some (start, len) ∧ s.reach answer start len len 0 = some len

/-- The block is in its slot, or the file delivers it. -/
def Readable (l : Nat) (answer : Nat → ReadAnswer) (st : SlotState) : Prop :=
  hit l st = true ∨ s.Delivers l answer

variable {s} {answer : Nat → ReadAnswer} {l : Nat} {st : SlotState}

@[simp] theorem length_resize (len : Nat) (buf : Bytes) : (resize len buf).length = len := by
  unfold resize
  rw [List.length_append, List.length_take, List.length_replicate]
  omega

theorem length_readAt_le (n room off : Nat) : (s.readAt n room off).length ≤ room := by
  unfold readAt
  rw [List.length_take]
  omega

/-- The loop stops where the reads do. -/
theorem readLoop_fst (start : Nat) : ∀ (fuel pos : Nat) (buf : Bytes),
    (s.readLoop answer start fuel pos buf).1 = s.reach answer start buf.length fuel pos := by
  intro fuel
  induction fuel with
  | zero => intro pos buf; rfl
  | succ fuel ih =>
    intro pos buf
    rw [readLoop, reach]
    by_cases hpos : pos < buf.length
    · rw [if_pos hpos, if_pos hpos]
      cases answer pos with
      | failed => rfl
      | upTo n =>
        simp only
        have hle := length_readAt_le (s := s) n (buf.length - pos) (start + pos)
        split
        · rfl
        · rw [ih]
          congr 1
          simp only [List.length_append, List.length_take, List.length_drop]
          omega
    · rw [if_neg hpos, if_neg hpos]

/-- What has been read stays read: up to where the loop is, the buffer has the file's bytes. -/
theorem readLoop_bytes (start len : Nat) : ∀ (fuel pos : Nat) (buf : Bytes),
    buf.length = len → pos ≤ len → buf.take pos = (s.file.drop start).take pos →
    ∀ stop, (s.readLoop answer start fuel pos buf).1 = some stop →
      (s.readLoop answer start fuel pos buf).2.length = len ∧
      (s.readLoop answer start fuel pos buf).2.take stop = (s.file.drop start).take stop := by
  intro fuel
  induction fuel with
  | zero =>
    intro pos buf hlen _ hbytes stop hstop
    rw [readLoop] at hstop ⊢
    rw [← Option.some.inj hstop]
    exact ⟨hlen, hbytes⟩
  | succ fuel ih =>
    intro pos buf hlen hpos hbytes stop hstop
    rw [readLoop] at hstop ⊢
    split at hstop
    · next hlt =>
      rw [if_pos hlt]
      cases hanswer : answer pos with
      | failed =>
        rw [hanswer] at hstop
        cases hstop
      | upTo n =>
        rw [hanswer] at hstop
        simp only at hstop ⊢
        have hgot := length_readAt_le (s := s) n (buf.length - pos) (start + pos)
        split at hstop
        · next hnil =>
          rw [if_pos hnil]
          rw [← Option.some.inj hstop]
          exact ⟨hlen, hbytes⟩
        · next hsome =>
          rw [if_neg hsome]
          refine ih _ _ ?_ (by omega) ?_ stop hstop
          · simp only [List.length_append, List.length_take, List.length_drop]
            omega
          · have htake : (buf.take pos).length = pos := by
              rw [List.length_take]
              omega
            have hread : s.readAt n (buf.length - pos) (start + pos)
                = ((s.file.drop start).drop pos).take
                    (s.readAt n (buf.length - pos) (start + pos)).length := by
              unfold readAt
              rw [List.drop_drop, List.length_take, List.length_drop, List.take_eq_take_iff,
                List.length_drop]
              omega
            rw [List.take_append_of_le_length (by
              rw [List.length_append, htake]), List.take_of_length_le (by
              rw [List.length_append, htake]), List.take_add, hbytes, ← hread]
    · next hge =>
      rw [if_neg hge]
      rw [← Option.some.inj hstop]
      exact ⟨hlen, hbytes⟩

/-- **A fill that is not interrupted** leaves the block in the slot, marked ready. -/
theorem fill_of_delivers (h : s.Delivers l answer) (st : SlotState) :
    s.fill l answer st = { block := some l, ready := true, buf := s.blockBytes l } := by
  obtain ⟨start, len, hspan, hreach⟩ := h
  have hstop := @readLoop_fst s answer start len 0 (resize len st.buf)
  rw [length_resize, hreach] at hstop
  obtain ⟨hlen, hbytes⟩ := readLoop_bytes start len len 0 (resize len st.buf)
    (length_resize len st.buf) (Nat.zero_le len) (by rw [List.take_zero, List.take_zero]) len hstop
  have hbuf : (s.readLoop answer start len 0 (resize len st.buf)).2 = s.blockBytes l := by
    rw [List.take_of_length_le (Nat.le_of_eq hlen)] at hbytes
    rw [hbytes, blockBytes, hspan]
  rw [fill, hspan]
  show (match s.readLoop answer start len 0 (resize len st.buf) with
    | (none, buf) => ({ block := none, ready := false, buf := buf } : SlotState)
    | (some pos, buf) =>
      if pos = len then { block := some l, ready := true, buf := buf }
      else { block := none, ready := false, buf := buf }) = _
  rw [← hbuf]
  generalize s.readLoop answer start len 0 (resize len st.buf) = out at hstop
  obtain ⟨stop, buf⟩ := out
  cases hstop
  exact if_pos rfl

/-- A fill that is interrupted leaves a slot that is not ready. -/
theorem fill_of_not_delivers (h : ¬ s.Delivers l answer) (hl : l < s.spans.length)
    (st : SlotState) : (s.fill l answer st).block = none ∧ (s.fill l answer st).ready = false := by
  obtain ⟨⟨start, len⟩, hget⟩ : ∃ span, s.spans[l]? = some span :=
    ⟨_, List.getElem?_eq_getElem hl⟩
  have hstop := @readLoop_fst s answer start len 0 (resize len st.buf)
  rw [length_resize] at hstop
  rw [fill, hget]
  simp only
  generalize s.readLoop answer start len 0 (resize len st.buf) = out at hstop
  obtain ⟨stop, buf⟩ := out
  cases stop with
  | none => exact ⟨rfl, rfl⟩
  | some pos =>
    have hne : pos ≠ len := by
      intro heq
      exact h ⟨start, len, hget, by rw [← hstop, heq]⟩
    simp only [if_neg hne]
    exact ⟨trivial, trivial⟩

/-! ## Every run -/

variable (s) in
/-- A slot that is marked ready has the bytes of its block. -/
def Honest (st : SlotState) : Prop := ∀ l, hit l st = true → st.buf = s.blockBytes l

theorem filled_honest (h : s.Honest st) : s.Honest (s.filled l answer st) := by
  unfold filled
  split
  · exact h
  · intro k hk
    by_cases hd : s.Delivers l answer
    · rw [fill_of_delivers hd] at hk ⊢
      have hkl : l = k := by simpa [hit] using hk
      rw [hkl]
    · by_cases hl : l < s.spans.length
      · -- an interrupted fill leaves nothing marked
        obtain ⟨_, hready⟩ := fill_of_not_delivers hd hl st
        rw [hit, hready, Bool.and_false] at hk
        cases hk
      · have hnone : s.spans[l]? = none := List.getElem?_eq_none (Nat.le_of_not_lt hl)
        rw [fill, hnone] at hk ⊢
        exact h k hk

/-- A block that can be read is what the guard exposes. -/
theorem guardBytes_of_readable (h : s.Honest st) (hr : s.Readable l answer st) :
    s.guardBytes l answer st = s.blockBytes l := by
  unfold guardBytes filled
  by_cases hhit : hit l st = true
  · rw [if_pos hhit]
    exact h l hhit
  · rw [if_neg hhit, fill_of_delivers (hr.resolve_left hhit)]

/-- An honest state in a slot of an honest ring. -/
theorem honest_set {ring : List StreamSlot} {i : Nat} {slot : StreamSlot}
    (hs : ∀ slot ∈ ring, s.Honest slot.state) (hslot : s.Honest slot.state) :
    ∀ slot' ∈ ring.set i slot, s.Honest slot'.state := by
  intro slot' hmem
  rcases List.mem_or_eq_of_mem_set hmem with hold | rfl
  · exact hs slot' hold
  · exact hslot

/-- One step keeps the slots honest. -/
theorem step_honest {ring ring' : List StreamSlot} {a : StreamAction}
    (hs : ∀ slot ∈ ring, s.Honest slot.state) (hm : s.step ring a = some ring') :
    ∀ slot ∈ ring', s.Honest slot.state := by
  cases a with
  | fetch l answer =>
    rw [step] at hm
    split at hm
    · split at hm
      · next st hslot =>
        rw [← Option.some.inj hm]
        exact honest_set hs (filled_honest (hs _ (List.mem_of_getElem? hslot)))
      · cases hm
    · rw [← Option.some.inj hm]
      exact hs
  | borrow l answer =>
    rw [step] at hm
    split at hm
    · next st hslot =>
      rw [← Option.some.inj hm]
      exact honest_set hs (filled_honest (hs _ (List.mem_of_getElem? hslot)))
    · cases hm
  | release i =>
    rw [step] at hm
    split at hm
    · next st _ hslot =>
      rw [← Option.some.inj hm]
      have hst := hs _ (List.mem_of_getElem? hslot)
      exact honest_set hs hst
    · cases hm

theorem run_honest {n : Nat} {as : List StreamAction} {ring : List StreamSlot}
    (h : s.run n as = some ring) : ∀ slot ∈ ring, s.Honest slot.state := by
  refine runList_invariant (P := fun ring => ∀ slot ∈ ring, s.Honest slot.state)
    (fun _ _ _ hstep hs => step_honest hs hstep) h ?_
  intro slot hslot l hl
  rw [List.eq_of_mem_replicate hslot] at hl
  cases hl

variable (s) in
/-- A pass that borrows block `l` computes on the block's bytes, or gets an error where they cannot
be read. -/
def Served (l : Nat) (answer : Nat → ReadAnswer) (st : SlotState) : Prop :=
  (s.Readable l answer st → ∀ {α : Type} (layerBatch : Option (Bytes × Nat) → Except GarudaError α),
    s.runLayer layerBatch l answer st = layerBatch (some (s.blockBytes l, s.base l))) ∧
  (¬ s.Readable l answer st →
    ∀ {α : Type} (layerBatch : Option (Bytes × Nat) → Except GarudaError α),
      ∃ e, s.runLayer layerBatch l answer st = .error e)

variable (s) in
/-- A pass that borrows a block finds it in its slot, or the file delivers it. -/
def BorrowReads (ring : List StreamSlot) (a : StreamAction) : Prop :=
  ∀ l answer st, a = .borrow l answer → ring[l % ring.length]? = some ⟨st, none⟩ →
    s.Readable l answer st

/-- What a guard exposes, for as long as it is held. -/
theorem step_guards {ring ring' : List StreamSlot} {a : StreamAction}
    (hs : ∀ slot ∈ ring, s.Honest slot.state ∧
      ∀ l, slot.borrowed = some l → slot.state.buf = s.blockBytes l)
    (hreads : s.BorrowReads ring a) (hm : s.step ring a = some ring') :
    ∀ slot ∈ ring', ∀ l, slot.borrowed = some l → slot.state.buf = s.blockBytes l := by
  cases a with
  | fetch l answer =>
    rw [step] at hm
    split at hm
    · split at hm
      · rw [← Option.some.inj hm]
        intro slot hmem k hk
        rcases List.mem_or_eq_of_mem_set hmem with hold | rfl
        · exact (hs slot hold).2 k hk
        · cases hk
      · cases hm
    · rw [← Option.some.inj hm]
      exact fun slot hmem => (hs slot hmem).2
  | borrow l answer =>
    rw [step] at hm
    split at hm
    · next st hslot =>
      rw [← Option.some.inj hm]
      intro slot hmem k hk
      rcases List.mem_or_eq_of_mem_set hmem with hold | rfl
      · exact (hs slot hold).2 k hk
      · rw [← Option.some.inj hk]
        exact guardBytes_of_readable (hs _ (List.mem_of_getElem? hslot)).1
          (hreads l answer st rfl hslot)
    · cases hm
  | release i =>
    rw [step] at hm
    split at hm
    · rw [← Option.some.inj hm]
      intro slot hmem k hk
      rcases List.mem_or_eq_of_mem_set hmem with hold | rfl
      · exact (hs slot hold).2 k hk
      · cases hk
    · cases hm

/-- **A streamed block** is served as it should be, its bytes or an error, exactly when it is in
its slot already or the file delivers it. In a run in which that is so at every borrow, what a
guard exposes is its block for as long as it is held. -/
theorem streamed_block_iff {n : Nat} {as : List StreamAction} {ring : List StreamSlot}
    (h : s.run n as = some ring) :
    (∀ l answer st, s.streams l = true → ring[l % ring.length]? = some ⟨st, none⟩ →
      (s.Served l answer st ↔ s.Readable l answer st)) ∧
    (EachStep s.step s.BorrowReads as (ringOf n) →
      ∀ slot ∈ ring, ∀ l, slot.borrowed = some l → slot.state.buf = s.blockBytes l) := by
  constructor
  · intro l answer st hl hslot
    have hst : s.Honest st := run_honest h _ (List.mem_of_getElem? hslot)
    constructor
    · rintro ⟨_, herror⟩
      by_contra hr
      -- nothing in the layer itself goes wrong, and so nothing does
      obtain ⟨e, he⟩ := herror hr (fun _ => .ok ())
      rw [runLayer, if_pos hl] at he
      cases he
    · intro hr
      refine ⟨fun _ α layerBatch => ?_, fun hnot => absurd hr hnot⟩
      rw [runLayer, if_pos hl, guardBytes_of_readable hst hr]
  · intro hreads
    have hinit : ∀ slot ∈ ringOf n, s.Honest slot.state ∧
        ∀ l, slot.borrowed = some l → slot.state.buf = s.blockBytes l := by
      intro slot hslot
      rw [List.eq_of_mem_replicate hslot]
      exact ⟨fun l hl => absurd hl Bool.false_ne_true, fun l hl => nomatch hl⟩
    refine fun slot hslot => (EachStep.invariant (P := fun ring => ∀ slot ∈ ring,
      s.Honest slot.state ∧ ∀ l, slot.borrowed = some l → slot.state.buf = s.blockBytes l)
      ?_ hreads h hinit slot hslot).2
    intro ring a ring' hstep hreads hs slot hslot
    exact ⟨step_honest (fun slot hslot => (hs slot hslot).1) hstep slot hslot,
      step_guards hs hreads hstep slot hslot⟩

end BlockStreamer

/-! ## A file that fails -/

/-- A file of four bytes, with a block of two in the middle. -/
def tinyStreamer : BlockStreamer := { file := [1, 2, 3, 4], spans := [(0, 0), (1, 2)] }

/-- A slot of a new ring. -/
def emptySlot : SlotState := { block := none, ready := false, buf := [] }

/-- The read of the block fails, and the pass computes on two zeros. -/
theorem streamed_block_zeroed : ∃ ring,
    tinyStreamer.run 3 [] = some ring ∧ tinyStreamer.streams 1 = true ∧
      ring[1 % ring.length]? = some ⟨emptySlot, none⟩ ∧
      tinyStreamer.runLayer (fun block => .ok (block.map Prod.fst)) 1 (fun _ => .failed) emptySlot
        = .ok (some [0, 0]) ∧
      ¬ tinyStreamer.Served 1 (fun _ => .failed) emptySlot := by
  refine ⟨_, rfl, rfl, rfl, rfl, ?_⟩
  rintro ⟨_, herror⟩
  have hunread : ¬ tinyStreamer.Readable 1 (fun _ => .failed) emptySlot := by
    rintro (hhit | ⟨start, len, hspan, hreach⟩)
    · cases hhit
    · cases hspan
      cases hreach
  obtain ⟨e, he⟩ := herror hunread (fun block => .ok (block.map Prod.fst))
  cases he

/-- A reader has fetched the block, one byte at a time, before the pass borrows it. -/
theorem streamed_block_fetched : ∃ ring st,
    tinyStreamer.run 3 [.fetch 1 (fun _ => .upTo 1)] = some ring ∧
      ring[1 % ring.length]? = some ⟨st, none⟩ ∧
      tinyStreamer.Served 1 (fun _ => .failed) st := by
  obtain ⟨ring, hring⟩ : ∃ ring, tinyStreamer.run 3 [.fetch 1 (fun _ => .upTo 1)] = some ring :=
    ⟨_, rfl⟩
  have hslot : ring[1 % ring.length]?
      = some ⟨{ block := some 1, ready := true, buf := [2, 3] }, none⟩ := by
    rw [← Option.some.inj hring]
    rfl
  exact ⟨ring, _, hring, hslot,
    ((BlockStreamer.streamed_block_iff hring).1 1 _ _ rfl hslot).mpr (Or.inl rfl)⟩

end Garuda
