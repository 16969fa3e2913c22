import Garuda.Cache.ExpertCache

/-!
# Tiered expert storage

`MemoryManager` of `memory/mod.rs`: a miss in the cache falls through to L2, then L3, then to
synthesis, and what is found is promoted on the way up.

* `MemoryManager.load`, `prefetch` and `unload` are the calls, `run` a sequence of them.
* `Durable` is a storage that reads what was last written; a write may fail, and then changes
  nothing.
* `determined` is what the storages hold of an expert at the beginning, and `load_determined` says
  that every load that succeeds answers it.
-/

namespace Garuda

open Infra

/-! ## Storage -/

/-- A storage backend with `exists`. -/
structure ExpertStorage (σ : Type) extends StorageBackend σ where
  present : Path → σ → Bool

/-- No storage, or one that reads the last successful write. -/
structure Durable {σ : Type} (storage : Option (ExpertStorage σ)) where
  content : σ → Path → Option Bytes
  read_ok : ∀ b, storage = some b → ∀ p st bytes, (b.read p st).1 = .ok bytes →
    content st p = some bytes
  read_frame : ∀ b, storage = some b → ∀ p st, content (b.read p st).2 = content st
  write_ok : ∀ b, storage = some b → ∀ p data st, (b.write p data st).1 = .ok () →
    content (b.write p data st).2 = Function.update (content st) p (some data)
  write_failed : ∀ b, storage = some b → ∀ p data st e, (b.write p data st).1 = .error e →
    content (b.write p data st).2 = content st
  present_iff : ∀ b, storage = some b → ∀ p st, b.present p st = (content st p).isSome

/-! ## The store -/

structure TierCounts where
  l1 : Nat
  l2 : Nat
  l3 : Nat
  synthesised : Nat
  prefetched : Nat
  deriving DecidableEq, Repr

/-- What does not change: the dimensions, the storages, and how a weight is drawn. -/
structure MemoryManager (σ τ : Type) where
  dims : ExpertDims
  l2 : ExpertStorage σ
  l3 : Option (ExpertStorage τ)
  draw : UInt64 → Nat → F32

structure MemoryState (σ τ : Type) where
  l1 : ExpertCache
  l2 : σ
  l3 : τ
  stats : TierCounts

namespace MemoryManager

variable {σ τ : Type}

/-- `MemoryManager::new`, over storages as they are. -/
def start (l1Budget : Nat) (l2 : σ) (l3 : τ) : MemoryState σ τ where
  l1 := .new l1Budget
  l2 := l2
  l3 := l3
  stats := ⟨0, 0, 0, 0, 0⟩

def expertPath (id : ExpertId) : Path := s!"expert_{id.toNat}.bin"

variable (m : MemoryManager σ τ)

/-- Nowhere on disk: synthesised, and written to L2 if that will take it. -/
def loadSynthesised (id : ExpertId) (s : MemoryState σ τ) :
    Except GarudaError Expert × MemoryState σ τ :=
  let expert := synthesizeExpert m.draw id m.dims
  let (_, l2) := m.l2.write (expertPath id) (expertToBytes expert) s.l2
  (.ok expert, { s with l2, stats := { s.stats with synthesised := s.stats.synthesised + 1 } })

/-- Out of L3, and promoted to L2 if that will take it. -/
def loadL3 (l3 : ExpertStorage τ) (id : ExpertId) (s : MemoryState σ τ) :
    Except GarudaError Expert × MemoryState σ τ :=
  match l3.read (expertPath id) s.l3 with
  | (.error e, st) => (.error e, { s with l3 := st })
  | (.ok bytes, st) =>
    match expertFromBytes id m.dims bytes with
    | .error e => (.error e, { s with l3 := st })
    | .ok expert =>
      let (_, l2) := m.l2.write (expertPath id) bytes s.l2
      (.ok expert, { s with l2, l3 := st, stats := { s.stats with l3 := s.stats.l3 + 1 } })

def loadL2 (id : ExpertId) (s : MemoryState σ τ) : Except GarudaError Expert × MemoryState σ τ :=
  match m.l2.read (expertPath id) s.l2 with
  | (.error e, st) => (.error e, { s with l2 := st })
  | (.ok bytes, st) =>
    match expertFromBytes id m.dims bytes with
    | .error e => (.error e, { s with l2 := st })
    | .ok expert => (.ok expert, { s with l2 := st, stats := { s.stats with l2 := s.stats.l2 + 1 } })

/-- Reads `id` from the shallowest tier below the cache that has it. -/
def loadUncached (id : ExpertId) (s : MemoryState σ τ) :
    Except GarudaError Expert × MemoryState σ τ :=
  if m.l2.present (expertPath id) s.l2 then m.loadL2 id s
  else
    match m.l3 with
    | some l3 =>
      if l3.present (expertPath id) s.l3 then m.loadL3 l3 id s
      else m.loadSynthesised id s
    | none => m.loadSynthesised id s

/-- A look in the cache that counts as served from it. -/
def lookL1 (id : ExpertId) (s : MemoryState σ τ) : Option Expert × MemoryState σ τ :=
  let (hit, l1) := s.l1.get id
  match hit with
  | some e => (some e, { s with l1, stats := { s.stats with l1 := s.stats.l1 + 1 } })
  | none => (none, { s with l1 })

def load (id : ExpertId) (s : MemoryState σ τ) : Except GarudaError Expert × MemoryState σ τ :=
  if m.dims.nExperts ≤ id.toNat then
    (.error (.model s!"expert {id.toNat} does not exist (model has {m.dims.nExperts})"), s)
  else
    match lookL1 id s with
    | (some e, s) => (.ok e, s)
    | (none, s) =>
      -- the load lock is taken here, and the cache looked into once more
      match lookL1 id s with
      | (some e, s) => (.ok e, s)
      | (none, s) =>
        match m.loadUncached id s with
        | (.error e, s) => (.error e, s)
        | (.ok expert, s) => (.ok expert, { s with l1 := (s.l1.insert id expert).2 })

def unload (id : ExpertId) (s : MemoryState σ τ) : MemoryState σ τ :=
  { s with l1 := s.l1.remove id }

def prefetch (id : ExpertId) (s : MemoryState σ τ) : Except GarudaError Unit × MemoryState σ τ :=
  if s.l1.contains id then (.ok (), s)
  else
    match m.load id s with
    | (.error e, s) => (.error e, s)
    | (.ok _, s) =>
      (.ok (), { s with stats := { s.stats with prefetched := s.stats.prefetched + 1 } })

/-! ## Runs -/

inductive Call where
  | load (id : ExpertId)
  | prefetch (id : ExpertId)
  | unload (id : ExpertId)
  deriving DecidableEq, Repr

/-- One call, and what a load answers. -/
def step (c : Call) (s : MemoryState σ τ) :
    Option (ExpertId × Except GarudaError Expert) × MemoryState σ τ :=
  match c with
  | .load id => (some (id, (m.load id s).1), (m.load id s).2)
  | .prefetch id => (none, (m.prefetch id s).2)
  | .unload id => (none, unload id s)

/-- What the loads of a sequence of calls answer, in order. -/
def run : List Call → MemoryState σ τ → List (ExpertId × Except GarudaError Expert)
  | [], _ => []
  | c :: cs, s => (m.step c s).1.toList ++ run cs (m.step c s).2

/-! ## What the storages determine -/

/-- The copy in L2, or else in L3, or else the synthesised expert. -/
def determined (c2 c3 : Path → Option Bytes) (id : ExpertId) : Except GarudaError Expert :=
  match c2 (expertPath id), m.l3, c3 (expertPath id) with
  | some bytes, _, _ => expertFromBytes id m.dims bytes
  | none, some _, some bytes => expertFromBytes id m.dims bytes
  | none, _, _ => .ok (synthesizeExpert m.draw id m.dims)

variable {m} {c2 c3 : Path → Option Bytes} {id : ExpertId}

theorem determined_l2 {bytes : Bytes} (h : c2 (expertPath id) = some bytes) :
    m.determined c2 c3 id = expertFromBytes id m.dims bytes := by
  rw [determined, h]

theorem determined_l3 {bytes : Bytes} {l3 : ExpertStorage τ} (h2 : c2 (expertPath id) = none)
    (hl3 : m.l3 = some l3) (h3 : c3 (expertPath id) = some bytes) :
    m.determined c2 c3 id = expertFromBytes id m.dims bytes := by
  rw [determined, h2, hl3, h3]

theorem determined_nowhere (h2 : c2 (expertPath id) = none)
    (h3 : m.l3 = none ∨ c3 (expertPath id) = none) :
    m.determined c2 c3 id = .ok (synthesizeExpert m.draw id m.dims) := by
  rw [determined, h2]
  rcases h3 with h3 | h3
  · rw [h3]
  · rw [h3]
    split
    · next h => cases h
    · next h => cases h
    · rfl

/-! ## The invariant -/

theorem expertPath_inj {id id' : ExpertId} (h : expertPath id = expertPath id') : id = id' := by
  have hlist : ∀ id : ExpertId, (expertPath id).toList
      = ['e', 'x', 'p', 'e', 'r', 't', '_'] ++ (id.toNat.repr.toList ++ '.' :: ['b', 'i', 'n']) := by
    intro id
    simp [expertPath, toString, String.toList_append]
  have hl := congrArg String.toList h
  rw [hlist, hlist] at hl
  have hrepr := List.append_cancel_right (List.append_cancel_left hl)
  exact UInt32.toNat_inj.mp (Nat.repr_inj.mp (String.toList_inj.mp hrepr))

variable (law2 : Durable (some m.l2)) (law3 : Durable m.l3) (s0 : MemoryState σ τ)

/-- What the storages of `s0` hold of an expert. -/
def origin (id : ExpertId) : Except GarudaError Expert :=
  m.determined (law2.content s0.l2) (law3.content s0.l3) id

/--
The cache holds what the storages held at first; so does L2 where it can be read, and it has lost
nothing; and L3 is as it was.
-/
structure Inv (s : MemoryState σ τ) : Prop where
  cached : s.l1.Keeps fun id e => origin law2 law3 s0 id = .ok e
  promoted : ∀ id bytes, law2.content s.l2 (expertPath id) = some bytes → ∀ e,
    expertFromBytes id m.dims bytes = .ok e → origin law2 law3 s0 id = .ok e
  kept : ∀ id, law2.content s.l2 (expertPath id) = none →
    law2.content s0.l2 (expertPath id) = none
  archive : law3.content s.l3 = law3.content s0.l3

variable {law2 law3 s0} {s : MemoryState σ τ} {id : ExpertId}

theorem inv_start (l1Budget : Nat) (l2 : σ) (l3 : τ) :
    Inv law2 law3 (start l1Budget l2 l3) (start l1Budget l2 l3) where
  cached := ExpertCache.keeps_new _ _
  promoted id bytes hbytes e he := by
    rw [origin, determined_l2 hbytes]
    exact he
  kept _ h := h
  archive := rfl

/-- Writing the origin of an expert to L2, or failing to, keeps the invariant. -/
theorem Inv.write (h : Inv law2 law3 s0 s) {bytes : Bytes}
    (hbytes : ∀ e, expertFromBytes id m.dims bytes = .ok e → origin law2 law3 s0 id = .ok e)
    {l3 : τ} (hl3 : law3.content l3 = law3.content s0.l3) (stats : TierCounts) :
    Inv law2 law3 s0 { l1 := s.l1, l2 := (m.l2.write (expertPath id) bytes s.l2).2, l3, stats } := by
  cases hw : (m.l2.write (expertPath id) bytes s.l2).1 with
  | error e =>
    have hsame := law2.write_failed m.l2 rfl _ _ _ e hw
    refine ⟨h.cached, ?_, ?_, hl3⟩
    · simp only [hsame]
      exact h.promoted
    · simp only [hsame]
      exact h.kept
  | ok _ =>
    have hnew := law2.write_ok m.l2 rfl _ _ _ hw
    refine ⟨h.cached, fun id' bytes' hc e he => ?_, fun id' hc => ?_, hl3⟩
    · simp only [hnew] at hc
      by_cases hid : id' = id
      · subst hid
        rw [Function.update_self, Option.some.injEq] at hc
        subst hc
        exact hbytes e he
      · rw [Function.update_of_ne fun hp => hid (expertPath_inj hp)] at hc
        exact h.promoted id' bytes' hc e he
    · simp only [hnew] at hc
      by_cases hid : id' = id
      · subst hid
        rw [Function.update_self] at hc
        cases hc
      · rw [Function.update_of_ne fun hp => hid (expertPath_inj hp)] at hc
        exact h.kept id' hc

/-- The other tiers do not move. -/
theorem Inv.frame (h : Inv law2 law3 s0 s) {l2 : σ} {l3 : τ}
    (hl2 : law2.content l2 = law2.content s.l2) (hl3 : law3.content l3 = law3.content s.l3)
    (stats : TierCounts) : Inv law2 law3 s0 { l1 := s.l1, l2, l3, stats } where
  cached := h.cached
  promoted id bytes hc := h.promoted id bytes (hl2 ▸ hc)
  kept id hc := h.kept id (hl2 ▸ hc)
  archive := hl3.trans h.archive

/-- What an operation answers is the origin, and the invariant stands after it. -/
def Sound (law2 : Durable (some m.l2)) (law3 : Durable m.l3) (s0 : MemoryState σ τ) (id : ExpertId)
    (out : Except GarudaError Expert × MemoryState σ τ) : Prop :=
  Inv law2 law3 s0 out.2 ∧ ∀ e, out.1 = .ok e → origin law2 law3 s0 id = .ok e

theorem loadL2_sound (h : Inv law2 law3 s0 s) : Sound law2 law3 s0 id (m.loadL2 id s) := by
  have hframe := law2.read_frame m.l2 rfl (expertPath id) s.l2
  unfold loadL2
  cases hr : m.l2.read (expertPath id) s.l2 with
  | mk answer st =>
    rw [hr] at hframe
    cases answer with
    | error e => exact ⟨h.frame hframe rfl _, fun e he => nomatch he⟩
    | ok bytes =>
      have hc := law2.read_ok m.l2 rfl _ _ bytes (by rw [hr])
      cases hb : expertFromBytes id m.dims bytes with
      | error e =>
        simp only [hb]
        exact ⟨h.frame hframe rfl _, fun e he => nomatch he⟩
      | ok expert =>
        simp only [hb]
        refine ⟨h.frame hframe rfl _, fun e he => ?_⟩
        cases he
        exact h.promoted id bytes hc expert hb

theorem loadL3_sound (h : Inv law2 law3 s0 s) {l3 : ExpertStorage τ} (hl3 : m.l3 = some l3)
    (hnone : law2.content s.l2 (expertPath id) = none) :
    Sound law2 law3 s0 id (m.loadL3 l3 id s) := by
  have hframe := law3.read_frame l3 hl3 (expertPath id) s.l3
  unfold loadL3
  cases hr : l3.read (expertPath id) s.l3 with
  | mk answer st =>
    rw [hr] at hframe
    cases answer with
    | error e => exact ⟨h.frame rfl hframe _, fun e he => nomatch he⟩
    | ok bytes =>
      have hc := law3.read_ok l3 hl3 _ _ bytes (by rw [hr])
      have horigin : origin law2 law3 s0 id = expertFromBytes id m.dims bytes := by
        rw [h.archive] at hc
        exact determined_l3 (h.kept id hnone) hl3 hc
      cases hb : expertFromBytes id m.dims bytes with
      | error e =>
        simp only [hb]
        exact ⟨h.frame rfl hframe _, fun e he => nomatch he⟩
      | ok expert =>
        simp only [hb]
        refine ⟨h.write (fun e he => ?_) (hframe.trans h.archive) _, fun e he => ?_⟩
        · rw [horigin]
          exact he
        · cases he
          rw [horigin]
          exact hb

theorem loadSynthesised_sound (h : Inv law2 law3 s0 s)
    (horigin : origin law2 law3 s0 id = .ok (synthesizeExpert m.draw id m.dims)) :
    Sound law2 law3 s0 id (m.loadSynthesised id s) := by
  refine ⟨h.write (fun e he => ?_) h.archive _, fun e he => ?_⟩
  · rw [horigin, expertFromBytes_eq_ok (synthesizeExpert_shaped m.draw id m.dims) rfl he]
  · cases he
    exact horigin

theorem loadUncached_sound (id : ExpertId) (h : Inv law2 law3 s0 s) :
    Sound law2 law3 s0 id (m.loadUncached id s) := by
  unfold loadUncached
  cases hp : m.l2.present (expertPath id) s.l2 with
  | true => exact loadL2_sound h
  | false =>
    rw [if_neg Bool.false_ne_true]
    have hnone : law2.content s.l2 (expertPath id) = none := by
      rw [law2.present_iff m.l2 rfl] at hp
      exact Option.isNone_iff_eq_none.mp (by simpa using hp)
    cases hl3 : m.l3 with
    | none =>
      refine loadSynthesised_sound h ?_
      exact determined_nowhere (h.kept id hnone) (.inl hl3)
    | some l3 =>
      simp only
      cases hp3 : l3.present (expertPath id) s.l3 with
      | true => exact loadL3_sound h hl3 hnone
      | false =>
        rw [if_neg Bool.false_ne_true]
        refine loadSynthesised_sound h ?_
        have hnone3 : law3.content s0.l3 (expertPath id) = none := by
          rw [law3.present_iff l3 hl3, h.archive] at hp3
          exact Option.isNone_iff_eq_none.mp (by simpa using hp3)
        exact determined_nowhere (h.kept id hnone) (.inr hnone3)

theorem lookL1_sound (id : ExpertId) (h : Inv law2 law3 s0 s) :
    Inv law2 law3 s0 (lookL1 id s).2 ∧
      ∀ e, (lookL1 id s).1 = some e → origin law2 law3 s0 id = .ok e := by
  obtain ⟨hkeeps, hhit⟩ := ExpertCache.get_keeps id h.cached
  unfold lookL1
  cases hg : s.l1.get id with
  | mk hit l1 =>
    rw [hg] at hkeeps hhit
    cases hit with
    | none => exact ⟨⟨hkeeps, h.promoted, h.kept, h.archive⟩, fun e he => nomatch he⟩
    | some e => exact ⟨⟨hkeeps, h.promoted, h.kept, h.archive⟩, hhit⟩

theorem load_sound (id : ExpertId) (h : Inv law2 law3 s0 s) :
    Sound law2 law3 s0 id (m.load id s) := by
  unfold load
  split
  · exact ⟨h, fun e he => nomatch he⟩
  · obtain ⟨hinv, hhit⟩ := lookL1_sound id h
    cases hl : lookL1 id s with
    | mk hit s1 =>
      rw [hl] at hinv hhit
      cases hit with
      | some e =>
        refine ⟨hinv, fun e' he' => ?_⟩
        cases he'
        exact hhit e rfl
      | none =>
        simp only
        obtain ⟨hinv2, hhit2⟩ := lookL1_sound id hinv
        cases hl2 : lookL1 id s1 with
        | mk hit2 s2 =>
          rw [hl2] at hinv2 hhit2
          cases hit2 with
          | some e =>
            refine ⟨hinv2, fun e' he' => ?_⟩
            cases he'
            exact hhit2 e rfl
          | none =>
            simp only
            obtain ⟨hinv3, hfetched⟩ := loadUncached_sound id hinv2
            cases hu : m.loadUncached id s2 with
            | mk answer s3 =>
              rw [hu] at hinv3 hfetched
              cases answer with
              | error e => exact ⟨hinv3, fun e he => nomatch he⟩
              | ok expert =>
                refine ⟨⟨ExpertCache.insert_keeps hinv3.cached (hfetched expert rfl),
                  hinv3.promoted, hinv3.kept, hinv3.archive⟩, fun e he => ?_⟩
                cases he
                exact hfetched expert rfl

theorem prefetch_inv (h : Inv law2 law3 s0 s) : Inv law2 law3 s0 (m.prefetch id s).2 := by
  unfold prefetch
  split
  · exact h
  · obtain ⟨hinv, -⟩ := load_sound id h
    cases hl : m.load id s with
    | mk answer s1 =>
      rw [hl] at hinv
      cases answer with
      | error e => exact hinv
      | ok e => exact ⟨hinv.cached, hinv.promoted, hinv.kept, hinv.archive⟩

/-- A call keeps the invariant, and a load that succeeds answers the origin. -/
theorem step_sound (c : Call) (h : Inv law2 law3 s0 s) :
    Inv law2 law3 s0 (m.step c s).2 ∧
      ∀ id e, (m.step c s).1 = some (id, .ok e) → origin law2 law3 s0 id = .ok e := by
  cases c with
  | load id =>
    obtain ⟨hinv, horigin⟩ := load_sound id h
    refine ⟨hinv, fun id' e he => ?_⟩
    rw [step, Option.some.injEq, Prod.mk.injEq] at he
    obtain ⟨rfl, he⟩ := he
    exact horigin e he
  | prefetch id => exact ⟨prefetch_inv h, fun id' e he => nomatch he⟩
  | unload id =>
    exact ⟨⟨ExpertCache.remove_keeps h.cached, h.promoted, h.kept, h.archive⟩,
      fun id' e he => nomatch he⟩

theorem run_sound (cs : List Call) (h : Inv law2 law3 s0 s) :
    ∀ id e, (id, .ok e) ∈ m.run cs s → origin law2 law3 s0 id = .ok e := by
  induction cs generalizing s with
  | nil => exact fun id e he => absurd he List.not_mem_nil
  | cons c cs ih =>
    intro id e he
    obtain ⟨hinv, hanswer⟩ := step_sound c h
    rw [run, List.mem_append, Option.mem_toList] at he
    rcases he with he | he
    · exact hanswer id e he
    · exact ih hinv id e he

end MemoryManager

open MemoryManager in
/--
**Every load of an expert answers the same weights.**

They are the ones that the storages held at the beginning, whatever is loaded, prefetched,
unloaded and evicted in between, and whichever writes fail.
-/
theorem load_determined {σ τ : Type} (m : MemoryManager σ τ) (law2 : Durable (some m.l2))
    (law3 : Durable m.l3) (l1Budget : Nat) (l2 : σ) (l3 : τ) (cs : List Call) (id : ExpertId)
    (e : Expert) (h : (id, .ok e) ∈ m.run cs (start l1Budget l2 l3)) :
    m.determined (law2.content l2) (law3.content l3) id = .ok e :=
  run_sound cs (inv_start l1Budget l2 l3) id e h

/-! ## In memory -/

/-- A tier as a map from paths to contents. -/
def memoryTier : ExpertStorage (Path → Option Bytes) where
  toStorageBackend := memoryStorage
  present p st := (st p).isSome

def memoryTier_durable : Durable (some memoryTier) where
  content st := st
  read_ok := by
    intro b hb p st bytes h
    cases hb
    exact memoryStorage_read.mp h
  read_frame := by
    intro b hb p st
    cases hb
    show (memoryStorage.read p st).2 = st
    unfold memoryStorage
    simp only
    split <;> rfl
  write_ok := by
    intro b hb p data st _
    cases hb
    rfl
  write_failed := by
    intro b hb p data st e h
    cases hb
    cases h
  present_iff := by
    intro b hb p st
    cases hb
    rfl

/-- A store of two experts of three weights each, both of them in the archive. -/
def smallStore : MemoryManager (Path → Option Bytes) (Path → Option Bytes) where
  dims := { nExperts := 2, dModel := 1, dFf := 1 }
  l2 := memoryTier
  l3 := some memoryTier
  draw := fun _ _ => ⟨0⟩

def smallExpert (id : ExpertId) : Expert where
  id := id
  gate := [⟨id⟩]
  up := [⟨0x3F800000⟩]
  down := [⟨0x40000000⟩]
  dims := smallStore.dims

def smallArchive : Path → Option Bytes := fun p =>
  if p = "expert_0.bin" then some (expertToBytes (smallExpert 0))
  else if p = "expert_1.bin" then some (expertToBytes (smallExpert 1))
  else none

open MemoryManager in
/-- There is room for one: the second load evicts the first expert, and the third reads it back. -/
theorem load_determined_evicted :
    smallStore.run [.load 0, .load 1, .load 0] (start 12 (fun _ => none) smallArchive)
      = [(0, .ok (smallExpert 0)), (1, .ok (smallExpert 1)), (0, .ok (smallExpert 0))] ∧
    smallStore.determined (fun _ => none) smallArchive 0 = .ok (smallExpert 0) := by
  have hrun : smallStore.run [.load 0, .load 1, .load 0] (start 12 (fun _ => none) smallArchive)
      = [(0, .ok (smallExpert 0)), (1, .ok (smallExpert 1)), (0, .ok (smallExpert 0))] := by
    rfl
  refine ⟨hrun, ?_⟩
  exact load_determined smallStore memoryTier_durable memoryTier_durable 12 (fun _ => none)
    smallArchive [.load 0, .load 1, .load 0] 0 (smallExpert 0) (by rw [hrun]; simp)

end Garuda
