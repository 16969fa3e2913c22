import Garuda.Infra.LittleEndian

/-!
# Cursor parsers

Parsers over a byte string with a position, whose steps answer, fail, or panic.

* `Checked` is what a computation comes to; `panic` is an index out of range, an overflow or a
  failed `expect`.
* `Parse` is a state monad over `Checked`, on a `Cursor`.
* `Exact p m` says that `p` never panics, takes at least `m` bytes when it answers, and then
  depends on no byte past those it took.
* `Parses p start bs a` says that `p` reads `a` off the bytes `bs` that stand at `start`.

Both are closed under `bind`, under `times`, and under a check of what is left in the string.
-/

namespace Infra

/-- How a computation ends. -/
inductive Checked (ε α : Type) where
  | ok (a : α)
  | err (e : ε)
  | panic
  deriving DecidableEq

namespace Checked

variable {ε α β : Type}

instance : Monad (Checked ε) where
  pure := .ok
  bind
    | .ok a, f => f a
    | .err e, _ => .err e
    | .panic, _ => .panic

@[simp] theorem ok_bind (a : α) (f : α → Checked ε β) : (Checked.ok a >>= f) = f a := rfl

@[simp] theorem err_bind (e : ε) (f : α → Checked ε β) : (Checked.err e >>= f) = .err e := rfl

@[simp] theorem panic_bind (f : α → Checked ε β) :
    ((Checked.panic : Checked ε α) >>= f) = .panic := rfl

/-- `Result::map_err`. -/
def mapErr {ε' : Type} (f : ε → ε') : Checked ε α → Checked ε' α
  | .ok a => .ok a
  | .err e => .err (f e)
  | .panic => .panic

theorem bind_eq_ok {x : Checked ε α} {f : α → Checked ε β} {b : β} (h : (x >>= f) = .ok b) :
    ∃ a, x = .ok a ∧ f a = .ok b := by
  cases x with
  | ok a => exact ⟨a, rfl, h⟩
  | err e => cases h
  | panic => cases h

instance : LawfulMonad (Checked ε) :=
  LawfulMonad.mk' _ (fun x => by cases x <;> rfl) (fun _ _ => rfl)
    fun x _ _ => by cases x <;> rfl

theorem mapM_eq_ok {l : List α} {f : α → Checked ε β} {g : α → β} (h : ∀ a ∈ l, f a = .ok (g a)) :
    l.mapM f = .ok (l.map g) := by
  induction l with
  | nil => rfl
  | cons a l ih =>
    rw [List.mapM_cons, h a List.mem_cons_self, ok_bind,
      ih fun a' ha' => h a' (List.mem_cons_of_mem a ha')]
    rfl

/-- What an element came to stands at its place. -/
theorem mapM_getElem? {l : List α} {f : α → Checked ε β} {ys : List β} (h : l.mapM f = .ok ys)
    {i : Nat} {a : α} (hi : l[i]? = some a) : ∃ y, ys[i]? = some y ∧ f a = .ok y := by
  induction l generalizing ys i with
  | nil => cases hi
  | cons a' l ih =>
    rw [List.mapM_cons] at h
    obtain ⟨y, hy, h⟩ := bind_eq_ok h
    obtain ⟨ys', hys, h⟩ := bind_eq_ok h
    cases h
    cases i with
    | zero =>
      cases hi
      exact ⟨y, rfl, hy⟩
    | succ i => exact ih hys hi

/-- Every result is that of an element. -/
theorem mapM_mem {l : List α} {f : α → Checked ε β} {ys : List β} (h : l.mapM f = .ok ys) {y : β}
    (hy : y ∈ ys) : ∃ a ∈ l, f a = .ok y := by
  induction l generalizing ys with
  | nil =>
    cases h
    cases hy
  | cons a l ih =>
    rw [List.mapM_cons] at h
    obtain ⟨y', hy', h⟩ := bind_eq_ok h
    obtain ⟨ys', hys, h⟩ := bind_eq_ok h
    cases h
    rcases List.mem_cons.mp hy with rfl | hy
    · exact ⟨a, List.mem_cons_self, hy'⟩
    · obtain ⟨a', ha', hf⟩ := ih hys hy
      exact ⟨a', List.mem_cons_of_mem _ ha', hf⟩

theorem length_mapM {l : List α} {f : α → Checked ε β} {ys : List β} (h : l.mapM f = .ok ys) :
    ys.length = l.length := by
  induction l generalizing ys with
  | nil =>
    cases h
    rfl
  | cons a l ih =>
    rw [List.mapM_cons] at h
    obtain ⟨y, -, h⟩ := bind_eq_ok h
    obtain ⟨ys', hys, h⟩ := bind_eq_ok h
    cases h
    rw [List.length_cons, List.length_cons, ih hys]

theorem foldlM_eq_ok {l : List α} {f : β → α → Checked ε β} {g : β → α → β}
    (h : ∀ b, ∀ a ∈ l, f b a = .ok (g b a)) (b : β) : l.foldlM f b = .ok (l.foldl g b) := by
  induction l generalizing b with
  | nil => rfl
  | cons a l ih =>
    rw [List.foldlM_cons, h b a List.mem_cons_self, ok_bind,
      ih fun b' a' ha' => h b' a' (List.mem_cons_of_mem a ha'), List.foldl_cons]

end Checked

/-! ## Parsers -/

structure Cursor where
  buf : Bytes
  pos : Nat

/-- The position lies in a string that a machine can address. -/
def Cursor.Fits (c : Cursor) : Prop := c.pos ≤ c.buf.length ∧ c.buf.length < 2 ^ 63

def Parse (ε α : Type) := Cursor → Checked ε (α × Cursor)

namespace Parse

variable {ε α β : Type}

instance : Monad (Parse ε) where
  pure a := fun c => .ok (a, c)
  bind p f := fun c => p c >>= fun (a, c') => f a c'

def fail (e : ε) : Parse ε α := fun _ => .err e

/-- A computation that does not look at the cursor. -/
def lift (x : Checked ε α) : Parse ε α := fun c => x >>= fun a => .ok (a, c)

def cursor : Parse ε Cursor := fun c => .ok (c, c)

/-- `p`, `n` times over. -/
def times : Nat → Parse ε α → Parse ε (List α)
  | 0, _ => pure []
  | n + 1, p => do
    let a ← p
    let rest ← times n p
    pure (a :: rest)

theorem bind_apply (p : Parse ε α) (f : α → Parse ε β) (c : Cursor) :
    (p >>= f) c = p c >>= fun (a, c') => f a c' := rfl

@[simp] theorem pure_apply (a : α) (c : Cursor) : (pure a : Parse ε α) c = .ok (a, c) := rfl

theorem bind_eq_ok {p : Parse ε α} {f : α → Parse ε β} {c c'' : Cursor} {b : β}
    (h : (p >>= f) c = .ok (b, c'')) : ∃ a c', p c = .ok (a, c') ∧ f a c' = .ok (b, c'') := by
  obtain ⟨⟨a, c'⟩, ha, hb⟩ := Checked.bind_eq_ok h
  exact ⟨a, c', ha, hb⟩

end Parse

/-! ## Parsers that read just what they take -/

open Parse

variable {ε α β : Type}

/-- The parser never panics, takes at least `m` bytes, and looks at no byte after them. -/
structure Exact (p : Parse ε α) (m : Nat) : Prop where
  total : ∀ c, c.Fits → p c ≠ .panic
  takes : ∀ c a c', c.Fits → p c = .ok (a, c') →
    c'.buf = c.buf ∧ c.pos + m ≤ c'.pos ∧ c'.pos ≤ c.buf.length
  locally : ∀ c a c' buf, c.Fits → p c = .ok (a, c') → buf.length < 2 ^ 63 →
    c'.pos ≤ buf.length → buf.take c'.pos = c.buf.take c'.pos →
    p { buf, pos := c.pos } = .ok (a, { buf, pos := c'.pos })

namespace Exact

theorem fits {p : Parse ε α} {m : Nat} (hp : Exact p m) {c c' : Cursor} {a : α} (hc : c.Fits)
    (h : p c = .ok (a, c')) : c'.Fits := by
  obtain ⟨hbuf, -, hpos⟩ := hp.takes c a c' hc h
  rw [Cursor.Fits, hbuf]
  exact ⟨hpos, hc.2⟩

theorem weaken {p : Parse ε α} {m k : Nat} (hp : Exact p m) (h : k ≤ m) : Exact p k where
  total := hp.total
  takes c a c' hc h' := by
    obtain ⟨hbuf, hm, hpos⟩ := hp.takes c a c' hc h'
    exact ⟨hbuf, by omega, hpos⟩
  locally := hp.locally

protected theorem pure (a : α) : Exact (pure a : Parse ε α) 0 where
  total _ _ := nofun
  takes c b c' hc h := by
    cases h
    exact ⟨rfl, Nat.le_refl _, hc.1⟩
  locally c b c' buf hc h _ _ _ := by
    cases h
    rfl

protected theorem fail (e : ε) (m : Nat) : Exact (fail e : Parse ε α) m where
  total _ _ := nofun
  takes _ _ _ _ h := nomatch h
  locally _ _ _ _ _ h := nomatch h

/-- `bind`, where the second parser may rely on what the first one answers. -/
theorem bind_of {p : Parse ε α} {f : α → Parse ε β} {m k : Nat} {P : α → Prop} (hp : Exact p m)
    (hpost : ∀ c a c', p c = .ok (a, c') → P a) (hf : ∀ a, P a → Exact (f a) k) :
    Exact (p >>= f) (m + k) where
  total c hc := by
    rw [bind_apply]
    cases h : p c with
    | ok r => exact (hf r.1 (hpost c r.1 r.2 h)).total r.2 (hp.fits hc h)
    | err e => exact nofun
    | panic => exact absurd h (hp.total c hc)
  takes c b c'' hc h := by
    obtain ⟨a, c', ha, hb⟩ := bind_eq_ok h
    obtain ⟨hbuf, hm, -⟩ := hp.takes c a c' hc ha
    have hfa := hf a (hpost c a c' ha)
    obtain ⟨hbuf', hk, hpos⟩ := hfa.takes c' b c'' (hp.fits hc ha) hb
    rw [hbuf] at hbuf' hpos
    exact ⟨hbuf', by omega, hpos⟩
  locally c b c'' buf hc h hlen hpos heq := by
    obtain ⟨a, c', ha, hb⟩ := bind_eq_ok h
    obtain ⟨hbuf, -, -⟩ := hp.takes c a c' hc ha
    have hfa := hf a (hpost c a c' ha)
    obtain ⟨-, hk, -⟩ := hfa.takes c' b c'' (hp.fits hc ha) hb
    have hle : c'.pos ≤ c''.pos := by omega
    have heq' : buf.take c'.pos = c.buf.take c'.pos := by
      have := congrArg (List.take c'.pos) heq
      rwa [List.take_take, List.take_take, Nat.min_eq_left hle] at this
    rw [bind_apply, hp.locally c a c' buf hc ha hlen (by omega) heq']
    rw [← hbuf] at heq
    exact hfa.locally c' b c'' buf (hp.fits hc ha) hb hlen hpos heq

protected theorem bind {p : Parse ε α} {f : α → Parse ε β} {m k : Nat} (hp : Exact p m)
    (hf : ∀ a, Exact (f a) k) : Exact (p >>= f) (m + k) :=
  hp.bind_of (fun _ _ _ _ => trivial) fun a _ => hf a

protected theorem map {p : Parse ε α} {m : Nat} (hp : Exact p m) (f : α → β) :
    Exact (p >>= fun a => pure (f a)) m :=
  hp.bind fun a => Exact.pure (f a)

protected theorem times {p : Parse ε α} {m : Nat} (hp : Exact p m) (n : Nat) :
    Exact (times n p) (n * m) := by
  induction n with
  | zero => exact (Exact.pure []).weaken (by omega)
  | succ n ih =>
    refine (hp.bind fun a => ih.bind fun rest => Exact.pure (a :: rest)).weaken ?_
    rw [Nat.succ_mul]
    omega

/-- A check of what is left may stand before a parser that takes enough to pass it. -/
protected theorem guard {p : Parse ε α} {m : Nat} (hp : Exact p m)
    {left : Cursor → Checked ε Nat} (hleft : ∀ c, c.Fits → left c = .ok (c.buf.length - c.pos))
    {P : Nat → Prop} [DecidablePred P] (hP : ∀ r, m ≤ r → ¬ P r)
    (e : Cursor → Nat → ε) :
    Exact (cursor >>= fun c => lift (left c) >>= fun r =>
      if P r then fail (e c r) else p) m := by
  have hrun : ∀ c, c.Fits → (cursor >>= fun c => lift (left c) >>= fun r =>
      if P r then fail (e c r) else p) c
        = if P (c.buf.length - c.pos) then .err (e c (c.buf.length - c.pos)) else p c := by
    intro c hc
    simp only [bind_apply, cursor, lift, Checked.ok_bind, hleft c hc]
    split <;> rfl
  constructor
  · intro c hc
    rw [hrun c hc]
    split
    · exact nofun
    · exact hp.total c hc
  · intro c a c' hc h
    rw [hrun c hc] at h
    split at h
    · cases h
    · exact hp.takes c a c' hc h
  · intro c a c' buf hc h hlen hpos heq
    rw [hrun c hc] at h
    split at h
    · cases h
    · obtain ⟨-, hm, -⟩ := hp.takes c a c' hc h
      have hfits : Cursor.Fits { buf, pos := c.pos } := ⟨by show c.pos ≤ buf.length; omega, hlen⟩
      rw [hrun _ hfits, if_neg (hP _ (by show m ≤ buf.length - c.pos; omega))]
      exact hp.locally c a c' buf hc h hlen hpos heq

/-- What depends on the position alone takes nothing. -/
protected theorem position {f : Nat → Checked ε α} (hf : ∀ n, n < 2 ^ 63 → ∃ a, f n = .ok a)
    (g : α → β) : Exact (cursor >>= fun c => lift (f c.pos) >>= fun a => pure (g a)) 0 := by
  have hrun : ∀ c : Cursor, c.Fits → ∃ a, f c.pos = .ok a ∧
      (cursor >>= fun c => lift (f c.pos) >>= fun a => pure (g a)) c = .ok (g a, c) := by
    intro c hc
    obtain ⟨a, ha⟩ := hf c.pos (Nat.lt_of_le_of_lt hc.1 hc.2)
    refine ⟨a, ha, ?_⟩
    simp only [bind_apply, cursor, lift, Checked.ok_bind, ha]
    rfl
  constructor
  · intro c hc
    obtain ⟨a, -, h⟩ := hrun c hc
    rw [h]
    exact nofun
  · intro c b c' hc h
    obtain ⟨a, -, ha⟩ := hrun c hc
    rw [ha] at h
    cases h
    exact ⟨rfl, Nat.le_refl _, hc.1⟩
  · intro c b c' buf hc h hlen hpos _
    obtain ⟨a, hfa, ha⟩ := hrun c hc
    rw [ha] at h
    cases h
    obtain ⟨a', hfa', ha'⟩ := hrun { buf, pos := c.pos } ⟨hpos, hlen⟩
    rw [ha']
    rw [show f c.pos = .ok a' from hfa'] at hfa
    cases hfa
    rfl

/-- **No byte past the end is read, and no byte before it can be missed.** -/
theorem prefix_iff {p : Parse ε α} {m : Nat} (hp : Exact p m) {data : Bytes} {a : α} {c : Cursor}
    (hdata : data.length < 2 ^ 63) (h : p { buf := data, pos := 0 } = .ok (a, c)) :
    c.pos ≤ data.length ∧
    (∀ k, k < c.pos → ∃ e, p { buf := data.take k, pos := 0 } = .err e) ∧
    (∀ data', data'.length < 2 ^ 63 → data'.take c.pos = data.take c.pos →
      p { buf := data', pos := 0 } = .ok (a, { buf := data', pos := c.pos })) := by
  have hfits : Cursor.Fits { buf := data, pos := 0 } := ⟨Nat.zero_le _, hdata⟩
  obtain ⟨-, -, hpos⟩ := hp.takes _ a c hfits h
  replace hpos : c.pos ≤ data.length := hpos
  refine ⟨hpos, ?_, ?_⟩
  · intro k hk
    have hlen : (data.take k).length ≤ k := by rw [List.length_take]; omega
    have hshort : Cursor.Fits { buf := data.take k, pos := 0 } :=
      ⟨Nat.zero_le _, by show (data.take k).length < 2 ^ 63; rw [List.length_take]; omega⟩
    cases hr : p { buf := data.take k, pos := 0 } with
    | err e => exact ⟨e, rfl⟩
    | panic => exact absurd hr (hp.total _ hshort)
    | ok r =>
      -- it would have ended within the prefix, and so would the whole string
      obtain ⟨b, c'⟩ := r
      obtain ⟨-, -, hpos'⟩ := hp.takes _ b c' hshort hr
      have hle : c'.pos ≤ k := Nat.le_trans hpos' hlen
      have heq : data.take c'.pos = (data.take k).take c'.pos := by
        rw [List.take_take, Nat.min_eq_left hle]
      have hsame := hp.locally _ b c' data hshort hr hdata (by omega) heq
      have hc : c.pos = c'.pos := by
        have := hsame.symm.trans h
        rw [Checked.ok.injEq, Prod.mk.injEq] at this
        rw [← this.2]
      omega
  · intro data' hlen heq
    refine hp.locally _ a c data' hfits h hlen ?_ heq
    have := congrArg List.length heq
    rw [List.length_take, List.length_take] at this
    omega

end Exact

/-! ## Parsers that read an encoding back -/

/-- The parser reads `a` off `bs` where these stand at `start`, in every string that a machine can
address. -/
def Parses (p : Parse ε α) (start : Nat) (bs : Bytes) (a : α) : Prop :=
  ∀ pre post, pre.length = start → (pre ++ bs ++ post).length < 2 ^ 63 →
    p { buf := pre ++ bs ++ post, pos := start }
      = .ok (a, { buf := pre ++ bs ++ post, pos := start + bs.length })

namespace Parses

variable {start : Nat}

protected theorem pure (a : α) : Parses (pure a : Parse ε α) start [] a := by
  intro pre post _ _
  simp

protected theorem bind {p : Parse ε α} {f : α → Parse ε β} {as bs : Bytes} {a : α} {b : β}
    (ha : Parses p start as a) (hb : Parses (f a) (start + as.length) bs b) :
    Parses (p >>= f) start (as ++ bs) b := by
  intro pre post hpre hlen
  have hleft : pre ++ (as ++ bs) ++ post = pre ++ as ++ (bs ++ post) := by simp
  have hright : pre ++ (as ++ bs) ++ post = pre ++ as ++ bs ++ post := by simp
  rw [bind_apply]
  rw [hleft] at hlen ⊢
  rw [ha pre (bs ++ post) hpre hlen, Checked.ok_bind, ← hleft, hright]
  rw [← hleft, hright] at hlen
  simp only
  rw [hb (pre ++ as) post (by rw [List.length_append, hpre]) hlen, List.length_append,
    Nat.add_assoc]

/-- A parser whose answer is at hand once `a` is read. -/
theorem answers {p : Parse ε α} {f : α → Parse ε β} {as : Bytes} {a : α} {b : β}
    (ha : Parses p start as a) (hb : f a = pure b) : Parses (p >>= f) start as b := by
  have := ha.bind (hb ▸ Parses.pure b : Parses (f a) (start + as.length) [] b)
  rwa [List.append_nil] at this

protected theorem map {p : Parse ε α} {f : α → β} {as : Bytes} {a : α}
    (ha : Parses p start as a) : Parses (p >>= fun a => pure (f a)) start as (f a) :=
  ha.answers rfl

/-- An encoding too long for any machine need not be read. -/
theorem of_length {p : Parse ε α} {bs : Bytes} {a : α}
    (h : bs.length < 2 ^ 63 → Parses p start bs a) : Parses p start bs a := by
  intro pre post hpre hlen
  refine h ?_ pre post hpre hlen
  simp only [List.length_append] at hlen
  omega

/-- Encodings one after another are read back in order. -/
protected theorem times {p : Parse ε α} {l : List α} {bss : List Bytes}
    (h : List.Forall₂ (fun a bs => ∀ start, Parses p start bs a) l bss) (start : Nat) :
    Parses (times l.length p) start bss.flatten l := by
  induction h generalizing start with
  | nil => exact Parses.pure []
  | cons ha _ ih =>
    rw [List.flatten_cons, List.length_cons]
    exact (ha start).bind (ih _).map

/-- A check of what is left passes on all that the parser is sure to take. -/
protected theorem guard {p : Parse ε α} {bs : Bytes} {a : α} {m : Nat} (hp : Parses p start bs a)
    (hx : Exact p m) {left : Cursor → Checked ε Nat}
    (hleft : ∀ c, c.Fits → left c = .ok (c.buf.length - c.pos))
    {P : Nat → Prop} [DecidablePred P] (hP : ∀ r, m ≤ r → ¬ P r)
    (e : Cursor → Nat → ε) :
    Parses (cursor >>= fun c => lift (left c) >>= fun r =>
      if P r then fail (e c r) else p) start bs a := by
  intro pre post hpre hlen
  have hfits : Cursor.Fits { buf := pre ++ bs ++ post, pos := start } :=
    ⟨by simp only [List.length_append]; omega, hlen⟩
  have hrun := hp pre post hpre hlen
  have hm : m ≤ (pre ++ bs ++ post).length - start := by
    obtain ⟨-, hm, -⟩ := hx.takes _ _ _ hfits hrun
    simp only [List.length_append] at hm ⊢
    omega
  simp only [bind_apply, cursor, lift, Checked.ok_bind, hleft _ hfits]
  rw [if_neg (hP _ hm)]
  exact hrun

/-- What depends on the position alone reads nothing. -/
protected theorem position {f : Nat → Checked ε α} {a : α} (h : f start = .ok a) (g : α → β) :
    Parses (cursor >>= fun c => lift (f c.pos) >>= fun a => pure (g a)) start [] (g a) := by
  intro pre post _ _
  simp only [bind_apply, cursor, lift, Checked.ok_bind, h]
  rfl

end Parses

end Infra
