import Garuda.Infra.MaxQueue
import Garuda.Runtime.Session
import Garuda.Scheduler.UserSlots

/-!
# Requests in the queue

What a caller wants run, what the scheduler makes of it, and the order in which waiting requests
are taken: the highest priority first, the oldest first within a priority.

The standard library's heap is the list of what is in it, and taking from it is `popMax`.

* `Queued.cmp_lawful` — the order is lawful, and equality is what the order says it is
* `Queued.cmp_lt_iff` — who comes after whom
-/

namespace Garuda

open Infra

inductive Priority where
  | low
  | normal
  | high
  deriving DecidableEq, Repr, Ord

/-- What the caller wants run. -/
structure RequestSpec (K : Type) where
  userId : String
  prompt : List Token
  params : SamplingParams K
  priority : Priority
  timeout : Nat

/-- One event on a request's output stream. -/
inductive StreamEvent where
  | token (t : Token)
  | done (reason : StopReason)
  | error (e : GarudaError)
  deriving DecidableEq

/-- `permit` is the semaphore the request's permit came from and goes back to when the request is
dropped, on every path. -/
structure Request (K : Type) where
  id : Nat
  spec : RequestSpec K
  submitted : Nat
  permit : Nat

/-- Heap entry: highest priority first, FIFO within a priority. -/
structure Queued (K : Type) where
  request : Request K
  seq : Nat

variable {K : Type}

namespace Queued

def priority (q : Queued K) : Priority := q.request.spec.priority

/-- Higher priority wins, and among equals the lower sequence number. -/
def cmp (a b : Queued K) : Ordering :=
  (compare a.priority b.priority).then (compare b.seq a.seq)

/-- `PartialEq` -/
def eq (a b : Queued K) : Bool := cmp a b == .eq

/-! ## The order is lawful -/

end Queued

def Priority.rank : Priority → Nat
  | low => 0
  | normal => 1
  | high => 2

theorem Priority.compare_eq (a b : Priority) : compare a b = compare a.rank b.rank := by
  cases a <;> cases b <;> rfl

theorem Priority.rank_inj {a b : Priority} (h : a.rank = b.rank) : a = b := by
  cases a <;> cases b <;> first | rfl | cases h

namespace Queued

theorem cmp_eq (a b : Queued K) :
    cmp a b = (compare a.priority.rank b.priority.rank).then (compare b.seq a.seq) := by
  rw [cmp, Priority.compare_eq]

/-- Who comes after whom. -/
theorem cmp_lt_iff {a b : Queued K} : cmp a b = .lt ↔
    a.priority.rank < b.priority.rank ∨ a.priority = b.priority ∧ b.seq < a.seq := by
  rw [cmp_eq, Ordering.then_eq_lt, Nat.compare_eq_lt, Nat.compare_eq_eq, Nat.compare_eq_lt]
  constructor
  · rintro (h | ⟨h, hseq⟩)
    · exact Or.inl h
    · exact Or.inr ⟨Priority.rank_inj h, hseq⟩
  · rintro (h | ⟨h, hseq⟩)
    · exact Or.inl h
    · exact Or.inr ⟨by rw [h], hseq⟩

instance : Std.TransCmp (cmp : Queued K → Queued K → Ordering) := by
  have hcmp : (cmp : Queued K → Queued K → Ordering) = fun a b =>
      (compare a.priority.rank b.priority.rank).then (compare b.seq a.seq) := by
    funext a b
    exact cmp_eq a b
  rw [hcmp]
  exact transCmp_then (fun q => q.priority.rank) Queued.seq

/-- **The order is lawful**: total, transitive, turned round by exchanging its arguments, and
`==` holds of what it cannot tell apart. -/
theorem cmp_lawful (a b c : Queued K) :
    cmp a b = (cmp b a).swap ∧ ((cmp a b).isLE = true → (cmp b c).isLE = true →
      (cmp a c).isLE = true) ∧ (eq a b = true ↔ cmp a b = .eq) :=
  ⟨Std.OrientedCmp.eq_swap, Std.TransCmp.isLE_trans, beq_iff_eq⟩

end Queued

end Garuda
