import AurixAsync.Lib.MinHeap

/-!
# The timer queue of an executor

`TimerQueue` is a `BinaryHeap<TimerQueueItem, Min, 64>` ordered by `expires_at` alone. The heap
comes from a third-party crate: it is a parameter `H`, with the laws of `MinHeap`.

* `TimerQueueItem`, `getTaskRef`: an entry stores a waker, and the waker is the task.
* `enqueue`, `dequeueExpired`, `nextExpiration`: the operations.
* `dequeueExpiredLoop`: the loop of `dequeue_expired` as the code has it.
* `mem_dequeueExpired`, `items_dequeueExpired`: expiry is exact.
* `dequeueExpiredWith_eq`: the loop calls `on_each` for the items of `dequeueExpired`.
-/

namespace AurixAsync

/-- The address of a task header. A waker of the executor holds nothing else. -/
abbrev TaskRef := ℕ

/-- A deadline, and the task to enqueue then. -/
structure TimerQueueItem where
  expiresAt : ℕ
  waker : TaskRef
deriving DecidableEq, Repr

/-- `task_from_waker`: every waker in the queue was made by `update_timer_queue`, with the
executor's own vtable. -/
def TimerQueueItem.getTaskRef (i : TimerQueueItem) : TaskRef := i.waker

/-- The capacity of the queue. -/
def N_TIMERS : ℕ := 64

/-- The heaps a timer queue can be built on. -/
abbrev TimerHeap := MinHeap TimerQueueItem TimerQueueItem.expiresAt N_TIMERS

/-- The list heap, to run examples on. -/
def TimerHeap.list : TimerHeap := MinHeap.ofList TimerQueueItem.expiresAt N_TIMERS

/-- The timers in a heap, the earliest on top. -/
structure TimerQueue (H : TimerHeap) where
  queue : H.Carrier

namespace TimerQueue

variable {H : TimerHeap}

/-- No timers. -/
def new : TimerQueue H := ⟨H.new⟩

/-- The entries, in no order. -/
def items (q : TimerQueue H) : Multiset TimerQueueItem := H.items q.queue

/-- `enqueue`, `none` where the heap hands the item back. -/
def enqueue (q : TimerQueue H) (item : TimerQueueItem) : Option (TimerQueue H) :=
  (H.push q.queue item).map TimerQueue.mk

/-- `dequeue_expired`: the items `on_each` is called with, in order, and the queue left. -/
def dequeueExpired (q : TimerQueue H) (now : ℕ) : List TimerQueueItem × TimerQueue H :=
  let r := H.drain (fun item => item.expiresAt ≤ now) q.queue
  (r.1, ⟨r.2⟩)

/-- The loop of `dequeue_expired`: `on_each` changes what it captured, and `x` counts its calls.
`none` is a panic, of `on_each` or of `pop().unwrap()`. -/
def dequeueExpiredLoop {σ : Type} (now : ℕ) (onEach : σ → TimerQueueItem → Option σ)
    (q : TimerQueue H) (s : σ) (x : ℕ) : Option (σ × ℕ × TimerQueue H) :=
  match H.peek q.queue with
  | some item =>
    if item.expiresAt ≤ now then
      match hpop : H.pop q.queue with
      | some (item, queue) =>
        (onEach s item).bind fun s => dequeueExpiredLoop now onEach ⟨queue⟩ s (x + 1)
      | none => none
    else some (s, x, q)
  | none => some (s, x, q)
termination_by q.items.card
decreasing_by exact MinHeap.card_of_pop hpop

/-- `dequeue_expired`: what `on_each` captured, the count and the queue. -/
def dequeueExpiredWith {σ : Type} (q : TimerQueue H) (now : ℕ)
    (onEach : σ → TimerQueueItem → Option σ) (s : σ) : Option (σ × ℕ × TimerQueue H) :=
  dequeueExpiredLoop now onEach q s 0

/-- `next_expiration`: the earliest deadline. -/
def nextExpiration (q : TimerQueue H) : Option ℕ := (H.peek q.queue).map TimerQueueItem.expiresAt

variable {q q' : TimerQueue H} {item : TimerQueueItem} {now : ℕ}

@[simp] theorem items_new : (new : TimerQueue H).items = 0 := H.items_new

theorem card_items_le (q : TimerQueue H) : q.items.card ≤ N_TIMERS := H.card_le _

theorem enqueue_eq_none : q.enqueue item = none ↔ q.items.card = N_TIMERS := by
  rw [enqueue, Option.map_eq_none_iff, MinHeap.push_eq_none]
  rfl

theorem items_enqueue_getD (q : TimerQueue H) (item : TimerQueueItem) :
    ((q.enqueue item).getD q).items =
      if q.items.card = N_TIMERS then q.items else item ::ₘ q.items := by
  split_ifs with h
  · rw [enqueue_eq_none.mpr h]
    rfl
  · obtain ⟨h', he, hi⟩ := MinHeap.exists_push (h := q.queue) h item
    rw [enqueue, he]
    exact hi

theorem dequeueExpired_spec (q : TimerQueue H) (now : ℕ) :
    ((q.dequeueExpired now).1 : Multiset TimerQueueItem) = q.items.filter (·.expiresAt ≤ now) ∧
      (q.dequeueExpired now).2.items = q.items.filter (¬ ·.expiresAt ≤ now) ∧
      (q.dequeueExpired now).1.Pairwise (·.expiresAt ≤ ·.expiresAt) := by
  have h := MinHeap.drain_spec (H := H) (p := fun item => item.expiresAt ≤ now)
    (fun x y hxy hy => by
      rw [decide_eq_true_eq] at hy ⊢
      exact hxy.trans hy) q.queue
  simp only [decide_eq_true_eq] at h
  exact h

theorem mem_dequeueExpired :
    item ∈ (q.dequeueExpired now).1 ↔ item ∈ q.items ∧ item.expiresAt ≤ now := by
  rw [← Multiset.mem_coe, (dequeueExpired_spec q now).1, Multiset.mem_filter]

theorem length_dequeueExpired (q : TimerQueue H) (now : ℕ) :
    (q.dequeueExpired now).1.length = (q.items.filter (·.expiresAt ≤ now)).card := by
  rw [← (dequeueExpired_spec q now).1, Multiset.coe_card]

theorem items_dequeueExpired :
    (q.dequeueExpired now).2.items = q.items.filter (now < ·.expiresAt) := by
  rw [(dequeueExpired_spec q now).2.1]
  exact Multiset.filter_congr fun x _ => not_le

theorem nextExpiration_eq_none : q.nextExpiration = none ↔ q.items = 0 := by
  rw [nextExpiration, Option.map_eq_none_iff, H.peek_isNone]
  rfl

theorem exists_nextExpiration {n : ℕ} (h : q.nextExpiration = some n) :
    ∃ i ∈ q.items, i.expiresAt = n := by
  obtain ⟨x, hx, rfl⟩ := Option.map_eq_some_iff.mp h
  exact ⟨x, MinHeap.mem_of_peek hx, rfl⟩

/-- After a drain, nothing is due any more. -/
theorem lt_nextExpiration_dequeueExpired {n : ℕ}
    (h : (q.dequeueExpired now).2.nextExpiration = some n) : now < n := by
  obtain ⟨i, hi, rfl⟩ := exists_nextExpiration h
  rw [items_dequeueExpired, Multiset.mem_filter] at hi
  exact hi.2

/-! ### The loop -/

theorem dequeueExpiredLoop_eq {σ : Type} (onEach : σ → TimerQueueItem → Option σ)
    (q : TimerQueue H) (s : σ) (x : ℕ) :
    dequeueExpiredLoop now onEach q s x =
      ((q.dequeueExpired now).1.foldlM onEach s).map fun t =>
        (t, x + (q.dequeueExpired now).1.length, (q.dequeueExpired now).2) := by
  obtain ⟨h⟩ := q
  refine MinHeap.drain_induction (H := H) (p := fun item => item.expiresAt ≤ now)
    (motive := fun h l h' => ∀ s x, dequeueExpiredLoop now onEach (⟨h⟩ : TimerQueue H) s x =
      (l.foldlM onEach s).map fun t => (t, x + l.length, (⟨h'⟩ : TimerQueue H)))
    ?_ ?_ h s x
  · intro h hstop s x
    rw [dequeueExpiredLoop]
    cases hpk : H.peek h with
    | none => rfl
    | some item =>
      have hlate : ¬ item.expiresAt ≤ now := fun hle => hstop item hpk (decide_eq_true hle)
      dsimp only
      rw [if_neg hlate]
      rfl
  · intro h item h' hpk hle hpop ih s x
    rw [dequeueExpiredLoop, hpk]
    dsimp only
    rw [if_pos (of_decide_eq_true hle)]
    split
    · rename_i item' queue he
      obtain ⟨rfl, rfl⟩ := Prod.mk.inj (Option.some.inj (hpop.symm.trans he))
      rw [List.foldlM_cons]
      cases onEach s item with
      | none => rfl
      | some t =>
        show dequeueExpiredLoop now onEach _ t (x + 1) = _
        rw [ih, List.length_cons, Nat.add_right_comm, ← Nat.add_assoc]
        rfl
    · rename_i he
      rw [hpop] at he
      exact absurd he (by simp)

/-- **The loop is a drain**: `on_each` is called for the items of `dequeueExpired`, in that order,
and they are counted. -/
theorem dequeueExpiredWith_eq {σ : Type} (q : TimerQueue H) (now : ℕ)
    (onEach : σ → TimerQueueItem → Option σ) (s : σ) :
    q.dequeueExpiredWith now onEach s =
      ((q.dequeueExpired now).1.foldlM onEach s).map fun t =>
        (t, (q.dequeueExpired now).1.length, (q.dequeueExpired now).2) := by
  rw [dequeueExpiredWith, dequeueExpiredLoop_eq]
  simp only [Nat.zero_add]

end TimerQueue

end AurixAsync
