import AurixAsync.Lib.Readers
import AurixAsync.Sync.MultiWaker
import Mathlib.Algebra.Group.Nat.Defs

/-!
# The state of a PubSub channel

`PubSubState`: the queue of messages, each with the number of subscribers that are yet to read it,
the id of the next message, and the places for wakers. Every operation is one critical section. It
returns what the caller gets, the state, and the tasks woken, in order; `none` is a panic, of
checked arithmetic or of an `unwrap`.

* `tryPublish`, `publishImmediate`, `getMessage`, `unregisterSubscriber`, ...: the code.
* `publishWithContext_cases`, `publishImmediate_cases`, `getMessageWithContext_cases`,
  `unregisterSubscriber_cases`: what each does.
-/

namespace AurixAsync

/-- Subtraction of unsigned integers, which panics below zero. -/
def checkedSub (a b : ℕ) : Option ℕ := if b ≤ a then some (a - b) else none

/-- Addition of `u64`, which panics on overflow. -/
def checkedAdd (a b : ℕ) : Option ℕ := if a + b < 2 ^ 64 then some (a + b) else none

theorem checkedSub_eq_some {a b c : ℕ} : checkedSub a b = some c ↔ b ≤ a ∧ c = a - b := by
  unfold checkedSub
  by_cases h : b ≤ a
  · rw [if_pos h, Option.some.injEq]
    omega
  · rw [if_neg h]
    simp [h]

theorem checkedAdd_eq_some {a b c : ℕ} : checkedAdd a b = some c ↔ a + b < 2 ^ 64 ∧ c = a + b := by
  unfold checkedAdd
  by_cases h : a + b < 2 ^ 64
  · rw [if_pos h, Option.some.injEq]
    exact ⟨fun e => ⟨h, e.symm⟩, fun e => e.2.symm⟩
  · rw [if_neg h]
    exact ⟨fun e => absurd e (by simp), fun e => absurd e.1 h⟩

namespace PubSub

/-- The errors of `subscriber` and `publisher`. -/
inductive Error
  | maximumSubscribersReached
  | maximumPublishersReached
deriving DecidableEq, Repr

/-- A subscriber missed some messages, or gets the next one. -/
inductive WaitResult (α : Type)
  | lagged (amount : ℕ)
  | message (m : α)
deriving DecidableEq, Repr

/-- The messages, each with the number of subscribers that have it still to read, the id of the next
one, the wakers, and how many subscribers and publishers there are. -/
structure PubSubState (α : Type) (CAP SUBS PUBS : ℕ) where
  queue : Deque (α × ℕ) CAP
  nextMessageId : ℕ
  subscriberWakers : MultiWakerRegistration SUBS
  publisherWakers : MultiWakerRegistration PUBS
  subscriberCount : ℕ
  publisherCount : ℕ

namespace PubSubState

variable {α : Type} {CAP SUBS PUBS : ℕ}

/-- An empty channel without subscribers and publishers. -/
def new : PubSubState α CAP SUBS PUBS := ⟨.new, 0, .new, .new, 0, 0⟩

/-- `subscriber` and `dyn_subscriber`: the new subscriber's `next_message_id`. -/
def subscriber (s : PubSubState α CAP SUBS PUBS) :
    Except Error (ℕ × PubSubState α CAP SUBS PUBS) :=
  if SUBS ≤ s.subscriberCount then .error .maximumSubscribersReached
  else .ok (s.nextMessageId, { s with subscriberCount := s.subscriberCount + 1 })

/-- `publisher` and `dyn_publisher`. -/
def publisher (s : PubSubState α CAP SUBS PUBS) : Except Error (PubSubState α CAP SUBS PUBS) :=
  if PUBS ≤ s.publisherCount then .error .maximumPublishersReached
  else .ok { s with publisherCount := s.publisherCount + 1 }

/-- `try_publish`, with the tasks it wakes. `none` if the id overflows. -/
def tryPublish (s : PubSubState α CAP SUBS PUBS) (message : α) :
    Option (Except α Unit × PubSubState α CAP SUBS PUBS × List TaskRef) :=
  if s.subscriberCount = 0 then some (.ok (), s, [])
  else if s.queue.isFull then some (.error message, s, [])
  else
    (s.queue.pushBack (message, s.subscriberCount)).bind fun queue =>
      (checkedAdd s.nextMessageId 1).map fun id =>
        let w := s.subscriberWakers.wake
        (.ok (), { s with queue := queue, nextMessageId := id, subscriberWakers := w.1 }, w.2)

/-- `pop_front` with its result dropped. -/
def popFront (q : Deque (α × ℕ) CAP) : Deque (α × ℕ) CAP :=
  match q.popFront with
  | some (_, q') => q'
  | none => q

/-- `publish_immediate`: the oldest message makes room. -/
def publishImmediate (s : PubSubState α CAP SUBS PUBS) (message : α) :
    Option (PubSubState α CAP SUBS PUBS × List TaskRef) :=
  let s' := if s.queue.isFull then { s with queue := popFront s.queue } else s
  (s'.tryPublish message).bind fun r =>
    match r.1 with
    | .ok () => some r.2
    | .error _ => none

/-- The counter of the entry at `i`, replaced. -/
def setCounter (q : Deque (α × ℕ) CAP) (i : ℕ) (x : α × ℕ) : Deque (α × ℕ) CAP :=
  q.withItems (q.items.set i x) (by rw [List.length_set])

/-- `get_message`: the message of an id, or how far the id lies behind. -/
def getMessage (s : PubSubState α CAP SUBS PUBS) (messageId : ℕ) :
    Option (Option (WaitResult α) × PubSubState α CAP SUBS PUBS × List TaskRef) :=
  (checkedSub s.nextMessageId s.queue.items.length).bind fun startId =>
    if messageId < startId then some (some (.lagged (startId - messageId)), s, [])
    else
      match s.queue.items[messageId - startId]? with
      | none => some (none, s, [])
      | some (message, count) =>
        (checkedSub count 1).bind fun c =>
          let queue := setCounter s.queue (messageId - startId) (message, c)
          if messageId - startId = 0 ∧ c = 0 then
            queue.popFront.map fun p =>
              let w := s.publisherWakers.wake
              (some (.message p.1.1), { s with queue := p.2, publisherWakers := w.1 }, w.2)
          else some (some (.message message), { s with queue := queue }, [])

/-- `*counter -= 1` for the entries from `i` on. -/
def decrementFrom (q : Deque (α × ℕ) CAP) (i : ℕ) : Option (Deque (α × ℕ) CAP) :=
  if ∀ x ∈ q.items.drop i, x.2 ≠ 0 then
    some (q.withItems (Readers.decrement i q.items) (by rw [Readers.length_decrement]))
  else none

/-- The loop that pops the entries with counter zero at the front. -/
def popRead (q : Deque (α × ℕ) CAP) : Deque (α × ℕ) CAP :=
  q.withItems (Readers.popRead q.items) Readers.length_popRead_le

/-- `unregister_subscriber`. A subscriber that lags behind the queue changes no counter. -/
def unregisterSubscriber (s : PubSubState α CAP SUBS PUBS) (nextMessageId : ℕ) :
    Option (PubSubState α CAP SUBS PUBS × List TaskRef) :=
  (checkedSub s.subscriberCount 1).bind fun count =>
    (checkedSub s.nextMessageId s.queue.items.length).bind fun startId =>
      if startId ≤ nextMessageId then
        (decrementFrom s.queue (nextMessageId - startId)).map fun q =>
          let queue := popRead q
          if queue.items.length < q.items.length then
            let w := s.publisherWakers.wake
            ({ s with subscriberCount := count, queue := queue, publisherWakers := w.1 }, w.2)
          else ({ s with subscriberCount := count, queue := queue }, [])
      else some ({ s with subscriberCount := count }, [])

/-- `unregister_publisher`. -/
def unregisterPublisher (s : PubSubState α CAP SUBS PUBS) :
    Option (PubSubState α CAP SUBS PUBS) :=
  (checkedSub s.publisherCount 1).map fun count => { s with publisherCount := count }

/-! ### The channel -/

/-- `get_message_with_context`: the result, `none` for pending, and the new `next_message_id`. -/
def getMessageWithContext (s : PubSubState α CAP SUBS PUBS) (nextMessageId : ℕ)
    (cx : Option TaskRef) :
    Option ((Option (WaitResult α) × ℕ) × PubSubState α CAP SUBS PUBS × List TaskRef) :=
  (s.getMessage nextMessageId).bind fun r =>
    match r.1 with
    | some (.message m) =>
      (checkedAdd nextMessageId 1).map fun id => ((some (.message m), id), r.2)
    | none =>
      (r.2.1.subscriberWakers.registerCx cx).map fun reg =>
        ((none, nextMessageId), { r.2.1 with subscriberWakers := reg.1 }, r.2.2 ++ reg.2)
    | some (.lagged amount) =>
      (checkedAdd nextMessageId amount).map fun id => ((some (.lagged amount), id), r.2)

/-- `publish_with_context`: on a full queue the task registers. -/
def publishWithContext (s : PubSubState α CAP SUBS PUBS) (message : α) (cx : Option TaskRef) :
    Option (Except α Unit × PubSubState α CAP SUBS PUBS × List TaskRef) :=
  (s.tryPublish message).bind fun r =>
    match r.1 with
    | .ok () => some r
    | .error m =>
      (r.2.1.publisherWakers.registerCx cx).map fun reg =>
        (.error m, { r.2.1 with publisherWakers := reg.1 }, r.2.2 ++ reg.2)

/-! ### What the operations do -/

variable {s : PubSubState α CAP SUBS PUBS}

/-- The id of the oldest message in the queue. -/
def startId (s : PubSubState α CAP SUBS PUBS) : ℕ := s.nextMessageId - s.queue.items.length

theorem checkedSub_startId (h : s.queue.items.length ≤ s.nextMessageId) :
    checkedSub s.nextMessageId s.queue.items.length = some s.startId :=
  checkedSub_eq_some.mpr ⟨h, rfl⟩

/-- **What `try_publish` does.** -/
theorem tryPublish_cases {message : α}
    {r : Except α Unit × PubSubState α CAP SUBS PUBS × List TaskRef}
    (h : s.tryPublish message = some r) :
    s.subscriberCount = 0 ∧ r = (.ok (), s, []) ∨
      s.subscriberCount ≠ 0 ∧ s.queue.items.length = CAP ∧ r = (.error message, s, []) ∨
      s.subscriberCount ≠ 0 ∧ s.queue.items.length < CAP ∧
        ∃ q, q.items = s.queue.items ++ [(message, s.subscriberCount)] ∧
          r = (.ok (),
            { s with queue := q, nextMessageId := s.nextMessageId + 1, subscriberWakers := .new },
            s.subscriberWakers.wakers.items) := by
  unfold tryPublish at h
  by_cases hz : s.subscriberCount = 0
  · rw [if_pos hz] at h
    exact Or.inl ⟨hz, (Option.some.inj h).symm⟩
  · rw [if_neg hz] at h
    by_cases hf : s.queue.isFull
    · rw [if_pos hf] at h
      exact Or.inr (Or.inl ⟨hz, Deque.isFull_iff.mp hf, (Option.some.inj h).symm⟩)
    · rw [if_neg hf] at h
      obtain ⟨q, hq, hr⟩ := Option.bind_eq_some_iff.mp h
      obtain ⟨id, hid, rfl⟩ := Option.map_eq_some_iff.mp hr
      obtain ⟨hlt, hitems⟩ := Deque.pushBack_eq_some.mp hq
      obtain ⟨-, rfl⟩ := checkedAdd_eq_some.mp hid
      exact Or.inr (Or.inr ⟨hz, hlt, q, hitems, rfl⟩)

theorem nextMessageId_lt (hb : s.nextMessageId < 2 ^ 64) {message : α}
    {r : Except α Unit × PubSubState α CAP SUBS PUBS × List TaskRef}
    (h : s.tryPublish message = some r) : r.2.1.nextMessageId < 2 ^ 64 := by
  unfold tryPublish at h
  split_ifs at h
  · obtain rfl := Option.some.inj h
    exact hb
  · obtain rfl := Option.some.inj h
    exact hb
  · obtain ⟨q, -, hr⟩ := Option.bind_eq_some_iff.mp h
    obtain ⟨id, hid, rfl⟩ := Option.map_eq_some_iff.mp hr
    obtain ⟨hlt, rfl⟩ := checkedAdd_eq_some.mp hid
    exact hlt

theorem items_popFront (q : Deque (α × ℕ) CAP) : (popFront q).items = q.items.tail := by
  unfold popFront
  cases h : q.popFront with
  | none => rw [Deque.popFront_eq_none.mp h, List.tail_nil]
  | some p => rw [Deque.popFront_eq_some.mp h, List.tail_cons]

theorem items_setCounter (q : Deque (α × ℕ) CAP) (i : ℕ) (x : α × ℕ) :
    (setCounter q i x).items = q.items.set i x := rfl

/-- **What `get_message` does**: the lag, nothing, or the message with its counter taken down, and
the first message that everybody has read leaves the queue. -/
theorem getMessage_cases (hle : s.queue.items.length ≤ s.nextMessageId) {messageId : ℕ}
    {r : Option (WaitResult α) × PubSubState α CAP SUBS PUBS × List TaskRef}
    (h : s.getMessage messageId = some r) :
    messageId < s.startId ∧ r = (some (.lagged (s.startId - messageId)), s, []) ∨
      ∃ j, messageId = s.startId + j ∧
        (s.queue.items.length ≤ j ∧ r = (none, s, []) ∨
          ∃ m c, s.queue.items[j]? = some (m, c + 1) ∧ ∃ q : Deque (α × ℕ) CAP,
            (¬ (j = 0 ∧ c = 0) ∧ q.items = s.queue.items.set j (m, c) ∧
                r = (some (.message m), { s with queue := q }, []) ∨
              j = 0 ∧ c = 0 ∧ q.items = s.queue.items.tail ∧
                r = (some (.message m), { s with queue := q, publisherWakers := .new },
                  s.publisherWakers.wakers.items))) := by
  unfold getMessage at h
  rw [checkedSub_startId hle, Option.bind_some] at h
  by_cases hlt : messageId < s.startId
  · rw [if_pos hlt] at h
    exact Or.inl ⟨hlt, (Option.some.inj h).symm⟩
  · rw [if_neg hlt] at h
    refine Or.inr ⟨messageId - s.startId, by omega, ?_⟩
    cases hx : s.queue.items[messageId - s.startId]? with
    | none =>
      rw [hx] at h
      exact Or.inl ⟨List.getElem?_eq_none_iff.mp hx, (Option.some.inj h).symm⟩
    | some x =>
      rw [hx] at h
      obtain ⟨c, hc, hr⟩ := Option.bind_eq_some_iff.mp h
      obtain ⟨hpos, rfl⟩ := checkedSub_eq_some.mp hc
      refine Or.inr ⟨x.1, x.2 - 1, by rw [Nat.sub_add_cancel hpos], ?_⟩
      by_cases hz : messageId - s.startId = 0 ∧ x.2 - 1 = 0
      · rw [if_pos hz] at hr
        obtain ⟨⟨y, q⟩, hp, rfl⟩ := Option.map_eq_some_iff.mp hr
        have hitems := Deque.popFront_eq_some.mp hp
        rw [items_setCounter, hz.1] at hitems
        rw [hz.1] at hx
        obtain ⟨xs, hxs⟩ : ∃ xs, s.queue.items = x :: xs := by
          cases hq : s.queue.items with
          | nil => simp [hq] at hx
          | cons z zs => exact ⟨zs, by simp [hq] at hx; rw [hx]⟩
        rw [hxs, List.set_cons_zero, List.cons.injEq] at hitems
        refine ⟨q, Or.inr ⟨hz.1, hz.2, ?_, ?_⟩⟩
        · rw [hxs, List.tail_cons, hitems.2]
        · rw [← hitems.1]
          rfl
      · rw [if_neg hz] at hr
        exact ⟨_, Or.inl ⟨hz, rfl, (Option.some.inj hr).symm⟩⟩

/-- **What `unregister_subscriber` does.** For a subscriber that lags it only counts it off.
Otherwise the counters from its next message on go down, the read messages at the front leave, and
with them the publishers are woken. -/
theorem unregisterSubscriber_cases (hle : s.queue.items.length ≤ s.nextMessageId)
    {nextMessageId : ℕ} {r : PubSubState α CAP SUBS PUBS × List TaskRef}
    (h : s.unregisterSubscriber nextMessageId = some r) :
    0 < s.subscriberCount ∧
      (nextMessageId < s.startId ∧ r = ({ s with subscriberCount := s.subscriberCount - 1 }, []) ∨
        ∃ j, nextMessageId = s.startId + j ∧ ∃ q : Deque (α × ℕ) CAP,
          q.items = Readers.popRead (Readers.decrement j s.queue.items) ∧
            (q.items.length = s.queue.items.length ∧
                r = ({ s with subscriberCount := s.subscriberCount - 1, queue := q }, []) ∨
              r = ({ s with
                  subscriberCount := s.subscriberCount - 1, queue := q, publisherWakers := .new },
                s.publisherWakers.wakers.items))) := by
  unfold unregisterSubscriber at h
  obtain ⟨count, hcount, hr⟩ := Option.bind_eq_some_iff.mp h
  obtain ⟨hpos, rfl⟩ := checkedSub_eq_some.mp hcount
  rw [checkedSub_startId hle, Option.bind_some] at hr
  refine ⟨hpos, ?_⟩
  by_cases hge : s.startId ≤ nextMessageId
  · rw [if_pos hge] at hr
    obtain ⟨q, hq, rfl⟩ := Option.map_eq_some_iff.mp hr
    have hitems : q.items = Readers.decrement (nextMessageId - s.startId) s.queue.items := by
      unfold decrementFrom at hq
      split_ifs at hq
      rw [← Option.some.inj hq]
      rfl
    have hlen : q.items.length = s.queue.items.length := by
      rw [hitems, Readers.length_decrement]
    refine Or.inr ⟨nextMessageId - s.startId, by omega, popRead q, ?_, ?_⟩
    · rw [← hitems]
      rfl
    · by_cases hshort : (popRead q).items.length < q.items.length
      · exact Or.inr (by simp only [if_pos hshort]; rfl)
      · have := Readers.length_popRead_le (q := q.items)
        refine Or.inl ⟨?_, by simp only [if_neg hshort]⟩
        change ¬ (Readers.popRead q.items).length < _ at hshort
        change (Readers.popRead q.items).length = _
        omega
  · rw [if_neg hge] at hr
    exact Or.inl ⟨by omega, (Option.some.inj hr).symm⟩

/-- A message is taken, or the queue is full and the task registers. -/
theorem publishWithContext_cases {message : α} {cx : Option TaskRef}
    {r : Except α Unit × PubSubState α CAP SUBS PUBS × List TaskRef}
    (h : s.publishWithContext message cx = some r) :
    s.tryPublish message = some (.ok (), r.2) ∧ r.1 = .ok () ∨
      s.queue.items.length = CAP ∧ ∃ reg, s.publisherWakers.registerCx cx = some reg ∧
        r = (.error message, { s with publisherWakers := reg.1 }, reg.2) := by
  obtain ⟨r', hp, hr⟩ := Option.bind_eq_some_iff.mp h
  rcases tryPublish_cases hp with ⟨-, rfl⟩ | ⟨-, hfull, rfl⟩ | ⟨-, -, q, -, rfl⟩
  · obtain rfl := Option.some.inj hr
    exact Or.inl ⟨hp, rfl⟩
  · obtain ⟨reg, hreg, rfl⟩ := Option.map_eq_some_iff.mp hr
    exact Or.inr ⟨hfull, reg, hreg, rfl⟩
  · obtain rfl := Option.some.inj hr
    exact Or.inl ⟨hp, rfl⟩

/-- An immediate message is taken, and the oldest one leaves a full queue. -/
theorem publishImmediate_cases {message : α} {r : PubSubState α CAP SUBS PUBS × List TaskRef}
    (h : s.publishImmediate message = some r) :
    s.queue.items.length ≠ CAP ∧ s.tryPublish message = some (.ok (), r) ∨
      s.queue.items.length = CAP ∧
        ({ s with queue := popFront s.queue } : PubSubState α CAP SUBS PUBS).tryPublish message =
          some (.ok (), r) := by
  obtain ⟨⟨e, p⟩, hp, hr⟩ := Option.bind_eq_some_iff.mp h
  cases e with
  | error m => exact absurd hr (by simp)
  | ok u =>
    obtain rfl := Option.some.inj hr
    by_cases hf : s.queue.isFull
    · rw [if_pos hf] at hp
      exact Or.inr ⟨Deque.isFull_iff.mp hf, hp⟩
    · rw [if_neg hf] at hp
      exact Or.inl ⟨fun hl => hf (Deque.isFull_iff.mpr hl), hp⟩

/-- **What a read does**: it moves a subscriber that lags to the oldest message, registers one that
is done, and gives the others their next message. -/
theorem getMessageWithContext_cases (hle : s.queue.items.length ≤ s.nextMessageId) {id : ℕ}
    {cx : Option TaskRef}
    {r : (Option (WaitResult α) × ℕ) × PubSubState α CAP SUBS PUBS × List TaskRef}
    (h : s.getMessageWithContext id cx = some r) :
    id < s.startId ∧ r = ((some (.lagged (s.startId - id)), s.startId), s, []) ∨
      ∃ j, id = s.startId + j ∧
        (s.queue.items.length ≤ j ∧ (∃ reg, s.subscriberWakers.registerCx cx = some reg ∧
            r = ((none, id), { s with subscriberWakers := reg.1 }, reg.2)) ∨
          ∃ m c, s.queue.items[j]? = some (m, c + 1) ∧ ∃ q : Deque (α × ℕ) CAP,
            (¬ (j = 0 ∧ c = 0) ∧ q.items = s.queue.items.set j (m, c) ∧
                r = ((some (.message m), id + 1), { s with queue := q }, []) ∨
              j = 0 ∧ c = 0 ∧ q.items = s.queue.items.tail ∧
                r = ((some (.message m), id + 1),
                  { s with queue := q, publisherWakers := .new },
                  s.publisherWakers.wakers.items))) := by
  obtain ⟨g, hg, hr⟩ := Option.bind_eq_some_iff.mp h
  rcases getMessage_cases hle hg with ⟨hlt, rfl⟩ | ⟨j, hj, ⟨hlen, rfl⟩ | ⟨m, c, hq, q, hcase⟩⟩
  · obtain ⟨n, hn, rfl⟩ := Option.map_eq_some_iff.mp hr
    obtain ⟨-, rfl⟩ := checkedAdd_eq_some.mp hn
    refine Or.inl ⟨hlt, ?_⟩
    rw [show id + (s.startId - id) = s.startId by omega]
  · obtain ⟨reg, hreg, rfl⟩ := Option.map_eq_some_iff.mp hr
    exact Or.inr ⟨j, hj, Or.inl ⟨hlen, reg, hreg, rfl⟩⟩
  · refine Or.inr ⟨j, hj, Or.inr ⟨m, c, hq, q, ?_⟩⟩
    rcases hcase with ⟨hc, hitems, rfl⟩ | ⟨h₀, hc, hitems, rfl⟩
    · obtain ⟨n, hn, rfl⟩ := Option.map_eq_some_iff.mp hr
      obtain ⟨-, rfl⟩ := checkedAdd_eq_some.mp hn
      exact Or.inl ⟨hc, hitems, rfl⟩
    · obtain ⟨n, hn, rfl⟩ := Option.map_eq_some_iff.mp hr
      obtain ⟨-, rfl⟩ := checkedAdd_eq_some.mp hn
      exact Or.inr ⟨h₀, hc, hitems, rfl⟩

end PubSubState

end PubSub

end AurixAsync
