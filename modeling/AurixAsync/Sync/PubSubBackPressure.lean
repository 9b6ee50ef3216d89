import AurixAsync.Lib.Run
import AurixAsync.Sync.PubSub

/-!
# Back-pressure of the PubSub channel

A channel with its live subscribers and the publish futures that wait: those whose last poll
returned pending and whose task was not woken since. Subscribers and publishers come and go, and
publish and read, in any order.

* `Channel`, `Action`, `step`: the channel and its users.
* `BackPressureExact`: the counters are right, and a publisher is refused or waits only while a
  live subscriber has the oldest message still to read.
* `DropsCaughtUp`: the drops of subscribers that keep it so.
* `backPressure_along_iff`: a run keeps `BackPressureExact` if and only if each of its drops is
  one of these.
-/

namespace AurixAsync

namespace PubSub

open Transition Readers

variable {α : Type} {CAP SUBS PUBS : ℕ}

/-- A channel, the `next_message_id` of each live subscriber, and for each publish future that
waits the task it was last polled by. -/
structure Channel (α : Type) (CAP SUBS PUBS : ℕ) where
  state : PubSubState α CAP SUBS PUBS
  subs : List ℕ
  publishing : ℕ → Option TaskRef

namespace Channel

/-- An empty channel. -/
def new : Channel α CAP SUBS PUBS := ⟨.new, [], fun _ => none⟩

/-- What the users of the channel do. -/
inductive Action (α : Type)
  | subscriber
  /-- The `i`-th live subscriber is dropped. -/
  | dropSubscriber (i : ℕ)
  | publisher
  | dropPublisher
  /-- A task polls the `PublisherWaitFuture` `f`. -/
  | pollPublish (f : ℕ) (task : TaskRef) (message : α)
  | dropPublish (f : ℕ)
  | tryPublish (message : α)
  | publishImmediate (message : α)
  /-- The `i`-th live subscriber reads: a task polls its future or stream, or `try_next_message`. -/
  | read (i : ℕ) (cx : Option TaskRef)
  /-- Something else wakes a task. -/
  | wake (task : TaskRef)
deriving DecidableEq

/-- The channel after an operation that woke these tasks. -/
def after (s : Channel α CAP SUBS PUBS) (state : PubSubState α CAP SUBS PUBS)
    (woken : List TaskRef) : Channel α CAP SUBS PUBS :=
  ⟨state, s.subs, Waiting.wake s.publishing woken⟩

/-- `poll` returns pending for an error. -/
def pends : Except α Unit → Bool
  | .error _ => true
  | .ok _ => false

/-- One action. `none` if it panics, or if there is no such subscriber. -/
def step (s : Channel α CAP SUBS PUBS) : Action α → Option (Channel α CAP SUBS PUBS)
  | .subscriber =>
    match s.state.subscriber with
    | .ok (id, state) => some { s with state := state, subs := s.subs ++ [id] }
    | .error _ => some s
  | .dropSubscriber i =>
    (s.subs[i]?).bind fun id =>
      (s.state.unregisterSubscriber id).map fun r =>
        { s.after r.1 r.2 with subs := s.subs.eraseIdx i }
  | .publisher =>
    match s.state.publisher with
    | .ok state => some { s with state := state }
    | .error _ => some s
  | .dropPublisher => s.state.unregisterPublisher.map fun state => { s with state := state }
  | .pollPublish f task message =>
    (s.state.publishWithContext message (some task)).map fun r =>
      let s' := s.after r.2.1 r.2.2
      { s' with publishing := Waiting.polled s'.publishing f task (pends r.1) }
  | .dropPublish f => some { s with publishing := Waiting.dropped s.publishing f }
  | .tryPublish message =>
    (s.state.publishWithContext message none).map fun r => s.after r.2.1 r.2.2
  | .publishImmediate message =>
    (s.state.publishImmediate message).map fun r => s.after r.1 r.2
  | .read i cx =>
    (s.subs[i]?).bind fun id =>
      (s.state.getMessageWithContext id cx).map fun r =>
        { s.after r.2.1 r.2.2 with subs := s.subs.set i r.1.2 }
  | .wake task => some (s.after s.state [task])

/-- Some live subscriber has the oldest message in the queue still to read. -/
def OldestUnread (s : Channel α CAP SUBS PUBS) : Prop :=
  s.state.queue.items ≠ [] ∧ ∃ id ∈ s.subs, id ≤ s.state.startId

/-- The counters are right and the first is not zero. `try_publish` is refused, and a publisher
waits, only while some live subscriber has the oldest message still to read. -/
structure BackPressureExact (s : Channel α CAP SUBS PUBS) : Prop where
  counters : ∀ j x, s.state.queue.items[j]? = some x →
    x.2 = s.subs.countP (· ≤ s.state.startId + j)
  front : ∀ x, s.state.queue.items.head? = some x → x.2 ≠ 0
  refused : ∀ message m r, s.state.tryPublish message = some (.error m, r) → s.OldestUnread
  waits : ∀ f t, s.publishing f = some t → s.state.queue.isFull ∧ s.OldestUnread

/-- The condition on the drop of a subscriber: the queue is empty, or the subscriber has not lagged
behind it. -/
def DropsCaughtUp (s : Channel α CAP SUBS PUBS) : Action α → Prop
  | .dropSubscriber i =>
    s.state.queue.items = [] ∨ ∀ id, s.subs[i]? = some id → s.state.startId ≤ id
  | _ => True

/-- The queue is a backlog of the live subscribers, and the waiting futures are registered. -/
structure ChannelInv (s : Channel α CAP SUBS PUBS) : Prop where
  count : s.state.subscriberCount = s.subs.length
  backlog : Backlog s.subs s.state.nextMessageId s.state.queue.items
  publishing : s.state.publisherWakers.Guards s.publishing (s.state.queue.items.length = CAP)

variable {s s' : Channel α CAP SUBS PUBS}

theorem channelInv_new : ChannelInv (new : Channel α CAP SUBS PUBS) where
  count := rfl
  backlog := backlog_nil
  publishing := MultiWakerRegistration.guards_of_forall_none fun _ => rfl

theorem ChannelInv.subs_ne_nil (hi : ChannelInv s) (h : s.state.subscriberCount ≠ 0) :
    s.subs ≠ [] := by
  intro hs
  rw [hi.count, hs] at h
  exact h rfl

theorem ChannelInv.items_eq_nil (hi : ChannelInv s) (h : s.state.subscriberCount = 0) :
    s.state.queue.items = [] := by
  by_contra hne
  obtain ⟨id, hid, -⟩ := hi.backlog.oldest hne
  rw [hi.count, List.length_eq_zero_iff] at h
  rw [h] at hid
  exact absurd hid List.not_mem_nil

theorem ChannelInv.oldestUnread (hi : ChannelInv s) (hCAP : 0 < CAP)
    (h : s.state.queue.items.length = CAP) : s.OldestUnread := by
  have hne : s.state.queue.items ≠ [] := by
    intro hq
    rw [hq, List.length_nil] at h
    omega
  exact ⟨hne, hi.backlog.oldest hne⟩

theorem ChannelInv.backPressureExact (hi : ChannelInv s) (hCAP : 0 < CAP) :
    BackPressureExact s where
  counters := hi.backlog.counted
  front := by
    intro x hx
    have hne : s.state.queue.items ≠ [] := by
      intro hq
      rw [hq] at hx
      simp at hx
    exact hi.backlog.counted.head_ne_zero (hi.backlog.oldest hne) hx
  refused := by
    intro message m r h
    rcases PubSubState.tryPublish_cases h with ⟨-, hr⟩ | ⟨-, hfull, -⟩ | ⟨-, -, q, -, hr⟩
    · simp at hr
    · exact hi.oldestUnread hCAP hfull
    · simp at hr
  waits := by
    intro f t hf
    have hfull := hi.publishing.waits f t hf
    exact ⟨Deque.isFull_iff.mpr hfull, hi.oldestUnread hCAP hfull⟩

/-! ### The steps -/

theorem ChannelInv.subscriber (hi : ChannelInv s) (h : s.step .subscriber = some s') :
    ChannelInv s' := by
  unfold step PubSubState.subscriber at h
  by_cases hfull : SUBS ≤ s.state.subscriberCount
  · rw [if_pos hfull] at h
    obtain rfl := Option.some.inj h
    exact hi
  · rw [if_neg hfull] at h
    obtain rfl := Option.some.inj h
    refine ⟨?_, hi.backlog.join, hi.publishing⟩
    show s.state.subscriberCount + 1 = (s.subs ++ [s.state.nextMessageId]).length
    rw [List.length_append, List.length_singleton, hi.count]

theorem ChannelInv.published (hi : ChannelInv s) (hCAP : 0 < CAP) {message : α}
    {p : PubSubState α CAP SUBS PUBS × List TaskRef}
    (h : s.state.tryPublish message = some (.ok (), p)) :
    ChannelInv (s.after p.1 p.2) ∧ ∀ f, (s.after p.1 p.2).publishing f = none := by
  rcases PubSubState.tryPublish_cases h with ⟨hz, hr⟩ | ⟨-, -, hr⟩ | ⟨hz, hlt, q, hq, hr⟩
  · obtain rfl := (Prod.mk.inj hr).2
    have hitems := hi.items_eq_nil hz
    have hnot : s.state.queue.items.length ≠ CAP := by
      rw [hitems, List.length_nil]
      omega
    exact ⟨⟨hi.count, hi.backlog, hi.publishing.idle hnot⟩,
      Waiting.wake_eq_none (hi.publishing.eq_none hnot)⟩
  · simp at hr
  · obtain rfl := (Prod.mk.inj hr).2
    have hnot : s.state.queue.items.length ≠ CAP := Nat.ne_of_lt hlt
    refine ⟨⟨hi.count, ?_, hi.publishing.idle hnot⟩,
      Waiting.wake_eq_none (hi.publishing.eq_none hnot)⟩
    show Backlog s.subs (s.state.nextMessageId + 1) q.items
    rw [hq, hi.count]
    exact hi.backlog.push (hi.subs_ne_nil hz) message

theorem ChannelInv.pollPublish (hi : ChannelInv s) (hCAP : 0 < CAP) {f : ℕ} {task : TaskRef}
    {message : α} (h : s.step (.pollPublish f task message) = some s') : ChannelInv s' := by
  obtain ⟨⟨e, p⟩, hp, rfl⟩ := Option.map_eq_some_iff.mp h
  rcases PubSubState.publishWithContext_cases hp with ⟨hok, he⟩ | ⟨hfull, reg, hreg, hr⟩
  · obtain rfl : e = .ok () := he
    obtain ⟨hi', hnone⟩ := hi.published hCAP hok
    exact ⟨hi'.count, hi'.backlog,
      MultiWakerRegistration.guards_of_forall_none (Waiting.polled_false_eq_none hnone)⟩
  · obtain ⟨rfl, rfl⟩ := Prod.mk.inj hr
    refine ⟨hi.count, hi.backlog, ?_⟩
    exact hi.publishing.register hfull hreg

theorem ChannelInv.tryPublish (hi : ChannelInv s) (hCAP : 0 < CAP) {message : α}
    (h : s.step (.tryPublish message) = some s') : ChannelInv s' := by
  obtain ⟨⟨e, p⟩, hp, rfl⟩ := Option.map_eq_some_iff.mp h
  rcases PubSubState.publishWithContext_cases hp with ⟨hok, he⟩ | ⟨hfull, reg, hreg, hr⟩
  · exact (hi.published hCAP hok).1
  · obtain ⟨rfl, rfl⟩ := Prod.mk.inj hr
    obtain rfl := Option.some.inj hreg
    exact ⟨hi.count, hi.backlog, hi.publishing.mono id⟩

theorem ChannelInv.publishImmediate (hi : ChannelInv s) (hCAP : 0 < CAP) {message : α}
    (h : s.step (.publishImmediate message) = some s') : ChannelInv s' := by
  obtain ⟨p, hp, rfl⟩ := Option.map_eq_some_iff.mp h
  rcases PubSubState.publishImmediate_cases hp with ⟨-, hok⟩ | ⟨hfull, hok⟩
  · exact (hi.published hCAP hok).1
  · have hitems := PubSubState.items_popFront s.state.queue
    rcases PubSubState.tryPublish_cases hok with ⟨hz, -⟩ | ⟨-, -, hr⟩ | ⟨hz, -, q, hq, hr⟩
    · have hnil := hi.items_eq_nil hz
      rw [hnil, List.length_nil] at hfull
      omega
    · simp at hr
    · obtain rfl := (Prod.mk.inj hr).2
      change q.items = (PubSubState.popFront s.state.queue).items ++ [(message, _)] at hq
      rw [hitems] at hq
      refine ⟨hi.count, ?_, hi.publishing.mono fun _ => ?_⟩
      · show Backlog s.subs (s.state.nextMessageId + 1) q.items
        rw [hq]
        change Backlog s.subs _ (_ ++ [(message, s.state.subscriberCount)])
        rw [hi.count]
        exact hi.backlog.tail.push (hi.subs_ne_nil hz) message
      · show q.items.length = CAP
        rw [hq, List.length_append, List.length_singleton, List.length_tail]
        omega

theorem ChannelInv.read (hi : ChannelInv s) {i : ℕ} {cx : Option TaskRef}
    (h : s.step (.read i cx) = some s') : ChannelInv s' := by
  obtain ⟨id, hid, hr⟩ := Option.bind_eq_some_iff.mp h
  obtain ⟨r, hg, rfl⟩ := Option.map_eq_some_iff.mp hr
  have hcount : ∀ n, s.state.subscriberCount = (s.subs.set i n).length := by
    intro n
    rw [List.length_set, hi.count]
  rcases PubSubState.getMessageWithContext_cases hi.backlog.length_le hg with
    ⟨hlt, rfl⟩ | ⟨j, rfl, ⟨hlen, reg, hreg, rfl⟩ | ⟨m, c, hx, q, hcase⟩⟩
  · exact ⟨hcount _, hi.backlog.skip hid (Nat.le_of_lt hlt), hi.publishing.mono fun h => h⟩
  · refine ⟨hcount _, ?_, hi.publishing.mono fun h => h⟩
    show Backlog (s.subs.set i (s.state.startId + j)) s.state.nextMessageId s.state.queue.items
    rw [set_self hid]
    exact hi.backlog
  · rcases hcase with ⟨hc, hq, rfl⟩ | ⟨rfl, rfl, hq, rfl⟩
    · refine ⟨hcount _, ?_, hi.publishing.mono fun hfull => ?_⟩
      · show Backlog (s.subs.set i (s.state.startId + j + 1)) s.state.nextMessageId q.items
        rw [hq]
        exact hi.backlog.read hid hx hc
      · show q.items.length = CAP
        rw [hq, List.length_set, hfull]
    · refine ⟨hcount _, ?_, hi.publishing.wake⟩
      show Backlog (s.subs.set i (s.state.startId + 1)) s.state.nextMessageId q.items
      rw [hq]
      exact hi.backlog.readLast hid hx

/-- A subscriber that has not lagged takes its share of the counters with it. -/
theorem ChannelInv.dropSubscriber (hi : ChannelInv s) {i : ℕ}
    (h : s.step (.dropSubscriber i) = some s') (hc : DropsCaughtUp s (.dropSubscriber i)) :
    ChannelInv s' := by
  obtain ⟨id, hid, hr⟩ := Option.bind_eq_some_iff.mp h
  obtain ⟨r, hu, rfl⟩ := Option.map_eq_some_iff.mp hr
  obtain ⟨hpos, hcases⟩ := PubSubState.unregisterSubscriber_cases hi.backlog.length_le hu
  have hcount : s.state.subscriberCount - 1 = (s.subs.eraseIdx i).length := by
    rw [List.length_eraseIdx_of_lt (List.getElem?_eq_some_iff.mp hid).1, hi.count]
  rcases hcases with ⟨hlt, rfl⟩ | ⟨j, rfl, q, hq, ⟨hlen, rfl⟩ | rfl⟩
  · have hnil : s.state.queue.items = [] := by
      rcases hc with hnil | hc
      · exact hnil
      · exact absurd (hc id hid) (Nat.not_le_of_lt hlt)
    exact ⟨hcount, hi.backlog.leaveEmpty hnil, hi.publishing.mono fun h => h⟩
  · refine ⟨hcount, ?_, hi.publishing.mono fun hfull => ?_⟩
    · show Backlog (s.subs.eraseIdx i) s.state.nextMessageId q.items
      rw [hq]
      exact hi.backlog.leave hid
    · show q.items.length = CAP
      rw [hlen, hfull]
  · refine ⟨hcount, ?_, hi.publishing.wake⟩
    show Backlog (s.subs.eraseIdx i) s.state.nextMessageId q.items
    rw [hq]
    exact hi.backlog.leave hid

theorem ChannelInv.step (hi : ChannelInv s) (hCAP : 0 < CAP) {a : Action α}
    (h : s.step a = some s') (hc : DropsCaughtUp s a) : ChannelInv s' := by
  cases a with
  | subscriber => exact hi.subscriber h
  | dropSubscriber i => exact hi.dropSubscriber h hc
  | publisher =>
    unfold Channel.step PubSubState.publisher at h
    by_cases hfull : PUBS ≤ s.state.publisherCount
    · rw [if_pos hfull] at h
      obtain rfl := Option.some.inj h
      exact hi
    · rw [if_neg hfull] at h
      obtain rfl := Option.some.inj h
      exact ⟨hi.count, hi.backlog, hi.publishing⟩
  | dropPublisher =>
    obtain ⟨state, hs, rfl⟩ := Option.map_eq_some_iff.mp h
    obtain ⟨count, -, rfl⟩ := Option.map_eq_some_iff.mp hs
    exact ⟨hi.count, hi.backlog, hi.publishing⟩
  | pollPublish f task message => exact hi.pollPublish hCAP h
  | dropPublish f =>
    obtain rfl := Option.some.inj h
    exact ⟨hi.count, hi.backlog, hi.publishing.dropped⟩
  | tryPublish message => exact hi.tryPublish hCAP h
  | publishImmediate message => exact hi.publishImmediate hCAP h
  | read i cx => exact hi.read h
  | wake task =>
    obtain rfl := Option.some.inj h
    exact ⟨hi.count, hi.backlog, hi.publishing.mono fun h => h⟩

/-- After the drop of a subscriber that lags behind the queue no counter is right. -/
theorem dropsCaughtUp_of_exact (hi : ChannelInv s) {a : Action α} (h : s.step a = some s')
    (hg : BackPressureExact s') : DropsCaughtUp s a := by
  cases a with
  | dropSubscriber i =>
    by_cases hnil : s.state.queue.items = []
    · exact Or.inl hnil
    · refine Or.inr fun id hid => ?_
      by_contra hlt
      obtain ⟨id', hid', hr⟩ := Option.bind_eq_some_iff.mp h
      obtain rfl : id = id' := Option.some.inj (hid.symm.trans hid')
      obtain ⟨r, hu, rfl⟩ := Option.map_eq_some_iff.mp hr
      obtain ⟨-, hcases⟩ := PubSubState.unregisterSubscriber_cases hi.backlog.length_le hu
      rcases hcases with ⟨hlt', rfl⟩ | ⟨j, rfl, -⟩
      · exact hi.backlog.counted.not_leave_behind hid hlt' hnil hg.counters
      · omega
  | _ => trivial

/-- **Back-pressure is exact exactly when no subscriber is dropped that lags behind the queue.** In
every run, for every `CAP`, `SUBS` and `PUBS`: `BackPressureExact` holds in every state if and only
if every subscriber dropped has not lagged behind a queue with messages. -/
theorem backPressure_along_iff (hCAP : 0 < CAP) (tr : List (Channel α CAP SUBS PUBS × Action α))
    (s : Channel α CAP SUBS PUBS) (hr : Run step new tr s) :
    Along BackPressureExact tr s ↔ AllSteps DropsCaughtUp tr := by
  refine Run.exact (I := ChannelInv) (B := fun _ => True) channelInv_new
    (fun _ h => h.backPressureExact hCAP) (fun _ _ _ _ h => h) ?_ ?_ hr trivial
  · exact fun s a s' hi _ h hc => hi.step hCAP h hc
  · exact fun s a s' hi _ h hg => dropsCaughtUp_of_exact hi h hg

/-- A queue of one message and two subscribers. The second message replaces the first; one
subscriber is dropped with both unread, and the other reads what is left. Then a publisher polls. -/
def staleRun : List (Action ℕ) :=
  [.subscriber, .subscriber, .publisher, .publishImmediate 10, .publishImmediate 11,
    .dropSubscriber 0, .read 0 none, .read 0 none, .pollPublish 0 7 12]

/-- After `staleRun` the publisher waits, and no subscriber has anything to read. -/
theorem not_backPressureExact_staleRun :
    ∃ s : Channel ℕ 1 2 1, runList step new staleRun = some s ∧ ¬ BackPressureExact s := by
  obtain ⟨s, hs, hv⟩ := exists_of_map_runList
    (f := fun s => (s.publishing 0, s.subs, s.state.startId))
    (s := (new : Channel ℕ 1 2 1)) (l := staleRun) (b := (some 7, [2], 1)) (r := step) (by decide)
  simp only [Prod.mk.injEq] at hv
  obtain ⟨hp, hsubs, hstart⟩ := hv
  refine ⟨s, hs, fun hg => ?_⟩
  obtain ⟨-, -, id, hid, hle⟩ := hg.waits 0 7 hp
  rw [hsubs, List.mem_singleton] at hid
  omega

/-- The condition on `staleRun`. -/
theorem backPressure_along_iff_staleRun :
    ∃ (tr : List (Channel ℕ 1 2 1 × Action ℕ)) (s : Channel ℕ 1 2 1), Run step new tr s ∧
      tr.map Prod.snd = staleRun ∧
        (Along BackPressureExact tr s ↔ AllSteps DropsCaughtUp tr) := by
  obtain ⟨s, hs, -⟩ := exists_of_map_runList (f := fun s => s.subs)
    (s := (new : Channel ℕ 1 2 1)) (l := staleRun) (b := [2]) (r := step) (by decide)
  obtain ⟨tr, hr, ha⟩ := exists_run_of_runList hs
  exact ⟨tr, s, hr, ha, backPressure_along_iff Nat.one_pos tr s hr⟩

end Channel

end PubSub

end AurixAsync
