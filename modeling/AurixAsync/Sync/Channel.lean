import AurixAsync.Lib.Deque
import AurixAsync.Lib.Run
import AurixAsync.Sync.WakerRegistration

/-!
# The channel

A bounded queue of messages with a place each for the waker of a receiver and of a sender, and the
futures that use it. Every operation is one critical section. It returns what the caller gets, the
state, and the tasks woken, in order.

* `ChannelState`, `tryReceiveWithContext`, `pollReceive`, `pollReadyToReceive`,
  `trySendWithContext`, `pollReadyToSend`: the code.
* `tryReceive_cases`, `trySend_cases`: what a receive and a send do.
* `Channelled`, `Action`, `step`: the channel with the futures that wait, the messages of its
  `SendFuture`s, and the messages accepted and received so far.
* `Delivers`: the messages received are the first of the messages accepted, a refused send changes
  nothing, and a sender waits only while the queue is full, a receiver only while it is empty.
* `delivers_of_reachable`: this holds in every reachable state.
-/

namespace AurixAsync

namespace Channel

open Transition

/-- The channel is empty. -/
inductive TryReceiveError
  | empty
deriving DecidableEq, Repr

/-- The channel is full, and the message is handed back. -/
inductive TrySendError (α : Type)
  | full (message : α)
deriving DecidableEq, Repr

/-- The messages, the waker of the receiver and the waker of the senders. -/
structure ChannelState (α : Type) (N : ℕ) where
  queue : Deque α N
  receiverWaker : WakerRegistration
  sendersWaker : WakerRegistration

namespace ChannelState

variable {α : Type} {N : ℕ}

/-- An empty channel. -/
def new : ChannelState α N := ⟨.new, .new, .new⟩

/-- `try_receive_with_context`, with the tasks it wakes. -/
def tryReceiveWithContext (s : ChannelState α N) (cx : Option TaskRef) :
    Except TryReceiveError α × ChannelState α N × List TaskRef :=
  let w := s.sendersWaker.wakeIf s.queue.isFull
  match s.queue.popFront with
  | some (message, queue) => (.ok message, { s with queue := queue, sendersWaker := w.1 }, w.2)
  | none =>
    let r := s.receiverWaker.registerCx cx
    (.error .empty, { s with sendersWaker := w.1, receiverWaker := r.1 }, w.2 ++ r.2)

/-- `poll_receive`, `none` for pending. -/
def pollReceive (s : ChannelState α N) (task : TaskRef) :
    Option α × ChannelState α N × List TaskRef :=
  let w := s.sendersWaker.wakeIf s.queue.isFull
  match s.queue.popFront with
  | some (message, queue) => (some message, { s with queue := queue, sendersWaker := w.1 }, w.2)
  | none =>
    let r := s.receiverWaker.register task
    (none, { s with sendersWaker := w.1, receiverWaker := r.1 }, w.2 ++ r.2)

/-- `poll_ready_to_receive`: whether it is ready. It registers in any case. -/
def pollReadyToReceive (s : ChannelState α N) (task : TaskRef) :
    Bool × ChannelState α N × List TaskRef :=
  let r := s.receiverWaker.register task
  (!s.queue.items.isEmpty, { s with receiverWaker := r.1 }, r.2)

/-- `try_send_with_context`, with the tasks it wakes. -/
def trySendWithContext (s : ChannelState α N) (message : α) (cx : Option TaskRef) :
    Except (TrySendError α) Unit × ChannelState α N × List TaskRef :=
  match s.queue.pushBack message with
  | some queue =>
    let w := s.receiverWaker.wake
    (.ok (), { s with queue := queue, receiverWaker := w.1 }, w.2)
  | none =>
    let r := s.sendersWaker.registerCx cx
    (.error (.full message), { s with sendersWaker := r.1 }, r.2)

/-- `poll_ready_to_send`: whether it is ready. It registers in any case. -/
def pollReadyToSend (s : ChannelState α N) (task : TaskRef) :
    Bool × ChannelState α N × List TaskRef :=
  let r := s.sendersWaker.register task
  (!s.queue.isFull, { s with sendersWaker := r.1 }, r.2)

variable {s : ChannelState α N} {cx : Option TaskRef} {task : TaskRef} {message : α}

/-! ### What the operations do -/

/-- **What a receive does**: it takes the oldest message, or registers on an empty queue. The
senders are woken if the queue was full. -/
theorem tryReceive_cases (s : ChannelState α N) (cx : Option TaskRef) :
    (∃ message queue, s.queue.items = message :: queue.items ∧ s.tryReceiveWithContext cx =
        (.ok message,
          { s with queue := queue, sendersWaker := (s.sendersWaker.wakeIf s.queue.isFull).1 },
          (s.sendersWaker.wakeIf s.queue.isFull).2)) ∨
      s.queue.items = [] ∧ s.tryReceiveWithContext cx =
        (.error .empty,
          { s with
            sendersWaker := (s.sendersWaker.wakeIf s.queue.isFull).1
            receiverWaker := (s.receiverWaker.registerCx cx).1 },
          (s.sendersWaker.wakeIf s.queue.isFull).2 ++ (s.receiverWaker.registerCx cx).2) := by
  unfold tryReceiveWithContext
  cases h : s.queue.popFront with
  | none => exact Or.inr ⟨Deque.popFront_eq_none.mp h, rfl⟩
  | some r => exact Or.inl ⟨r.1, r.2, Deque.popFront_eq_some.mp h, rfl⟩

theorem pollReceive_eq (s : ChannelState α N) (task : TaskRef) : s.pollReceive task =
    ((s.tryReceiveWithContext (some task)).1.toOption,
      (s.tryReceiveWithContext (some task)).2) := by
  unfold pollReceive tryReceiveWithContext
  cases s.queue.popFront <;> rfl

/-- **What a send does**: it appends the message and wakes the receiver, or registers on a full
queue and hands the message back. -/
theorem trySend_cases (s : ChannelState α N) (message : α) (cx : Option TaskRef) :
    (∃ queue, s.queue.items.length < N ∧ queue.items = s.queue.items ++ [message] ∧
        s.trySendWithContext message cx =
          (.ok (), { s with queue := queue, receiverWaker := s.receiverWaker.wake.1 },
            s.receiverWaker.wake.2)) ∨
      s.queue.items.length = N ∧ s.trySendWithContext message cx =
        (.error (.full message), { s with sendersWaker := (s.sendersWaker.registerCx cx).1 },
          (s.sendersWaker.registerCx cx).2) := by
  unfold trySendWithContext
  cases h : s.queue.pushBack message with
  | none => exact Or.inr ⟨Deque.pushBack_eq_none.mp h, rfl⟩
  | some queue =>
    obtain ⟨hlt, hitems⟩ := Deque.pushBack_eq_some.mp h
    exact Or.inl ⟨queue, hlt, hitems, rfl⟩

end ChannelState

/-! ### The channel with its users -/

/-- A channel; for each future that waits to send or to be ready to send, and to receive or to be
ready to receive, the task it was last polled by; and the `message` of each `SendFuture`. The rest
belongs to no code: the message that each `SendFuture` was made with, until it completes or is
dropped, and the messages accepted and received. -/
structure Channelled (α : Type) (N : ℕ) where
  state : ChannelState α N
  senders : ℕ → Option TaskRef
  receivers : ℕ → Option TaskRef
  message : ℕ → Option α
  sending : ℕ → Option α
  accepted : List α
  received : List α

namespace Channelled

variable {α : Type} {N : ℕ}

/-- Nobody uses the channel. -/
def new : Channelled α N :=
  ⟨.new, fun _ => none, fun _ => none, fun _ => none, fun _ => none, [], []⟩

/-- What the users of the channel do. -/
inductive Action (α : Type)
  /-- `send(message)` makes the `SendFuture` `f`. -/
  | send (f : ℕ) (message : α)
  /-- A task polls the `SendFuture` `f`. -/
  | pollSend (f : ℕ) (task : TaskRef)
  | trySend (message : α)
  /-- A task polls `poll_ready_to_send` in the future `f`. -/
  | pollReadyToSend (f : ℕ) (task : TaskRef)
  /-- A future of a sender is dropped. -/
  | dropSend (f : ℕ)
  /-- A task polls the `ReceiveFuture` `f`. -/
  | pollReceive (f : ℕ) (task : TaskRef)
  /-- A task polls the `DynamicReceiveFuture` `f`. -/
  | pollReceiveDyn (f : ℕ) (task : TaskRef)
  | tryReceive
  | pollReadyToReceive (f : ℕ) (task : TaskRef)
  /-- A future of a receiver is dropped. -/
  | dropReceive (f : ℕ)
  /-- Something else wakes a task. -/
  | wake (task : TaskRef)
deriving DecidableEq

/-- The channel after an operation that woke these tasks. -/
def after (s : Channelled α N) (r : ChannelState α N × List TaskRef) : Channelled α N :=
  { s with
    state := r.1
    senders := Waiting.wake s.senders r.2
    receivers := Waiting.wake s.receivers r.2 }

/-- A send of this message was accepted or refused. -/
def logSend (s : Channelled α N) (message : α) : Except (TrySendError α) Unit → Channelled α N
  | .ok () => { s with accepted := s.accepted ++ [message] }
  | .error _ => s

/-- A receive returned this. -/
def logReceive (s : Channelled α N) (res : Option α) : Channelled α N :=
  { s with received := s.received ++ res.toList }

/-- `SendFuture::poll` with the message taken out of the future, and put back when it is refused. -/
def pollSend (s : Channelled α N) (f : ℕ) (task : TaskRef) (m : α) : Channelled α N :=
  let r := s.state.trySendWithContext m (some task)
  let s' := (s.after r.2).logSend m r.1
  match r.1 with
  | .ok () =>
    { s' with
      senders := Waiting.polled s'.senders f task false
      message := Function.update s.message f none
      sending := Function.update s.sending f none }
  | .error (.full m') =>
    { s' with
      senders := Waiting.polled s'.senders f task true
      message := Function.update s.message f (some m') }

/-- One action. `none` if it panics, or if the future is in use. -/
def step (s : Channelled α N) : Action α → Option (Channelled α N)
  | .send f m =>
    if s.sending f = none ∧ s.senders f = none then
      some { s with
        message := Function.update s.message f (some m)
        sending := Function.update s.sending f (some m) }
    else none
  -- without a message the poll panics
  | .pollSend f task => (s.message f).map fun m => s.pollSend f task m
  | .trySend m =>
    let r := s.state.trySendWithContext m none
    some ((s.after r.2).logSend m r.1)
  | .pollReadyToSend f task =>
    let r := s.state.pollReadyToSend task
    let s' := s.after r.2
    some { s' with senders := Waiting.polled s'.senders f task (!r.1) }
  | .dropSend f =>
    some { s with
      senders := Waiting.dropped s.senders f
      message := Function.update s.message f none
      sending := Function.update s.sending f none }
  | .pollReceive f task =>
    let r := s.state.pollReceive task
    let s' := (s.after r.2).logReceive r.1
    some { s' with receivers := Waiting.polled s'.receivers f task r.1.isNone }
  | .pollReceiveDyn f task =>
    let r := s.state.tryReceiveWithContext (some task)
    let s' := (s.after r.2).logReceive r.1.toOption
    some { s' with receivers := Waiting.polled s'.receivers f task r.1.toOption.isNone }
  | .tryReceive =>
    let r := s.state.tryReceiveWithContext none
    some ((s.after r.2).logReceive r.1.toOption)
  | .pollReadyToReceive f task =>
    let r := s.state.pollReadyToReceive task
    let s' := s.after r.2
    some { s' with receivers := Waiting.polled s'.receivers f task (!r.1) }
  | .dropReceive f => some { s with receivers := Waiting.dropped s.receivers f }
  | .wake task => some (s.after (s.state, [task]))

/-- The messages received are the first of the messages accepted, in order, and the others are in
the queue. A refused send hands its message back and changes no message, and a `SendFuture` keeps
its own until it completes or is dropped. A sender waits only while the queue is full, and a
receiver only while it is empty. -/
structure Delivers (s : Channelled α N) : Prop where
  inOrder : s.received <+: s.accepted
  inQueue : s.state.queue.items = s.accepted.drop s.received.length
  refused : ∀ m cx e r, s.state.trySendWithContext m cx = (.error e, r) →
    e = .full m ∧ r.1.queue = s.state.queue
  keeps : ∀ f m, s.sending f = some m → s.message f = some m
  senders : ∀ f t, s.senders f = some t → s.state.queue.isFull = true
  receivers : ∀ f t, s.receivers f = some t → s.state.queue.items = []

/-- The messages are where they belong, and the waiting futures are registered. -/
structure ChannelInv (s : Channelled α N) : Prop where
  fifo : s.accepted = s.received ++ s.state.queue.items
  message : s.message = s.sending
  senders : s.state.sendersWaker.Guards s.senders (s.state.queue.isFull = true)
  receivers : s.state.receiverWaker.Guards s.receivers (s.state.queue.items = [])

variable {s s' : Channelled α N}

theorem channelInv_new : ChannelInv (new : Channelled α N) where
  fifo := rfl
  message := rfl
  senders := WakerRegistration.guards_of_forall_none fun _ => rfl
  receivers := WakerRegistration.guards_of_forall_none fun _ => rfl

theorem ChannelInv.delivers (hi : ChannelInv s) : Delivers s where
  inOrder := by
    rw [hi.fifo]
    exact List.prefix_append _ _
  inQueue := by
    rw [hi.fifo, List.drop_left]
  refused := by
    intro m cx e r h
    rcases ChannelState.trySend_cases s.state m cx with ⟨q, -, -, hr⟩ | ⟨-, hr⟩
    · rw [hr] at h
      exact absurd (Prod.mk.inj h).1 (by simp)
    · rw [hr] at h
      obtain ⟨he, rfl⟩ := Prod.mk.inj h
      exact ⟨(Except.error.inj he).symm, rfl⟩
  keeps := by
    intro f m h
    rw [hi.message]
    exact h
  senders := hi.senders.waits
  receivers := hi.receivers.waits

/-! ### Sends -/

/-- A message that is accepted goes to the end of the queue; no sender waits then, and the receiver
that waits is woken. -/
theorem ChannelInv.accept (hi : ChannelInv s) {m : α} {queue : Deque α N}
    (hlt : s.state.queue.items.length < N) (hq : queue.items = s.state.queue.items ++ [m]) :
    ChannelInv ((s.after ({ s.state with
        queue := queue, receiverWaker := s.state.receiverWaker.wake.1 },
      s.state.receiverWaker.wake.2)).logSend m (.ok ())) ∧
      ∀ f, Waiting.wake s.senders s.state.receiverWaker.wake.2 f = none := by
  have hnot : ¬ s.state.queue.isFull = true := by
    rw [Deque.isFull_iff]
    omega
  refine ⟨⟨?_, hi.message, hi.senders.idle hnot, hi.receivers.wake⟩,
    Waiting.wake_eq_none (hi.senders.eq_none hnot)⟩
  show s.accepted ++ [m] = s.received ++ queue.items
  rw [hq, hi.fifo, List.append_assoc]

theorem ChannelInv.trySend (hi : ChannelInv s) {m : α} (h : s.step (.trySend m) = some s') :
    ChannelInv s' := by
  obtain rfl := Option.some.inj h
  rcases ChannelState.trySend_cases s.state m none with ⟨q, hlt, hq, hr⟩ | ⟨-, hr⟩
  · rw [hr]
    exact (hi.accept hlt hq).1
  · rw [hr]
    exact ⟨hi.fifo, hi.message, hi.senders.mono id, hi.receivers.mono id⟩

theorem ChannelInv.pollSend (hi : ChannelInv s) {f : ℕ} {task : TaskRef}
    (h : s.step (.pollSend f task) = some s') : ChannelInv s' := by
  obtain ⟨m, hm, rfl⟩ := Option.map_eq_some_iff.mp h
  unfold Channelled.pollSend
  rcases ChannelState.trySend_cases s.state m (some task) with ⟨q, hlt, hq, hr⟩ | ⟨hfull, hr⟩
  · obtain ⟨hi', hnone⟩ := hi.accept hlt hq
    rw [hr]
    refine ⟨hi'.fifo, ?_, ?_, hi'.receivers⟩
    · show Function.update s.message f none = Function.update s.sending f none
      rw [hi.message]
    · apply WakerRegistration.guards_of_forall_none
      exact Waiting.polled_false_eq_none hnone
  · rw [hr]
    refine ⟨hi.fifo, ?_, ?_, ?_⟩
    · show Function.update s.message f (some m) = s.sending
      rw [← hm, Function.update_eq_self, hi.message]
    · exact hi.senders.register (Deque.isFull_iff.mpr hfull)
    · exact hi.receivers.mono id

theorem ChannelInv.pollReadyToSend (hi : ChannelInv s) {f : ℕ} {task : TaskRef}
    (h : s.step (.pollReadyToSend f task) = some s') : ChannelInv s' := by
  obtain rfl := Option.some.inj h
  refine ⟨hi.fifo, hi.message, ?_, hi.receivers.mono id⟩
  show (s.state.sendersWaker.register task).1.Guards
    (Waiting.polled (Waiting.wake s.senders (s.state.sendersWaker.register task).2) f task
      (!!s.state.queue.isFull)) _
  rw [Bool.not_not]
  cases hf : s.state.queue.isFull with
  | true => exact hi.senders.register hf
  | false =>
    apply WakerRegistration.guards_of_forall_none
    apply Waiting.polled_false_eq_none
    apply Waiting.wake_eq_none
    exact hi.senders.eq_none (by rw [hf]; exact Bool.false_ne_true)

/-! ### Receives -/

/-- The oldest message is received. The senders wait for a queue that is not full, and are woken
if it was. -/
theorem ChannelInv.take (hi : ChannelInv s) {m : α} {queue : Deque α N}
    (hq : s.state.queue.items = m :: queue.items) :
    ChannelInv ((s.after ({ s.state with
        queue := queue,
        sendersWaker := (s.state.sendersWaker.wakeIf s.state.queue.isFull).1 },
      (s.state.sendersWaker.wakeIf s.state.queue.isFull).2)).logReceive (some m)) ∧
      ∀ ts f, Waiting.wake s.receivers ts f = none := by
  have hnot : ¬ s.state.queue.items = [] := by
    rw [hq]
    exact List.cons_ne_nil _ _
  refine ⟨⟨?_, hi.message, ?_, hi.receivers.idle hnot⟩,
    fun ts => Waiting.wake_eq_none (hi.receivers.eq_none hnot)⟩
  · show s.accepted = s.received ++ [m] ++ queue.items
    rw [hi.fifo, hq, List.append_assoc]
    rfl
  · have hw := hi.senders.wakeIf (Q := queue.isFull = true)
    rw [Bool.decide_eq_true] at hw
    exact hw

theorem ChannelInv.starved (hi : ChannelInv s) (ts : List TaskRef) :
    (s.state.sendersWaker.wakeIf s.state.queue.isFull).1.Guards
      (Waiting.wake s.senders ((s.state.sendersWaker.wakeIf s.state.queue.isFull).2 ++ ts))
      (s.state.queue.isFull = true) := by
  cases hf : s.state.queue.isFull with
  | true =>
    apply hi.senders.wakeAll
    exact fun t ht => List.mem_append_left _ (WakerRegistration.mem_woken_wake.mpr ht)
  | false => exact hi.senders.idle (by rw [hf]; exact Bool.false_ne_true)

theorem ChannelInv.tryReceive (hi : ChannelInv s) (h : s.step .tryReceive = some s') :
    ChannelInv s' := by
  obtain rfl := Option.some.inj h
  rcases ChannelState.tryReceive_cases s.state none with ⟨m, q, hq, hr⟩ | ⟨he, hr⟩
  · rw [hr]
    exact (hi.take hq).1
  · rw [hr]
    refine ⟨?_, hi.message, hi.starved [], hi.receivers.mono id⟩
    show s.accepted = s.received ++ [] ++ s.state.queue.items
    rw [List.append_nil]
    exact hi.fifo

theorem ChannelInv.pollReceiveDyn (hi : ChannelInv s) {f : ℕ} {task : TaskRef}
    (h : s.step (.pollReceiveDyn f task) = some s') : ChannelInv s' := by
  obtain rfl := Option.some.inj h
  rcases ChannelState.tryReceive_cases s.state (some task) with ⟨m, q, hq, hr⟩ | ⟨he, hr⟩
  · obtain ⟨hi', hnone⟩ := hi.take hq
    rw [hr]
    refine ⟨hi'.fifo, hi'.message, hi'.senders, ?_⟩
    apply WakerRegistration.guards_of_forall_none
    exact Waiting.polled_false_eq_none (hnone _)
  · rw [hr]
    refine ⟨?_, hi.message, hi.starved _, ?_⟩
    · show s.accepted = s.received ++ [] ++ s.state.queue.items
      rw [List.append_nil]
      exact hi.fifo
    · apply Waiting.Guarded.register hi.receivers _ WakerRegistration.waker_register he
      intro u hu hnot
      show (s.state.receiverWaker.register task).1.waker = some u
      rw [WakerRegistration.waker_register]
      by_contra hne
      apply hnot
      apply List.mem_append_right
      exact WakerRegistration.mem_woken_register.mpr ⟨hu, fun e => hne (e ▸ rfl)⟩

theorem step_pollReceive (s : Channelled α N) (f : ℕ) (task : TaskRef) :
    s.step (.pollReceive f task) = s.step (.pollReceiveDyn f task) := by
  show some _ = some _
  rw [ChannelState.pollReceive_eq]

theorem ChannelInv.pollReadyToReceive (hi : ChannelInv s) {f : ℕ} {task : TaskRef}
    (h : s.step (.pollReadyToReceive f task) = some s') : ChannelInv s' := by
  obtain rfl := Option.some.inj h
  refine ⟨hi.fifo, hi.message, hi.senders.mono id, ?_⟩
  show (s.state.receiverWaker.register task).1.Guards
    (Waiting.polled (Waiting.wake s.receivers (s.state.receiverWaker.register task).2) f task
      (!!s.state.queue.items.isEmpty)) _
  rw [Bool.not_not]
  cases hq : s.state.queue.items with
  | nil => exact hi.receivers.register hq
  | cons m ms =>
    apply WakerRegistration.guards_of_forall_none
    apply Waiting.polled_false_eq_none
    apply Waiting.wake_eq_none
    exact hi.receivers.eq_none (by rw [hq]; exact List.cons_ne_nil _ _)

/-! ### Every reachable state -/

theorem ChannelInv.step {a : Action α} (hi : ChannelInv s) (h : s.step a = some s') :
    ChannelInv s' := by
  cases a with
  | send f m =>
    rw [Channelled.step] at h
    split_ifs at h
    obtain rfl := Option.some.inj h
    refine ⟨hi.fifo, ?_, hi.senders, hi.receivers⟩
    show Function.update s.message f (some m) = Function.update s.sending f (some m)
    rw [hi.message]
  | pollSend f task => exact hi.pollSend h
  | trySend m => exact hi.trySend h
  | pollReadyToSend f task => exact hi.pollReadyToSend h
  | dropSend f =>
    obtain rfl := Option.some.inj h
    refine ⟨hi.fifo, ?_, hi.senders.dropped, hi.receivers⟩
    show Function.update s.message f none = Function.update s.sending f none
    rw [hi.message]
  | pollReceive f task =>
    rw [step_pollReceive] at h
    exact hi.pollReceiveDyn h
  | pollReceiveDyn f task => exact hi.pollReceiveDyn h
  | tryReceive => exact hi.tryReceive h
  | pollReadyToReceive f task => exact hi.pollReadyToReceive h
  | dropReceive f =>
    obtain rfl := Option.some.inj h
    exact ⟨hi.fifo, hi.message, hi.senders, hi.receivers.dropped⟩
  | wake task =>
    obtain rfl := Option.some.inj h
    exact ⟨hi.fifo, hi.message, hi.senders.mono id, hi.receivers.mono id⟩

/-- **The channel delivers every message exactly once, in order, and forgets nobody**: in every
reachable state, for every capacity and any number of senders, receivers and cancelled futures. -/
theorem delivers_of_reachable (h : Reachable step (new : Channelled α N) s) : Delivers s :=
  (h.invariant channelInv_new fun _ _ _ hi hs => hi.step hs).delivers

/-- A channel of one message: two sends, of which the second waits and is dropped after the first
message was received, and a receiver that waits in the end. -/
def fullRun : List (Action ℕ) :=
  [.send 0 7, .pollSend 0 1, .send 1 8, .pollSend 1 2, .pollReadyToReceive 2 3, .pollReceive 2 3,
    .dropSend 1, .trySend 9, .tryReceive, .pollReceive 3 3]

/-- After `fullRun` the messages 7 and 9 were received, and the receiver waits. -/
theorem delivers_of_reachable_full :
    ∃ s : Channelled ℕ 1, runList step new fullRun = some s ∧ s.received = [7, 9] ∧
      s.receivers 3 = some 3 ∧ Delivers s := by
  obtain ⟨s, hs, hv⟩ := exists_of_map_runList (f := fun s => (s.received, s.receivers 3))
    (s := (new : Channelled ℕ 1)) (l := fullRun) (b := ([7, 9], some 3)) (r := step) (by decide)
  obtain ⟨hr, hw⟩ := Prod.mk.inj hv
  exact ⟨s, hs, hr, hw, delivers_of_reachable (reachable_of_runList hs)⟩

end Channelled

end Channel

end AurixAsync
