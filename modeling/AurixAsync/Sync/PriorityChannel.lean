import AurixAsync.Lib.MinHeap
import AurixAsync.Sync.Channel
import Mathlib.Algebra.Order.Group.Multiset
import Mathlib.Order.OrderDual

/-!
# The priority channel

The channel on a `BinaryHeap` in place of the queue, and the two run side by side. The order of the
messages is that of their ranks, so that messages of one rank may differ.

* `Kind`, `Kind.rank`, `Kind.Before`: `Min` and `Max`, and what a heap of the kind pops first.
* `ChannelState`, `tryReceiveWithContext`, …, `pollReadyToSend`: the code.
* `Op`, `Outcome`, `runOp`: an operation that both channels have, and its outcome.
* `Refines`: on the two channels the operation has the same kind of outcome and wakes the same
  tasks, and a message received from the heap is a first one of those not received before.
* `ReadyAlike`: the polls of `poll_ready_to_send` for which this is so.
* `refines_allSteps_iff`: the steps of a run that refine are those that meet `ReadyAlike`.
-/

namespace AurixAsync

namespace PriorityChannel

open Transition Channel

/-! ### Kinds of heaps -/

/-- Whether the least or the greatest message comes first. -/
inductive Kind
  | min
  | max
deriving DecidableEq, Repr

/-- The ranks, upside down for `Max`. -/
def Kind.Rank : Kind → Type → Type
  | .min, κ => κ
  | .max, κ => κᵒᵈ

instance (kind : Kind) (κ : Type) [LinearOrder κ] : LinearOrder (kind.Rank κ) :=
  match kind with
  | .min => inferInstanceAs (LinearOrder κ)
  | .max => inferInstanceAs (LinearOrder κᵒᵈ)

variable {α κ : Type} [LinearOrder κ] {N : ℕ}

/-- The key of a min-heap that behaves as a heap of this kind. -/
def Kind.rank (kind : Kind) (rank : α → κ) : α → kind.Rank κ :=
  match kind with
  | .min => rank
  | .max => fun x => OrderDual.toDual (rank x)

/-- `x` is not behind `y`. -/
def Kind.Before (kind : Kind) (rank : α → κ) (x y : α) : Prop :=
  match kind with
  | .min => rank x ≤ rank y
  | .max => rank y ≤ rank x

theorem Kind.rank_le_iff (kind : Kind) (rank : α → κ) (x y : α) :
    kind.rank rank x ≤ kind.rank rank y ↔ kind.Before rank x y := by
  cases kind <;> exact Iff.rfl

/-- The heaps a priority channel can be built on: `BinaryHeap<T, K, N>`. -/
abbrev Heap (kind : Kind) (rank : α → κ) (N : ℕ) := MinHeap α (kind.rank rank) N

/-! ### The channel -/

variable {kind : Kind} {rank : α → κ}

/-- The messages in a heap, the waker of the receiver and the waker of the senders. -/
structure ChannelState (H : Heap kind rank N) where
  queue : H.Carrier
  receiverWaker : WakerRegistration
  sendersWaker : WakerRegistration

/-- `!n` of a `usize`, which has 32 bits. -/
def notUsize (n : ℕ) : ℕ := 2 ^ 32 - 1 - n

namespace ChannelState

variable {H : Heap kind rank N}

/-- An empty channel. -/
def new : ChannelState H := ⟨H.new, .new, .new⟩

/-- `self.queue.len()`. -/
def len (s : ChannelState H) : ℕ := (H.items s.queue).card

/-- `try_receive_with_context`, with the tasks it wakes. -/
def tryReceiveWithContext (s : ChannelState H) (cx : Option TaskRef) :
    Except TryReceiveError α × ChannelState H × List TaskRef :=
  let w := s.sendersWaker.wakeIf (s.len = N)
  match H.pop s.queue with
  | some (message, queue) => (.ok message, { s with queue := queue, sendersWaker := w.1 }, w.2)
  | none =>
    let r := s.receiverWaker.registerCx cx
    (.error .empty, { s with sendersWaker := w.1, receiverWaker := r.1 }, w.2 ++ r.2)

/-- `poll_receive`, `none` for pending. -/
def pollReceive (s : ChannelState H) (task : TaskRef) :
    Option α × ChannelState H × List TaskRef :=
  let w := s.sendersWaker.wakeIf (s.len = N)
  match H.pop s.queue with
  | some (message, queue) => (some message, { s with queue := queue, sendersWaker := w.1 }, w.2)
  | none =>
    let r := s.receiverWaker.register task
    (none, { s with sendersWaker := w.1, receiverWaker := r.1 }, w.2 ++ r.2)

/-- `poll_ready_to_receive`: it registers in any case. -/
def pollReadyToReceive (s : ChannelState H) (task : TaskRef) :
    Bool × ChannelState H × List TaskRef :=
  let r := s.receiverWaker.register task
  (!decide (s.len = 0), { s with receiverWaker := r.1 }, r.2)

/-- `try_send_with_context`, with the tasks it wakes. -/
def trySendWithContext (s : ChannelState H) (message : α) (cx : Option TaskRef) :
    Except (TrySendError α) Unit × ChannelState H × List TaskRef :=
  match H.push s.queue message with
  | some queue =>
    let w := s.receiverWaker.wake
    (.ok (), { s with queue := queue, receiverWaker := w.1 }, w.2)
  | none =>
    let r := s.sendersWaker.registerCx cx
    (.error (.full message), { s with sendersWaker := r.1 }, r.2)

/-- `poll_ready_to_send`. Its test is `!self.queue.len() == self.queue.capacity()`, and the `!`
belongs to the length. -/
def pollReadyToSend (s : ChannelState H) (task : TaskRef) :
    Bool × ChannelState H × List TaskRef :=
  let r := s.sendersWaker.register task
  (notUsize s.len = N, { s with sendersWaker := r.1 }, r.2)

variable {s : ChannelState H} {cx : Option TaskRef} {message : α}

theorem len_eq_zero : s.len = 0 ↔ H.items s.queue = 0 := Multiset.card_eq_zero

/-- **What a receive does**: it takes a first message, or registers on an empty heap. -/
theorem tryReceive_cases (s : ChannelState H) (cx : Option TaskRef) :
    (∃ message queue, H.pop s.queue = some (message, queue) ∧ s.tryReceiveWithContext cx =
        (.ok message,
          { s with queue := queue, sendersWaker := (s.sendersWaker.wakeIf (s.len = N)).1 },
          (s.sendersWaker.wakeIf (s.len = N)).2)) ∨
      H.items s.queue = 0 ∧ s.tryReceiveWithContext cx =
        (.error .empty,
          { s with
            sendersWaker := (s.sendersWaker.wakeIf (s.len = N)).1
            receiverWaker := (s.receiverWaker.registerCx cx).1 },
          (s.sendersWaker.wakeIf (s.len = N)).2 ++ (s.receiverWaker.registerCx cx).2) := by
  unfold tryReceiveWithContext
  cases h : H.pop s.queue with
  | none =>
    refine Or.inr ⟨?_, rfl⟩
    apply H.peek_isNone.mp
    rw [← H.pop_peek, h]
    rfl
  | some r => exact Or.inl ⟨r.1, r.2, rfl, rfl⟩

theorem pollReceive_eq (s : ChannelState H) (task : TaskRef) : s.pollReceive task =
    ((s.tryReceiveWithContext (some task)).1.toOption,
      (s.tryReceiveWithContext (some task)).2) := by
  unfold pollReceive tryReceiveWithContext
  cases H.pop s.queue <;> rfl

/-- **What a send does**: it adds the message and wakes the receiver, or registers on a full heap
and hands the message back. -/
theorem trySend_cases (s : ChannelState H) (message : α) (cx : Option TaskRef) :
    (∃ queue, s.len ≠ N ∧ H.items queue = message ::ₘ H.items s.queue ∧
        s.trySendWithContext message cx =
          (.ok (), { s with queue := queue, receiverWaker := s.receiverWaker.wake.1 },
            s.receiverWaker.wake.2)) ∨
      s.len = N ∧ s.trySendWithContext message cx =
        (.error (.full message), { s with sendersWaker := (s.sendersWaker.registerCx cx).1 },
          (s.sendersWaker.registerCx cx).2) := by
  unfold trySendWithContext
  by_cases hf : MinHeap.Full s.queue
  · rw [MinHeap.push_eq_none.mpr hf]
    exact Or.inr ⟨hf, rfl⟩
  · obtain ⟨queue, hpush, hitems⟩ := MinHeap.exists_push hf message
    rw [hpush]
    exact Or.inl ⟨queue, hf, hitems, rfl⟩

end ChannelState

/-! ### The same operation on both channels -/

/-- `try_send` and a poll of a `SendFuture` are `send`, without and with a context. -/
inductive Op (α : Type)
  | send (message : α) (cx : Option TaskRef)
  | receive (cx : Option TaskRef)
  | pollReceive (task : TaskRef)
  | pollReadyToSend (task : TaskRef)
  | pollReadyToReceive (task : TaskRef)
deriving DecidableEq

/-- What an operation returns. -/
inductive Outcome (α : Type)
  | accepted
  | full (message : α)
  | received (message : α)
  | empty
  | ready
  | pending
deriving DecidableEq

/-- The same kind of outcome. A message handed back is the same, one that was received need not
be. -/
def Outcome.Alike : Outcome α → Outcome α → Prop
  | .received _, .received _ => True
  | o, o' => o = o'

/-- The outcome of a send. -/
def Outcome.ofSend : Except (TrySendError α) Unit → Outcome α
  | .ok () => .accepted
  | .error (.full message) => .full message

/-- The outcome of a receive. -/
def Outcome.ofReceive : Except TryReceiveError α → Outcome α
  | .ok message => .received message
  | .error .empty => .empty

/-- A poll that is ready with a message. -/
def Outcome.ofPoll : Option α → Outcome α
  | some message => .received message
  | none => .pending

/-- The outcome of a poll for readiness. -/
def Outcome.ofReady (ready : Bool) : Outcome α := if ready then .ready else .pending

/-- An operation on the channel. -/
def runOp (s : Channel.ChannelState α N) :
    Op α → Outcome α × Channel.ChannelState α N × List TaskRef
  | .send message cx => (s.trySendWithContext message cx).map .ofSend id
  | .receive cx => (s.tryReceiveWithContext cx).map .ofReceive id
  | .pollReceive task => (s.pollReceive task).map .ofPoll id
  | .pollReadyToSend task => (s.pollReadyToSend task).map .ofReady id
  | .pollReadyToReceive task => (s.pollReadyToReceive task).map .ofReady id

variable {H : Heap kind rank N}

/-- The same operation on the priority channel. -/
def ChannelState.runOp (s : ChannelState H) : Op α → Outcome α × ChannelState H × List TaskRef
  | .send message cx => (s.trySendWithContext message cx).map .ofSend id
  | .receive cx => (s.tryReceiveWithContext cx).map .ofReceive id
  | .pollReceive task => (s.pollReceive task).map .ofPoll id
  | .pollReadyToSend task => (s.pollReadyToSend task).map .ofReady id
  | .pollReadyToReceive task => (s.pollReadyToReceive task).map .ofReady id

/-- The two channels, with the messages that the priority channel accepted and gave out. -/
structure Pair (H : Heap kind rank N) where
  channel : Channel.ChannelState α N
  priority : ChannelState H
  accepted : Multiset α
  received : Multiset α

namespace Pair

/-- Both channels are empty. -/
def new : Pair H := ⟨.new, .new, 0, 0⟩

/-- The messages accepted by a send with this outcome. -/
def acceptedBy : Op α → Outcome α → Multiset α
  | .send message _, .accepted => {message}
  | _, _ => 0

/-- The messages received with this outcome. -/
def receivedBy : Outcome α → Multiset α
  | .received message => {message}
  | _ => 0

/-- An operation on both channels. -/
def step (s : Pair H) (op : Op α) : Option (Pair H) :=
  let r := s.priority.runOp op
  some { channel := (PriorityChannel.runOp s.channel op).2.1
         priority := r.2.1
         accepted := s.accepted + acceptedBy op r.1
         received := s.received + receivedBy r.1 }

/-- The operation has the same kind of outcome on both channels and wakes the same tasks, and a
message it receives from the priority channel is one of those `waiting`, the messages accepted and
not yet received, and no other of them is before it. -/
structure Refines (s : Pair H) (op : Op α) : Prop where
  alike : (PriorityChannel.runOp s.channel op).1.Alike (s.priority.runOp op).1
  woken : (PriorityChannel.runOp s.channel op).2.2 = (s.priority.runOp op).2.2
  first : ∀ m, (s.priority.runOp op).1 = .received m → ∃ waiting,
    s.accepted = s.received + waiting ∧ m ∈ waiting ∧ ∀ x ∈ waiting, kind.Before rank m x

/-- The condition on `poll_ready_to_send`: the queue is full, or its length and `N` add up to the
greatest `usize`. -/
def ReadyAlike (s : Pair H) : Op α → Prop
  | .pollReadyToSend _ =>
    s.channel.queue.items.length = N ∨ s.channel.queue.items.length + N = 2 ^ 32 - 1
  | _ => True

/-- Both channels hold the same number of messages and the same wakers, and the heap holds the
messages accepted and not yet received. -/
structure PairInv (s : Pair H) : Prop where
  len : s.priority.len = s.channel.queue.items.length
  receiverWaker : s.priority.receiverWaker = s.channel.receiverWaker
  sendersWaker : s.priority.sendersWaker = s.channel.sendersWaker
  waiting : s.accepted = s.received + H.items s.priority.queue

variable {s s' : Pair H}

theorem pairInv_new : PairInv (new : Pair H) where
  len := by
    show (H.items H.new).card = 0
    rw [H.items_new]
    rfl
  receiverWaker := rfl
  sendersWaker := rfl
  waiting := by
    show (0 : Multiset α) = 0 + H.items H.new
    rw [H.items_new, add_zero]

/-! ### Operations side by side -/

/-- What a receive does to the two states, with the registration it makes on empty channels. -/
structure Receives (s : Pair H) (o o' : Outcome α) (c : Channel.ChannelState α N)
    (p : ChannelState H) : Prop where
  alike : o.Alike o'
  first : ∀ m, o' = .received m → m ∈ H.items s.priority.queue ∧
    ∀ x ∈ H.items s.priority.queue, kind.Before rank m x
  inv : PairInv { s with channel := c, priority := p, received := s.received + receivedBy o' }

theorem PairInv.isFull_eq (hi : PairInv s) :
    s.channel.queue.isFull = decide (s.priority.len = N) := by
  rw [Bool.eq_iff_iff, Deque.isFull_iff, decide_eq_true_eq, hi.len]

theorem first_of_pop {m : α} {queue : H.Carrier} (h : H.pop s.priority.queue = some (m, queue)) :
    m ∈ H.items s.priority.queue ∧ ∀ x ∈ H.items s.priority.queue, kind.Before rank m x := by
  have hpeek : H.peek s.priority.queue = some m := by
    rw [← H.pop_peek, h]
    rfl
  refine ⟨?_, fun x hx => (kind.rank_le_iff rank m x).mp (H.peek_le hpeek x hx)⟩
  rw [H.pop_items h]
  exact Multiset.mem_cons_self m _

/-- **A receive does the same to both**, with or without a context. -/
theorem PairInv.receive (hi : PairInv s) (cx : Option TaskRef) :
    (PriorityChannel.runOp s.channel (.receive cx)).2.2 =
        (s.priority.runOp (.receive cx)).2.2 ∧
      Receives s (PriorityChannel.runOp s.channel (.receive cx)).1
        (s.priority.runOp (.receive cx)).1
        (PriorityChannel.runOp s.channel (.receive cx)).2.1
        (s.priority.runOp (.receive cx)).2.1 := by
  have hlen := hi.len
  show (s.channel.tryReceiveWithContext cx).2.2 = (s.priority.tryReceiveWithContext cx).2.2 ∧
    Receives s (.ofReceive (s.channel.tryReceiveWithContext cx).1)
      (.ofReceive (s.priority.tryReceiveWithContext cx).1)
      (s.channel.tryReceiveWithContext cx).2.1 (s.priority.tryReceiveWithContext cx).2.1
  have hwake : s.channel.sendersWaker.wakeIf s.channel.queue.isFull =
      s.priority.sendersWaker.wakeIf (s.priority.len = N) := by
    rw [hi.sendersWaker, hi.isFull_eq]
  rcases Channel.ChannelState.tryReceive_cases s.channel cx with ⟨m, q, hq, hr⟩ | ⟨he, hr⟩ <;>
    rcases ChannelState.tryReceive_cases s.priority cx with ⟨m', q', hpop, hr'⟩ | ⟨hz, hr'⟩
  · -- both have a message
    have hitems := H.pop_items hpop
    rw [hr, hr', hwake]
    refine ⟨rfl, trivial, fun x hx => ?_, ?_, hi.receiverWaker, rfl, ?_⟩
    · obtain rfl := Outcome.received.inj hx
      exact first_of_pop hpop
    · have hcard : s.priority.len = (H.items q').card + 1 := by
        show (H.items s.priority.queue).card = _
        rw [hitems, Multiset.card_cons]
      rw [hq, List.length_cons] at hlen
      show (H.items q').card = q.items.length
      omega
    · show s.accepted = s.received + {m'} + H.items q'
      rw [hi.waiting, hitems, add_assoc, Multiset.singleton_add]
  · rw [ChannelState.len_eq_zero.mpr hz, hq, List.length_cons] at hlen
    omega
  · rw [he, List.length_nil, ChannelState.len_eq_zero, H.pop_items hpop] at hlen
    exact absurd hlen (Multiset.cons_ne_zero)
  · -- both are empty
    rw [hr, hr', hwake, hi.receiverWaker]
    refine ⟨rfl, rfl, fun x hx => absurd hx (by simp [Outcome.ofReceive]), hi.len, rfl, rfl, ?_⟩
    show s.accepted = s.received + 0 + H.items s.priority.queue
    rw [add_zero]
    exact hi.waiting

/-- **So does a send.** -/
theorem PairInv.send (hi : PairInv s) (m : α) (cx : Option TaskRef) :
    Refines s (.send m cx) ∧ ∀ s', s.step (.send m cx) = some s' → PairInv s' := by
  have hlen := hi.len
  rcases Channel.ChannelState.trySend_cases s.channel m cx with ⟨q, hlt, hq, hr⟩ | ⟨hfull, hr⟩ <;>
    rcases ChannelState.trySend_cases s.priority m cx with ⟨q', hne, hitems, hr'⟩ | ⟨hfull', hr'⟩
  · have hc : PriorityChannel.runOp s.channel (.send m cx) = _ :=
      congrArg (Prod.map Outcome.ofSend id) hr
    have hp : s.priority.runOp (.send m cx) = _ := congrArg (Prod.map Outcome.ofSend id) hr'
    refine ⟨⟨?_, ?_, fun o ho => ?_⟩, fun s' hs => ?_⟩
    · rw [hc, hp]
      rfl
    · rw [hc, hp, hi.receiverWaker]
      rfl
    · rw [hp] at ho
      exact absurd ho (by simp [Outcome.ofSend])
    · obtain rfl := Option.some.inj hs
      rw [hc, hp]
      refine ⟨?_, ?_, hi.sendersWaker, ?_⟩
      · show (H.items q').card = q.items.length
        rw [hitems, Multiset.card_cons, hq, List.length_append, List.length_singleton]
        exact congrArg (· + 1) hlen
      · show s.priority.receiverWaker.wake.1 = s.channel.receiverWaker.wake.1
        rw [hi.receiverWaker]
      · show s.accepted + {m} = s.received + 0 + H.items q'
        rw [hi.waiting, hitems, add_zero, Multiset.add_cons, add_comm, Multiset.singleton_add]
  · omega
  · omega
  · have hc : PriorityChannel.runOp s.channel (.send m cx) = _ :=
      congrArg (Prod.map Outcome.ofSend id) hr
    have hp : s.priority.runOp (.send m cx) = _ := congrArg (Prod.map Outcome.ofSend id) hr'
    refine ⟨⟨?_, ?_, fun o ho => ?_⟩, fun s' hs => ?_⟩
    · rw [hc, hp]
      rfl
    · rw [hc, hp, hi.sendersWaker]
      rfl
    · rw [hp] at ho
      exact absurd ho (by simp [Outcome.ofSend])
    · obtain rfl := Option.some.inj hs
      rw [hc, hp]
      refine ⟨hi.len, hi.receiverWaker, ?_, ?_⟩
      · show (s.priority.sendersWaker.registerCx cx).1 = (s.channel.sendersWaker.registerCx cx).1
        rw [hi.sendersWaker]
      · show s.accepted + 0 = s.received + 0 + H.items s.priority.queue
        rw [add_zero, add_zero]
        exact hi.waiting

/-- An empty channel is pending for a poll. -/
def Outcome.polled : Outcome α → Outcome α
  | .empty => .pending
  | o => o

theorem ofPoll_toOption (r : Except TryReceiveError α) :
    Outcome.ofPoll r.toOption = Outcome.polled (.ofReceive r) := by
  cases r with
  | ok m => rfl
  | error e => cases e; rfl

theorem runOp_pollReceive (c : Channel.ChannelState α N) (task : TaskRef) :
    PriorityChannel.runOp c (.pollReceive task) =
      (PriorityChannel.runOp c (.receive (some task))).map Outcome.polled id := by
  show (c.pollReceive task).map Outcome.ofPoll id = _
  rw [Channel.ChannelState.pollReceive_eq]
  exact Prod.ext (ofPoll_toOption _) rfl

theorem priority_runOp_pollReceive (p : ChannelState H) (task : TaskRef) :
    p.runOp (.pollReceive task) = (p.runOp (.receive (some task))).map Outcome.polled id := by
  show (p.pollReceive task).map Outcome.ofPoll id = _
  rw [ChannelState.pollReceive_eq]
  exact Prod.ext (ofPoll_toOption _) rfl

theorem Receives.polled {o o' : Outcome α} {c : Channel.ChannelState α N} {p : ChannelState H}
    (h : Receives s o o' c p) : Receives s (Outcome.polled o) (Outcome.polled o') c p := by
  have hrec : ∀ m, Outcome.polled o' = .received m → o' = .received m := by
    intro m hm
    cases o' <;> first | exact hm | exact absurd hm (by simp [Outcome.polled])
  refine ⟨?_, fun m hm => h.first m (hrec m hm), ?_⟩
  · have ha := h.alike
    cases o <;> cases o' <;> trivial
  · have heq : receivedBy (Outcome.polled o') = receivedBy o' := by
      cases o' <;> rfl
    rw [heq]
    exact h.inv

theorem PairInv.refines_of_receives (hi : PairInv s) {op : Op α}
    (hwoken : (PriorityChannel.runOp s.channel op).2.2 = (s.priority.runOp op).2.2)
    (h : Receives s (PriorityChannel.runOp s.channel op).1 (s.priority.runOp op).1
      (PriorityChannel.runOp s.channel op).2.1 (s.priority.runOp op).2.1) : Refines s op := by
  refine ⟨h.alike, hwoken, fun m hm => ?_⟩
  exact ⟨H.items s.priority.queue, hi.waiting, h.first m hm⟩

/-! ### The result -/

/-- The readiness of `poll_ready_to_send` by the two tests. -/
theorem PairInv.readyAlike_iff (hi : PairInv s) {task : TaskRef} :
    (PriorityChannel.runOp s.channel (.pollReadyToSend task)).1.Alike
        (s.priority.runOp (.pollReadyToSend task)).1 ↔ ReadyAlike s (.pollReadyToSend task) := by
  show (Outcome.ofReady (!s.channel.queue.isFull)).Alike
    (.ofReady (decide (notUsize s.priority.len = N))) ↔
      s.channel.queue.items.length = N ∨ s.channel.queue.items.length + N = 2 ^ 32 - 1
  have hle := s.channel.queue.length_le
  rw [hi.isFull_eq, hi.len]
  have hready : ∀ b b' : Bool, (Outcome.ofReady b : Outcome α).Alike (.ofReady b') ↔ b = b' := by
    intro b b'
    cases b <;> cases b' <;> simp [Outcome.ofReady, Outcome.Alike]
  rw [hready, Bool.eq_iff_iff, Bool.not_eq_true', decide_eq_false_iff_not, decide_eq_true_eq]
  unfold notUsize
  omega

theorem PairInv.step {op : Op α} (hi : PairInv s) (h : s.step op = some s') : PairInv s' := by
  cases op with
  | send m cx => exact (hi.send m cx).2 s' h
  | receive cx =>
    obtain rfl := Option.some.inj h
    have hinv := (hi.receive cx).2.inv
    rw [← add_zero s.accepted] at hinv
    exact hinv
  | pollReceive task =>
    obtain rfl := Option.some.inj h
    have hinv := (hi.receive (some task)).2.polled.inv
    rw [priority_runOp_pollReceive, runOp_pollReceive]
    rw [← add_zero s.accepted] at hinv
    exact hinv
  | pollReadyToSend task =>
    obtain rfl := Option.some.inj h
    refine ⟨hi.len, hi.receiverWaker, ?_, ?_⟩
    · show (s.priority.sendersWaker.register task).1 = (s.channel.sendersWaker.register task).1
      rw [hi.sendersWaker]
    · show s.accepted + 0 = s.received + receivedBy (.ofReady _) + H.items s.priority.queue
      rw [Outcome.ofReady]
      split_ifs <;> exact (congrArg (· + 0) hi.waiting).trans (by simp [receivedBy])
  | pollReadyToReceive task =>
    obtain rfl := Option.some.inj h
    refine ⟨hi.len, ?_, hi.sendersWaker, ?_⟩
    · show (s.priority.receiverWaker.register task).1 = (s.channel.receiverWaker.register task).1
      rw [hi.receiverWaker]
    · show s.accepted + 0 = s.received + receivedBy (.ofReady _) + H.items s.priority.queue
      rw [Outcome.ofReady]
      split_ifs <;> exact (congrArg (· + 0) hi.waiting).trans (by simp [receivedBy])

theorem PairInv.refines_iff (hi : PairInv s) (op : Op α) : Refines s op ↔ ReadyAlike s op := by
  cases op with
  | send m cx => exact ⟨fun _ => trivial, fun _ => (hi.send m cx).1⟩
  | receive cx =>
    refine ⟨fun _ => trivial, fun _ => ?_⟩
    exact hi.refines_of_receives (hi.receive cx).1 (hi.receive cx).2
  | pollReceive task =>
    refine ⟨fun _ => trivial, fun _ => ?_⟩
    obtain ⟨hw, hr⟩ := hi.receive (some task)
    apply hi.refines_of_receives
    · rw [priority_runOp_pollReceive, runOp_pollReceive]
      exact hw
    · rw [priority_runOp_pollReceive, runOp_pollReceive]
      exact hr.polled
  | pollReadyToSend task =>
    rw [← hi.readyAlike_iff]
    refine ⟨fun h => h.alike, fun h => ⟨h, ?_, fun m hm => ?_⟩⟩
    · show (s.channel.sendersWaker.register task).2 = (s.priority.sendersWaker.register task).2
      rw [hi.sendersWaker]
    · change Outcome.ofReady _ = .received m at hm
      rw [Outcome.ofReady] at hm
      split_ifs at hm
  | pollReadyToReceive task =>
    refine ⟨fun _ => trivial, fun _ => ⟨?_, ?_, fun m hm => ?_⟩⟩
    · show (Outcome.ofReady (!s.channel.queue.items.isEmpty)).Alike
        (.ofReady (!decide (s.priority.len = 0)))
      rw [hi.len]
      cases s.channel.queue.items <;> exact rfl
    · show (s.channel.receiverWaker.register task).2 = (s.priority.receiverWaker.register task).2
      rw [hi.receiverWaker]
    · change Outcome.ofReady _ = .received m at hm
      rw [Outcome.ofReady] at hm
      split_ifs at hm

/-- **The priority channel refines the channel exactly as far as `poll_ready_to_send` does.** In
every run of the same operations on both, for every capacity, kind and order: an operation has the
same kind of outcome and wakes the same tasks, and receives a first message, in each step of the
run, if and only if each `poll_ready_to_send` of the run meets `ReadyAlike`. -/
theorem refines_allSteps_iff (tr : List (Pair H × Op α)) (s : Pair H) (hr : Run step new tr s) :
    AllSteps Refines tr ↔ AllSteps ReadyAlike tr := by
  suffices h : (AllSteps Refines tr ↔ AllSteps ReadyAlike tr) ∧ PairInv s from h.1
  induction hr with
  | nil =>
    refine ⟨⟨fun _ p hp => absurd hp List.not_mem_nil,
      fun _ p hp => absurd hp List.not_mem_nil⟩, pairInv_new⟩
  | snoc _ hst ih =>
    rw [allSteps_snoc, allSteps_snoc, ih.1, ih.2.refines_iff]
    exact ⟨Iff.rfl, ih.2.step hst⟩

/-- The heap of at most one number, the greatest first. -/
def oneHeap : Heap .max (fun n : ℕ => n) 1 := MinHeap.ofList (Kind.max.rank fun n : ℕ => n) 1

/-- An empty channel of one message is ready to send; the priority channel is not. -/
theorem not_refines_empty :
    ∃ (tr : List (Pair oneHeap × Op ℕ)) (s : Pair oneHeap), Run step new tr s ∧
      tr.map Prod.snd = [.pollReadyToSend 0] ∧ ¬ AllSteps Refines tr := by
  refine ⟨[(new, .pollReadyToSend 0)], _, Run.snoc .nil rfl, rfl, fun hall => ?_⟩
  have h : (Outcome.ready : Outcome ℕ).Alike .pending :=
    (hall (new, .pollReadyToSend 0) (List.mem_singleton_self _)).alike
  exact absurd h (by simp [Outcome.Alike])

/-- Two messages are sent and the greater one is received, on channels of one message. -/
theorem refines_allSteps_iff_one :
    ∃ (tr : List (Pair oneHeap × Op ℕ)) (s : Pair oneHeap), Run step new tr s ∧
      tr.map Prod.snd = [.send 7 none, .send 8 (some 1), .pollReadyToSend 1, .pollReceive 2] ∧
        (AllSteps Refines tr ↔ AllSteps ReadyAlike tr) := by
  obtain ⟨s, hs⟩ : ∃ s : Pair oneHeap,
      runList step new [.send 7 none, .send 8 (some 1), .pollReadyToSend 1, .pollReceive 2] =
        some s := ⟨_, rfl⟩
  obtain ⟨tr, hr, ha⟩ := exists_run_of_runList hs
  exact ⟨tr, s, hr, ha, refines_allSteps_iff tr s hr⟩

end Pair

end PriorityChannel

end AurixAsync
