import AurixAsync.Sync.PriorityChannel

/-!
# The futures of the priority channel

The priority channel with the futures that wait on it and the messages they carry. It is simulated
by the channel in use, whose futures are numbered from 1: number 0 does what is left of a poll of
`poll_ready_to_send`, which registers its task and then is as good as dropped.

* `Prioritised`, `Action`, `step`: the priority channel and its users.
* `shift`: the numbers from 1.
* `Simulates`, `Simulates.step`: the simulation.
* `Prioritises`: every message accepted is in the heap or was received, a first one is received
  next, and whoever waits to send or to receive has reason to.
* `prioritises_of_reachable`: this holds in every reachable state.
-/

namespace AurixAsync

namespace PriorityChannel

open Transition Channel

variable {α κ : Type} [LinearOrder κ] {N : ℕ} {kind : Kind} {rank : α → κ} {H : Heap kind rank N}

/-- A priority channel; for each `SendFuture` that waits, and each future that waits to receive or
to be ready to receive, the task it was last polled by; and the `message` of each `SendFuture`. The
rest belongs to no code: the message that each `SendFuture` was made with, until it completes or is
dropped, and the messages accepted and received. -/
structure Prioritised (H : Heap kind rank N) where
  state : ChannelState H
  senders : ℕ → Option TaskRef
  receivers : ℕ → Option TaskRef
  message : ℕ → Option α
  sending : ℕ → Option α
  accepted : Multiset α
  received : Multiset α

namespace Prioritised

/-- Nobody uses the channel. -/
def new : Prioritised H := ⟨.new, fun _ => none, fun _ => none, fun _ => none, fun _ => none, 0, 0⟩

/-- What the users of the channel do. -/
inductive Action (α : Type)
  /-- `send(message)` makes the `SendFuture` `f`. -/
  | send (f : ℕ) (message : α)
  /-- A task polls the `SendFuture` `f`. -/
  | pollSend (f : ℕ) (task : TaskRef)
  | trySend (message : α)
  | pollReadyToSend (task : TaskRef)
  /-- A `SendFuture` is dropped. -/
  | dropSend (f : ℕ)
  /-- A task polls the `ReceiveFuture` `f`. -/
  | pollReceive (f : ℕ) (task : TaskRef)
  /-- A task polls the `DynamicReceiveFuture` `f`. -/
  | pollReceiveDyn (f : ℕ) (task : TaskRef)
  | tryReceive
  | pollReadyToReceive (f : ℕ) (task : TaskRef)
  /-- A future of a receiver is dropped. -/
  | dropReceive (f : ℕ)
  /-- Something else wakes a task. -/
  | wake (task : TaskRef)
deriving DecidableEq

/-- The channel after an operation that woke these tasks. -/
def after (s : Prioritised H) (r : ChannelState H × List TaskRef) : Prioritised H :=
  { s with
    state := r.1
    senders := Waiting.wake s.senders r.2
    receivers := Waiting.wake s.receivers r.2 }

/-- A send of this message was accepted or refused. -/
def logSend (s : Prioritised H) (message : α) : Except (TrySendError α) Unit → Prioritised H
  | .ok () => { s with accepted := s.accepted + {message} }
  | .error _ => s

/-- A receive returned this. -/
def logReceive (s : Prioritised H) (res : Option α) : Prioritised H :=
  { s with received := s.received + (res.toList : Multiset α) }

/-- `SendFuture::poll` with the message taken out of the future, and put back when it is refused. -/
def pollSend (s : Prioritised H) (f : ℕ) (task : TaskRef) (m : α) : Prioritised H :=
  let r := s.state.trySendWithContext m (some task)
  let s' := (s.after r.2).logSend m r.1
  match r.1 with
  | .ok () =>
    { s' with
      senders := Waiting.polled s'.senders f task false
      message := Function.update s.message f none
      sending := Function.update s.sending f none }
  | .error (.full m') =>
    { s' with
      senders := Waiting.polled s'.senders f task true
      message := Function.update s.message f (some m') }

/-- One action. `none` if it panics, or if the future is in use. -/
def step (s : Prioritised H) : Action α → Option (Prioritised H)
  | .send f m =>
    if s.sending f = none ∧ s.senders f = none then
      some { s with
        message := Function.update s.message f (some m)
        sending := Function.update s.sending f (some m) }
    else none
  -- without a message the poll panics
  | .pollSend f task => (s.message f).map fun m => s.pollSend f task m
  | .trySend m =>
    let r := s.state.trySendWithContext m none
    some ((s.after r.2).logSend m r.1)
  | .pollReadyToSend task => some (s.after (s.state.pollReadyToSend task).2)
  | .dropSend f =>
    some { s with
      senders := Waiting.dropped s.senders f
      message := Function.update s.message f none
      sending := Function.update s.sending f none }
  | .pollReceive f task =>
    let r := s.state.pollReceive task
    let s' := (s.after r.2).logReceive r.1
    some { s' with receivers := Waiting.polled s'.receivers f task r.1.isNone }
  | .pollReceiveDyn f task =>
    let r := s.state.tryReceiveWithContext (some task)
    let s' := (s.after r.2).logReceive r.1.toOption
    some { s' with receivers := Waiting.polled s'.receivers f task r.1.toOption.isNone }
  | .tryReceive =>
    let r := s.state.tryReceiveWithContext none
    some ((s.after r.2).logReceive r.1.toOption)
  | .pollReadyToReceive f task =>
    let r := s.state.pollReadyToReceive task
    let s' := s.after r.2
    some { s' with receivers := Waiting.polled s'.receivers f task (!r.1) }
  | .dropReceive f => some { s with receivers := Waiting.dropped s.receivers f }
  | .wake task => some (s.after (s.state, [task]))

/-- Every message accepted is in the heap or was received. A receive gives a first one of the heap,
if there is one. A refused send hands its message back and changes no message, and a `SendFuture`
keeps its own until it completes or is dropped. A `SendFuture` waits only while the heap is full,
and a receiver only while it is empty; their tasks are those registered. -/
structure Prioritises (s : Prioritised H) : Prop where
  exactlyOnce : s.accepted = s.received + H.items s.state.queue
  first : ∀ cx m r, s.state.tryReceiveWithContext cx = (.ok m, r) →
    m ∈ H.items s.state.queue ∧ ∀ x ∈ H.items s.state.queue, kind.Before rank m x
  refused : ∀ m cx e r, s.state.trySendWithContext m cx = (.error e, r) →
    e = .full m ∧ r.1.queue = s.state.queue
  keeps : ∀ f m, s.sending f = some m → s.message f = some m
  senders : ∀ f t, s.senders f = some t → s.state.len = N ∧ s.state.sendersWaker.waker = some t
  receivers : ∀ f t, s.receivers f = some t →
    H.items s.state.queue = 0 ∧ s.state.receiverWaker.waker = some t

/-! ### Futures numbered from 1 -/

section Shift

variable {β : Type}

/-- Number 0 is put in front of all futures. -/
def shift (w : ℕ → Option β) : ℕ → Option β
  | 0 => none
  | f + 1 => w f

theorem shift_none : shift (fun _ => (none : Option β)) = fun _ => none := by
  funext f
  cases f <;> rfl

theorem shift_update (w : ℕ → Option β) (f : ℕ) (x : Option β) :
    Function.update (shift w) (f + 1) x = shift (Function.update w f x) := by
  funext g
  cases g with
  | zero => rw [Function.update_of_ne (Nat.succ_ne_zero f).symm]; rfl
  | succ g =>
    by_cases hg : g = f
    · rw [hg, Function.update_self]
      exact (Function.update_self f x w).symm
    · rw [Function.update_of_ne (by omega)]
      exact (Function.update_of_ne hg x w).symm

theorem shift_wake (w : ℕ → Option TaskRef) (ts : List TaskRef) :
    Waiting.wake (shift w) ts = shift (Waiting.wake w ts) := by
  funext g
  cases g <;> rfl

theorem shift_polled (w : ℕ → Option TaskRef) (f : ℕ) (t : TaskRef) (b : Bool) :
    Waiting.polled (shift w) (f + 1) t b = shift (Waiting.polled w f t b) :=
  shift_update w f _

theorem shift_dropped (w : ℕ → Option TaskRef) (f : ℕ) :
    Waiting.dropped (shift w) (f + 1) = shift (Waiting.dropped w f) :=
  shift_update w f _

theorem dropped_polled_shift (w : ℕ → Option TaskRef) (t : TaskRef) (b : Bool) :
    Waiting.dropped (Waiting.polled (shift w) 0 t b) 0 = shift w := by
  funext g
  cases g with
  | zero => exact Function.update_self ..
  | succ g =>
    rw [Waiting.dropped, Function.update_of_ne (Nat.succ_ne_zero g), Waiting.polled,
      Function.update_of_ne (Nat.succ_ne_zero g)]

theorem update_shift_zero (w : ℕ → Option β) : Function.update (shift w) 0 none = shift w := by
  funext g
  cases g with
  | zero => exact Function.update_self ..
  | succ g => rw [Function.update_of_ne (Nat.succ_ne_zero g)]

end Shift

/-! ### Operations side by side -/

theorem eq_of_alike_ofSend {r r' : Except (TrySendError α) Unit}
    (h : (Outcome.ofSend r).Alike (.ofSend r')) : r = r' := by
  cases r with
  | ok u =>
    cases r' with
    | ok u' => rfl
    | error e' => cases e'; exact absurd h (by simp [Outcome.ofSend, Outcome.Alike])
  | error e =>
    cases e
    cases r' with
    | ok u' => exact absurd h (by simp [Outcome.ofSend, Outcome.Alike])
    | error e' => cases e'; rw [Outcome.full.inj h]

theorem isNone_eq_of_alike_ofReceive {r r' : Except TryReceiveError α}
    (h : (Outcome.ofReceive r).Alike (.ofReceive r')) :
    r.toOption.isNone = r'.toOption.isNone := by
  cases r with
  | ok m =>
    cases r' with
    | ok m' => rfl
    | error e' => cases e'; exact absurd h (by simp [Outcome.ofReceive, Outcome.Alike])
  | error e =>
    cases e
    cases r' with
    | ok m' => exact absurd h (by simp [Outcome.ofReceive, Outcome.Alike])
    | error e' => rfl

theorem receivedBy_ofSend (r : Except (TrySendError α) Unit) :
    Pair.receivedBy (Outcome.ofSend r) = 0 := by
  cases r with
  | ok u => rfl
  | error e => cases e; rfl

theorem receivedBy_ofReceive (r : Except TryReceiveError α) :
    Pair.receivedBy (Outcome.ofReceive r) = (r.toOption.toList : Multiset α) := by
  cases r with
  | ok m => rfl
  | error e => cases e; rfl

theorem acceptedBy_full (op : Op α) (m : α) : Pair.acceptedBy op (.full m) = 0 := by
  cases op <;> rfl

/-- **The two sends** give the same result and wake the same tasks. -/
theorem trySend_eq {p : Pair H} (hi : p.PairInv) (m : α) (cx : Option TaskRef) :
    (p.channel.trySendWithContext m cx).1 = (p.priority.trySendWithContext m cx).1 ∧
      (p.channel.trySendWithContext m cx).2.2 = (p.priority.trySendWithContext m cx).2.2 ∧
        Pair.PairInv (⟨(p.channel.trySendWithContext m cx).2.1,
          (p.priority.trySendWithContext m cx).2.1, p.accepted +
            Pair.acceptedBy (.send m cx) (.ofSend (p.priority.trySendWithContext m cx).1),
          p.received⟩ : Pair H) := by
  obtain ⟨href, hinv⟩ := hi.send m cx
  have h := hinv _ rfl
  refine ⟨eq_of_alike_ofSend href.alike, href.woken, h.len, h.receiverWaker, h.sendersWaker, ?_⟩
  have hw := h.waiting
  change _ = p.received + Pair.receivedBy (.ofSend (p.priority.trySendWithContext m cx).1) + _
    at hw
  rw [receivedBy_ofSend, add_zero] at hw
  exact hw

/-- **The two receives** find a message or not alike, and wake the same tasks. -/
theorem tryReceive_eq {p : Pair H} (hi : p.PairInv) (cx : Option TaskRef) :
    (p.channel.tryReceiveWithContext cx).1.toOption.isNone =
        (p.priority.tryReceiveWithContext cx).1.toOption.isNone ∧
      (p.channel.tryReceiveWithContext cx).2.2 = (p.priority.tryReceiveWithContext cx).2.2 ∧
        Pair.PairInv (⟨(p.channel.tryReceiveWithContext cx).2.1,
          (p.priority.tryReceiveWithContext cx).2.1, p.accepted,
          p.received + ((p.priority.tryReceiveWithContext cx).1.toOption.toList : Multiset α)⟩ :
            Pair H) := by
  obtain ⟨hwoken, halike, -, hinv⟩ := hi.receive cx
  refine ⟨isNone_eq_of_alike_ofReceive halike, hwoken, ?_⟩
  rw [← receivedBy_ofReceive]
  exact hinv

/-! ### The simulation -/

/-- The two channels are side by side, and the futures of the priority channel are those of the
other one from number 1. -/
structure Simulates (s : Prioritised H) (c : Channelled α N) : Prop where
  pair : Pair.PairInv (⟨c.state, s.state, s.accepted, s.received⟩ : Pair H)
  senders : c.senders = shift s.senders
  receivers : c.receivers = s.receivers
  message : c.message = shift s.message
  sending : c.sending = shift s.sending

variable {s s' : Prioritised H} {c : Channelled α N}

theorem simulates_new : Simulates (new : Prioritised H) (.new : Channelled α N) where
  pair := Pair.pairInv_new
  senders := shift_none.symm
  receivers := rfl
  message := shift_none.symm
  sending := shift_none.symm

theorem Simulates.wake_senders (h : Simulates s c) (ts : List TaskRef) :
    Waiting.wake c.senders ts = shift (Waiting.wake s.senders ts) := by
  rw [h.senders, shift_wake]

theorem Simulates.wake_receivers (h : Simulates s c) (ts : List TaskRef) :
    Waiting.wake c.receivers ts = Waiting.wake s.receivers ts := by
  rw [h.receivers]

theorem Simulates.trySend (h : Simulates s c) {m : α} (hs : s.step (.trySend m) = some s') :
    ∃ c', c.step (.trySend m) = some c' ∧ Simulates s' c' := by
  obtain ⟨hres, hwoken, hinv⟩ := trySend_eq h.pair m none
  obtain rfl := Option.some.inj hs
  refine ⟨_, rfl, ?_⟩
  dsimp only at hres hwoken hinv ⊢
  generalize s.state.trySendWithContext m none = x at hres hwoken hinv ⊢
  generalize c.state.trySendWithContext m none = y at hres hwoken hinv ⊢
  obtain ⟨res, r⟩ := x
  obtain ⟨res', r'⟩ := y
  obtain rfl : res' = res := hres
  have hsenders : Waiting.wake c.senders r'.2 = shift (Waiting.wake s.senders r.2) := by
    rw [h.wake_senders, hwoken]
  have hreceivers : Waiting.wake c.receivers r'.2 = Waiting.wake s.receivers r.2 := by
    rw [h.wake_receivers, hwoken]
  cases res' with
  | ok u => exact ⟨hinv, hsenders, hreceivers, h.message, h.sending⟩
  | error e =>
    cases e
    rw [Outcome.ofSend, acceptedBy_full, add_zero] at hinv
    exact ⟨hinv, hsenders, hreceivers, h.message, h.sending⟩

theorem Simulates.pollSend (h : Simulates s c) {f : ℕ} {task : TaskRef}
    (hs : s.step (.pollSend f task) = some s') :
    ∃ c', c.step (.pollSend (f + 1) task) = some c' ∧ Simulates s' c' := by
  obtain ⟨m, hm, rfl⟩ := Option.map_eq_some_iff.mp hs
  obtain ⟨hres, hwoken, hinv⟩ := trySend_eq h.pair m (some task)
  have hcm : c.message (f + 1) = some m := by
    rw [h.message]
    exact hm
  refine ⟨c.pollSend (f + 1) task m, by rw [Channelled.step, hcm]; rfl, ?_⟩
  unfold Channelled.pollSend Prioritised.pollSend
  dsimp only at hres hwoken hinv ⊢
  generalize s.state.trySendWithContext m (some task) = x at hres hwoken hinv ⊢
  generalize c.state.trySendWithContext m (some task) = y at hres hwoken hinv ⊢
  obtain ⟨res, r⟩ := x
  obtain ⟨res', r'⟩ := y
  obtain rfl : res' = res := hres
  have hsenders : ∀ b, Waiting.polled (Waiting.wake c.senders r'.2) (f + 1) task b =
      shift (Waiting.polled (Waiting.wake s.senders r.2) f task b) := by
    intro b
    rw [h.wake_senders, shift_polled, hwoken]
  have hreceivers : Waiting.wake c.receivers r'.2 = Waiting.wake s.receivers r.2 := by
    rw [h.wake_receivers, hwoken]
  have hupdate : ∀ x,
      Function.update c.message (f + 1) x = shift (Function.update s.message f x) := by
    intro x
    rw [h.message, shift_update]
  cases res' with
  | ok u =>
    refine ⟨hinv, hsenders false, hreceivers, hupdate none, ?_⟩
    show Function.update c.sending (f + 1) none = shift (Function.update s.sending f none)
    rw [h.sending, shift_update]
  | error e =>
    cases e with
    | full m' =>
      rw [Outcome.ofSend, acceptedBy_full, add_zero] at hinv
      exact ⟨hinv, hsenders true, hreceivers, hupdate (some m'), h.sending⟩

/-- The registration of `poll_ready_to_send` is that of a future that is dropped. -/
theorem Simulates.pollReadyToSend (h : Simulates s c) {task : TaskRef}
    (hs : s.step (.pollReadyToSend task) = some s') :
    ∃ c₁ c', c.step (.pollReadyToSend 0 task) = some c₁ ∧ c₁.step (.dropSend 0) = some c' ∧
      Simulates s' c' := by
  obtain rfl := Option.some.inj hs
  have hwaker : s.state.sendersWaker = c.state.sendersWaker := h.pair.sendersWaker
  refine ⟨_, _, rfl, rfl, ⟨h.pair.len, h.pair.receiverWaker, ?_, h.pair.waiting⟩, ?_, ?_, ?_, ?_⟩
  · show (s.state.sendersWaker.register task).1 = (c.state.sendersWaker.register task).1
    rw [hwaker]
  · show Waiting.dropped (Waiting.polled (Waiting.wake c.senders
      (c.state.sendersWaker.register task).2) 0 task _) 0 =
        shift (Waiting.wake s.senders (s.state.sendersWaker.register task).2)
    rw [h.wake_senders, dropped_polled_shift, hwaker]
  · show Waiting.wake c.receivers (c.state.sendersWaker.register task).2 =
      Waiting.wake s.receivers (s.state.sendersWaker.register task).2
    rw [h.receivers, hwaker]
  · show Function.update c.message 0 none = shift s.message
    rw [h.message, update_shift_zero]
  · show Function.update c.sending 0 none = shift s.sending
    rw [h.sending, update_shift_zero]

theorem Simulates.tryReceive (h : Simulates s c) (hs : s.step .tryReceive = some s') :
    ∃ c', c.step .tryReceive = some c' ∧ Simulates s' c' := by
  obtain rfl := Option.some.inj hs
  obtain ⟨-, hwoken, hinv⟩ := tryReceive_eq h.pair none
  dsimp only at hwoken hinv
  refine ⟨_, rfl, hinv, ?_, ?_, h.message, h.sending⟩
  · show Waiting.wake c.senders (c.state.tryReceiveWithContext none).2.2 = _
    rw [h.wake_senders, hwoken]
    rfl
  · show Waiting.wake c.receivers (c.state.tryReceiveWithContext none).2.2 = _
    rw [h.wake_receivers, hwoken]
    rfl

theorem Simulates.pollReceiveDyn (h : Simulates s c) {f : ℕ} {task : TaskRef}
    (hs : s.step (.pollReceiveDyn f task) = some s') :
    ∃ c', c.step (.pollReceiveDyn f task) = some c' ∧ Simulates s' c' := by
  obtain rfl := Option.some.inj hs
  obtain ⟨hres, hwoken, hinv⟩ := tryReceive_eq h.pair (some task)
  dsimp only at hres hwoken hinv
  refine ⟨_, rfl, hinv, ?_, ?_, h.message, h.sending⟩
  · show Waiting.wake c.senders (c.state.tryReceiveWithContext (some task)).2.2 = _
    rw [h.wake_senders, hwoken]
    rfl
  · show Waiting.polled (Waiting.wake c.receivers
      (c.state.tryReceiveWithContext (some task)).2.2) f task
      (c.state.tryReceiveWithContext (some task)).1.toOption.isNone = _
    rw [h.wake_receivers, hwoken, hres]
    rfl

theorem step_pollReceive (s : Prioritised H) (f : ℕ) (task : TaskRef) :
    s.step (.pollReceive f task) = s.step (.pollReceiveDyn f task) := by
  show some _ = some _
  rw [ChannelState.pollReceive_eq]

theorem Simulates.pollReadyToReceive (h : Simulates s c) {f : ℕ} {task : TaskRef}
    (hs : s.step (.pollReadyToReceive f task) = some s') :
    ∃ c', c.step (.pollReadyToReceive f task) = some c' ∧ Simulates s' c' := by
  obtain rfl := Option.some.inj hs
  have hwaker : s.state.receiverWaker = c.state.receiverWaker := h.pair.receiverWaker
  have hlen : s.state.len = c.state.queue.items.length := h.pair.len
  refine ⟨_, rfl, ⟨h.pair.len, ?_, h.pair.sendersWaker, h.pair.waiting⟩, ?_, ?_, h.message,
    h.sending⟩
  · show (s.state.receiverWaker.register task).1 = (c.state.receiverWaker.register task).1
    rw [hwaker]
  · show Waiting.wake c.senders (c.state.receiverWaker.register task).2 =
      shift (Waiting.wake s.senders (s.state.receiverWaker.register task).2)
    rw [h.wake_senders, hwaker]
  · show Waiting.polled (Waiting.wake c.receivers (c.state.receiverWaker.register task).2) f task
        (!!c.state.queue.items.isEmpty) =
      Waiting.polled (Waiting.wake s.receivers (s.state.receiverWaker.register task).2) f task
        (!!decide (s.state.len = 0))
    rw [h.receivers, hwaker, hlen]
    cases c.state.queue.items <;> rfl

/-- **Every step of the priority channel** is one or two steps of the channel. -/
theorem Simulates.step (h : Simulates s c) {a : Action α} (hs : s.step a = some s') :
    ∃ c', Reachable Channelled.step c c' ∧ Simulates s' c' := by
  have hone : ∀ {b : Channelled.Action α}, (∃ c', c.step b = some c' ∧ Simulates s' c') →
      ∃ c', Reachable Channelled.step c c' ∧ Simulates s' c' := by
    rintro b ⟨c', hc, h'⟩
    exact ⟨c', Reachable.refl.tail hc, h'⟩
  cases a with
  | send f m =>
    refine hone (b := .send (f + 1) m) ?_
    rw [Prioritised.step] at hs
    split_ifs at hs with hfree
    obtain rfl := Option.some.inj hs
    have hcfree : c.sending (f + 1) = none ∧ c.senders (f + 1) = none := by
      rw [h.sending, h.senders]
      exact hfree
    refine ⟨_, if_pos hcfree, h.pair, h.senders, h.receivers, ?_, ?_⟩
    · show Function.update c.message (f + 1) (some m) = shift (Function.update s.message f (some m))
      rw [h.message, shift_update]
    · show Function.update c.sending (f + 1) (some m) = shift (Function.update s.sending f (some m))
      rw [h.sending, shift_update]
  | pollSend f task => exact hone (h.pollSend hs)
  | trySend m => exact hone (h.trySend hs)
  | pollReadyToSend task =>
    obtain ⟨c₁, c', h₁, h₂, h'⟩ := h.pollReadyToSend hs
    exact ⟨c', (Reachable.refl.tail h₁).tail h₂, h'⟩
  | dropSend f =>
    refine hone (b := .dropSend (f + 1)) ⟨_, rfl, ?_⟩
    obtain rfl := Option.some.inj hs
    refine ⟨h.pair, ?_, h.receivers, ?_, ?_⟩
    · show Waiting.dropped c.senders (f + 1) = shift (Waiting.dropped s.senders f)
      rw [h.senders, shift_dropped]
    · show Function.update c.message (f + 1) none = shift (Function.update s.message f none)
      rw [h.message, shift_update]
    · show Function.update c.sending (f + 1) none = shift (Function.update s.sending f none)
      rw [h.sending, shift_update]
  | pollReceive f task =>
    rw [step_pollReceive] at hs
    exact hone (h.pollReceiveDyn hs)
  | pollReceiveDyn f task => exact hone (h.pollReceiveDyn hs)
  | tryReceive => exact hone (h.tryReceive hs)
  | pollReadyToReceive f task => exact hone (h.pollReadyToReceive hs)
  | dropReceive f =>
    refine hone (b := .dropReceive f) ⟨_, rfl, ?_⟩
    obtain rfl := Option.some.inj hs
    refine ⟨h.pair, h.senders, ?_, h.message, h.sending⟩
    show Waiting.dropped c.receivers f = Waiting.dropped s.receivers f
    rw [h.receivers]
  | wake task =>
    refine hone (b := .wake task) ⟨_, rfl, ?_⟩
    obtain rfl := Option.some.inj hs
    exact ⟨h.pair, h.wake_senders _, h.wake_receivers _, h.message, h.sending⟩

/-! ### Every reachable state -/

theorem exists_simulates_of_reachable (h : Reachable step (new : Prioritised H) s) :
    ∃ c : Channelled α N, c.ChannelInv ∧ Simulates s c := by
  suffices hc : ∃ c : Channelled α N, Reachable Channelled.step .new c ∧ Simulates s c by
    obtain ⟨c, hr, hsim⟩ := hc
    exact ⟨c, hr.invariant Channelled.channelInv_new fun _ _ _ hi hs => hi.step hs, hsim⟩
  obtain ⟨tr, hr⟩ := h
  induction hr with
  | nil => exact ⟨.new, .refl, simulates_new⟩
  | snoc _ hs ih =>
    obtain ⟨c, hc, hsim⟩ := ih
    obtain ⟨c', hc', hsim'⟩ := hsim.step hs
    exact ⟨c', hc.trans hc', hsim'⟩

/-- **The priority channel loses no message and no wakeup**, for every capacity, kind and order and
any number of senders, receivers and cancelled futures, and however `poll_ready_to_send` is polled
in between. -/
theorem prioritises_of_reachable (h : Reachable step (new : Prioritised H) s) :
    Prioritises s := by
  obtain ⟨c, hi, hsim⟩ := exists_simulates_of_reachable h
  refine ⟨hsim.pair.waiting, ?_, ?_, ?_, ?_, ?_⟩
  · intro cx m r hr
    rcases ChannelState.tryReceive_cases s.state cx with ⟨m', q, hpop, he⟩ | ⟨-, he⟩
    · rw [he] at hr
      obtain rfl := Except.ok.inj (Prod.mk.inj hr).1
      exact Pair.first_of_pop
        (s := (⟨c.state, s.state, s.accepted, s.received⟩ : Pair H)) hpop
    · rw [he] at hr
      exact absurd (Prod.mk.inj hr).1 (by simp)
  · intro m cx e r hr
    rcases ChannelState.trySend_cases s.state m cx with ⟨q, -, -, he⟩ | ⟨-, he⟩
    · rw [he] at hr
      exact absurd (Prod.mk.inj hr).1 (by simp)
    · rw [he] at hr
      obtain ⟨he, rfl⟩ := Prod.mk.inj hr
      exact ⟨(Except.error.inj he).symm, rfl⟩
  · intro f m hf
    have hm : shift s.message = shift s.sending := by
      rw [← hsim.message, ← hsim.sending, hi.message]
    exact (congrFun hm (f + 1)).trans hf
  · intro f t hf
    have hcf : c.senders (f + 1) = some t := by
      rw [hsim.senders]
      exact hf
    have hfull := Deque.isFull_iff.mp (hi.senders.waits (f + 1) t hcf)
    refine ⟨(hsim.pair.len).trans hfull, ?_⟩
    rw [show s.state.sendersWaker = c.state.sendersWaker from hsim.pair.sendersWaker]
    exact hi.senders.registered (f + 1) t hcf
  · intro f t hf
    have hcf : c.receivers f = some t := by
      rw [hsim.receivers]
      exact hf
    have hempty := hi.receivers.waits f t hcf
    refine ⟨ChannelState.len_eq_zero.mp ((hsim.pair.len).trans ?_), ?_⟩
    · show c.state.queue.items.length = 0
      rw [hempty]
      rfl
    · rw [show s.state.receiverWaker = c.state.receiverWaker from hsim.pair.receiverWaker]
      exact hi.receivers.registered f t hcf

/-- Of two sends on a channel of one message the second waits; the task that polls
`poll_ready_to_send` takes its place and wakes it, and it waits again. -/
def evictedRun : List (Action ℕ) :=
  [.send 0 7, .pollSend 0 1, .send 1 8, .pollSend 1 2, .pollReadyToSend 3, .pollSend 1 2]

theorem prioritises_of_reachable_evictedRun :
    ∃ s : Prioritised Pair.oneHeap, runList step new evictedRun = some s ∧ s.accepted = {7} ∧
      s.senders 1 = some 2 ∧ Prioritises s := by
  obtain ⟨s, hs⟩ : ∃ s : Prioritised Pair.oneHeap, runList step new evictedRun = some s :=
    ⟨_, rfl⟩
  have hp := prioritises_of_reachable (reachable_of_runList hs)
  obtain rfl := Option.some.inj hs
  exact ⟨_, rfl, rfl, rfl, hp⟩

end Prioritised

end PriorityChannel

end AurixAsync
