import AurixAsync.Sync.ZerocopyChannel

/-!
# Wakeups of the zero-copy channel

The channel in use, with the futures of its sender and of its receiver that wait: those whose last
poll returned pending and whose task was not woken since. The sender waits in `receive_waker`, which
`receive_done` wakes, and the receiver in `send_waker`, which `send_done` wakes.

* `woken`: the tasks woken in a step.
* `Parties`, `step`: the channel and those who wait on it.
* `NoLostWake`: whoever waits has no slot to get, the other party has one, and the next slot the
  other party is done with wakes it.
* `noLostWake_of_reachable`: this holds in every reachable state.
-/

namespace AurixAsync

namespace ZerocopyChannel

open Transition

variable {T : Type}

namespace State

variable {s : State}

theorem pushIndex_eq_none : s.pushIndex = none ↔ s.isFull = true := by
  rw [pushIndex]
  cases s.isFull <;> simp

theorem popIndex_eq_none : s.popIndex = none ↔ s.isEmpty = true := by
  rw [popIndex]
  cases s.isEmpty <;> simp

theorem isEmpty_of_isFull (h : s.ring.Valid) (hf : s.isFull = true) : s.isEmpty = false := by
  have hcount := (isFull_iff h).mp hf
  have hpos : s.front < s.len := h.start_lt
  rw [← Bool.not_eq_true, isEmpty_iff h]
  omega

theorem wakers_of_pushDone {r : State × List TaskRef} (h : s.pushDone = some r) :
    s.isFull = false ∧ r.1.receiveWaker = s.receiveWaker ∧ r.1.sendWaker = s.sendWaker.wake.1 ∧
      r.2 = s.sendWaker.wake.2 := by
  unfold pushDone at h
  split_ifs at h with hf
  obtain rfl := Option.some.inj h
  exact ⟨Bool.not_eq_true _ ▸ hf, rfl, rfl, rfl⟩

theorem wakers_of_popDone {r : State × List TaskRef} (h : s.popDone = some r) :
    s.isEmpty = false ∧ r.1.sendWaker = s.sendWaker ∧
      r.1.receiveWaker = s.receiveWaker.wake.1 ∧ r.2 = s.receiveWaker.wake.2 := by
  unfold popDone at h
  split_ifs at h with he
  obtain rfl := Option.some.inj h
  exact ⟨Bool.not_eq_true _ ▸ he, rfl, rfl, rfl⟩

end State

/-! ### The machine -/

/-- The tasks that a step wakes. -/
def Shared.woken (w : Shared T) : Shared.Action T → List TaskRef
  | .pollSend task => (w.channel.pollSend task).2.2
  | .sendDone => (w.channel.sendDone.map fun r => r.2).getD []
  | .pollReceive task => (w.channel.pollReceive task).2.2
  | .receiveDone => (w.channel.receiveDone.map fun r => r.2).getD []
  | _ => []

/-- A channel in use, and for each future that waits the task it was last polled by. -/
structure Parties (T : Type) where
  shared : Shared T
  sending : ℕ → Option TaskRef
  receiving : ℕ → Option TaskRef

namespace Parties

/-- Nobody waits. -/
def new (c : Channel T) : Parties T := ⟨.new c, fun _ => none, fun _ => none⟩

/-- What the two parties do. -/
inductive Action (T : Type)
  /-- A task polls the future `f` of `send`. -/
  | pollSend (f : ℕ) (task : TaskRef)
  | dropSend (f : ℕ)
  /-- A task polls the future `f` of `receive`. -/
  | pollReceive (f : ℕ) (task : TaskRef)
  | dropReceive (f : ℕ)
  /-- Something else wakes a task. -/
  | wake (task : TaskRef)
  | trySend
  | write (x : T)
  | sendDone
  | tryReceive
  | overwrite (x : T)
  | receiveDone

/-- A step of the channel in use. -/
def stepShared (p : Parties T) (a : Shared.Action T) : Option (Parties T) :=
  (p.shared.step a).map fun w =>
    ⟨w, Waiting.wake p.sending (p.shared.woken a), Waiting.wake p.receiving (p.shared.woken a)⟩

/-- One action. `none` if the channel in use has no such step. -/
def step (p : Parties T) : Action T → Option (Parties T)
  | .pollSend f task =>
    (p.shared.step (.pollSend task)).map fun w =>
      let woken := p.shared.woken (.pollSend task)
      ⟨w, Waiting.polled (Waiting.wake p.sending woken) f task
        (p.shared.channel.pollSend task).1.isNone, Waiting.wake p.receiving woken⟩
  | .dropSend f => some { p with sending := Waiting.dropped p.sending f }
  | .pollReceive f task =>
    (p.shared.step (.pollReceive task)).map fun w =>
      let woken := p.shared.woken (.pollReceive task)
      ⟨w, Waiting.wake p.sending woken, Waiting.polled (Waiting.wake p.receiving woken) f task
        (p.shared.channel.pollReceive task).1.isNone⟩
  | .dropReceive f => some { p with receiving := Waiting.dropped p.receiving f }
  | .wake task =>
    some { p with
      sending := Waiting.wake p.sending [task]
      receiving := Waiting.wake p.receiving [task] }
  | .trySend => p.stepShared .trySend
  | .write x => p.stepShared (.write x)
  | .sendDone => p.stepShared .sendDone
  | .tryReceive => p.stepShared .tryReceive
  | .overwrite x => p.stepShared (.overwrite x)
  | .receiveDone => p.stepShared .receiveDone

/-- A waiting sender means a full channel, and a waiting receiver an empty one. The other party can
go on, and wakes it when it is done with its next slot. -/
structure NoLostWake (p : Parties T) : Prop where
  sender : ∀ f t, p.sending f = some t → p.shared.channel.trySend = none ∧
    (∃ j, p.shared.channel.tryReceive = some j) ∧
      ∀ r, p.shared.channel.receiveDone = some r → t ∈ r.2
  receiver : ∀ f t, p.receiving f = some t → p.shared.channel.tryReceive = none ∧
    (∃ i, p.shared.channel.trySend = some i) ∧
      ∀ r, p.shared.channel.sendDone = some r → t ∈ r.2

/-- The futures that wait are registered, and wait for a slot. -/
structure PartiesInv (p : Parties T) : Prop where
  shared : p.shared.Inv
  sending : p.shared.channel.state.receiveWaker.Guards p.sending
    (p.shared.channel.state.isFull = true)
  receiving : p.shared.channel.state.sendWaker.Guards p.receiving
    (p.shared.channel.state.isEmpty = true)

variable {p p' : Parties T} {c : Channel T}

theorem partiesInv_new {buf : List T} (h : Channel.new buf = some c) : PartiesInv (new c) where
  shared := Shared.inv_new h
  sending := WakerRegistration.guards_of_forall_none fun _ => rfl
  receiving := WakerRegistration.guards_of_forall_none fun _ => rfl

theorem PartiesInv.noLostWake (h : PartiesInv p) : NoLostWake p where
  sender f t hf := by
    have hfull := h.sending.waits f t hf
    have hempty := State.isEmpty_of_isFull h.shared.valid hfull
    refine ⟨State.pushIndex_eq_none.mpr hfull, ⟨_, State.popIndex_eq_some.mpr ⟨hempty, rfl⟩⟩, ?_⟩
    intro r hr
    obtain ⟨q, hq, rfl⟩ := Option.map_eq_some_iff.mp hr
    obtain ⟨-, -, -, hw⟩ := State.wakers_of_popDone hq
    show t ∈ q.2
    rw [hw]
    exact WakerRegistration.mem_woken_wake.mpr (h.sending.registered f t hf)
  receiver f t hf := by
    have hempty := h.receiving.waits f t hf
    have hfull : p.shared.channel.state.isFull = false := by
      by_contra hne
      have := State.isEmpty_of_isFull h.shared.valid (Bool.not_eq_false _ ▸ hne)
      rw [hempty] at this
      exact Bool.noConfusion this
    refine ⟨State.popIndex_eq_none.mpr hempty, ⟨_, State.pushIndex_eq_some.mpr ⟨hfull, rfl⟩⟩, ?_⟩
    intro r hr
    obtain ⟨q, hq, rfl⟩ := Option.map_eq_some_iff.mp hr
    obtain ⟨-, -, -, hw⟩ := State.wakers_of_pushDone hq
    show t ∈ q.2
    rw [hw]
    exact WakerRegistration.mem_woken_wake.mpr (h.receiving.registered f t hf)

/-! ### The steps -/

/-- A sender that finds the channel full registers. -/
theorem PartiesInv.pollSend (h : PartiesInv p) {f : ℕ} {task : TaskRef}
    (hs : p.step (.pollSend f task) = some p') : PartiesInv p' := by
  unfold Parties.step at hs
  obtain ⟨w, hw, rfl⟩ := Option.map_eq_some_iff.mp hs
  have hinv := h.shared.step hw
  obtain rfl := Option.some.inj hw
  cases hi : p.shared.channel.state.pushIndex with
  | none =>
    have hfull := State.pushIndex_eq_none.mp hi
    have hpoll : p.shared.channel.pollSend task =
        (none, { p.shared.channel with state := { p.shared.channel.state with
          receiveWaker := (p.shared.channel.state.receiveWaker.register task).1 } },
          (p.shared.channel.state.receiveWaker.register task).2) := by
      unfold Channel.pollSend
      rw [hi]
    dsimp only [Shared.woken] at hinv ⊢
    rw [hpoll] at hinv ⊢
    exact ⟨hinv, h.sending.register hfull, h.receiving.mono id⟩
  | some i =>
    have hnot : ¬ p.shared.channel.state.isFull = true := by
      rw [(State.pushIndex_eq_some.mp hi).1]
      exact Bool.false_ne_true
    have hpoll : p.shared.channel.pollSend task = (some i, p.shared.channel, []) := by
      unfold Channel.pollSend
      rw [hi]
    dsimp only [Shared.woken] at hinv ⊢
    rw [hpoll] at hinv ⊢
    exact ⟨hinv, WakerRegistration.guards_of_forall_none
      (Waiting.polled_false_eq_none (Waiting.wake_eq_none (h.sending.eq_none hnot))),
      h.receiving.mono id⟩

theorem PartiesInv.pollReceive (h : PartiesInv p) {f : ℕ} {task : TaskRef}
    (hs : p.step (.pollReceive f task) = some p') : PartiesInv p' := by
  unfold Parties.step at hs
  obtain ⟨w, hw, rfl⟩ := Option.map_eq_some_iff.mp hs
  have hinv := h.shared.step hw
  obtain rfl := Option.some.inj hw
  cases hi : p.shared.channel.state.popIndex with
  | none =>
    have hempty := State.popIndex_eq_none.mp hi
    have hpoll : p.shared.channel.pollReceive task =
        (none, { p.shared.channel with state := { p.shared.channel.state with
          sendWaker := (p.shared.channel.state.sendWaker.register task).1 } },
          (p.shared.channel.state.sendWaker.register task).2) := by
      unfold Channel.pollReceive
      rw [hi]
    dsimp only [Shared.woken] at hinv ⊢
    rw [hpoll] at hinv ⊢
    exact ⟨hinv, h.sending.mono id, h.receiving.register hempty⟩
  | some j =>
    have hnot : ¬ p.shared.channel.state.isEmpty = true := by
      rw [(State.popIndex_eq_some.mp hi).1]
      exact Bool.false_ne_true
    have hpoll : p.shared.channel.pollReceive task = (some j, p.shared.channel, []) := by
      unfold Channel.pollReceive
      rw [hi]
    dsimp only [Shared.woken] at hinv ⊢
    rw [hpoll] at hinv ⊢
    have hchannel : (p.shared.receiving (some j)).channel = p.shared.channel := by
      unfold Shared.receiving
      cases p.shared.receiver <;> rfl
    refine ⟨hinv, ?_, WakerRegistration.guards_of_forall_none
      (Waiting.polled_false_eq_none (Waiting.wake_eq_none (h.receiving.eq_none hnot)))⟩
    show (p.shared.receiving (some j)).channel.state.receiveWaker.Guards _
      ((p.shared.receiving (some j)).channel.state.isFull = true)
    rw [hchannel]
    exact h.sending.mono id

theorem PartiesInv.same (h : PartiesInv p) {w : Shared T} {ts : List TaskRef} (hinv : w.Inv)
    (hw : w.channel.state = p.shared.channel.state) :
    PartiesInv ⟨w, Waiting.wake p.sending ts, Waiting.wake p.receiving ts⟩ := by
  refine ⟨hinv, ?_, ?_⟩
  · show w.channel.state.receiveWaker.Guards _ (w.channel.state.isFull = true)
    rw [hw]
    exact h.sending.mono id
  · show w.channel.state.sendWaker.Guards _ (w.channel.state.isEmpty = true)
    rw [hw]
    exact h.receiving.mono id

theorem PartiesInv.stepShared (h : PartiesInv p) {a : Shared.Action T}
    (ha : ∀ task, a ≠ .pollSend task ∧ a ≠ .pollReceive task)
    (hs : p.stepShared a = some p') : PartiesInv p' := by
  obtain ⟨w, hw, rfl⟩ := Option.map_eq_some_iff.mp hs
  have hinv := h.shared.step hw
  cases a with
  | pollSend task => exact absurd rfl (ha task).1
  | pollReceive task => exact absurd rfl (ha task).2
  | trySend =>
    refine h.same hinv ?_
    obtain rfl := Option.some.inj hw
    cases p.shared.channel.trySend <;> rfl
  | tryReceive =>
    refine h.same hinv ?_
    obtain rfl := Option.some.inj hw
    unfold Shared.receiving
    cases p.shared.channel.tryReceive with
    | none => rfl
    | some j => cases p.shared.receiver <;> rfl
  | write x =>
    refine h.same hinv ?_
    obtain ⟨i, -, rfl⟩ := Option.map_eq_some_iff.mp hw
    rfl
  | overwrite x =>
    refine h.same hinv ?_
    obtain ⟨j, -, rfl⟩ := Option.map_eq_some_iff.mp hw
    rfl
  | sendDone =>
    obtain ⟨i, -, hr⟩ := Option.bind_eq_some_iff.mp hw
    obtain ⟨r, hd, rfl⟩ := Option.map_eq_some_iff.mp hr
    rw [Shared.woken, hd]
    obtain ⟨q, hq, rfl⟩ := Option.map_eq_some_iff.mp hd
    obtain ⟨hf, hrw, hsw, hts⟩ := State.wakers_of_pushDone hq
    refine ⟨hinv, ?_, ?_⟩
    -- the channel was not full, so that no sender waits; the receivers are woken
    · exact h.sending.idle (by rw [hf]; exact Bool.false_ne_true)
    · show q.1.sendWaker.Guards (Waiting.wake p.receiving q.2) _
      rw [hsw, hts]
      exact h.receiving.wake
  | receiveDone =>
    obtain ⟨j, -, hr⟩ := Option.bind_eq_some_iff.mp hw
    obtain ⟨r, hd, rfl⟩ := Option.map_eq_some_iff.mp hr
    rw [Shared.woken, hd]
    obtain ⟨q, hq, rfl⟩ := Option.map_eq_some_iff.mp hd
    obtain ⟨he, hsw, hrw, hts⟩ := State.wakers_of_popDone hq
    refine ⟨hinv, ?_, ?_⟩
    · show q.1.receiveWaker.Guards (Waiting.wake p.sending q.2) _
      rw [hrw, hts]
      exact h.sending.wake
    · exact h.receiving.idle (by rw [he]; exact Bool.false_ne_true)

theorem PartiesInv.step (h : PartiesInv p) {a : Action T} (hs : p.step a = some p') :
    PartiesInv p' := by
  cases a with
  | pollSend f task => exact h.pollSend hs
  | dropSend f =>
    obtain rfl := Option.some.inj hs
    exact ⟨h.shared, h.sending.dropped, h.receiving⟩
  | pollReceive f task => exact h.pollReceive hs
  | dropReceive f =>
    obtain rfl := Option.some.inj hs
    exact ⟨h.shared, h.sending, h.receiving.dropped⟩
  | wake task =>
    obtain rfl := Option.some.inj hs
    exact h.same h.shared rfl
  | trySend => exact h.stepShared (by simp) hs
  | write x => exact h.stepShared (by simp) hs
  | sendDone => exact h.stepShared (by simp) hs
  | tryReceive => exact h.stepShared (by simp) hs
  | overwrite x => exact h.stepShared (by simp) hs
  | receiveDone => exact h.stepShared (by simp) hs

/-- **No wakeup is lost, and the two parties never both wait**, whatever the length of the buffer
and the order of the steps. -/
theorem noLostWake_of_reachable {buf : List T} (hc : Channel.new buf = some c)
    (hr : Reachable step (new c) p) : NoLostWake p :=
  (hr.invariant (partiesInv_new hc) fun _ _ _ h hs => h.step hs).noLostWake

/-- With one slot, the receiver waits for it, gets it, and has not given it back when the sender
polls again. -/
def oneSlotRun : List (Action ℕ) :=
  [.pollReceive 0 2, .pollSend 0 1, .write 7, .sendDone, .pollReceive 0 2, .pollSend 0 1]

theorem noLostWake_of_reachable_oneSlotRun : ∃ (c : Channel ℕ) (p : Parties ℕ),
    Channel.new [0] = some c ∧ runList step (new c) oneSlotRun = some p ∧ p.sending 0 = some 1 ∧
      NoLostWake p := by
  have hc : Channel.new [0] = some ⟨[0], ⟨1, 0, 0, false, .new, .new⟩⟩ := rfl
  obtain ⟨p, hp, he⟩ := exists_of_map_runList (r := step) (l := oneSlotRun)
    (s := new (⟨[0], ⟨1, 0, 0, false, .new, .new⟩⟩ : Channel ℕ))
    (f := fun p => p.sending 0) (b := some 1) (by decide)
  exact ⟨_, p, hc, hp, he, noLostWake_of_reachable hc (reachable_of_runList hp)⟩

end Parties

end ZerocopyChannel

end AurixAsync
