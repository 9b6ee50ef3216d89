import AurixAsync.Lib.Run
import AurixAsync.Sync.RingBuffer
import AurixAsync.Sync.WakerRegistration

/-!
# The zero-copy channel

A buffer of elements that are written and read in place, by one sender and one receiver. A slot is
handed out first and finalised later: between the two the sender, or the receiver, holds it. Every
operation is one critical section. `none` is the failure of an assertion.

* `State`, `Channel`, `trySend`, `pollSend`, `sendDone`, `tryReceive`, `pollReceive`,
  `receiveDone`: the code.
* `State.ring`: the indices are those of a `RingBuffer`, of which `push_done` and `pop_done` push
  and pop one.
* `Shared`, `Action`, `step`: the channel with the slots held, and what was finalised and seen.
* `NeverShared`: no slot is held twice, and the receiver sees the slots as they were finalised.
* `neverShared_of_reachable`: this holds in every reachable state.
-/

namespace AurixAsync

namespace ZerocopyChannel

open Transition

/-- The ring of the slots, and a waker for each of the two parties. -/
structure State where
  len : ℕ
  front : ℕ
  back : ℕ
  full : Bool
  sendWaker : WakerRegistration
  receiveWaker : WakerRegistration
deriving DecidableEq, Repr

namespace State

/-- The next index, around the end. -/
def increment (s : State) (i : ℕ) : ℕ := if i + 1 = s.len then 0 else i + 1

/-- `is_full`. -/
def isFull (s : State) : Bool := s.full

/-- `is_empty`. -/
def isEmpty (s : State) : Bool := s.front = s.back && !s.full

/-- `push_index`: the slot that the sender may write. -/
def pushIndex (s : State) : Option ℕ := if s.isFull then none else some s.back

/-- `push_done`, with the tasks it wakes. `none` if its assertion fails. -/
def pushDone (s : State) : Option (State × List TaskRef) :=
  if s.isFull then none
  else
    let back := s.increment s.back
    let w := s.sendWaker.wake
    some ({ s with
      back := back
      full := if back = s.front then true else s.full
      sendWaker := w.1 }, w.2)

/-- `pop_index`: the slot that the receiver may read. -/
def popIndex (s : State) : Option ℕ := if s.isEmpty then none else some s.front

/-- `pop_done`, with the tasks it wakes. `none` if its assertion fails. -/
def popDone (s : State) : Option (State × List TaskRef) :=
  if s.isEmpty then none
  else
    let w := s.receiveWaker.wake
    some ({ s with
      front := s.increment s.front
      full := false
      receiveWaker := w.1 }, w.2)

end State

/-- The slots, and the state. -/
structure Channel (T : Type) where
  buf : List T
  state : State

namespace Channel

variable {T : Type}

/-- `Channel::new`, with its assertion. -/
def new (buf : List T) : Option (Channel T) :=
  if buf.length = 0 then none else some ⟨buf, ⟨buf.length, 0, 0, false, .new, .new⟩⟩

/-- `try_send`: the index of the slot that is handed out. -/
def trySend (c : Channel T) : Option ℕ := c.state.pushIndex

/-- `poll_send`, and each poll of `send`. A sender waits in `receive_waker`. -/
def pollSend (c : Channel T) (task : TaskRef) : Option ℕ × Channel T × List TaskRef :=
  match c.state.pushIndex with
  | some i => (some i, c, [])
  | none =>
    let r := c.state.receiveWaker.register task
    (none, { c with state := { c.state with receiveWaker := r.1 } }, r.2)

/-- `send_done`. -/
def sendDone (c : Channel T) : Option (Channel T × List TaskRef) :=
  c.state.pushDone.map fun r => ({ c with state := r.1 }, r.2)

/-- `try_receive`: the index of the slot. -/
def tryReceive (c : Channel T) : Option ℕ := c.state.popIndex

/-- `poll_receive`, and each poll of `receive`. A receiver waits in `send_waker`. -/
def pollReceive (c : Channel T) (task : TaskRef) : Option ℕ × Channel T × List TaskRef :=
  match c.state.popIndex with
  | some i => (some i, c, [])
  | none =>
    let r := c.state.sendWaker.register task
    (none, { c with state := { c.state with sendWaker := r.1 } }, r.2)

/-- `receive_done`. -/
def receiveDone (c : Channel T) : Option (Channel T × List TaskRef) :=
  c.state.popDone.map fun r => ({ c with state := r.1 }, r.2)

theorem pollSend_eq (c : Channel T) (task : TaskRef) : ∃ r ws, c.pollSend task =
    (c.trySend, { c with state := { c.state with receiveWaker := r } }, ws) := by
  unfold pollSend trySend
  cases c.state.pushIndex with
  | none => exact ⟨_, _, rfl⟩
  | some i => exact ⟨_, _, rfl⟩

theorem pollReceive_eq (c : Channel T) (task : TaskRef) : ∃ r ws, c.pollReceive task =
    (c.tryReceive, { c with state := { c.state with sendWaker := r } }, ws) := by
  unfold pollReceive tryReceive
  cases c.state.popIndex with
  | none => exact ⟨_, _, rfl⟩
  | some i => exact ⟨_, _, rfl⟩

end Channel

/-! ### The indices -/

namespace State

variable {s s' : State} {k l : ℕ} {ws : List TaskRef}

/-- The indices, as those of a ring buffer. -/
def ring (s : State) : RingBuffer s.len := ⟨s.front, s.back, s.full⟩

/-- How many slots are finalised and not yet given back. -/
def count (s : State) : ℕ := s.ring.len

/-- The slot at distance `k` from the front. -/
def slot (s : State) (k : ℕ) : ℕ := (k + s.front) % s.len

theorem increment_eq_mod {i : ℕ} (hi : i < s.len) : s.increment i = (i + 1) % s.len := by
  rw [increment]
  split_ifs with heq
  · rw [heq, Nat.mod_self]
  · rw [Nat.mod_eq_of_lt (by omega)]

theorem isEmpty_iff (h : s.ring.Valid) : s.isEmpty = true ↔ s.count = 0 :=
  RingBuffer.isEmpty_iff h

theorem isFull_iff (h : s.ring.Valid) : s.isFull = true ↔ s.count = s.len :=
  RingBuffer.isFull_iff h

theorem slot_zero (h : s.ring.Valid) : s.slot 0 = s.front := by
  rw [slot, Nat.zero_add]
  exact Nat.mod_eq_of_lt h.start_lt

theorem slot_count (h : s.ring.Valid) : s.slot s.count = s.back := (RingBuffer.stop_eq h).symm

/-- Within one turn of the ring the slots are different. -/
theorem slot_ne (h : s.ring.Valid) (hk : k < l) (hl : l < s.len) : s.slot k ≠ s.slot l := by
  have hf : s.front < s.len := h.start_lt
  have h₁ := Ring.add_mod_cases (j := k) hf (by omega)
  have h₂ := Ring.add_mod_cases (j := l) hf hl.le
  unfold slot
  omega

theorem pushIndex_eq_some : s.pushIndex = some k ↔ s.isFull = false ∧ s.back = k := by
  rw [pushIndex]
  cases s.isFull <;> simp

theorem popIndex_eq_some : s.popIndex = some k ↔ s.isEmpty = false ∧ s.front = k := by
  rw [popIndex]
  cases s.isEmpty <;> simp

theorem count_pos (h : s.ring.Valid) (he : s.isEmpty = false) : 0 < s.count := by
  apply Nat.pos_of_ne_zero
  intro hz
  rw [(isEmpty_iff h).mpr hz] at he
  exact absurd he (by simp)

theorem count_lt (h : s.ring.Valid) (hf : s.isFull = false) : s.count < s.len := by
  apply lt_of_le_of_ne (RingBuffer.len_le h)
  intro hN
  rw [(isFull_iff h).mpr hN] at hf
  exact absurd hf (by simp)

/-- **`push_done` pushes one**, where its assertion holds. -/
theorem pushDone_spec (h : s.ring.Valid) (hf : s.isFull = false) :
    ∃ s' ws, s.pushDone = some (s', ws) ∧ s'.len = s.len ∧ s'.front = s.front ∧
      s'.ring.Valid ∧ s'.count = s.count + 1 := by
  have hlt : s.back < s.len := h.stop_lt
  have hroom : 1 ≤ s.ring.pushBuf.len := by
    have h₀ := (RingBuffer.len_pushBuf h).2
    have h₁ := count_lt h hf
    rw [count] at h₁
    omega
  obtain ⟨b, hb, hvalid, hlen⟩ := RingBuffer.push_spec h hroom
  have hring : b = ⟨s.front, s.increment s.back,
      if s.increment s.back = s.front then true else s.full⟩ := by
    rw [RingBuffer.push, if_neg (by omega)] at hb
    rw [RingBuffer.wrap_eq_mod (show s.ring.stop + 1 ≤ s.len from hlt)] at hb
    have hb := Option.some.inj hb
    rw [← hb, increment_eq_mod hlt, show s.full = false from hf]
    -- both flags say that the start is met again
    by_cases heq : (s.back + 1) % s.len = s.front
    · rw [if_pos heq]
      exact congrArg (RingBuffer.mk _ _) (decide_eq_true heq.symm)
    · rw [if_neg heq]
      exact congrArg (RingBuffer.mk _ _) (decide_eq_false (Ne.symm heq))
  subst hring
  refine ⟨{ s with
    back := s.increment s.back
    full := if s.increment s.back = s.front then true else s.full
    sendWaker := s.sendWaker.wake.1 }, s.sendWaker.wake.2, ?_, rfl, rfl, hvalid, hlen⟩
  rw [pushDone, if_neg (by simp [hf])]

/-- **`pop_done` pops one**, where its assertion holds. -/
theorem popDone_spec (h : s.ring.Valid) (he : s.isEmpty = false) :
    ∃ s' ws, s.popDone = some (s', ws) ∧ s'.len = s.len ∧ s'.front = (s.front + 1) % s.len ∧
      s'.back = s.back ∧ s'.full = false ∧ s'.ring.Valid ∧ s'.count + 1 = s.count := by
  have hlt : s.front < s.len := h.start_lt
  have hdata : 1 ≤ s.ring.popBuf.len := by
    have h₀ := (RingBuffer.len_popBuf h).2
    have h₁ := count_pos h he
    rw [count] at h₁
    omega
  obtain ⟨b, hb, hvalid, hlen⟩ := RingBuffer.pop_spec h hdata
  have hring : b = ⟨s.increment s.front, s.back, false⟩ := by
    rw [RingBuffer.pop, if_neg (by omega)] at hb
    rw [RingBuffer.wrap_eq_mod (show s.ring.start + 1 ≤ s.len from hlt)] at hb
    have hb := Option.some.inj hb
    rw [← hb, increment_eq_mod hlt]
    rfl
  subst hring
  have hle := (RingBuffer.len_popBuf h).1
  refine ⟨{ s with
    front := s.increment s.front
    full := false
    receiveWaker := s.receiveWaker.wake.1 }, s.receiveWaker.wake.2, ?_, rfl,
    increment_eq_mod hlt, rfl, rfl, hvalid, ?_⟩
  · rw [popDone, if_neg (by simp [he])]
  · exact (congrArg (· + 1) hlen).trans (Nat.sub_add_cancel (hdata.trans hle))

end State

/-! ### The channel in use -/

/-- A channel with its sender and its receiver. -/
structure Shared (T : Type) where
  channel : Channel T
  /-- The slot handed to the sender and not yet finalised. -/
  sender : Option ℕ
  /-- The slot handed to the receiver and not yet given back. -/
  receiver : Option ℕ
  /-- The slots finalised so far, with what they held then. -/
  finalised : List (ℕ × T)
  /-- The slots handed to the receiver so far, with what it found. A slot it already holds is not
  handed out anew. -/
  seen : List (ℕ × T)

namespace Shared

variable {T : Type}

/-- Nobody holds a slot. -/
def new (c : Channel T) : Shared T := ⟨c, none, none, [], []⟩

/-- What the sender and the receiver do. -/
inductive Action (T : Type)
  | trySend
  | pollSend (task : TaskRef)
  /-- The sender writes its slot. -/
  | write (x : T)
  | sendDone
  | tryReceive
  | pollReceive (task : TaskRef)
  /-- The receiver writes its slot: it has a `&mut T`, too. -/
  | overwrite (x : T)
  | receiveDone

/-- A successful `try_send` or poll. -/
def sending (w : Shared T) : Option ℕ → Shared T
  | some i => { w with sender := some i }
  | none => w

/-- A successful `try_receive` or poll. -/
def receiving (w : Shared T) : Option ℕ → Shared T
  | some j =>
    match w.receiver with
    | some _ => { w with receiver := some j }
    | none =>
      { w with
        receiver := some j
        seen := w.seen ++ (w.channel.buf[j]?.map (j, ·)).toList }
  | none => w

/-- `x` is written to slot `i`. -/
def writing (w : Shared T) (i : ℕ) (x : T) : Shared T :=
  { w with channel := { w.channel with buf := w.channel.buf.set i x } }

/-- `none` where the sender or the receiver holds no slot it could write or finalise, and for the
failure of an assertion. -/
def step (w : Shared T) : Action T → Option (Shared T)
  | .trySend => some (w.sending w.channel.trySend)
  | .pollSend task =>
    some ({ w with channel := (w.channel.pollSend task).2.1 }.sending
      (w.channel.pollSend task).1)
  | .write x => w.sender.map (w.writing · x)
  | .sendDone =>
    w.sender.bind fun i =>
      w.channel.sendDone.map fun r =>
        { w with
          channel := r.1
          sender := none
          finalised := w.finalised ++ (w.channel.buf[i]?.map (i, ·)).toList }
  | .tryReceive => some (w.receiving w.channel.tryReceive)
  | .pollReceive task =>
    some ({ w with channel := (w.channel.pollReceive task).2.1 }.receiving
      (w.channel.pollReceive task).1)
  | .overwrite x => w.receiver.map (w.writing · x)
  | .receiveDone =>
    w.receiver.bind fun _ =>
      w.channel.receiveDone.map fun r => { w with channel := r.1, receiver := none }

/-- What is finalised and was not handed to the receiver yet. -/
def unseen (w : Shared T) : List (ℕ × T) := w.finalised.drop w.seen.length

/-- The slots are never shared. -/
structure NeverShared (w : Shared T) : Prop where
  exclusive : ∀ i j, w.sender = some i → w.receiver = some j → i ≠ j
  sender_lt : ∀ i, w.sender = some i → i < w.channel.buf.length
  receiver_lt : ∀ j, w.receiver = some j → j < w.channel.buf.length
  /-- The slots were seen in the order they were finalised, each once. -/
  order : w.seen <+: w.finalised
  /-- What the receiver holds is what was seen last. -/
  held : ∀ j, w.receiver = some j → w.channel.tryReceive = some j ∧
    ∃ x, w.seen.getLast? = some (j, x)
  /-- What it gets next is the first slot it has not seen, if there is one. -/
  next : w.receiver = none → w.channel.tryReceive = w.unseen.head?.map Prod.fst
  /-- The slots it has not seen hold what was finalised. -/
  contents : ∀ p ∈ w.unseen, w.channel.buf[p.1]? = some p.2
  sendDone : w.sender ≠ none → w.channel.sendDone ≠ none
  receiveDone : w.receiver ≠ none → w.channel.receiveDone ≠ none

/-- The receiver holds the first of the slots counted. -/
def taken (w : Shared T) : ℕ := w.receiver.toList.length

/-- The slots held are those that the state offers, and the receiver has seen what was finalised, in
order. -/
structure Inv (w : Shared T) : Prop where
  valid : w.channel.state.ring.Valid
  len : w.channel.buf.length = w.channel.state.len
  sender : ∀ i, w.sender = some i → w.channel.state.pushIndex = some i
  receiver : ∀ j, w.receiver = some j → w.channel.state.popIndex = some j ∧
    ∃ x, w.seen.getLast? = some (j, x)
  order : w.seen <+: w.finalised
  /-- The unseen slots follow each other, up to the back. -/
  slots : w.unseen.map Prod.fst =
    (List.range' w.taken (w.channel.state.count - w.taken)).map w.channel.state.slot
  contents : ∀ p ∈ w.unseen, w.channel.buf[p.1]? = some p.2

variable {w w' : Shared T} {i j : ℕ} {c : Channel T}

theorem inv_new {buf : List T} (h : Channel.new buf = some c) : (new c).Inv := by
  unfold Channel.new at h
  split_ifs at h with hlen
  obtain rfl := Option.some.inj h
  exact
    { valid := RingBuffer.valid_new (Nat.pos_of_ne_zero hlen)
      len := rfl
      sender := fun i hi => absurd hi (by simp [new])
      receiver := fun j hj => absurd hj (by simp [new])
      order := List.nil_prefix
      slots := rfl
      contents := fun p hp => absurd hp List.not_mem_nil }

theorem Inv.finalised_eq (h : w.Inv) : w.finalised = w.seen ++ w.unseen :=
  (List.prefix_iff_eq_append.mp h.order).symm

theorem taken_of_receiver (hj : w.receiver = some j) : w.taken = 1 := by
  rw [taken, hj]
  rfl

theorem Inv.taken_cases (h : w.Inv) : w.receiver = none ∧ w.taken = 0 ∨
    w.receiver = some w.channel.state.front ∧ w.taken = 1 ∧ 0 < w.channel.state.count := by
  cases hr : w.receiver with
  | none => exact Or.inl ⟨rfl, by rw [taken, hr]; rfl⟩
  | some j =>
    obtain ⟨he, rfl⟩ := State.popIndex_eq_some.mp (h.receiver j hr).1
    exact Or.inr ⟨rfl, taken_of_receiver hr, State.count_pos h.valid he⟩

theorem Inv.exists_slot (h : w.Inv) {p : ℕ × T} (hp : p ∈ w.unseen) :
    ∃ k, w.taken ≤ k ∧ k < w.channel.state.count ∧ w.channel.state.slot k = p.1 := by
  have hm := List.mem_map_of_mem (f := Prod.fst) hp
  rw [h.slots, List.mem_map] at hm
  obtain ⟨k, hk, he⟩ := hm
  obtain ⟨h₁, h₂⟩ := List.mem_range'_1.mp hk
  exact ⟨k, h₁, by omega, he⟩

/-! ### The actions -/

theorem Inv.sending (h : w.Inv) {o : Option ℕ}
    (ho : ∀ i, o = some i → w.channel.state.pushIndex = some i) : (w.sending o).Inv := by
  cases o with
  | none => exact h
  | some i =>
    refine { h with sender := fun i' hi' => ?_ }
    obtain rfl := Option.some.inj hi'
    exact ho _ rfl

theorem Inv.receiving (h : w.Inv) {o : Option ℕ}
    (ho : ∀ j, o = some j → w.channel.state.popIndex = some j) : (w.receiving o).Inv := by
  cases o with
  | none => exact h
  | some j =>
    obtain ⟨he, rfl⟩ := State.popIndex_eq_some.mp (ho j rfl)
    rcases h.taken_cases with ⟨hr, ht⟩ | ⟨hr, -, -⟩
    · -- the first of the unseen slots
      have hpos := State.count_pos h.valid he
      have hslots := h.slots
      rw [ht, Nat.sub_zero, ← Nat.sub_add_cancel hpos, List.range'_succ, List.map_cons,
        State.slot_zero h.valid] at hslots
      obtain ⟨p, rest, hu, hp, hrest⟩ := List.map_eq_cons_iff.mp hslots
      have hbuf := h.contents p (hu ▸ List.mem_cons_self)
      have hfin : w.finalised = (w.seen ++ [p]) ++ rest := by
        rw [h.finalised_eq, hu, List.append_assoc]
        rfl
      have hw : w.receiving (some w.channel.state.front) =
          { w with receiver := some w.channel.state.front, seen := w.seen ++ [p] } := by
        unfold Shared.receiving
        rw [hr]
        dsimp only
        rw [← hp, hbuf]
        rfl
      have hunseen : (w.receiving (some w.channel.state.front)).unseen = rest := by
        rw [hw]
        show w.finalised.drop (w.seen ++ [p]).length = rest
        rw [hfin, List.drop_left]
      rw [hw] at hunseen ⊢
      refine
        { valid := h.valid
          len := h.len
          sender := h.sender
          receiver := fun j hj => ?_
          order := ⟨rest, hfin.symm⟩
          slots := by rw [hunseen]; exact hrest
          contents := fun q hq => h.contents q (hu ▸ List.mem_cons_of_mem _ (hunseen ▸ hq)) }
      obtain rfl := Option.some.inj hj
      exact ⟨ho _ rfl, p.2, by rw [List.getLast?_concat, ← hp]⟩
    · -- it holds this slot already
      have hw : w.receiving (some w.channel.state.front) = w := by
        unfold Shared.receiving
        rw [hr]
        dsimp only
        rw [← hr]
      rw [hw]
      exact h

theorem Inv.registered (h : w.Inv) (r₁ r₂ : WakerRegistration) :
    ({ w with
        channel :=
          { w.channel with
            state := { w.channel.state with
              sendWaker := r₁
              receiveWaker := r₂ } } } : Shared T).Inv :=
  ⟨h.valid, h.len, h.sender, h.receiver, h.order, h.slots, h.contents⟩

theorem Inv.writing (h : w.Inv) (x : T) (hi : ∀ p ∈ w.unseen, p.1 ≠ i) : (w.writing i x).Inv := by
  refine { h with len := List.length_set.trans h.len, contents := fun p hp => ?_ }
  show (w.channel.buf.set i x)[p.1]? = some p.2
  rw [List.getElem?_set_ne (hi p hp).symm]
  exact h.contents p hp

theorem Inv.sendDone (h : w.Inv) (hi : w.sender = some i) : ∃ r x,
    w.channel.sendDone = some r ∧ w.channel.buf[i]? = some x ∧
      ({ w with
          channel := r.1
          sender := none
          finalised := w.finalised ++ [(i, x)] } : Shared T).Inv := by
  obtain ⟨hf, rfl⟩ := State.pushIndex_eq_some.mp (h.sender i hi)
  obtain ⟨s', ws, hd, hlen, hfront, hvalid, hcount⟩ := State.pushDone_spec h.valid hf
  have hlt : w.channel.state.back < w.channel.buf.length := by
    rw [h.len]
    exact h.valid.stop_lt
  obtain ⟨x, hx⟩ : ∃ x, w.channel.buf[w.channel.state.back]? = some x :=
    ⟨_, List.getElem?_eq_getElem hlt⟩
  have hslot : s'.slot = w.channel.state.slot := by
    funext k
    rw [State.slot, State.slot, hlen, hfront]
  have htaken : w.taken ≤ w.channel.state.count := by
    rcases h.taken_cases with ⟨-, ht⟩ | ⟨-, ht, hc⟩ <;> omega
  have hunseen : (w.finalised ++ [(w.channel.state.back, x)]).drop w.seen.length =
      w.unseen ++ [(w.channel.state.back, x)] :=
    List.drop_append_of_le_length h.order.length_le
  refine ⟨⟨{ w.channel with state := s' }, ws⟩, x, ?_, hx, ?_⟩
  · rw [Channel.sendDone, hd]
    rfl
  · refine
      { valid := hvalid
        len := h.len.trans hlen.symm
        sender := fun i hi => absurd hi (by simp)
        receiver := fun j hj => ⟨?_, (h.receiver j hj).2⟩
        order := h.order.trans (List.prefix_append _ _)
        slots := ?_
        contents := fun p hp => ?_ }
    · obtain ⟨he, rfl⟩ := State.popIndex_eq_some.mp (h.receiver j hj).1
      refine State.popIndex_eq_some.mpr ⟨?_, hfront⟩
      rw [← Bool.not_eq_true, State.isEmpty_iff hvalid]
      omega
    · show ((w.finalised ++ [(w.channel.state.back, x)]).drop w.seen.length).map Prod.fst =
        (List.range' w.taken (s'.count - w.taken)).map s'.slot
      rw [hunseen, hslot, hcount, Nat.sub_add_comm htaken, List.range'_1_concat, List.map_append,
        List.map_append, h.slots, Nat.add_sub_cancel' htaken, List.map_singleton,
        List.map_singleton, State.slot_count h.valid]
    · have hp : p ∈ (w.finalised ++ [(w.channel.state.back, x)]).drop w.seen.length := hp
      rw [hunseen] at hp
      rcases List.mem_append.mp hp with hp | hp
      · exact h.contents p hp
      · obtain rfl := List.mem_singleton.mp hp
        exact hx

theorem Inv.receiveDone (h : w.Inv) (hj : w.receiver = some j) : ∃ r,
    w.channel.receiveDone = some r ∧
      ({ w with
          channel := r.1
          receiver := none } : Shared T).Inv := by
  obtain ⟨he, rfl⟩ := State.popIndex_eq_some.mp (h.receiver j hj).1
  obtain ⟨s', ws, hd, hlen, hfront, hback, hfull, hvalid, hcount⟩ := State.popDone_spec h.valid he
  have htaken := taken_of_receiver hj
  -- the slots are counted from the next one now
  have hslot : w.channel.state.slot ∘ (1 + ·) = s'.slot := by
    funext k
    show (1 + k + w.channel.state.front) % w.channel.state.len = (k + s'.front) % s'.len
    rw [hlen, hfront, Nat.add_mod_mod]
    congr 1
    omega
  refine ⟨⟨{ w.channel with state := s' }, ws⟩, ?_, ?_⟩
  · rw [Channel.receiveDone, hd]
    rfl
  · refine
      { valid := hvalid
        len := h.len.trans hlen.symm
        sender := fun i hi => ?_
        receiver := fun j hj => absurd hj (by simp)
        order := h.order
        slots := ?_
        contents := h.contents }
    · obtain ⟨-, rfl⟩ := State.pushIndex_eq_some.mp (h.sender i hi)
      exact State.pushIndex_eq_some.mpr ⟨hfull, hback⟩
    · show w.unseen.map Prod.fst = (List.range' 0 s'.count).map s'.slot
      rw [h.slots, htaken, ← hcount, Nat.add_sub_cancel, ← hslot, ← List.map_map,
        List.map_add_range', Nat.add_zero]

theorem Inv.unseen_ne_sender (h : w.Inv) (hi : w.sender = some i) : ∀ p ∈ w.unseen, p.1 ≠ i := by
  intro p hp
  obtain ⟨hf, rfl⟩ := State.pushIndex_eq_some.mp (h.sender i hi)
  obtain ⟨k, -, hk, he⟩ := h.exists_slot hp
  rw [← he, ← State.slot_count h.valid]
  exact State.slot_ne h.valid hk (State.count_lt h.valid hf)

theorem Inv.unseen_ne_receiver (h : w.Inv) (hj : w.receiver = some j) :
    ∀ p ∈ w.unseen, p.1 ≠ j := by
  intro p hp
  obtain ⟨-, rfl⟩ := State.popIndex_eq_some.mp (h.receiver j hj).1
  obtain ⟨k, hle, hk, he⟩ := h.exists_slot hp
  have htaken := taken_of_receiver hj
  have hlen : w.channel.state.count ≤ w.channel.state.len := RingBuffer.len_le h.valid
  rw [← he, ← State.slot_zero h.valid]
  exact (State.slot_ne h.valid (by omega) (by omega)).symm

theorem Inv.step (h : w.Inv) {a : Action T} (hs : w.step a = some w') : w'.Inv := by
  cases a with
  | trySend =>
    obtain rfl := Option.some.inj hs
    exact h.sending fun i hi => hi
  | pollSend task =>
    obtain rfl := Option.some.inj hs
    obtain ⟨r, ws, he⟩ := w.channel.pollSend_eq task
    rw [he]
    exact (h.registered _ r).sending fun i hi => hi
  | write x =>
    obtain ⟨i, hi, rfl⟩ := Option.map_eq_some_iff.mp hs
    exact h.writing x (h.unseen_ne_sender hi)
  | sendDone =>
    obtain ⟨i, hi, hr⟩ := Option.bind_eq_some_iff.mp hs
    obtain ⟨r', x, hd, hx, hinv⟩ := h.sendDone hi
    rw [hd, hx] at hr
    obtain rfl := Option.some.inj hr
    exact hinv
  | tryReceive =>
    obtain rfl := Option.some.inj hs
    exact h.receiving fun j hj => hj
  | pollReceive task =>
    obtain rfl := Option.some.inj hs
    obtain ⟨r, ws, he⟩ := w.channel.pollReceive_eq task
    rw [he]
    exact (h.registered r _).receiving fun j hj => hj
  | overwrite x =>
    obtain ⟨j, hj, rfl⟩ := Option.map_eq_some_iff.mp hs
    exact h.writing x (h.unseen_ne_receiver hj)
  | receiveDone =>
    obtain ⟨j, hj, hr⟩ := Option.bind_eq_some_iff.mp hs
    obtain ⟨r', hd, hinv⟩ := h.receiveDone hj
    rw [hd] at hr
    obtain rfl := Option.some.inj hr
    exact hinv

/-- The slots of the sender and of the receiver differ. -/
theorem Inv.exclusive (h : w.Inv) (hi : w.sender = some i) (hj : w.receiver = some j) :
    i ≠ j := by
  obtain ⟨hf, rfl⟩ := State.pushIndex_eq_some.mp (h.sender i hi)
  obtain ⟨he, rfl⟩ := State.popIndex_eq_some.mp (h.receiver j hj).1
  rw [← State.slot_count h.valid, ← State.slot_zero h.valid]
  exact (State.slot_ne h.valid (State.count_pos h.valid he) (State.count_lt h.valid hf)).symm

theorem Inv.next (h : w.Inv) (hr : w.receiver = none) :
    w.channel.tryReceive = w.unseen.head?.map Prod.fst := by
  have hslots := h.slots
  rw [taken, hr, Option.toList_none, List.length_nil, Nat.sub_zero] at hslots
  rw [← List.head?_map, hslots, List.head?_map, List.head?_range']
  show State.popIndex _ = _
  cases he : w.channel.state.isEmpty with
  | true =>
    rw [State.popIndex, he, (State.isEmpty_iff h.valid).mp he]
    rfl
  | false =>
    have hpos := State.count_pos h.valid he
    rw [State.popIndex, he, if_neg hpos.ne', Option.map_some, State.slot_zero h.valid]
    rfl

theorem Inv.neverShared (h : w.Inv) : w.NeverShared where
  exclusive _ _ hi hj := h.exclusive hi hj
  sender_lt i hi := by
    obtain ⟨-, rfl⟩ := State.pushIndex_eq_some.mp (h.sender i hi)
    rw [h.len]
    exact h.valid.stop_lt
  receiver_lt j hj := by
    obtain ⟨-, rfl⟩ := State.popIndex_eq_some.mp (h.receiver j hj).1
    rw [h.len]
    exact h.valid.start_lt
  order := h.order
  held j hj := h.receiver j hj
  next hr := h.next hr
  contents := h.contents
  sendDone hi := by
    obtain ⟨i, hi⟩ := Option.ne_none_iff_exists'.mp hi
    obtain ⟨r, x, hd, -⟩ := h.sendDone hi
    rw [hd]
    exact Option.some_ne_none r
  receiveDone hj := by
    obtain ⟨j, hj⟩ := Option.ne_none_iff_exists'.mp hj
    obtain ⟨r, hd, -⟩ := h.receiveDone hj
    rw [hd]
    exact Option.some_ne_none r

/-- **No slot is ever shared**, whatever the length of the buffer and the order of the steps. -/
theorem neverShared_of_reachable {buf : List T} (hc : Channel.new buf = some c)
    (hr : Reachable step (new c) w) : w.NeverShared :=
  (hr.invariant (inv_new hc) fun _ _ _ h hs => h.step hs).neverShared

/-- Both slots of a buffer of two are finalised, and the receiver holds the first one while the
sender finds the buffer full; then the indices go around the end. -/
def wrapRun : List (Action ℕ) :=
  [.trySend, .write 7, .sendDone, .pollSend 1, .write 8, .tryReceive, .sendDone, .pollSend 1,
    .overwrite 0, .receiveDone, .trySend, .write 9, .pollReceive 2]

theorem neverShared_of_reachable_wrapRun : ∃ c w, Channel.new [0, 0] = some c ∧
    runList step (new c) wrapRun = some w ∧ w.NeverShared ∧ w.sender = some 0 ∧
    w.receiver = some 1 ∧ w.finalised = [(0, 7), (1, 8)] ∧ w.seen = [(0, 7), (1, 8)] := by
  have hc : Channel.new [0, 0] = some ⟨[0, 0], ⟨2, 0, 0, false, .new, .new⟩⟩ := rfl
  obtain ⟨w, hw, he⟩ := exists_of_map_runList (r := step) (l := wrapRun)
    (s := new (⟨[0, 0], ⟨2, 0, 0, false, .new, .new⟩⟩ : Channel ℕ))
    (f := fun w => (w.sender, w.receiver, w.finalised, w.seen))
    (b := (some 0, some 1, [(0, 7), (1, 8)], [(0, 7), (1, 8)])) (by decide)
  simp only [Prod.mk.injEq] at he
  exact ⟨_, w, hc, hw, neverShared_of_reachable hc (reachable_of_runList hw), he⟩

end Shared

end ZerocopyChannel

end AurixAsync
