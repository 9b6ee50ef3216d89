import AurixAsync.Lib.Delivery
import AurixAsync.Sync.PubSubBackPressure

/-!
# What the subscribers of a PubSub channel get

A channel with the messages that took an id, the ids of those evicted, and the results of each live
subscriber.

* `Covers`: results that account for the messages from one id up to another.
* `Logged`, `step`: the channel with its log and the histories of its subscribers.
* `Accounts`: the results of every live subscriber cover the messages from its creation up to its
  `next_message_id`, and no counter of the queue falls below zero.
* `accounts_of_reachable`: this holds in every reachable state.
-/

namespace AurixAsync

namespace PubSub

open Transition Readers

variable {α : Type} {CAP SUBS PUBS : ℕ}

/-- The results, in order, account for the messages from the id `n` up to the id `next`: a message
is the one of the log with this id, and a lag is over messages that were evicted. -/
def Covers (log : List α) (evicted : List ℕ) : ℕ → List (WaitResult α) → ℕ → Prop
  | n, [], next => n = next
  | n, .message m :: results, next => log[n]? = some m ∧ Covers log evicted (n + 1) results next
  | n, .lagged amount :: results, next =>
    (∀ id, n ≤ id → id < n + amount → id ∈ evicted) ∧
      Covers log evicted (n + amount) results next

section Covers

variable {log log' : List α} {evicted evicted' : List ℕ} {n next : ℕ}
  {results : List (WaitResult α)}

theorem Covers.append {results' : List (WaitResult α)} {id : ℕ}
    (h : Covers log evicted n results id) (h' : Covers log evicted id results' next) :
    Covers log evicted n (results ++ results') next := by
  induction results generalizing n with
  | nil =>
    obtain rfl : n = id := h
    exact h'
  | cons r results ih =>
    cases r with
    | lagged amount => exact ⟨h.1, ih h.2⟩
    | message m => exact ⟨h.1, ih h.2⟩

theorem Covers.mono (h : Covers log evicted n results next) (hlog : log <+: log')
    (hev : ∀ id ∈ evicted, id ∈ evicted') : Covers log' evicted' n results next := by
  induction results generalizing n with
  | nil => exact h
  | cons r results ih =>
    cases r with
    | lagged amount => exact ⟨fun id h₁ h₂ => hev id (h.1 id h₁ h₂), ih h.2⟩
    | message m =>
      obtain ⟨rest, rfl⟩ := hlog
      refine ⟨?_, ih h.2⟩
      rw [List.getElem?_append_left (List.getElem?_eq_some_iff.mp h.1).1]
      exact h.1

end Covers

/-! ### The machine -/

/-- The next id of the channel when a subscriber was created, and what the subscriber got since. -/
structure History (α : Type) where
  created : ℕ
  results : List (WaitResult α)
deriving DecidableEq

/-- A channel, the messages that took an id, by their ids, the ids of those evicted, and the history
of each live subscriber. -/
structure Logged (α : Type) (CAP SUBS PUBS : ℕ) where
  channel : Channel α CAP SUBS PUBS
  log : List α
  evicted : List ℕ
  histories : List (History α)

namespace Logged

open Channel

/-- An empty channel. -/
def new : Logged α CAP SUBS PUBS := ⟨.new, [], [], []⟩

/-- The message that an action publishes. -/
def published : Action α → Option α
  | .pollPublish _ _ message => some message
  | .tryPublish message => some message
  | .publishImmediate message => some message
  | _ => none

/-- The log after a step that led to this state of the channel. -/
def logAfter (s : Logged α CAP SUBS PUBS) (a : Action α) (state : PubSubState α CAP SUBS PUBS) :
    List α :=
  if state.nextMessageId = s.channel.state.nextMessageId then s.log
  else s.log ++ (published a).toList

/-- `publish_immediate` on a full queue evicts the oldest message. -/
def evictedAfter (s : Logged α CAP SUBS PUBS) : Action α → List ℕ
  | .publishImmediate _ =>
    if s.channel.state.queue.isFull ∧ s.channel.state.queue.items.length ≠ 0 then
      s.evicted ++ [s.channel.state.startId]
    else s.evicted
  | _ => s.evicted

/-- The result of a read of the `i`-th subscriber, `none` for pending. -/
def result (s : Logged α CAP SUBS PUBS) (i : ℕ) (cx : Option TaskRef) : Option (WaitResult α) :=
  (s.channel.subs[i]?).bind fun id =>
    (s.channel.state.getMessageWithContext id cx).bind fun r => r.1.1

/-- The histories after an action that leads to the channel `c`. -/
def historiesAfter (s : Logged α CAP SUBS PUBS) (c : Channel α CAP SUBS PUBS) :
    Action α → List (History α)
  | .subscriber =>
    if c.subs.length = s.channel.subs.length then s.histories
    else s.histories ++ [⟨s.channel.state.nextMessageId, []⟩]
  | .dropSubscriber i => s.histories.eraseIdx i
  | .read i cx =>
    s.histories.modify i fun h => { h with results := h.results ++ (s.result i cx).toList }
  | _ => s.histories

/-- A step of the channel, with what it adds to the log, the evictions and the histories. -/
def step (s : Logged α CAP SUBS PUBS) (a : Action α) : Option (Logged α CAP SUBS PUBS) :=
  (s.channel.step a).map fun c =>
    ⟨c, s.logAfter a c.state, s.evictedAfter a, s.historiesAfter c a⟩

/-- **Every message is accounted for.** -/
structure Accounts (s : Logged α CAP SUBS PUBS) : Prop where
  /-- The messages published have the ids below the next one. -/
  log : s.log.length = s.channel.state.nextMessageId
  histories : s.histories.length = s.channel.subs.length
  /-- The results of a live subscriber cover the messages from its creation on up to its
  `next_message_id`. -/
  covers : ∀ (i : ℕ) (h : History α) (id : ℕ), s.histories[i]? = some h →
    s.channel.subs[i]? = some id → Covers s.log s.evicted h.created h.results id
  /-- No counter and no id falls below zero or overflows. -/
  read_isSome : ∀ id ∈ s.channel.subs, ∀ cx, (s.channel.state.getMessageWithContext id cx).isSome
  drop_isSome : ∀ id ∈ s.channel.subs, (s.channel.state.unregisterSubscriber id).isSome
  publish_isSome : s.channel.state.nextMessageId + 1 < 2 ^ 64 →
    ∀ message, (s.channel.state.tryPublish message).isSome

/-! ### The invariant -/

/-- The histories of the subscribers, each up to the subscriber's next message. -/
structure Covered (log : List α) (evicted : List ℕ) (histories : List (History α))
    (subs : List ℕ) : Prop where
  length : histories.length = subs.length
  covers : ∀ (i : ℕ) (h : History α) (id : ℕ), histories[i]? = some h → subs[i]? = some id →
    Covers log evicted h.created h.results id

/-- The queue is the end of the log, and what a subscriber has missed was evicted. -/
structure LogInv (s : Logged α CAP SUBS PUBS) : Prop where
  count : s.channel.state.subscriberCount = s.channel.subs.length
  room : s.channel.subs.length ≤ SUBS
  next : s.channel.state.nextMessageId = s.log.length
  bound : s.channel.state.nextMessageId < 2 ^ 64
  kept : Kept s.channel.subs s.evicted s.log s.channel.state.queue.items
  covered : Covered s.log s.evicted s.histories s.channel.subs

variable {s s' : Logged α CAP SUBS PUBS}

theorem logInv_new : LogInv (new : Logged α CAP SUBS PUBS) where
  count := rfl
  room := Nat.zero_le _
  next := rfl
  bound := Nat.two_pow_pos 64
  kept := kept_nil
  covered := ⟨rfl, fun i h id hh => absurd hh (by simp [new])⟩

theorem LogInv.startId_eq (hi : LogInv s) :
    s.channel.state.startId = s.log.length - s.channel.state.queue.items.length := by
  rw [PubSubState.startId, hi.next]

theorem LogInv.length_le (hi : LogInv s) :
    s.channel.state.queue.items.length ≤ s.channel.state.nextMessageId := by
  rw [hi.next]
  exact hi.kept.length_le

theorem LogInv.register_isSome (hi : LogInv s) {id : ℕ} (hid : id ∈ s.channel.subs)
    (cx : Option TaskRef) : ∃ reg, s.channel.state.subscriberWakers.registerCx cx = some reg := by
  have hroom := hi.room
  have hpos := List.length_pos_of_mem hid
  cases cx with
  | none => exact ⟨_, rfl⟩
  | some w =>
    cases hreg : s.channel.state.subscriberWakers.register w with
    | none =>
      have := MultiWakerRegistration.register_eq_none hreg
      omega
    | some reg => exact ⟨reg, hreg⟩

theorem LogInv.getMessage_isSome (hi : LogInv s) {id : ℕ} (hid : id ∈ s.channel.subs) :
    ∃ r, s.channel.state.getMessage id = some r := by
  unfold PubSubState.getMessage
  rw [PubSubState.checkedSub_startId hi.length_le, Option.bind_some]
  by_cases hlt : id < s.channel.state.startId
  · rw [if_pos hlt]
    exact ⟨_, rfl⟩
  · rw [if_neg hlt]
    cases hx : s.channel.state.queue.items[id - s.channel.state.startId]? with
    | none => exact ⟨_, rfl⟩
    | some x =>
      have hstart := hi.startId_eq
      have hne : x.2 ≠ 0 := hi.kept.atLeast.ne_zero hid (by omega) hx
      have hsub : checkedSub x.2 1 = some (x.2 - 1) :=
        checkedSub_eq_some.mpr ⟨Nat.one_le_iff_ne_zero.mpr hne, rfl⟩
      simp only [hsub, Option.bind_some]
      by_cases hz : id - s.channel.state.startId = 0 ∧ x.2 - 1 = 0
      · rw [if_pos hz]
        have hj := (List.getElem?_eq_some_iff.mp hx).1
        cases hp : (PubSubState.setCounter s.channel.state.queue
            (id - s.channel.state.startId) (x.1, x.2 - 1)).popFront with
        | none =>
          have hnil := Deque.popFront_eq_none.mp hp
          rw [PubSubState.items_setCounter] at hnil
          have hlen := congrArg List.length hnil
          rw [List.length_set, List.length_nil] at hlen
          omega
        | some p => exact ⟨_, rfl⟩
      · rw [if_neg hz]
        exact ⟨_, rfl⟩

/-- **The invariant accounts for the messages.** -/
theorem LogInv.accounts (hi : LogInv s) : Accounts s where
  log := hi.next.symm
  histories := hi.covered.length
  covers := hi.covered.covers
  read_isSome id hid cx := by
    have hbound := hi.bound
    have hnext := hi.next
    have hle := hi.length_le
    have hstart : s.channel.state.startId + s.channel.state.queue.items.length =
        s.channel.state.nextMessageId := Nat.sub_add_cancel hle
    obtain ⟨r, hr⟩ := hi.getMessage_isSome hid
    unfold PubSubState.getMessageWithContext
    rw [hr, Option.bind_some]
    rcases PubSubState.getMessage_cases hle hr with
      ⟨hlt, rfl⟩ | ⟨j, rfl, ⟨-, rfl⟩ | ⟨m, c, hx, q, hcase⟩⟩
    · have hadd : checkedAdd id (s.channel.state.startId - id) =
          some (id + (s.channel.state.startId - id)) :=
        checkedAdd_eq_some.mpr ⟨by omega, rfl⟩
      simp only [hadd, Option.map_some, Option.isSome_some]
    · obtain ⟨reg, hreg⟩ := hi.register_isSome hid cx
      simp only [hreg, Option.map_some, Option.isSome_some]
    · have hj := (List.getElem?_eq_some_iff.mp hx).1
      have hadd : checkedAdd (s.channel.state.startId + j) 1 =
          some (s.channel.state.startId + j + 1) :=
        checkedAdd_eq_some.mpr ⟨by omega, rfl⟩
      rcases hcase with ⟨-, -, rfl⟩ | ⟨-, -, -, rfl⟩
      · simp only [hadd, Option.map_some, Option.isSome_some]
      · simp only [hadd, Option.map_some, Option.isSome_some]
  drop_isSome id hid := by
    have hpos := List.length_pos_of_mem hid
    have hcount := hi.count
    have hstart := hi.startId_eq
    have hsub : checkedSub s.channel.state.subscriberCount 1 =
        some (s.channel.state.subscriberCount - 1) :=
      checkedSub_eq_some.mpr ⟨by omega, rfl⟩
    unfold PubSubState.unregisterSubscriber
    rw [hsub, Option.bind_some, PubSubState.checkedSub_startId hi.length_le, Option.bind_some]
    by_cases hge : s.channel.state.startId ≤ id
    · have hall : ∀ x ∈ s.channel.state.queue.items.drop (id - s.channel.state.startId),
          x.2 ≠ 0 := by
        intro x hx
        obtain ⟨k, hk⟩ := List.mem_iff_getElem?.mp hx
        rw [List.getElem?_drop] at hk
        exact hi.kept.atLeast.ne_zero hid (by omega) hk
      rw [if_pos hge, PubSubState.decrementFrom, if_pos hall]
      rfl
    · rw [if_neg hge]
      rfl
  publish_isSome hlt message := by
    unfold PubSubState.tryPublish
    by_cases hz : s.channel.state.subscriberCount = 0
    · rw [if_pos hz]
      rfl
    · rw [if_neg hz]
      by_cases hf : s.channel.state.queue.isFull
      · rw [if_pos hf]
        rfl
      · rw [if_neg hf]
        have hadd : checkedAdd s.channel.state.nextMessageId 1 =
            some (s.channel.state.nextMessageId + 1) := checkedAdd_eq_some.mpr ⟨hlt, rfl⟩
        cases hq : s.channel.state.queue.pushBack (message, s.channel.state.subscriberCount) with
        | none => exact absurd (Deque.isFull_iff.mpr (Deque.pushBack_eq_none.mp hq)) hf
        | some q =>
          rw [Option.bind_some, hadd]
          rfl

/-! ### The histories -/

section Covered

variable {log log' : List α} {evicted evicted' subs : List ℕ} {histories : List (History α)}
  {i id id' : ℕ}

theorem Covered.mono (h : Covered log evicted histories subs) (hlog : log <+: log')
    (hev : ∀ id ∈ evicted, id ∈ evicted') : Covered log' evicted' histories subs where
  length := h.length
  covers := fun i hist id hh hid => (h.covers i hist id hh hid).mono hlog hev

theorem Covered.join (h : Covered log evicted histories subs) (n : ℕ) :
    Covered log evicted (histories ++ [⟨n, []⟩]) (subs ++ [n]) := by
  have hlen := h.length
  refine ⟨by rw [List.length_append, List.length_append, hlen]; rfl, fun i hist id hh hid => ?_⟩
  by_cases hi : i < subs.length
  · rw [List.getElem?_append_left (by omega)] at hh hid
    exact h.covers i hist id hh hid
  · rw [List.getElem?_append_right (by omega), List.getElem?_singleton] at hh hid
    split_ifs at hh hid
    obtain rfl := Option.some.inj hh
    exact Option.some.inj hid

theorem Covered.leave (h : Covered log evicted histories subs) (i : ℕ) :
    Covered log evicted (histories.eraseIdx i) (subs.eraseIdx i) := by
  refine ⟨by rw [List.length_eraseIdx, List.length_eraseIdx, h.length], fun k hist id hh hid => ?_⟩
  rw [List.getElem?_eraseIdx] at hh hid
  split_ifs at hh hid
  · exact h.covers k hist id hh hid
  · exact h.covers (k + 1) hist id hh hid

theorem Covered.read (h : Covered log evicted histories subs) (hi : subs[i]? = some id)
    {result : List (WaitResult α)} (hr : Covers log evicted id result id') :
    Covered log evicted (histories.modify i fun hist => { hist with
      results := hist.results ++ result }) (subs.set i id') := by
  refine ⟨by rw [List.length_modify, List.length_set, h.length], fun k hist n hh hn => ?_⟩
  rw [List.getElem?_modify] at hh
  obtain ⟨old, hold, rfl⟩ := Option.map_eq_some_iff.mp hh
  by_cases hk : i = k
  · subst hk
    rw [List.getElem?_set_self (List.getElem?_eq_some_iff.mp hi).1] at hn
    obtain rfl := Option.some.inj hn
    rw [if_pos rfl]
    exact (h.covers i old id hold hi).append hr
  · rw [List.getElem?_set_ne hk] at hn
    rw [if_neg hk]
    exact h.covers k old n hold hn

end Covered

/-! ### The steps -/

theorem logAfter_eq {a : Action α} {state : PubSubState α CAP SUBS PUBS}
    (h : state.nextMessageId = s.channel.state.nextMessageId) : s.logAfter a state = s.log :=
  if_pos h

theorem LogInv.of_log_eq {a : Action α} {c : Channel α CAP SUBS PUBS} {evicted : List ℕ}
    {histories : List (History α)}
    (hnext : c.state.nextMessageId = s.channel.state.nextMessageId)
    (h : LogInv ⟨c, s.log, evicted, histories⟩) :
    LogInv ⟨c, s.logAfter a c.state, evicted, histories⟩ := by
  rw [logAfter_eq hnext]
  exact h

theorem LogInv.same (hi : LogInv s) {a : Action α} {c : Channel α CAP SUBS PUBS}
    (hcount : c.state.subscriberCount = s.channel.state.subscriberCount)
    (hnext : c.state.nextMessageId = s.channel.state.nextMessageId)
    (hq : c.state.queue = s.channel.state.queue) (hsubs : c.subs = s.channel.subs) :
    LogInv ⟨c, s.logAfter a c.state, s.evicted, s.histories⟩ := by
  apply LogInv.of_log_eq hnext
  refine ⟨?_, ?_, ?_, ?_, ?_, ?_⟩
  · show c.state.subscriberCount = c.subs.length
    rw [hcount, hsubs, hi.count]
  · show c.subs.length ≤ SUBS
    rw [hsubs]
    exact hi.room
  · exact hnext.trans hi.next
  · show c.state.nextMessageId < 2 ^ 64
    rw [hnext]
    exact hi.bound
  · show Kept c.subs s.evicted s.log c.state.queue.items
    rw [hsubs, hq]
    exact hi.kept
  · show Covered s.log s.evicted s.histories c.subs
    rw [hsubs]
    exact hi.covered

/-- A message that is taken goes to the end of the log, unless there is no subscriber. -/
theorem LogInv.publish (hi : LogInv s) {a : Action α} {message : α}
    (ha : published a = some message) {state : PubSubState α CAP SUBS PUBS}
    {p : PubSubState α CAP SUBS PUBS × List TaskRef}
    (hp : state.tryPublish message = some (.ok (), p))
    (hcount : state.subscriberCount = s.channel.state.subscriberCount)
    (hnext : state.nextMessageId = s.channel.state.nextMessageId) {evicted : List ℕ}
    (hk : Kept s.channel.subs evicted s.log state.queue.items)
    (hev : ∀ id ∈ s.evicted, id ∈ evicted) {c : Channel α CAP SUBS PUBS}
    (hstate : c.state = p.1) (hsubs : c.subs = s.channel.subs) :
    LogInv ⟨c, s.logAfter a c.state, evicted, s.histories⟩ := by
  obtain ⟨st, subs, pub⟩ := c
  obtain rfl : st = p.1 := hstate
  obtain rfl : subs = s.channel.subs := hsubs
  have hbound : p.1.nextMessageId < 2 ^ 64 :=
    PubSubState.nextMessageId_lt (hnext.trans_lt hi.bound) hp
  rcases PubSubState.tryPublish_cases hp with ⟨-, hr⟩ | ⟨-, -, hr⟩ | ⟨-, -, q, hq, hr⟩
  · obtain rfl := (Prod.mk.inj hr).2
    rw [logAfter_eq hnext]
    exact ⟨hcount.trans hi.count, hi.room, hnext.trans hi.next, hbound, hk,
      hi.covered.mono List.prefix_rfl hev⟩
  · simp at hr
  · obtain rfl := (Prod.mk.inj hr).2
    have hlog : s.logAfter a { state with
        queue := q
        nextMessageId := state.nextMessageId + 1
        subscriberWakers := .new } = s.log ++ [message] := by
      unfold logAfter
      rw [if_neg (by show ¬ state.nextMessageId + 1 = _; omega), ha]
      rfl
    dsimp only
    rw [hlog]
    refine ⟨hcount.trans hi.count, hi.room, ?_, hbound, ?_,
      hi.covered.mono (List.prefix_append _ _) hev⟩
    · show state.nextMessageId + 1 = (s.log ++ [message]).length
      rw [List.length_append, List.length_singleton, hnext, hi.next]
    · show Kept s.channel.subs evicted (s.log ++ [message]) q.items
      rw [hq]
      apply hk.push
      rw [hcount, hi.count]

theorem LogInv.publishWithContext (hi : LogInv s) {a : Action α} {message : α}
    (ha : published a = some message) {cx : Option TaskRef}
    {r : Except α Unit × PubSubState α CAP SUBS PUBS × List TaskRef}
    (hr : s.channel.state.publishWithContext message cx = some r) {c : Channel α CAP SUBS PUBS}
    (hstate : c.state = r.2.1) (hsubs : c.subs = s.channel.subs) :
    LogInv ⟨c, s.logAfter a c.state, s.evicted, s.histories⟩ := by
  rcases PubSubState.publishWithContext_cases hr with ⟨hok, -⟩ | ⟨-, reg, -, rfl⟩
  · exact hi.publish ha hok rfl rfl hi.kept (fun _ hid => hid) hstate hsubs
  · apply hi.same _ _ _ hsubs
    · rw [hstate]
    · rw [hstate]
    · rw [hstate]

theorem LogInv.publishImmediate (hi : LogInv s) {message : α}
    (h : s.step (.publishImmediate message) = some s') : LogInv s' := by
  obtain ⟨c, hc, rfl⟩ := Option.map_eq_some_iff.mp h
  obtain ⟨p, hp, rfl⟩ := Option.map_eq_some_iff.mp hc
  have hitems := PubSubState.items_popFront s.channel.state.queue
  rcases PubSubState.publishImmediate_cases hp with ⟨hnot, hok⟩ | ⟨hfull, hok⟩
  · have hev : s.evictedAfter (.publishImmediate message) = s.evicted :=
      if_neg fun hf => hnot (Deque.isFull_iff.mp hf.1)
    show LogInv ⟨_, _, s.evictedAfter (.publishImmediate message), s.histories⟩
    rw [hev]
    exact hi.publish rfl hok rfl rfl hi.kept (fun _ hid => hid) rfl rfl
  · by_cases hz : s.channel.state.queue.items.length = 0
    · have hev : s.evictedAfter (.publishImmediate message) = s.evicted :=
        if_neg fun hf => hf.2 hz
      have hkept : Kept s.channel.subs s.evicted s.log
          (PubSubState.popFront s.channel.state.queue).items := by
        have hkept := hi.kept
        rw [List.length_eq_zero_iff.mp hz] at hitems hkept
        rw [hitems]
        exact hkept
      show LogInv ⟨_, _, s.evictedAfter (.publishImmediate message), s.histories⟩
      rw [hev]
      exact hi.publish rfl hok rfl rfl hkept (fun _ hid => hid) rfl rfl
    · have hev : s.evictedAfter (.publishImmediate message) =
          s.evicted ++ [s.channel.state.startId] :=
        if_pos ⟨Deque.isFull_iff.mpr hfull, hz⟩
      have hkept : Kept s.channel.subs (s.evicted ++ [s.channel.state.startId]) s.log
          (PubSubState.popFront s.channel.state.queue).items := by
        rw [hitems, hi.startId_eq]
        apply hi.kept.evict
        intro hnil
        exact hz (List.length_eq_zero_iff.mpr hnil)
      show LogInv ⟨_, _, s.evictedAfter (.publishImmediate message), s.histories⟩
      rw [hev]
      exact hi.publish rfl hok rfl rfl hkept (fun _ hid => List.mem_append_left _ hid) rfl rfl

theorem LogInv.subscriber (hi : LogInv s) (h : s.step .subscriber = some s') : LogInv s' := by
  obtain ⟨c, hc, rfl⟩ := Option.map_eq_some_iff.mp h
  have hcount := hi.count
  unfold Channel.step PubSubState.subscriber at hc
  by_cases hfull : SUBS ≤ s.channel.state.subscriberCount
  · rw [if_pos hfull] at hc
    obtain rfl := Option.some.inj hc
    have hhist : s.historiesAfter s.channel .subscriber = s.histories := if_pos rfl
    rw [hhist]
    exact hi.same rfl rfl rfl rfl
  · rw [if_neg hfull] at hc
    obtain rfl := Option.some.inj hc
    have hhist : s.historiesAfter { s.channel with
        state := { s.channel.state with
          subscriberCount := s.channel.state.subscriberCount + 1 }
        subs := s.channel.subs ++ [s.channel.state.nextMessageId] } .subscriber =
          s.histories ++ [⟨s.channel.state.nextMessageId, []⟩] := by
      apply if_neg
      show ¬ (s.channel.subs ++ [s.channel.state.nextMessageId]).length = s.channel.subs.length
      rw [List.length_append, List.length_singleton]
      omega
    rw [hhist]
    refine LogInv.of_log_eq (by rfl) ?_
    refine ⟨?_, ?_, hi.next, hi.bound, ?_, hi.covered.join _⟩
    · show s.channel.state.subscriberCount + 1 = (s.channel.subs ++ [_]).length
      rw [List.length_append, List.length_singleton, hcount]
    · show (s.channel.subs ++ [_]).length ≤ SUBS
      rw [List.length_append, List.length_singleton]
      omega
    · show Kept (s.channel.subs ++ [s.channel.state.nextMessageId]) s.evicted s.log
        s.channel.state.queue.items
      rw [hi.next]
      exact hi.kept.join

theorem LogInv.dropSubscriber (hi : LogInv s) {i : ℕ}
    (h : s.step (.dropSubscriber i) = some s') : LogInv s' := by
  obtain ⟨c, hc, rfl⟩ := Option.map_eq_some_iff.mp h
  obtain ⟨id, hid, hr⟩ := Option.bind_eq_some_iff.mp hc
  obtain ⟨r, hu, rfl⟩ := Option.map_eq_some_iff.mp hr
  obtain ⟨hpos, hcases⟩ := PubSubState.unregisterSubscriber_cases hi.length_le hu
  have hlt := (List.getElem?_eq_some_iff.mp hid).1
  have hcount : s.channel.state.subscriberCount - 1 = (s.channel.subs.eraseIdx i).length := by
    rw [List.length_eraseIdx_of_lt hlt, hi.count]
  have hroom : (s.channel.subs.eraseIdx i).length ≤ SUBS := by
    have := hi.room
    rw [List.length_eraseIdx_of_lt hlt]
    omega
  have hleave : ∀ {j : ℕ}, s.channel.subs[i]? = some (s.channel.state.startId + j) →
      Kept (s.channel.subs.eraseIdx i) s.evicted s.log
        (popRead (decrement j s.channel.state.queue.items)) := by
    intro j hj
    rw [hi.startId_eq] at hj
    exact hi.kept.leave hj
  rcases hcases with ⟨-, rfl⟩ | ⟨j, rfl, q, hq, ⟨-, rfl⟩ | rfl⟩
  · refine LogInv.of_log_eq (by rfl) ?_
    exact ⟨hcount, hroom, hi.next, hi.bound, hi.kept.leaveBehind hid, hi.covered.leave i⟩
  · refine LogInv.of_log_eq (by rfl) ?_
    refine ⟨hcount, hroom, hi.next, hi.bound, ?_, hi.covered.leave i⟩
    show Kept (s.channel.subs.eraseIdx i) s.evicted s.log q.items
    rw [hq]
    exact hleave hid
  · refine LogInv.of_log_eq (by rfl) ?_
    refine ⟨hcount, hroom, hi.next, hi.bound, ?_, hi.covered.leave i⟩
    show Kept (s.channel.subs.eraseIdx i) s.evicted s.log q.items
    rw [hq]
    exact hleave hid

/-- **A read gets the next message, or the lag over the evicted ones.** -/
theorem LogInv.read (hi : LogInv s) {i : ℕ} {cx : Option TaskRef}
    (h : s.step (.read i cx) = some s') : LogInv s' := by
  obtain ⟨c, hc, rfl⟩ := Option.map_eq_some_iff.mp h
  obtain ⟨id, hid, hr⟩ := Option.bind_eq_some_iff.mp hc
  obtain ⟨r, hg, rfl⟩ := Option.map_eq_some_iff.mp hr
  have hstart := hi.startId_eq
  have hres : s.result i cx = r.1.1 := by
    rw [result, hid, Option.bind_some, hg, Option.bind_some]
  have hcount : ∀ n, s.channel.state.subscriberCount = (s.channel.subs.set i n).length := by
    intro n
    rw [List.length_set, hi.count]
  have hroom : ∀ n, (s.channel.subs.set i n).length ≤ SUBS := by
    intro n
    rw [List.length_set]
    exact hi.room
  -- the result covers the messages from the old position to the new one
  have hcov : Covers s.log s.evicted id (s.result i cx).toList r.1.2 →
      Covered s.log s.evicted (s.historiesAfter s.channel (.read i cx))
        (s.channel.subs.set i r.1.2) := hi.covered.read hid
  rw [hres] at hcov
  rcases PubSubState.getMessageWithContext_cases hi.length_le hg with
    ⟨hlt, rfl⟩ | ⟨j, rfl, ⟨-, reg, -, rfl⟩ | ⟨m, c, hx, q, hcase⟩⟩
  · refine LogInv.of_log_eq (by rfl) ?_
    refine ⟨hcount _, hroom _, hi.next, hi.bound, ?_, hcov ⟨fun e h₁ h₂ => ?_, ?_⟩⟩
    · show Kept (s.channel.subs.set i s.channel.state.startId) s.evicted s.log
        s.channel.state.queue.items
      rw [hstart] at hlt ⊢
      exact hi.kept.skip hid hlt.le
    · apply hi.kept.missed id (List.mem_of_getElem? hid) e h₁
      omega
    · show id + (s.channel.state.startId - id) = s.channel.state.startId
      omega
  · refine LogInv.of_log_eq (by rfl) ?_
    refine ⟨hcount _, hroom _, hi.next, hi.bound, ?_, hcov rfl⟩
    show Kept (s.channel.subs.set i (s.channel.state.startId + j)) s.evicted s.log
      s.channel.state.queue.items
    rw [set_self hid]
    exact hi.kept
  · have hlog : s.log[s.channel.state.startId + j]? = some m := by
      rw [hstart]
      exact hi.kept.getElem?_log hx
    rw [hstart] at hid
    rcases hcase with ⟨-, hq, rfl⟩ | ⟨rfl, rfl, hq, rfl⟩
    · refine LogInv.of_log_eq (by rfl) ?_
      refine ⟨hcount _, hroom _, hi.next, hi.bound, ?_, hcov ⟨hlog, rfl⟩⟩
      show Kept (s.channel.subs.set i (s.channel.state.startId + j + 1)) s.evicted s.log q.items
      rw [hq, hstart]
      exact hi.kept.read hid hx
    · refine LogInv.of_log_eq (by rfl) ?_
      refine ⟨hcount _, hroom _, hi.next, hi.bound, ?_, hcov ⟨hlog, rfl⟩⟩
      show Kept (s.channel.subs.set i (s.channel.state.startId + 0 + 1)) s.evicted s.log q.items
      rw [hq, hstart]
      exact hi.kept.readLast hid hx

/-- **Every step accounts for the messages.** -/
theorem LogInv.step {a : Action α} (hi : LogInv s) (h : s.step a = some s') : LogInv s' := by
  cases a with
  | subscriber => exact hi.subscriber h
  | dropSubscriber i => exact hi.dropSubscriber h
  | publisher =>
    obtain ⟨c, hc, rfl⟩ := Option.map_eq_some_iff.mp h
    unfold Channel.step PubSubState.publisher at hc
    by_cases hfull : PUBS ≤ s.channel.state.publisherCount
    · rw [if_pos hfull] at hc
      obtain rfl := Option.some.inj hc
      exact hi.same rfl rfl rfl rfl
    · rw [if_neg hfull] at hc
      obtain rfl := Option.some.inj hc
      exact hi.same rfl rfl rfl rfl
  | dropPublisher =>
    obtain ⟨c, hc, rfl⟩ := Option.map_eq_some_iff.mp h
    obtain ⟨state, hs, rfl⟩ := Option.map_eq_some_iff.mp hc
    obtain ⟨count, -, rfl⟩ := Option.map_eq_some_iff.mp hs
    exact hi.same rfl rfl rfl rfl
  | pollPublish f task message =>
    obtain ⟨c, hc, rfl⟩ := Option.map_eq_some_iff.mp h
    obtain ⟨r, hr, rfl⟩ := Option.map_eq_some_iff.mp hc
    exact hi.publishWithContext rfl hr rfl rfl
  | dropPublish f =>
    obtain ⟨c, hc, rfl⟩ := Option.map_eq_some_iff.mp h
    obtain rfl := Option.some.inj hc
    exact hi.same rfl rfl rfl rfl
  | tryPublish message =>
    obtain ⟨c, hc, rfl⟩ := Option.map_eq_some_iff.mp h
    obtain ⟨r, hr, rfl⟩ := Option.map_eq_some_iff.mp hc
    exact hi.publishWithContext rfl hr rfl rfl
  | publishImmediate message => exact hi.publishImmediate h
  | read i cx => exact hi.read h
  | wake task =>
    obtain ⟨c, hc, rfl⟩ := Option.map_eq_some_iff.mp h
    obtain rfl := Option.some.inj hc
    exact hi.same rfl rfl rfl rfl

/-- **The results of a subscriber account for every message** since its creation, in every run of a
channel with any `CAP`, `SUBS` and `PUBS`. -/
theorem accounts_of_reachable (h : Reachable step (new : Logged α CAP SUBS PUBS) s) :
    Accounts s :=
  (h.invariant logInv_new fun _ _ _ hi => hi.step).accounts

/-- Of two subscribers one is dropped behind the queue; the other lags, and reads on. -/
def lagRun : List (Action ℕ) :=
  [.subscriber, .subscriber, .publisher, .tryPublish 10, .publishImmediate 11, .dropSubscriber 0,
    .read 0 none, .read 0 none, .publishImmediate 12, .read 0 none]

theorem accounts_of_reachable_lag :
    ∃ s : Logged ℕ 1 2 1, runList step new lagRun = some s ∧
      s.histories = [⟨0, [.lagged 1, .message 11, .message 12]⟩] ∧ Accounts s := by
  obtain ⟨s, hs, hh⟩ := exists_of_map_runList (f := fun s => s.histories)
    (s := (new : Logged ℕ 1 2 1)) (l := lagRun)
    (b := [⟨0, [.lagged 1, .message 11, .message 12]⟩]) (r := step) (by decide)
  exact ⟨s, hs, hh, accounts_of_reachable (reachable_of_runList hs)⟩

end Logged

end PubSub

end AurixAsync
