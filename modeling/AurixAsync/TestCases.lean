import AurixAsync.Sync.PubSubPure
import AurixAsync.Sync.PubSubWakes
import AurixAsync.Sync.SelectSignals

/-!
# The test application

The tasks A, B and C of `test`. A and B signal, each with a signal of its own, read a message of the
channel, sleep, and start over. C waits for the first of the two signals, counts it, and publishes
the counter.

* `Test`, `Action`, `step`: the tasks between their critical sections, over the channel, with its
  log, and the signals.
* `TestSpec`: nobody panics before the counter overflows; while C waits for a signal, A and B do
  not wait, and while it waits to publish, one of them has a message to read; and A and B read the
  counters one by one.
* `testSpec_of_reachable`: this holds in every reachable state.
-/

namespace AurixAsync

namespace TestCases

open Transition PubSub Signal

/-- The tasks that subscribe to `TASK_C_PUB_CHANNEL`. -/
inductive Sub
  | a
  | b
deriving DecidableEq, Repr

/-- `SIGNAL_A` and `SIGNAL_B`. -/
def Sub.signal : Sub → ℕ
  | .a => 0
  | .b => 1

/-- The task of a subscriber. -/
def Sub.task : Sub → TaskRef
  | .a => 1
  | .b => 2

/-- The task of the publisher. -/
def taskC : TaskRef := 3

/-- Where the task of a subscriber is: before `subscriber()`, or before one of the steps of its
loop, with the place of its subscription in the channel. -/
inductive SubAt
  | start
  | signal (i : ℕ)
  | read (i : ℕ)
  | timer (i : ℕ)
deriving DecidableEq, Repr

/-- The index of its subscriber, once it has subscribed. -/
def SubAt.index : SubAt → Option ℕ
  | .start => none
  | .signal i | .read i | .timer i => some i

/-- Where task C is. -/
inductive PubAt
  | start
  | select
  | publish
deriving DecidableEq, Repr

/-- The channel, with its log and those who wait for a message; the signals; where the three tasks
are; and the counter of task C. -/
structure Test where
  logged : Logged ℕ 16 2 1
  waiting : List (Option TaskRef)
  signals : Selected Unit
  subs : Sub → SubAt
  pub : PubAt
  counter : ℕ

namespace Test

/-- No task has run. -/
def new : Test := ⟨.new, [], .new, fun _ => .start, .start, 0⟩

/-- The channel with the subscribers that wait. -/
def waiters (s : Test) : Waiters ℕ 16 2 1 := ⟨s.logged.channel, s.waiting⟩

/-- A step of the channel. -/
def onChannel (s : Test) (a : Channel.Action ℕ) : Option Test :=
  (s.logged.step a).map fun l =>
    { s with logged := l, waiting := s.waiters.waitingAfter a l.channel }

/-- The only select is over both signals. -/
def inner : ℕ → List ℕ := fun _ => [Sub.a.signal, Sub.b.signal]

/-- A step of the signals. -/
def onSignals (s : Test) (a : Selected.Action Unit) : Option Test :=
  (s.signals.step inner a).map fun g => { s with signals := g }

/-- A subscriber gets to its next place. -/
def move (s : Test) (k : Sub) (at' : SubAt) : Test :=
  { s with subs := Function.update s.subs k at' }

/-- The steps of the tasks, each up to the next `await`. -/
inductive Action
  | subscribe (k : Sub)
  | signal (k : Sub)
  | read (k : Sub)
  | timer (k : Sub)
  | publisher
  | select
  | publish
  /-- Something else wakes a task. -/
  | wake (task : TaskRef)
deriving DecidableEq

/-- One step of a task. `none` is a panic, or the task is at another step. -/
def step (s : Test) : Action → Option Test
  | .subscribe k =>
    match s.subs k, s.logged.channel.state.subscriber with
    | .start, .ok _ =>
      (s.onChannel .subscriber).map fun t => t.move k (.signal s.logged.channel.subs.length)
    | _, _ => none
  | .signal k =>
    match s.subs k with
    | .signal i => (s.onSignals (.signal k.signal ())).map fun t => t.move k (.read i)
    | _ => none
  | .read k =>
    match s.subs k with
    | .read i =>
      (s.onChannel (.read i (some k.task))).map fun t =>
        -- a lag is printed, as a message is
        if (s.logged.channel.received i (some k.task)).isSome then t.move k (.timer i) else t
    | _ => none
  | .timer k =>
    match s.subs k with
    | .timer i => some (s.move k (.signal i))
    | _ => none
  | .publisher =>
    match s.pub, s.logged.channel.state.publisher with
    | .start, .ok _ => (s.onChannel .publisher).map fun t => { t with pub := .select }
    | _, _ => none
  | .select =>
    match s.pub with
    | .select =>
      (s.onSignals (.poll 0 taskC)).bind fun t =>
        if (s.signals.output inner 0 taskC).isSome then
          -- `counter` is a `u32`
          if s.counter + 1 < 2 ^ 32 then some { t with pub := .publish, counter := s.counter + 1 }
          else none
        else some t
    | _ => none
  | .publish =>
    match s.pub with
    | .publish =>
      (s.onChannel (.pollPublish 0 taskC s.counter)).map fun t =>
        if (t.logged.channel.publishing 0).isNone then { t with pub := .select } else t
    | _ => none
  | .wake task => (s.onChannel (.wake task)).bind fun t => t.onSignals (.wake task)

/-- The next step of a task. -/
def nextOf (k : Sub) : SubAt → Action
  | .start => .subscribe k
  | .signal _ => .signal k
  | .read _ => .read k
  | .timer _ => .timer k

/-- The next step of task C. -/
def nextOfC : PubAt → Action
  | .start => .publisher
  | .select => .select
  | .publish => .publish

/-- A subscriber waits for a message: its read was pending, and it was not woken since. -/
def SubWaits (s : Test) (k : Sub) : Prop :=
  ∃ i t, s.subs k = .read i ∧ s.waiting[i]? = some (some t)

/-- C waits for a signal: the poll of its select is over, and it was not woken since. -/
def SelectWaits (s : Test) : Prop :=
  s.pub = .select ∧ s.signals.polling 0 = none ∧ ∃ t, s.signals.waiting 0 = some t

/-- C waits for room in the channel: its publish was pending, and it was not woken since. -/
def PublishWaits (s : Test) : Prop :=
  s.pub = .publish ∧ ∃ t, s.logged.channel.publishing 0 = some t

/-- Each task can take its next step; the tasks that wait for a signal, for a message and for room
in the channel never wait for one another; and the messages received are the numbers counted, in
order, from the next one on. -/
structure TestSpec (s : Test) : Prop where
  subs_next : ∀ k, (s.step (nextOf k (s.subs k))).isSome
  pub_next : s.counter + 1 < 2 ^ 32 → (s.step (nextOfC s.pub)).isSome
  select : s.SelectWaits → ∀ k, ¬ s.SubWaits k
  publish : s.PublishWaits → ∃ k i, (s.subs k).index = some i ∧ s.waiting[i]? = some none ∧
    (s.logged.channel.received i (some k.task)).isSome
  received : ∀ h ∈ s.logged.histories,
    h.results = (List.range' (h.created + 1) h.results.length).map WaitResult.message

variable {s t : Test} {a : Channel.Action ℕ} {k k' : Sub} {i : ℕ}

/-! ### The channel -/

/-- What the tasks do to the channel: nobody leaves it, and nothing is evicted. -/
def calm : Channel.Action ℕ → Bool
  | .dropSubscriber _ | .publishImmediate _ => false
  | _ => true

/-- The invariants of the channel, of which nothing was evicted. -/
structure ChannelSide (l : Logged ℕ 16 2 1) (waiting : List (Option TaskRef)) : Prop where
  waiters : Waiters.WaitersInv ⟨l.channel, waiting⟩
  log : Logged.LogInv l
  channel : Channel.ChannelInv l.channel
  evicted : l.evicted = []
  messages : ∀ h ∈ l.histories, ∀ r ∈ h.results, ∃ m, r = WaitResult.message m

theorem onChannel_eq_some (h : s.onChannel a = some t) :
    ∃ c, s.logged.channel.step a = some c ∧ t = { s with
      logged := ⟨c, s.logged.logAfter a c.state, s.logged.evictedAfter a,
        s.logged.historiesAfter c a⟩
      waiting := s.waiters.waitingAfter a c } := by
  obtain ⟨l, hl, rfl⟩ := Option.map_eq_some_iff.mp h
  obtain ⟨c, hc, rfl⟩ := Option.map_eq_some_iff.mp hl
  exact ⟨c, hc, rfl⟩

theorem ChannelSide.result_eq (h : ChannelSide s.logged s.waiting) {cx : Option TaskRef}
    {r : WaitResult ℕ} (hr : s.logged.result i cx = some r) : ∃ m, r = WaitResult.message m := by
  obtain ⟨id, hid, hr⟩ := Option.bind_eq_some_iff.mp hr
  obtain ⟨g, hg, hr⟩ := Option.bind_eq_some_iff.mp hr
  rcases PubSubState.getMessageWithContext_cases h.log.length_le hg with
    ⟨hlt, rfl⟩ | ⟨j, -, ⟨-, reg, -, rfl⟩ | ⟨m, n, -, q, ⟨-, -, rfl⟩ | ⟨-, -, -, rfl⟩⟩⟩
  · have hlost := h.log.kept.missed id (List.mem_of_getElem? hid) id (Nat.le_refl id)
      (h.log.startId_eq ▸ hlt)
    rw [h.evicted] at hlost
    exact absurd hlost List.not_mem_nil
  · exact absurd hr (by simp)
  · exact ⟨m, (Option.some.inj hr).symm⟩
  · exact ⟨m, (Option.some.inj hr).symm⟩

theorem ChannelSide.messages_historiesAfter (h : ChannelSide s.logged s.waiting)
    (c : Channel ℕ 16 2 1) (ha : calm a = true) {hist : History ℕ}
    (hm : hist ∈ s.logged.historiesAfter c a) {r : WaitResult ℕ} (hr : r ∈ hist.results) :
    ∃ m, r = WaitResult.message m := by
  cases a with
  | dropSubscriber j => exact absurd ha (by simp [calm])
  | subscriber =>
    unfold Logged.historiesAfter at hm
    dsimp only at hm
    split_ifs at hm
    · exact h.messages hist hm r hr
    · rcases List.mem_append.mp hm with hm | hm
      · exact h.messages hist hm r hr
      · obtain rfl := List.mem_singleton.mp hm
        exact absurd hr List.not_mem_nil
  | read j cx =>
    obtain ⟨n, hn⟩ := List.mem_iff_getElem?.mp hm
    change (s.logged.histories.modify j _)[n]? = _ at hn
    rw [List.getElem?_modify] at hn
    obtain ⟨old, hold, rfl⟩ := Option.map_eq_some_iff.mp hn
    have hmem := List.mem_of_getElem? hold
    by_cases hj : j = n
    · rw [if_pos hj] at hr
      rcases List.mem_append.mp hr with hr | hr
      · exact h.messages old hmem r hr
      · exact h.result_eq (Option.mem_toList.mp hr)
    · rw [if_neg hj] at hr
      exact h.messages old hmem r hr
  | _ => exact h.messages hist hm r hr

theorem ChannelSide.onChannel (h : ChannelSide s.logged s.waiting) (ha : calm a = true)
    (hs : s.onChannel a = some t) : ChannelSide t.logged t.waiting := by
  obtain ⟨c, hc, rfl⟩ := onChannel_eq_some hs
  have hl : s.logged.step a = some ⟨c, s.logged.logAfter a c.state, s.logged.evictedAfter a,
      s.logged.historiesAfter c a⟩ := Option.map_eq_some_iff.mpr ⟨c, hc, rfl⟩
  have hcalm : Channel.DropsCaughtUp s.logged.channel a ∧ Logged.evicts a = false := by
    cases a with
    | dropSubscriber j => exact absurd ha (by simp [calm])
    | publishImmediate m => exact absurd ha (by simp [calm])
    | _ => exact ⟨trivial, rfl⟩
  exact ⟨h.waiters.stepChannel (Option.map_eq_some_iff.mpr ⟨c, hc, rfl⟩), h.log.step hl,
    h.channel.step (by decide) hc hcalm.1, (Logged.evictedAfter_eq hcalm.2).trans h.evicted,
    fun hist hm r hr => h.messages_historiesAfter c ha hm hr⟩

/-! ### The places of the tasks -/

/-- The subscriptions of the channel belong to the tasks that made them. -/
structure Places (subs : Sub → SubAt) (n : ℕ) : Prop where
  lt : ∀ k i, (subs k).index = some i → i < n
  inj : ∀ k k' i, (subs k).index = some i → (subs k').index = some i → k = k'
  onto : ∀ i < n, ∃ k, (subs k).index = some i

theorem Places.move {subs : Sub → SubAt} {n : ℕ} (h : Places subs n) {at' : SubAt}
    (hat : at'.index = (subs k).index) : Places (Function.update subs k at') n := by
  have heq : ∀ k', (Function.update subs k at' k').index = (subs k').index := by
    intro k'
    by_cases hk : k' = k
    · rw [hk, Function.update_self, hat]
    · rw [Function.update_of_ne hk]
  refine ⟨fun k i hi => ?_, fun k k' i hi hi' => ?_, fun i hi => ?_⟩
  · exact h.lt k i (heq k ▸ hi)
  · exact h.inj k k' i (heq k ▸ hi) (heq k' ▸ hi')
  · obtain ⟨k, hk⟩ := h.onto i hi
    exact ⟨k, (heq k).trans hk⟩

theorem Places.join {subs : Sub → SubAt} {n : ℕ} (h : Places subs n) (hk : subs k = .start) :
    Places (Function.update subs k (.signal n)) (n + 1) := by
  have hself : (Function.update subs k (.signal n) k).index = some n := by
    rw [Function.update_self]
    rfl
  have hother : ∀ k' ≠ k, (Function.update subs k (.signal n) k').index = (subs k').index := by
    intro k' hne
    rw [Function.update_of_ne hne]
  refine ⟨fun k' i hi => ?_, fun k₁ k₂ i h₁ h₂ => ?_, fun i hi => ?_⟩
  · by_cases hk' : k' = k
    · rw [hk', hself] at hi
      obtain rfl := Option.some.inj hi
      exact Nat.lt_succ_self n
    · rw [hother k' hk'] at hi
      exact Nat.lt_succ_of_lt (h.lt k' i hi)
  · by_cases hk₁ : k₁ = k
    · by_cases hk₂ : k₂ = k
      · rw [hk₁, hk₂]
      · rw [hk₁, hself] at h₁
        rw [hother k₂ hk₂] at h₂
        obtain rfl := Option.some.inj h₁
        exact absurd (h.lt k₂ n h₂) (Nat.lt_irrefl n)
    · rw [hother k₁ hk₁] at h₁
      by_cases hk₂ : k₂ = k
      · rw [hk₂, hself] at h₂
        obtain rfl := Option.some.inj h₂
        exact absurd (h.lt k₁ n h₁) (Nat.lt_irrefl n)
      · rw [hother k₂ hk₂] at h₂
        exact h.inj k₁ k₂ i h₁ h₂
  · by_cases hin : i = n
    · exact ⟨k, by rw [hself, hin]⟩
    · obtain ⟨k', hk'⟩ := h.onto i (by omega)
      refine ⟨k', ?_⟩
      rw [hother k', hk']
      rintro rfl
      rw [hk] at hk'
      exact absurd hk' (by simp [SubAt.index])

theorem Places.lt_two {subs : Sub → SubAt} {n : ℕ} (h : Places subs n) (hk : subs k = .start) :
    n < 2 := by
  by_contra hn
  obtain ⟨k₀, h₀⟩ := h.onto 0 (by omega)
  obtain ⟨k₁, h₁⟩ := h.onto 1 (by omega)
  have hne : ∀ {k' j}, (subs k').index = some j → k' ≠ k := by
    rintro k' j hj rfl
    rw [hk] at hj
    exact absurd hj (by simp [SubAt.index])
  have heq : k₀ = k₁ := by
    have hk₀ := hne h₀
    have hk₁ := hne h₁
    cases k <;> cases k₀ <;> cases k₁ <;> first | rfl | exact absurd rfl hk₀ | exact absurd rfl hk₁
  rw [heq, h₁] at h₀
  exact absurd h₀ (by simp)

/-! ### The invariant -/

/-- A message is published that the subscriber has not read. -/
def Unread (s : Test) (i : ℕ) : Prop :=
  ∃ id, s.logged.channel.subs[i]? = some id ∧ id < s.logged.channel.state.nextMessageId

/-- The counters were published one by one. -/
structure Counted (log : List ℕ) (pub : PubAt) (counter : ℕ) : Prop where
  values : ∀ n m, log[n]? = some m → m = n + 1
  count : counter = log.length + if pub = .publish then 1 else 0
  bound : counter < 2 ^ 32

/-- The select is polled by C. -/
structure SignalSide (g : Selected Unit) : Prop where
  inv : Selected.SelectInv inner g
  polling : ∀ t k, g.polling 0 = some (t, k) → t = taskC

/-- A signal comes from a subscriber, and for each subscriber that reads there is its signal, or C
is about to publish, or a message. -/
structure TestInv (s : Test) : Prop where
  channel : ChannelSide s.logged s.waiting
  places : Places s.subs s.logged.channel.subs.length
  signals : SignalSide s.signals
  counted : Counted s.logged.log s.pub s.counter
  publisher : s.logged.channel.state.publisherCount = if s.pub = .start then 0 else 1
  signalled : ∀ i, (s.signals.cells i).value.isSome → s.logged.channel.subs ≠ []
  publishing : s.pub = .publish → s.logged.channel.subs ≠ []
  unread : ∀ k i, s.subs k = .read i →
    (s.signals.cells k.signal).value.isSome ∨ s.pub = .publish ∨ s.Unread i

theorem testInv_new : TestInv new where
  channel := ⟨Waiters.waitersInv_new, Logged.logInv_new, Channel.channelInv_new, rfl,
    fun h hm => absurd hm List.not_mem_nil⟩
  places := ⟨fun k i h => absurd h (by simp [new, SubAt.index]),
    fun k k' i h => absurd h (by simp [new, SubAt.index]),
    fun i hi => absurd hi (Nat.not_lt_zero i)⟩
  signals := ⟨Selected.selectInv_new, fun t k h => absurd h (by simp [new, Selected.new])⟩
  counted := ⟨fun n m h => absurd h (by simp [new, Logged.new]), rfl, by decide⟩
  publisher := rfl
  signalled := fun i h => absurd h (by simp [new, Selected.new, Signal.State.value])
  publishing := fun h => absurd h (by simp [new])
  unread := fun k i h => absurd h (by simp [new])

theorem TestInv.index_lt (hi : TestInv s) (h : (s.subs k).index = some i) :
    i < s.logged.channel.subs.length := hi.places.lt k i h

/-- A step of the channel that publishes nothing and moves no subscriber at `read`. -/
theorem unread_of_step {c : Channel ℕ 16 2 1} (hc : s.logged.channel.step a = some c)
    (hown : Logged.own i a = false) (hidx : Logged.indexAfter i a = i)
    (hnext : s.logged.channel.state.nextMessageId ≤ c.state.nextMessageId) (h : s.Unread i) :
    ∃ id, c.subs[i]? = some id ∧ id < c.state.nextMessageId := by
  obtain ⟨id, hid, hlt⟩ := h
  have hid' := Logged.subs_indexAfter hc hown hid
  rw [hidx] at hid'
  exact ⟨id, hid', Nat.lt_of_lt_of_le hlt hnext⟩

theorem TestInv.subscribe (hi : TestInv s) (h : s.step (.subscribe k) = some t) : TestInv t := by
  cases hk : s.subs k with
  | start =>
    cases hsub : s.logged.channel.state.subscriber with
    | error e => exact absurd h (by simp [step, hk, hsub])
    | ok p =>
      simp only [step, hk, hsub] at h
      obtain ⟨t, ht, rfl⟩ := Option.map_eq_some_iff.mp h
      have hch := hi.channel.onChannel rfl ht
      obtain ⟨c, hc, rfl⟩ := onChannel_eq_some ht
      obtain ⟨hstate, hsubs⟩ : c.state.nextMessageId = s.logged.channel.state.nextMessageId ∧
          c.state.publisherCount = s.logged.channel.state.publisherCount ∧
          c.subs.length = s.logged.channel.subs.length + 1 := by
        unfold Channel.step at hc
        rw [hsub] at hc
        unfold PubSubState.subscriber at hsub
        split_ifs at hsub
        obtain rfl := Except.ok.inj hsub
        obtain rfl := Option.some.inj hc
        exact ⟨rfl, rfl, List.length_append⟩
      obtain ⟨hcount, hlen⟩ := hsubs
      have hlog : s.logged.logAfter .subscriber c.state = s.logged.log := Logged.logAfter_eq hstate
      have hne : c.subs ≠ [] := by
        intro hnil
        rw [hnil] at hlen
        exact absurd hlen (Nat.succ_ne_zero _).symm
      refine ⟨hch, ?_, hi.signals, ?_, hcount.trans hi.publisher, fun _ _ => hne, fun _ => hne,
        fun k' i hk' => ?_⟩
      · change Places (Function.update s.subs k _) c.subs.length
        rw [hlen]
        exact hi.places.join hk
      · change Counted (s.logged.logAfter .subscriber c.state) s.pub s.counter
        rw [hlog]
        exact hi.counted
      · change Function.update s.subs k _ k' = _ at hk'
        by_cases hkk : k' = k
        · rw [hkk, Function.update_self] at hk'
          exact absurd hk' (by simp)
        · rw [Function.update_of_ne hkk] at hk'
          rcases hi.unread k' i hk' with hu | hu | hu
          · exact Or.inl hu
          · exact Or.inr (Or.inl hu)
          · exact Or.inr (Or.inr (unread_of_step hc rfl rfl (Nat.le_of_eq hstate.symm) hu))
  | _ => exact absurd h (by simp [step, hk])

theorem signal_injective : Function.Injective Sub.signal := by
  intro k k' h
  cases k <;> cases k' <;> first | rfl | exact absurd h (by decide)

theorem TestInv.signal (hi : TestInv s) (h : s.step (.signal k) = some t) : TestInv t := by
  cases hk : s.subs k with
  | signal i =>
    simp only [step, hk] at h
    obtain ⟨t, ht, rfl⟩ := Option.map_eq_some_iff.mp h
    obtain ⟨g, hg, rfl⟩ := Option.map_eq_some_iff.mp ht
    have hinv := hi.signals.inv.step hg trivial
    obtain rfl := Option.some.inj hg
    have hlt := hi.index_lt (k := k) (i := i) (by rw [hk]; rfl)
    have hne : s.logged.channel.subs ≠ [] := List.ne_nil_of_length_pos (Nat.zero_lt_of_lt hlt)
    refine ⟨hi.channel, hi.places.move (by rw [hk]; rfl), ⟨hinv, hi.signals.polling⟩, hi.counted,
      hi.publisher,
      fun _ _ => hne, hi.publishing, fun k' i' hk' => ?_⟩
    change Function.update s.subs k _ k' = _ at hk'
    change (Function.update s.signals.cells k.signal _ k'.signal).value.isSome = true ∨ _
    by_cases hkk : k' = k
    · rw [hkk, Function.update_self, Signal.State.fst_signal]
      exact Or.inl rfl
    · rw [Function.update_of_ne hkk] at hk'
      rw [Function.update_of_ne fun he => hkk (signal_injective he)]
      exact hi.unread k' i' hk'
  | _ => exact absurd h (by simp [step, hk])

theorem TestInv.read (hi : TestInv s) (h : s.step (.read k) = some t) : TestInv t := by
  cases hk : s.subs k with
  | read i =>
    simp only [step, hk] at h
    obtain ⟨t, ht, rfl⟩ := Option.map_eq_some_iff.mp h
    have hch := hi.channel.onChannel rfl ht
    obtain ⟨c, hc, rfl⟩ := onChannel_eq_some ht
    obtain ⟨id, n, hid, hsubs, hnext, hcase⟩ :=
      Channel.read_cases hi.channel.waiters.reachable hc
    have hlog : s.logged.logAfter (.read i (some k.task)) c.state = s.logged.log :=
      Logged.logAfter_eq hnext
    have hlen : c.subs.length = s.logged.channel.subs.length := by rw [hsubs, List.length_set]
    have hne : s.logged.channel.subs ≠ [] → c.subs ≠ [] := by
      rw [← List.length_pos_iff, ← List.length_pos_iff, hlen]
      exact fun hp => hp
    have hcount : c.state.publisherCount = s.logged.channel.state.publisherCount := by
      obtain ⟨id, -, hmap⟩ := Option.bind_eq_some_iff.mp hc
      obtain ⟨r, hg, rfl⟩ := Option.map_eq_some_iff.mp hmap
      rcases PubSubState.getMessageWithContext_cases hi.channel.log.length_le hg with
        ⟨-, rfl⟩ | ⟨j, -, ⟨-, reg, -, rfl⟩ | ⟨m, n, -, q, ⟨-, -, rfl⟩ | ⟨-, -, -, rfl⟩⟩⟩ <;> rfl
    -- the other subscriber
    have hother : ∀ k' i', k' ≠ k → s.subs k' = .read i' →
        (s.signals.cells k'.signal).value.isSome ∨ s.pub = .publish ∨
          ∃ id, c.subs[i']? = some id ∧ id < c.state.nextMessageId := by
      intro k' i' hkk hk'
      have hii : i ≠ i' := fun he =>
        hkk (hi.places.inj k' k i' (by rw [hk']; rfl) (by rw [hk, he]; rfl))
      rcases hi.unread k' i' hk' with hu | hu | hu
      · exact Or.inl hu
      · exact Or.inr (Or.inl hu)
      · exact Or.inr (Or.inr (unread_of_step hc (beq_false_of_ne hii) rfl (Nat.le_of_eq hnext.symm)
          hu))
    have hplaces : Places s.subs c.subs.length := hlen ▸ hi.places
    have hcounted : Counted (s.logged.logAfter (.read i (some k.task)) c.state) s.pub s.counter :=
      hlog ▸ hi.counted
    by_cases hrec : (s.logged.channel.received i (some k.task)).isSome = true
    · rw [if_pos hrec]
      refine ⟨hch, hplaces.move (by rw [hk]; rfl), hi.signals, hcounted, hcount.trans hi.publisher,
        fun j hj => hne (hi.signalled j hj), fun hp => hne (hi.publishing hp), fun k' i' hk' => ?_⟩
      change Function.update s.subs k _ k' = _ at hk'
      by_cases hkk : k' = k
      · rw [hkk, Function.update_self] at hk'
        exact absurd hk' (by simp)
      · rw [Function.update_of_ne hkk] at hk'
        exact hother k' i' hkk hk'
    · rw [if_neg hrec]
      refine ⟨hch, hplaces, hi.signals, hcounted, hcount.trans hi.publisher,
        fun j hj => hne (hi.signalled j hj), fun hp => hne (hi.publishing hp), fun k' i' hk' => ?_⟩
      by_cases hkk : k' = k
      · -- nothing was there to read
        subst hkk
        obtain rfl := SubAt.read.inj (hk.symm.trans hk')
        rcases hi.unread k' i hk with hu | hu | ⟨id', hid', hlt⟩
        · exact Or.inl hu
        · exact Or.inr (Or.inl hu)
        · obtain rfl := Option.some.inj (hid.symm.trans hid')
          rcases hcase with ⟨-, hsome⟩ | ⟨heq, -⟩
          · exact absurd hsome hrec
          · exact absurd hlt (Nat.not_lt_of_le (Nat.le_of_eq heq.symm))
      · exact hother k' i' hkk hk'
  | _ => exact absurd h (by simp [step, hk])

theorem TestInv.timer (hi : TestInv s) (h : s.step (.timer k) = some t) : TestInv t := by
  cases hk : s.subs k with
  | timer i =>
    simp only [step, hk] at h
    obtain rfl := Option.some.inj h
    refine ⟨hi.channel, hi.places.move (by rw [hk]; rfl), hi.signals, hi.counted, hi.publisher,
      hi.signalled, hi.publishing, fun k' i' hk' => ?_⟩
    change Function.update s.subs k _ k' = _ at hk'
    by_cases hkk : k' = k
    · rw [hkk, Function.update_self] at hk'
      exact absurd hk' (by simp)
    · rw [Function.update_of_ne hkk] at hk'
      exact hi.unread k' i' hk'
  | _ => exact absurd h (by simp [step, hk])

theorem TestInv.publisherStep (hi : TestInv s) (h : s.step .publisher = some t) : TestInv t := by
  cases hp : s.pub with
  | start =>
    cases hpub : s.logged.channel.state.publisher with
    | error e => exact absurd h (by simp [step, hp, hpub])
    | ok p =>
      simp only [step, hp, hpub] at h
      obtain ⟨t, ht, rfl⟩ := Option.map_eq_some_iff.mp h
      have hch := hi.channel.onChannel rfl ht
      obtain ⟨c, hc, rfl⟩ := onChannel_eq_some ht
      have hcount := hi.publisher
      rw [if_pos hp] at hcount
      obtain ⟨hnext, hone, hsubs⟩ :
          c.state.nextMessageId = s.logged.channel.state.nextMessageId ∧
            c.state.publisherCount = 1 ∧ c.subs = s.logged.channel.subs := by
        unfold Channel.step at hc
        rw [hpub] at hc
        unfold PubSubState.publisher at hpub
        split_ifs at hpub
        obtain rfl := Except.ok.inj hpub
        obtain rfl := Option.some.inj hc
        exact ⟨rfl, congrArg (· + 1) hcount, rfl⟩
      have hlog : s.logged.logAfter .publisher c.state = s.logged.log := Logged.logAfter_eq hnext
      refine ⟨hch, hsubs ▸ hi.places, hi.signals, ?_, hone, fun j hj => hsubs ▸ hi.signalled j hj,
        fun he => absurd he (by simp), fun k i hk => ?_⟩
      · change Counted (s.logged.logAfter .publisher c.state) .select s.counter
        rw [hlog]
        have hcnt := hi.counted.count
        rw [hp] at hcnt
        exact ⟨hi.counted.values, hcnt, hi.counted.bound⟩
      · rcases hi.unread k i hk with hu | hu | hu
        · exact Or.inl hu
        · exact absurd (hp.symm.trans hu) (by simp)
        · exact Or.inr (Or.inr (unread_of_step hc rfl rfl (Nat.le_of_eq hnext.symm) hu))
  | _ => exact absurd h (by simp [step, hp])

theorem TestInv.select (hi : TestInv s) (h : s.step .select = some t) : TestInv t := by
  cases hp : s.pub with
  | select =>
    simp only [step, hp] at h
    obtain ⟨t, ht, h⟩ := Option.bind_eq_some_iff.mp h
    obtain ⟨g, hg, rfl⟩ := Option.map_eq_some_iff.mp ht
    have hinv := hi.signals.inv.step hg trivial
    obtain ⟨hvalue, hpoll⟩ := Selected.value_poll hg
    rcases hvalue with ⟨hnone, hsame⟩ | ⟨j, x, hsome, hx, hgone, hother⟩
    · rw [if_neg (by rw [hnone]; exact Bool.false_ne_true)] at h
      obtain rfl := Option.some.inj h
      refine ⟨hi.channel, hi.places, ⟨hinv, hpoll⟩, hi.counted, hi.publisher,
        fun i hv => hi.signalled i (hsame i ▸ hv), hi.publishing, fun k i hk => ?_⟩
      change (g.cells k.signal).value.isSome = true ∨ _
      rw [hsame]
      exact hi.unread k i hk
    · rw [if_pos (by rw [hsome]; rfl)] at h
      split_ifs at h with hbound
      obtain rfl := Option.some.inj h
      have hsubs := hi.signalled j (by rw [hx]; rfl)
      refine ⟨hi.channel, hi.places, ⟨hinv, hpoll⟩, ⟨hi.counted.values, ?_, hbound⟩, ?_,
        fun _ _ => hsubs, fun _ => hsubs, fun _ _ _ => Or.inr (Or.inl rfl)⟩
      · have hcnt := hi.counted.count
        rw [hp] at hcnt
        exact congrArg (· + 1) hcnt
      · have hcount := hi.publisher
        rw [hp] at hcount
        exact hcount
  | _ => exact absurd h (by simp [step, hp])

theorem pollPublish_cases (hi : TestInv s) (hsubs : s.logged.channel.subs ≠ [])
    {c : Channel ℕ 16 2 1}
    (hc : s.logged.channel.step (.pollPublish 0 taskC s.counter) = some c) :
    c.subs = s.logged.channel.subs ∧
      c.state.publisherCount = s.logged.channel.state.publisherCount ∧
        (c.publishing 0 = some taskC ∧
            c.state.nextMessageId = s.logged.channel.state.nextMessageId ∨
          c.publishing 0 = none ∧
            c.state.nextMessageId = s.logged.channel.state.nextMessageId + 1) := by
  obtain ⟨⟨e, p⟩, hp, rfl⟩ := Option.map_eq_some_iff.mp hc
  rcases PubSubState.publishWithContext_cases hp with ⟨hok, he⟩ | ⟨-, reg, -, hr⟩
  · obtain rfl : e = .ok () := he
    rcases PubSubState.tryPublish_cases hok with ⟨hz, -⟩ | ⟨-, -, hr⟩ | ⟨-, -, q, -, hr⟩
    · rw [hi.channel.channel.count] at hz
      exact absurd (List.length_eq_zero_iff.mp hz) hsubs
    · exact absurd (Prod.mk.inj hr).1 (by simp)
    · obtain rfl := (Prod.mk.inj hr).2
      exact ⟨rfl, rfl, Or.inr ⟨by simp [Waiting.polled, Channel.pends], rfl⟩⟩
  · obtain ⟨rfl, rfl⟩ := Prod.mk.inj hr
    exact ⟨rfl, rfl, Or.inl ⟨by simp [Waiting.polled, Channel.pends], rfl⟩⟩

theorem TestInv.publish (hi : TestInv s) (h : s.step .publish = some t) : TestInv t := by
  cases hp : s.pub with
  | publish =>
    simp only [step, hp] at h
    obtain ⟨t, ht, rfl⟩ := Option.map_eq_some_iff.mp h
    have hch := hi.channel.onChannel rfl ht
    obtain ⟨c, hc, rfl⟩ := onChannel_eq_some ht
    have hne := hi.publishing hp
    obtain ⟨hsubs, hcount, hcase⟩ := pollPublish_cases hi hne hc
    have hcnt := hi.counted.count
    rw [if_pos hp] at hcnt
    have hpub := hi.publisher
    rw [hp] at hpub
    rcases hcase with ⟨hwait, hnext⟩ | ⟨hnone, hnext⟩
    · have hnot : ¬ (c.publishing 0).isNone = true := by rw [hwait]; exact Bool.false_ne_true
      rw [if_neg hnot]
      have hlog : s.logged.logAfter (.pollPublish 0 taskC s.counter) c.state = s.logged.log :=
        Logged.logAfter_eq hnext
      refine ⟨hch, hsubs ▸ hi.places, hi.signals, ?_, hcount.trans hi.publisher,
        fun j hj => hsubs ▸ hi.signalled j hj, fun hq => hsubs ▸ hi.publishing hq,
        fun _ _ _ => Or.inr (Or.inl hp)⟩
      change Counted (s.logged.logAfter (.pollPublish 0 taskC s.counter) c.state) s.pub s.counter
      rw [hlog]
      exact hi.counted
    · rw [if_pos (by rw [hnone]; rfl)]
      have hlog : s.logged.logAfter (.pollPublish 0 taskC s.counter) c.state =
          s.logged.log ++ [s.counter] := by
        unfold Logged.logAfter
        rw [if_neg (by omega)]
        rfl
      refine ⟨hch, hsubs ▸ hi.places, hi.signals, ?_, hcount.trans hpub,
        fun j hj => hsubs ▸ hi.signalled j hj, fun hq => absurd hq (by simp), fun k i hk => ?_⟩
      · change Counted (s.logged.logAfter (.pollPublish 0 taskC s.counter) c.state) .select
          s.counter
        rw [hlog]
        refine ⟨fun n m hm => ?_, ?_, hi.counted.bound⟩
        · by_cases hn : n < s.logged.log.length
          · rw [List.getElem?_append_left hn] at hm
            exact hi.counted.values n m hm
          · rw [List.getElem?_append_right (by omega), List.getElem?_singleton] at hm
            split_ifs at hm with hz
            obtain rfl := Option.some.inj hm
            omega
        · rw [List.length_append, List.length_singleton]
          exact hcnt
      · refine Or.inr (Or.inr ?_)
        have hlt := hi.index_lt (k := k) (i := i) (by rw [show s.subs k = _ from hk]; rfl)
        have hid : s.logged.channel.subs[i]? = some s.logged.channel.subs[i] :=
          List.getElem?_eq_getElem hlt
        have hle := hi.channel.log.kept.pos_le _ (List.mem_of_getElem? hid)
        have hid' : c.subs[i]? = some s.logged.channel.subs[i] := by
          rw [hsubs]
          exact hid
        refine ⟨s.logged.channel.subs[i], hid', ?_⟩
        rw [← hi.channel.log.next] at hle
        change _ < c.state.nextMessageId
        omega
  | _ => exact absurd h (by simp [step, hp])

theorem TestInv.wake (hi : TestInv s) {task : TaskRef} (h : s.step (.wake task) = some t) :
    TestInv t := by
  simp only [step] at h
  obtain ⟨t₁, ht₁, ht⟩ := Option.bind_eq_some_iff.mp h
  have hch := hi.channel.onChannel rfl ht₁
  obtain ⟨c, hc, rfl⟩ := onChannel_eq_some ht₁
  obtain ⟨g, hg, rfl⟩ := Option.map_eq_some_iff.mp ht
  have hinv := hi.signals.inv.step hg trivial
  obtain rfl := Option.some.inj hg
  obtain rfl := Option.some.inj hc
  refine ⟨hch, hi.places, ⟨hinv, hi.signals.polling⟩, ?_, hi.publisher, hi.signalled,
    hi.publishing, hi.unread⟩
  change Counted (s.logged.logAfter (.wake task) s.logged.channel.state) s.pub s.counter
  rw [Logged.logAfter_eq rfl]
  exact hi.counted

theorem TestInv.step {a : Action} (hi : TestInv s) (h : s.step a = some t) : TestInv t := by
  cases a with
  | subscribe k => exact hi.subscribe h
  | signal k => exact hi.signal h
  | read k => exact hi.read h
  | timer k => exact hi.timer h
  | publisher => exact hi.publisherStep h
  | select => exact hi.select h
  | publish => exact hi.publish h
  | wake task => exact hi.wake h

/-! ### What follows -/

theorem eq_map_range' {log evicted : List ℕ} (hlog : ∀ n m, log[n]? = some m → m = n + 1)
    {results : List (WaitResult ℕ)} (hm : ∀ r ∈ results, ∃ m, r = WaitResult.message m)
    {n next : ℕ} (h : Covers log evicted n results next) :
    results = (List.range' (n + 1) results.length).map WaitResult.message := by
  induction results generalizing n with
  | nil => rfl
  | cons r results ih =>
    obtain ⟨m, rfl⟩ := hm r List.mem_cons_self
    obtain ⟨hget, hrest⟩ := h
    obtain rfl := hlog n m hget
    rw [List.length_cons, List.range'_succ, List.map_cons,
      ← ih (fun r hr => hm r (List.mem_cons_of_mem _ hr)) hrest]

theorem isSome_onChannel {c : Channel ℕ 16 2 1} (h : s.logged.channel.step a = some c) :
    ∃ t, s.onChannel a = some t :=
  ⟨_, Option.map_eq_some_iff.mpr ⟨_, Option.map_eq_some_iff.mpr ⟨c, h, rfl⟩, rfl⟩⟩

/-- A subscriber's task can take its next step. -/
theorem TestInv.subs_next (hi : TestInv s) (k : Sub) : (s.step (nextOf k (s.subs k))).isSome := by
  cases hk : s.subs k with
  | start =>
    have hroom : ¬ 2 ≤ s.logged.channel.state.subscriberCount := by
      have hlt := hi.places.lt_two hk
      rw [hi.channel.channel.count]
      omega
    have hsub : s.logged.channel.state.subscriber = .ok (s.logged.channel.state.nextMessageId,
        { s.logged.channel.state with
          subscriberCount := s.logged.channel.state.subscriberCount + 1 }) := if_neg hroom
    obtain ⟨c, hc⟩ : ∃ c, s.logged.channel.step .subscriber = some c := by
      unfold Channel.step
      rw [hsub]
      exact ⟨_, rfl⟩
    obtain ⟨t, ht⟩ := isSome_onChannel hc
    simp [nextOf, Test.step, hk, hsub, ht]
  | signal i => simp [nextOf, Test.step, hk, onSignals, Selected.step]
  | read i =>
    have hlt := hi.index_lt (k := k) (i := i) (by rw [hk]; rfl)
    have hid : s.logged.channel.subs[i]? = some s.logged.channel.subs[i] :=
      List.getElem?_eq_getElem hlt
    obtain ⟨r, hr⟩ := Option.isSome_iff_exists.mp (hi.channel.log.accounts.read_isSome _
      (List.mem_of_getElem? hid) (some k.task))
    obtain ⟨t, ht⟩ := isSome_onChannel (a := .read i (some k.task))
      (Option.bind_eq_some_iff.mpr ⟨_, hid, Option.map_eq_some_iff.mpr ⟨r, hr, rfl⟩⟩)
    simp [nextOf, Test.step, hk, ht]
  | timer i => simp [nextOf, Test.step, hk]

/-- Task C can take its next step, unless its counter overflows. -/
theorem TestInv.pub_next (hi : TestInv s) (hbound : s.counter + 1 < 2 ^ 32) :
    (s.step (nextOfC s.pub)).isSome := by
  cases hp : s.pub with
  | start =>
    have hcount := hi.publisher
    rw [if_pos hp] at hcount
    have hpub : s.logged.channel.state.publisher = .ok { s.logged.channel.state with
        publisherCount := s.logged.channel.state.publisherCount + 1 } :=
      if_neg (by rw [hcount]; decide)
    obtain ⟨c, hc⟩ : ∃ c, s.logged.channel.step .publisher = some c := by
      unfold Channel.step
      rw [hpub]
      exact ⟨_, rfl⟩
    obtain ⟨t, ht⟩ := isSome_onChannel hc
    simp [nextOfC, Test.step, hp, hpub, ht]
  | select =>
    obtain ⟨g, hg⟩ := Selected.exists_step_poll inner hi.signals.polling
    have hg : s.onSignals (.poll 0 taskC) = some { s with signals := g } :=
      Option.map_eq_some_iff.mpr ⟨g, hg, rfl⟩
    simp only [nextOfC, Test.step, hp, hg, Option.bind_some, if_pos hbound]
    split_ifs <;> rfl
  | publish =>
    have hcnt := hi.counted.count
    rw [if_pos hp] at hcnt
    have hnext := hi.channel.log.next
    obtain ⟨r, hr⟩ := Option.isSome_iff_exists.mp
      (hi.channel.log.accounts.publish_isSome (by omega) s.counter)
    obtain ⟨r', hr'⟩ : ∃ r',
        s.logged.channel.state.publishWithContext s.counter (some taskC) = some r' := by
      unfold PubSubState.publishWithContext
      rw [hr, Option.bind_some]
      cases r.1 with
      | ok u => exact ⟨_, rfl⟩
      | error m =>
        cases hreg : r.2.1.publisherWakers.register taskC with
        | none => exact absurd (MultiWakerRegistration.register_eq_none hreg) (by decide)
        | some reg => exact ⟨_, Option.map_eq_some_iff.mpr ⟨reg, hreg, rfl⟩⟩
    obtain ⟨t, ht⟩ := isSome_onChannel (a := .pollPublish 0 taskC s.counter)
      (Option.map_eq_some_iff.mpr ⟨r', hr', rfl⟩)
    simp [nextOfC, Test.step, hp, ht]

theorem TestInv.testSpec (hi : TestInv s) : TestSpec s where
  subs_next := hi.subs_next
  pub_next := hi.pub_next
  select := by
    rintro ⟨hp, hpoll, t, ht⟩ k ⟨i, t', hk, hw⟩
    obtain ⟨-, hid⟩ := hi.channel.waiters.waits i t' hw
    rcases hi.unread k i hk with hu | hu | ⟨id, hid', hlt⟩
    · have hmem : k.signal ∈ Selected.polled inner s.signals.polling 0 := by
        rw [Selected.polled, hpoll]
        cases k <;> decide
      rw [hi.signals.inv.held 0 t ht k.signal hmem] at hu
      exact absurd hu (by simp [Signal.State.value])
    · exact absurd (hp.symm.trans hu) (by simp)
    · obtain rfl := Option.some.inj (hid'.symm.trans hid)
      exact absurd hlt (Nat.lt_irrefl _)
  publish := by
    rintro ⟨-, t, ht⟩
    obtain ⟨i, hw, hrec⟩ := hi.channel.waiters.exists_reader hi.channel.channel (by decide) ht
    have hlt := (List.getElem?_eq_some_iff.mp hw).1
    rw [hi.channel.waiters.length] at hlt
    obtain ⟨k, hk⟩ := hi.places.onto i hlt
    exact ⟨k, i, hk, hw, (hrec (some k.task)).2⟩
  received := by
    intro h hm
    obtain ⟨n, hn⟩ := List.mem_iff_getElem?.mp hm
    have hlt := (List.getElem?_eq_some_iff.mp hn).1
    rw [hi.channel.log.covered.length] at hlt
    exact eq_map_range' hi.counted.values (hi.channel.messages h hm)
      (hi.channel.log.covered.covers n h _ hn (List.getElem?_eq_getElem hlt))

/-- **The tasks of the test application never all wait for one another.** In every reachable state
the next step of each task is possible, up to the overflow of the counter; while C waits for a
signal, neither A nor B waits for a message, and while C waits to publish, one of them has a message
to read; and each of them has got the counters one by one, without a lag. -/
theorem testSpec_of_reachable (h : Reachable step new s) : TestSpec s :=
  (h.invariant testInv_new fun _ _ _ hi hs => hi.step hs).testSpec

/-- A reads two counters before B reads the first; then B's signal comes between the two critical
sections of C's poll, and lets C publish once more. -/
def testRun : List Action :=
  [.subscribe .a, .signal .a, .read .a, .publisher, .subscribe .b, .select, .publish, .read .a,
    .timer .a, .signal .a, .select, .publish, .select, .signal .b, .read .b, .read .a, .select,
    .publish, .select, .select]

theorem testSpec_of_reachable_testRun : ∃ s, runList step new testRun = some s ∧
    s.logged.histories = [⟨0, [.message 1, .message 2]⟩, ⟨0, [.message 1]⟩] ∧ s.SelectWaits ∧
      TestSpec s := by
  obtain ⟨s, hs, hv⟩ := exists_of_map_runList
    (f := fun s => (s.logged.histories, s.pub, s.signals.polling 0, s.signals.waiting 0))
    (s := new) (l := testRun)
    (b := ([⟨0, [.message 1, .message 2]⟩, ⟨0, [.message 1]⟩], .select, none, some taskC))
    (r := step) (by decide)
  obtain ⟨hh, hv⟩ := Prod.mk.inj hv
  obtain ⟨hp, hv⟩ := Prod.mk.inj hv
  obtain ⟨hpoll, hw⟩ := Prod.mk.inj hv
  exact ⟨s, hs, hh, ⟨hp, hpoll, taskC, hw⟩, testSpec_of_reachable (reachable_of_runList hs)⟩

end Test

end TestCases

end AurixAsync
