import AurixAsync.Sync.PubSubDelivery

/-!
# The subscribers of a PubSub channel that wait

A channel with, for each live subscriber, the task that waits for its next message: the one whose
poll of `next_message` or of the stream returned pending, unless it was woken since.

* `woken`, `received`: the tasks woken in a step of the channel, and what a read gives.
* `Hears`: a task registered for messages stays registered, or a message comes and wakes it.
* `Waiters`, `step`: the channel with its waiting subscribers.
* `available_of_waiting`: a subscriber that waits has nothing to read.
* `exists_reader_of_publishing`: while a publisher waits, some subscriber does not, and has a
  message to read.
-/

namespace AurixAsync

namespace PubSub

open Transition

variable {α : Type} {CAP SUBS PUBS : ℕ}

namespace PubSubState

/-- `Sub::available` of a subscriber. -/
def available (s : PubSubState α CAP SUBS PUBS) (nextMessageId : ℕ) : Option ℕ :=
  checkedSub s.nextMessageId nextMessageId

/-! ### The registered tasks -/

/-- Of the tasks registered for messages, those not woken stay registered, and nothing was published
to them. -/
def Hears (s s' : PubSubState α CAP SUBS PUBS) (woken : List TaskRef) : Prop :=
  ∀ t ∈ s.subscriberWakers.wakers.items, t ∉ woken →
    t ∈ s'.subscriberWakers.wakers.items ∧ s'.nextMessageId = s.nextMessageId

variable {s s' : PubSubState α CAP SUBS PUBS} {ts : List TaskRef}

theorem hears_of_eq (hw : s'.subscriberWakers = s.subscriberWakers)
    (hn : s'.nextMessageId = s.nextMessageId) : Hears s s' ts :=
  fun _ ht _ => ⟨hw ▸ ht, hn⟩

theorem hears_tryPublish {message : α}
    {r : Except α Unit × PubSubState α CAP SUBS PUBS × List TaskRef}
    (h : s.tryPublish message = some r) : Hears s r.2.1 r.2.2 := by
  rcases tryPublish_cases h with ⟨-, rfl⟩ | ⟨-, -, rfl⟩ | ⟨-, -, q, -, rfl⟩
  · exact hears_of_eq rfl rfl
  · exact hears_of_eq rfl rfl
  · exact fun t ht hnot => absurd ht hnot

theorem hears_publishWithContext {message : α} {cx : Option TaskRef}
    {r : Except α Unit × PubSubState α CAP SUBS PUBS × List TaskRef}
    (h : s.publishWithContext message cx = some r) : Hears s r.2.1 r.2.2 := by
  rcases publishWithContext_cases h with ⟨hp, -⟩ | ⟨-, reg, -, rfl⟩
  · exact hears_tryPublish (r := (.ok (), r.2)) hp
  · exact hears_of_eq rfl rfl

theorem hears_publishImmediate {message : α} {r : PubSubState α CAP SUBS PUBS × List TaskRef}
    (h : s.publishImmediate message = some r) : Hears s r.1 r.2 := by
  rcases publishImmediate_cases h with ⟨-, hp⟩ | ⟨-, hp⟩
  · exact hears_tryPublish (r := (.ok (), r)) hp
  · exact hears_tryPublish (s := { s with queue := popFront s.queue }) (r := (.ok (), r)) hp

theorem hears_unregisterSubscriber (hle : s.queue.items.length ≤ s.nextMessageId) {id : ℕ}
    {r : PubSubState α CAP SUBS PUBS × List TaskRef} (h : s.unregisterSubscriber id = some r) :
    Hears s r.1 r.2 := by
  rcases (unregisterSubscriber_cases hle h).2 with ⟨-, rfl⟩ | ⟨j, -, q, -, ⟨-, rfl⟩ | rfl⟩
  · exact hears_of_eq rfl rfl
  · exact hears_of_eq rfl rfl
  · exact hears_of_eq rfl rfl

/-- A reader that finds nothing registers. Whoever loses its place is woken. -/
theorem hears_getMessageWithContext (hle : s.queue.items.length ≤ s.nextMessageId) {id : ℕ}
    {cx : Option TaskRef}
    {r : (Option (WaitResult α) × ℕ) × PubSubState α CAP SUBS PUBS × List TaskRef}
    (h : s.getMessageWithContext id cx = some r) : Hears s r.2.1 r.2.2 := by
  rcases getMessageWithContext_cases hle h with
    ⟨-, rfl⟩ | ⟨j, -, ⟨-, reg, hreg, rfl⟩ | ⟨m, c, -, q, ⟨-, -, rfl⟩ | ⟨-, -, -, rfl⟩⟩⟩
  · exact hears_of_eq rfl rfl
  · cases cx with
    | none =>
      obtain rfl := Option.some.inj hreg
      exact hears_of_eq rfl rfl
    | some w =>
      exact fun t ht hnot => ⟨(MultiWakerRegistration.register_spec hreg).2 t ht hnot, rfl⟩
  · exact hears_of_eq rfl rfl
  · exact hears_of_eq rfl rfl

end PubSubState

namespace Channel

open PubSubState

variable {c c' : Channel α CAP SUBS PUBS}

/-- The tasks that a step wakes. -/
def woken (c : Channel α CAP SUBS PUBS) : Action α → List TaskRef
  | .dropSubscriber i =>
    (((c.subs[i]?).bind fun id => c.state.unregisterSubscriber id).map fun r => r.2).getD []
  | .pollPublish _ task message =>
    ((c.state.publishWithContext message (some task)).map fun r => r.2.2).getD []
  | .tryPublish message => ((c.state.publishWithContext message none).map fun r => r.2.2).getD []
  | .publishImmediate message => ((c.state.publishImmediate message).map fun r => r.2).getD []
  | .read i cx =>
    (((c.subs[i]?).bind fun id => c.state.getMessageWithContext id cx).map fun r => r.2.2).getD []
  | .wake task => [task]
  | _ => []

/-- What the read of the `i`-th subscriber gives, `none` for pending. -/
def received (c : Channel α CAP SUBS PUBS) (i : ℕ) (cx : Option TaskRef) : Option (WaitResult α) :=
  ((c.subs[i]?).bind fun id => c.state.getMessageWithContext id cx).bind fun r => r.1.1

theorem exists_logged_of_reachable (h : Reachable step (new : Channel α CAP SUBS PUBS) c) :
    ∃ l : Logged α CAP SUBS PUBS, Logged.LogInv l ∧ l.channel = c := by
  suffices hl : ∃ l : Logged α CAP SUBS PUBS, Reachable Logged.step .new l ∧ l.channel = c by
    obtain ⟨l, hr, hc⟩ := hl
    exact ⟨l, hr.invariant Logged.logInv_new fun _ _ _ hi => hi.step, hc⟩
  obtain ⟨tr, hr⟩ := h
  induction hr with
  | nil => exact ⟨.new, .refl, rfl⟩
  | snoc _ hs ih =>
    obtain ⟨l, hl, rfl⟩ := ih
    exact ⟨_, hl.tail (Option.map_eq_some_iff.mpr ⟨_, hs, rfl⟩), rfl⟩

theorem length_le_of_reachable (h : Reachable step (new : Channel α CAP SUBS PUBS) c) :
    c.state.queue.items.length ≤ c.state.nextMessageId := by
  obtain ⟨l, hl, rfl⟩ := exists_logged_of_reachable h
  exact hl.length_le

theorem le_of_reachable (h : Reachable step (new : Channel α CAP SUBS PUBS) c) {id : ℕ}
    (hid : id ∈ c.subs) : id ≤ c.state.nextMessageId := by
  obtain ⟨l, hl, rfl⟩ := exists_logged_of_reachable h
  rw [hl.next]
  exact hl.kept.pos_le id hid

/-- **What a read does to the channel.** A subscriber that has messages to read gets a result. One
that has none stays where it is, and its task is registered. -/
theorem read_cases (hr : Reachable step (new : Channel α CAP SUBS PUBS) c) {i : ℕ}
    {cx : Option TaskRef} (h : c.step (.read i cx) = some c') :
    ∃ id n, c.subs[i]? = some id ∧ c'.subs = c.subs.set i n ∧
      c'.state.nextMessageId = c.state.nextMessageId ∧
        (id < c.state.nextMessageId ∧ (c.received i cx).isSome ∨
          id = c.state.nextMessageId ∧ c.received i cx = none ∧ n = id ∧
            ∀ t, cx = some t → t ∈ c'.state.subscriberWakers.wakers.items) := by
  have hle := length_le_of_reachable hr
  obtain ⟨id, hid, hmap⟩ := Option.bind_eq_some_iff.mp h
  obtain ⟨r, hg, rfl⟩ := Option.map_eq_some_iff.mp hmap
  have hres : c.received i cx = r.1.1 := by
    rw [received, hid, Option.bind_some, hg, Option.bind_some]
  have hstart : c.state.startId + c.state.queue.items.length = c.state.nextMessageId :=
    Nat.sub_add_cancel hle
  have hnext := le_of_reachable hr (List.mem_of_getElem? hid)
  refine ⟨id, r.1.2, hid, rfl, ?_⟩
  rw [hres]
  rcases getMessageWithContext_cases hle hg with
    ⟨hlt, rfl⟩ | ⟨j, rfl, ⟨hj, reg, hreg, rfl⟩ | ⟨m, k, hx, q, hcase⟩⟩
  · exact ⟨rfl, Or.inl ⟨by omega, rfl⟩⟩
  · refine ⟨rfl, Or.inr ⟨by omega, rfl, rfl, ?_⟩⟩
    rintro t rfl
    exact (MultiWakerRegistration.register_spec hreg).1
  · have hj := (List.getElem?_eq_some_iff.mp hx).1
    rcases hcase with ⟨-, -, rfl⟩ | ⟨-, -, -, rfl⟩
    · exact ⟨rfl, Or.inl ⟨by omega, rfl⟩⟩
    · exact ⟨rfl, Or.inl ⟨by omega, rfl⟩⟩

/-- **Every step** wakes a registered task, or leaves it registered and publishes nothing. -/
theorem hears_of_step (hle : c.state.queue.items.length ≤ c.state.nextMessageId) {a : Action α}
    (h : c.step a = some c') : Hears c.state c'.state (c.woken a) := by
  cases a with
  | subscriber =>
    unfold step PubSubState.subscriber at h
    by_cases hfull : SUBS ≤ c.state.subscriberCount
    · rw [if_pos hfull] at h
      obtain rfl := Option.some.inj h
      exact hears_of_eq rfl rfl
    · rw [if_neg hfull] at h
      obtain rfl := Option.some.inj h
      exact hears_of_eq rfl rfl
  | dropSubscriber i =>
    obtain ⟨id, hid, hr⟩ := Option.bind_eq_some_iff.mp h
    obtain ⟨r, hu, rfl⟩ := Option.map_eq_some_iff.mp hr
    rw [woken, hid, Option.bind_some, hu]
    exact hears_unregisterSubscriber hle hu
  | publisher =>
    unfold step PubSubState.publisher at h
    by_cases hfull : PUBS ≤ c.state.publisherCount
    · rw [if_pos hfull] at h
      obtain rfl := Option.some.inj h
      exact hears_of_eq rfl rfl
    · rw [if_neg hfull] at h
      obtain rfl := Option.some.inj h
      exact hears_of_eq rfl rfl
  | dropPublisher =>
    obtain ⟨state, hs, rfl⟩ := Option.map_eq_some_iff.mp h
    obtain ⟨count, -, rfl⟩ := Option.map_eq_some_iff.mp hs
    exact hears_of_eq rfl rfl
  | pollPublish f task message =>
    obtain ⟨r, hp, rfl⟩ := Option.map_eq_some_iff.mp h
    rw [woken, hp]
    exact hears_publishWithContext hp
  | dropPublish f =>
    obtain rfl := Option.some.inj h
    exact hears_of_eq rfl rfl
  | tryPublish message =>
    obtain ⟨r, hp, rfl⟩ := Option.map_eq_some_iff.mp h
    rw [woken, hp]
    exact hears_publishWithContext hp
  | publishImmediate message =>
    obtain ⟨r, hp, rfl⟩ := Option.map_eq_some_iff.mp h
    rw [woken, hp]
    exact hears_publishImmediate hp
  | read i cx =>
    obtain ⟨id, hid, hr⟩ := Option.bind_eq_some_iff.mp h
    obtain ⟨r, hg, rfl⟩ := Option.map_eq_some_iff.mp hr
    rw [woken, hid, Option.bind_some, hg]
    exact hears_getMessageWithContext hle hg
  | wake task =>
    obtain rfl := Option.some.inj h
    exact hears_of_eq rfl rfl

end Channel

/-! ### The machine -/

/-- A channel, and for each live subscriber the task that waits for its next message. -/
structure Waiters (α : Type) (CAP SUBS PUBS : ℕ) where
  channel : Channel α CAP SUBS PUBS
  waiting : List (Option TaskRef)

namespace Waiters

open Channel

/-- Nobody uses the channel. -/
def new : Waiters α CAP SUBS PUBS := ⟨.new, []⟩

/-- What the users of the channel do. -/
inductive Action (α : Type)
  /-- `.read i (some task)` polls a `SubscriberWaitFuture`, `.read i none` is `try_next_message`. -/
  | on (a : Channel.Action α)
  /-- `poll_next` of the stream. -/
  | pollNext (i : ℕ) (task : TaskRef)
  /-- The `SubscriberWaitFuture` of the `i`-th subscriber is dropped. -/
  | dropWait (i : ℕ)
deriving DecidableEq

/-- Those who still wait after these tasks were woken. -/
def still (waiting : List (Option TaskRef)) (ts : List TaskRef) : List (Option TaskRef) :=
  waiting.map fun t => t.filter (· ∉ ts)

/-- Those who wait after a step that led to the channel `c`. -/
def waitingAfter (s : Waiters α CAP SUBS PUBS) (a : Channel.Action α)
    (c : Channel α CAP SUBS PUBS) : List (Option TaskRef) :=
  let waiting := still s.waiting (s.channel.woken a)
  match a with
  | .subscriber =>
    if c.subs.length = s.channel.subs.length then waiting else waiting ++ [none]
  | .dropSubscriber i => waiting.eraseIdx i
  | .read i (some task) =>
    waiting.set i (if (s.channel.received i (some task)).isNone then some task else none)
  | _ => waiting

/-- A step of the channel, and who waits after it. -/
def stepChannel (s : Waiters α CAP SUBS PUBS) (a : Channel.Action α) :
    Option (Waiters α CAP SUBS PUBS) :=
  (s.channel.step a).map fun c => ⟨c, s.waitingAfter a c⟩

/-- One action. `none` if it panics, or if there is no such subscriber. -/
def step (s : Waiters α CAP SUBS PUBS) : Action α → Option (Waiters α CAP SUBS PUBS)
  | .on a => s.stepChannel a
  | .pollNext i task =>
    (s.stepChannel (.read i (some task))).bind fun s' =>
      match s.channel.received i (some task) with
      | some (.lagged _) =>
        -- the lag is ignored: the task is woken, and the poll returns pending
        ({ s' with waiting := s'.waiting.set i (some task) } : Waiters α CAP SUBS PUBS).stepChannel
          (.wake task)
      | _ => some s'
  | .dropWait i => some { s with waiting := s.waiting.set i none }

/-- A subscriber that waits is registered, and has read everything. -/
structure WaitersInv (s : Waiters α CAP SUBS PUBS) : Prop where
  reachable : Reachable Channel.step Channel.new s.channel
  length : s.waiting.length = s.channel.subs.length
  waits : ∀ (i : ℕ) (t : TaskRef), s.waiting[i]? = some (some t) →
    t ∈ s.channel.state.subscriberWakers.wakers.items ∧
      s.channel.subs[i]? = some s.channel.state.nextMessageId

variable {s s' : Waiters α CAP SUBS PUBS} {i : ℕ} {t : TaskRef}

theorem getElem?_still {waiting : List (Option TaskRef)} {ts : List TaskRef} :
    (still waiting ts)[i]? = some (some t) ↔ waiting[i]? = some (some t) ∧ t ∉ ts := by
  rw [still, List.getElem?_map, Option.map_eq_some_iff]
  constructor
  · rintro ⟨x, hx, ht⟩
    obtain ⟨rfl, hnot⟩ := Option.filter_eq_some_iff.mp ht
    exact ⟨hx, of_decide_eq_true hnot⟩
  · rintro ⟨hx, hnot⟩
    exact ⟨_, hx, Option.filter_eq_some_iff.mpr ⟨rfl, decide_eq_true hnot⟩⟩

@[simp] theorem length_still {waiting : List (Option TaskRef)} {ts : List TaskRef} :
    (still waiting ts).length = waiting.length := List.length_map _

theorem waitersInv_new : WaitersInv (new : Waiters α CAP SUBS PUBS) where
  reachable := .refl
  length := rfl
  waits := fun i t h => absurd h (by simp [new])

/-! ### The steps -/

theorem WaitersInv.still (hi : WaitersInv s) {a : Channel.Action α} {c : Channel α CAP SUBS PUBS}
    (h : s.channel.step a = some c)
    (hw : (Waiters.still s.waiting (s.channel.woken a))[i]? = some (some t)) :
    t ∈ c.state.subscriberWakers.wakers.items ∧
      s.channel.subs[i]? = some c.state.nextMessageId := by
  obtain ⟨hw, hnot⟩ := getElem?_still.mp hw
  obtain ⟨hreg, hid⟩ := hi.waits i t hw
  obtain ⟨hreg', hn⟩ := hears_of_step (length_le_of_reachable hi.reachable) h t hreg hnot
  exact ⟨hreg', hn ▸ hid⟩

theorem WaitersInv.same (hi : WaitersInv s) {a : Channel.Action α} {c : Channel α CAP SUBS PUBS}
    (h : s.channel.step a = some c) (hsubs : c.subs = s.channel.subs)
    (hw : s.waitingAfter a c = Waiters.still s.waiting (s.channel.woken a)) :
    WaitersInv ⟨c, s.waitingAfter a c⟩ := by
  rw [hw]
  refine ⟨hi.reachable.tail h, ?_, fun i t ht => ?_⟩
  · show (Waiters.still _ _).length = c.subs.length
    rw [length_still, hi.length, hsubs]
  · show _ ∧ c.subs[i]? = _
    rw [hsubs]
    exact hi.still h ht

theorem WaitersInv.subscriber (hi : WaitersInv s) {c : Channel α CAP SUBS PUBS}
    (h : s.channel.step .subscriber = some c) :
    WaitersInv ⟨c, s.waitingAfter .subscriber c⟩ := by
  by_cases hsubs : c.subs = s.channel.subs
  · exact hi.same h hsubs (if_pos (congrArg _ hsubs))
  · have hjoin : c.subs = s.channel.subs ++ [s.channel.state.nextMessageId] := by
      unfold Channel.step PubSubState.subscriber at h
      by_cases hfull : SUBS ≤ s.channel.state.subscriberCount
      · rw [if_pos hfull] at h
        obtain rfl := Option.some.inj h
        exact absurd rfl hsubs
      · rw [if_neg hfull] at h
        obtain rfl := Option.some.inj h
        rfl
    have hlen : (Waiters.still s.waiting (s.channel.woken .subscriber)).length =
        s.channel.subs.length := by rw [length_still, hi.length]
    have hw : s.waitingAfter .subscriber c =
        Waiters.still s.waiting (s.channel.woken .subscriber) ++ [none] := by
      refine if_neg ?_
      rw [hjoin, List.length_append, List.length_singleton]
      omega
    rw [hw]
    refine ⟨hi.reachable.tail h, ?_, fun i t ht => ?_⟩
    · show (_ ++ [none]).length = c.subs.length
      rw [hjoin, List.length_append, List.length_append, hlen]
      rfl
    · change (_ ++ [none])[i]? = _ at ht
      have hlt : i < s.channel.subs.length := by
        by_contra hge
        rw [List.getElem?_append_right (by omega), List.getElem?_singleton] at ht
        split_ifs at ht
        exact absurd (Option.some.inj ht) (by simp)
      rw [List.getElem?_append_left (by omega)] at ht
      show _ ∧ c.subs[i]? = _
      rw [hjoin, List.getElem?_append_left hlt]
      exact hi.still h ht

theorem WaitersInv.dropSubscriber (hi : WaitersInv s) {c : Channel α CAP SUBS PUBS}
    (h : s.channel.step (.dropSubscriber i) = some c) :
    WaitersInv ⟨c, s.waitingAfter (.dropSubscriber i) c⟩ := by
  have hsubs : c.subs = s.channel.subs.eraseIdx i := by
    obtain ⟨id, hid, hr⟩ := Option.bind_eq_some_iff.mp h
    obtain ⟨r, hu, rfl⟩ := Option.map_eq_some_iff.mp hr
    rfl
  have hw : s.waitingAfter (.dropSubscriber i) c =
      (Waiters.still s.waiting (s.channel.woken (.dropSubscriber i))).eraseIdx i := rfl
  rw [hw]
  refine ⟨hi.reachable.tail h, ?_, fun k t ht => ?_⟩
  · show (List.eraseIdx _ i).length = c.subs.length
    rw [hsubs, List.length_eraseIdx, List.length_eraseIdx, length_still, hi.length]
  · change (List.eraseIdx _ i)[k]? = _ at ht
    show _ ∧ c.subs[k]? = _
    rw [hsubs, List.getElem?_eraseIdx]
    rw [List.getElem?_eraseIdx] at ht
    split_ifs at ht ⊢
    · exact hi.still h ht
    · exact hi.still h ht

theorem WaitersInv.read (hi : WaitersInv s) {cx : Option TaskRef} {c : Channel α CAP SUBS PUBS}
    (h : s.channel.step (.read i cx) = some c) :
    WaitersInv ⟨c, s.waitingAfter (.read i cx) c⟩ := by
  obtain ⟨id, n, hid, hsubs, hn, hcase⟩ := read_cases hi.reachable h
  have hlt := (List.getElem?_eq_some_iff.mp hid).1
  refine ⟨hi.reachable.tail h, ?_, fun k t ht => ?_⟩
  · show (s.waitingAfter (.read i cx) c).length = c.subs.length
    rw [hsubs, List.length_set, ← hi.length]
    cases cx with
    | none => exact length_still
    | some w => exact (List.length_set).trans length_still
  · change (s.waitingAfter (.read i cx) c)[k]? = _ at ht
    show _ ∧ c.subs[k]? = _
    -- a subscriber that waited before the read has read everything
    have hkeep : (Waiters.still s.waiting (s.channel.woken (.read i cx)))[k]? = some (some t) →
        t ∈ c.state.subscriberWakers.wakers.items ∧ c.subs[k]? = some c.state.nextMessageId := by
      intro hw
      obtain ⟨hreg, hk⟩ := hi.still h hw
      refine ⟨hreg, ?_⟩
      by_cases hik : i = k
      · subst hik
        obtain rfl : id = c.state.nextMessageId := Option.some.inj (hid.symm.trans hk)
        rcases hcase with ⟨hlt', -⟩ | ⟨-, -, rfl, -⟩
        · omega
        · rw [hsubs, List.getElem?_set_self hlt]
      · rw [hsubs, List.getElem?_set_ne hik, hk]
    cases cx with
    | none => exact hkeep ht
    | some w =>
      change (List.set _ i _)[k]? = _ at ht
      by_cases hik : i = k
      · subst hik
        rw [List.getElem?_set_self (by rw [length_still, hi.length]; exact hlt)] at ht
        rcases hcase with ⟨-, hsome⟩ | ⟨rfl, hnone, rfl, hreg⟩
        · rw [Option.isNone_eq_false_iff.mpr hsome] at ht
          exact absurd (Option.some.inj ht) (by simp)
        · rw [hnone] at ht
          obtain rfl := Option.some.inj (Option.some.inj ht)
          rw [hsubs, List.getElem?_set_self hlt, hn]
          exact ⟨hreg w rfl, rfl⟩
      · rw [List.getElem?_set_ne hik] at ht
        exact hkeep ht

theorem WaitersInv.stepChannel (hi : WaitersInv s) {a : Channel.Action α}
    (h : s.stepChannel a = some s') : WaitersInv s' := by
  obtain ⟨c, hc, rfl⟩ := Option.map_eq_some_iff.mp h
  cases a with
  | subscriber => exact hi.subscriber hc
  | dropSubscriber i => exact hi.dropSubscriber hc
  | publisher =>
    refine hi.same hc ?_ rfl
    unfold Channel.step PubSubState.publisher at hc
    by_cases hfull : PUBS ≤ s.channel.state.publisherCount
    · rw [if_pos hfull] at hc
      rw [← Option.some.inj hc]
    · rw [if_neg hfull] at hc
      rw [← Option.some.inj hc]
  | dropPublisher =>
    refine hi.same hc ?_ rfl
    obtain ⟨state, -, rfl⟩ := Option.map_eq_some_iff.mp hc
    rfl
  | pollPublish f task message =>
    refine hi.same hc ?_ rfl
    obtain ⟨r, -, rfl⟩ := Option.map_eq_some_iff.mp hc
    rfl
  | dropPublish f =>
    refine hi.same hc ?_ rfl
    rw [← Option.some.inj hc]
  | tryPublish message =>
    refine hi.same hc ?_ rfl
    obtain ⟨r, -, rfl⟩ := Option.map_eq_some_iff.mp hc
    rfl
  | publishImmediate message =>
    refine hi.same hc ?_ rfl
    obtain ⟨r, -, rfl⟩ := Option.map_eq_some_iff.mp hc
    rfl
  | read i cx => exact hi.read hc
  | wake task =>
    refine hi.same hc ?_ rfl
    rw [← Option.some.inj hc]
    rfl

theorem WaitersInv.lagged (hi : WaitersInv s) {task : TaskRef}
    (h : ({ s with waiting := s.waiting.set i (some task) } : Waiters α CAP SUBS PUBS).stepChannel
      (.wake task) = some s') : WaitersInv s' := by
  obtain ⟨c, hc, rfl⟩ := Option.map_eq_some_iff.mp h
  have hreach : Reachable Channel.step Channel.new c := hi.reachable.tail hc
  obtain rfl := Option.some.inj hc
  refine ⟨hreach, ?_, fun k t ht => ?_⟩
  · show (Waiters.still (s.waiting.set i (some task)) [task]).length = s.channel.subs.length
    rw [length_still, List.length_set, hi.length]
  · obtain ⟨hset, hnot⟩ := getElem?_still.mp ht
    by_cases hik : i = k
    · subst hik
      rw [List.getElem?_set, if_pos rfl] at hset
      split_ifs at hset
      obtain rfl := Option.some.inj (Option.some.inj hset)
      exact absurd (List.mem_singleton_self _) hnot
    · rw [List.getElem?_set_ne hik] at hset
      exact hi.waits k t hset

/-- **Every step** leaves only subscribers waiting that have read everything. -/
theorem WaitersInv.step (hi : WaitersInv s) {a : Action α} (h : s.step a = some s') :
    WaitersInv s' := by
  cases a with
  | on a => exact hi.stepChannel h
  | pollNext i task =>
    obtain ⟨s₁, h₁, h⟩ := Option.bind_eq_some_iff.mp h
    have hi₁ := hi.stepChannel h₁
    cases hres : s.channel.received i (some task) with
    | none =>
      rw [hres] at h
      obtain rfl := Option.some.inj h
      exact hi₁
    | some result =>
      rw [hres] at h
      cases result with
      | lagged amount => exact hi₁.lagged h
      | message m =>
        obtain rfl := Option.some.inj h
        exact hi₁
  | dropWait i =>
    obtain rfl := Option.some.inj h
    refine ⟨hi.reachable, (List.length_set).trans hi.length, fun k t ht => hi.waits k t ?_⟩
    change (s.waiting.set i none)[k]? = _ at ht
    rw [List.getElem?_set] at ht
    split_ifs at ht
    · exact absurd (Option.some.inj ht) (by simp)
    · exact ht

theorem waitersInv_of_reachable (h : Reachable step (new : Waiters α CAP SUBS PUBS) s) :
    WaitersInv s :=
  h.invariant waitersInv_new fun _ _ _ hi => hi.step

/-- **No message is missed.** In every run, a subscriber that waits has nothing to read, and its
task is registered for the next message. -/
theorem available_of_waiting (h : Reachable step (new : Waiters α CAP SUBS PUBS) s)
    (hw : s.waiting[i]? = some (some t)) :
    ∃ id, s.channel.subs[i]? = some id ∧ s.channel.state.available id = some 0 ∧
      t ∈ s.channel.state.subscriberWakers.wakers.items := by
  obtain ⟨hreg, hid⟩ := (waitersInv_of_reachable h).waits i t hw
  refine ⟨_, hid, ?_, hreg⟩
  exact checkedSub_eq_some.mpr ⟨Nat.le_refl _, (Nat.sub_self _).symm⟩

/-! ### Publishers and subscribers -/

/-- No subscriber is dropped that lags behind a queue with messages. -/
def CaughtUp (s : Waiters α CAP SUBS PUBS) : Action α → Prop
  | .on a => DropsCaughtUp s.channel a
  | _ => True

/-- A subscriber is dropped. -/
def Action.drops : Action α → Bool
  | .on (.dropSubscriber _) => true
  | _ => false

theorem caughtUp_of_drops {a : Action α} (h : a.drops = false) : CaughtUp s a := by
  cases a with
  | on a =>
    cases a with
    | dropSubscriber i => exact absurd h (by simp [Action.drops])
    | _ => trivial
  | _ => trivial

theorem channelInv_of_stepChannel (hi : ChannelInv s.channel) (hCAP : 0 < CAP)
    {a : Channel.Action α} (h : s.stepChannel a = some s') (hc : DropsCaughtUp s.channel a) :
    ChannelInv s'.channel := by
  obtain ⟨c, hs, rfl⟩ := Option.map_eq_some_iff.mp h
  exact hi.step hCAP hs hc

theorem channelInv_of_step (hi : ChannelInv s.channel) (hCAP : 0 < CAP) {a : Action α}
    (h : s.step a = some s') (hc : CaughtUp s a) : ChannelInv s'.channel := by
  cases a with
  | on a => exact channelInv_of_stepChannel hi hCAP h hc
  | pollNext i task =>
    obtain ⟨s₁, h₁, h⟩ := Option.bind_eq_some_iff.mp h
    have hi₁ := channelInv_of_stepChannel hi hCAP h₁ trivial
    cases hres : s.channel.received i (some task) with
    | none =>
      rw [hres] at h
      obtain rfl := Option.some.inj h
      exact hi₁
    | some result =>
      rw [hres] at h
      cases result with
      | lagged amount =>
        exact channelInv_of_stepChannel
          (s := { s₁ with waiting := s₁.waiting.set i (some task) }) hi₁ hCAP h trivial
      | message m =>
        obtain rfl := Option.some.inj h
        exact hi₁
  | dropWait i =>
    obtain rfl := Option.some.inj h
    exact hi

theorem channelInv_of_run (hCAP : 0 < CAP) {tr : List (Waiters α CAP SUBS PUBS × Action α)}
    (hr : Run step new tr s) (hc : AllSteps CaughtUp tr) : ChannelInv s.channel := by
  induction hr with
  | nil => exact channelInv_new
  | snoc _ hs ih =>
    obtain ⟨hc, hca⟩ := allSteps_snoc.mp hc
    exact channelInv_of_step (ih hc) hCAP hs hca

/-- While a publisher waits, some live subscriber does not, and has a result to read. -/
theorem WaitersInv.exists_reader (hi : WaitersInv s) (hch : ChannelInv s.channel) (hCAP : 0 < CAP)
    {f : ℕ} {task : TaskRef} (hp : s.channel.publishing f = some task) :
    ∃ i, s.waiting[i]? = some none ∧
      ∀ cx, (∃ c, s.channel.step (.read i cx) = some c) ∧ (s.channel.received i cx).isSome := by
  obtain ⟨hfull, hne, id, hid, hle⟩ := (hch.backPressureExact hCAP).waits f task hp
  have hpos := List.length_pos_iff.mpr hne
  have hlen := length_le_of_reachable hi.reachable
  have hlt : id < s.channel.state.nextMessageId := by
    unfold PubSubState.startId at hle
    omega
  obtain ⟨i, hsub⟩ := List.mem_iff_getElem?.mp hid
  have hib := (List.getElem?_eq_some_iff.mp hsub).1
  refine ⟨i, ?_, fun cx => ?_⟩
  · obtain ⟨w, hw⟩ : ∃ w, s.waiting[i]? = some w :=
      ⟨_, List.getElem?_eq_getElem (by rw [hi.length]; exact hib)⟩
    cases w with
    | none => exact hw
    | some t =>
      obtain ⟨-, hnext⟩ := hi.waits i t hw
      obtain rfl := Option.some.inj (hsub.symm.trans hnext)
      exact absurd hlt (Nat.lt_irrefl _)
  · obtain ⟨c, hs⟩ : ∃ c, s.channel.step (.read i cx) = some c := by
      obtain ⟨l, hl, hch⟩ := exists_logged_of_reachable hi.reachable
      rw [← hch] at hid hsub ⊢
      obtain ⟨r, hg⟩ := Option.isSome_iff_exists.mp (hl.accounts.read_isSome id hid cx)
      exact ⟨_, Option.bind_eq_some_iff.mpr ⟨id, hsub, Option.map_eq_some_iff.mpr ⟨r, hg, rfl⟩⟩⟩
    obtain ⟨id', n, hid', -, -, hcase⟩ := read_cases hi.reachable hs
    obtain rfl := Option.some.inj (hsub.symm.trans hid')
    refine ⟨⟨c, hs⟩, ?_⟩
    rcases hcase with ⟨-, hsome⟩ | ⟨rfl, -⟩
    · exact hsome
    · exact absurd hlt (Nat.lt_irrefl _)

/-- **Publishers and subscribers never all wait.** While a publisher waits, some live subscriber
does not wait, and gets a result from its next read. -/
theorem exists_reader_of_publishing (hCAP : 0 < CAP)
    {tr : List (Waiters α CAP SUBS PUBS × Action α)} (hr : Run step new tr s)
    (hc : AllSteps CaughtUp tr) {f : ℕ} {task : TaskRef}
    (hp : s.channel.publishing f = some task) :
    ∃ i, s.waiting[i]? = some none ∧
      ∀ cx, (∃ c, s.channel.step (.read i cx) = some c) ∧ (s.channel.received i cx).isSome :=
  (waitersInv_of_reachable ⟨tr, hr⟩).exists_reader (channelInv_of_run hCAP hr hc) hCAP hp

/-- A queue of one message and two subscribers. The stream of the first one ignores a lag, gets the
message that is left and waits for the next, which nobody can publish before the other has read. -/
def streamRun : List (Action ℕ) :=
  [.on .subscriber, .on .subscriber, .on .publisher, .on (.publishImmediate 10),
    .on (.publishImmediate 11), .pollNext 0 7, .pollNext 0 7, .pollNext 0 7,
    .on (.pollPublish 0 8 12)]

theorem exists_streamRun : ∃ (s : Waiters ℕ 1 2 1) (tr : List (Waiters ℕ 1 2 1 × Action ℕ)),
    Run step new tr s ∧ tr.map Prod.snd = streamRun ∧ s.waiting = [some 7, none] ∧
      s.channel.publishing 0 = some 8 := by
  obtain ⟨s, hs, hv⟩ := exists_of_map_runList
    (f := fun s => (s.waiting, s.channel.publishing 0))
    (s := (new : Waiters ℕ 1 2 1)) (l := streamRun) (b := ([some 7, none], some 8)) (r := step)
    (by decide)
  obtain ⟨hw, hp⟩ := Prod.mk.inj hv
  obtain ⟨tr, hr, ha⟩ := exists_run_of_runList hs
  exact ⟨s, tr, hr, ha, hw, hp⟩

theorem available_of_waiting_streamRun : ∃ (s : Waiters ℕ 1 2 1) (id : ℕ),
    Reachable step new s ∧ s.channel.subs[0]? = some id ∧
      s.channel.state.available id = some 0 := by
  obtain ⟨s, tr, hr, -, hw, -⟩ := exists_streamRun
  obtain ⟨id, hid, hav, -⟩ := available_of_waiting (i := 0) (t := 7) ⟨tr, hr⟩ (by rw [hw]; rfl)
  exact ⟨s, id, ⟨tr, hr⟩, hid, hav⟩

theorem exists_reader_of_publishing_streamRun : ∃ (s : Waiters ℕ 1 2 1) (i : ℕ),
    Reachable step new s ∧ s.waiting = [some 7, none] ∧ s.waiting[i]? = some none := by
  obtain ⟨s, tr, hr, ha, hw, hp⟩ := exists_streamRun
  have hdrops : ∀ a ∈ streamRun, a.drops = false := by decide
  have hc : AllSteps CaughtUp tr := fun p hm =>
    caughtUp_of_drops (hdrops p.2 (ha ▸ List.mem_map_of_mem hm))
  obtain ⟨i, hi, -⟩ := exists_reader_of_publishing Nat.one_pos hr hc hp
  exact ⟨s, i, ⟨tr, hr⟩, hw, hi⟩

end Waiters

end PubSub

end AurixAsync
