import AurixAsync.Sync.PubSubDelivery

/-!
# Reads that ignore lags

`try_next_message_pure`, and a poll of the future of `next_message_pure`, read until the result is
not a lag. Every turn of the loop is a critical section of its own. Between two turns others may
publish, and evict the message that the subscriber was moved to.

* `others`: what others do to the channel while a subscriber is borrowed by a read.
* `nextMessagePure`: the loop, for anything that the others do before each turn.
* `PureResult`: the loop gives the first message that was not evicted, or there is none left.
* `exists_nextMessagePure`: it ends, with this, after at most two turns more than there are calls
  of `publish_immediate` between its turns.
-/

namespace AurixAsync

namespace PubSub

namespace Logged

open Transition Readers Channel

variable {α : Type} {CAP SUBS PUBS : ℕ}

/-- Of the `i`-th subscriber, which is borrowed mutably while it reads. -/
def own (i : ℕ) : Action α → Bool
  | .dropSubscriber j => j == i
  | .read j _ => j == i
  | _ => false

/-- The index of the subscriber after a step of the others. -/
def indexAfter (i : ℕ) : Action α → ℕ
  | .dropSubscriber j => if j < i then i - 1 else i
  | _ => i

/-- Only `publish_immediate` evicts. -/
def evicts : Action α → Bool
  | .publishImmediate _ => true
  | _ => false

/-- One step of the others, if it is possible. -/
def other (p : Logged α CAP SUBS PUBS × ℕ) (a : Action α) : Logged α CAP SUBS PUBS × ℕ :=
  if own p.2 a then p
  else
    match p.1.step a with
    | some s => (s, indexAfter p.2 a)
    | none => p

/-- What the others do before a turn. -/
def others (p : Logged α CAP SUBS PUBS × ℕ) (as : List (Action α)) : Logged α CAP SUBS PUBS × ℕ :=
  as.foldl other p

/-- The loop of `next_message_pure` (with a task) and `try_next_message_pure` of a subscriber, given
by its index, where the others do `as` before a turn. `none` if it goes on after these turns, or if
a read panics. -/
def nextMessagePure (cx : Option TaskRef) : List (List (Action α)) →
    Logged α CAP SUBS PUBS × ℕ → Option (Option α × Logged α CAP SUBS PUBS × ℕ)
  | [], _ => none
  | as :: turns, p =>
    let q := others p as
    (q.1.step (.read q.2 cx)).bind fun s =>
      match q.1.result q.2 cx with
      | some (.lagged _) => nextMessagePure cx turns (s, q.2)
      | some (.message m) => some (some m, s, q.2)
      | none => some (none, s, q.2)

/-- What a subscriber with `next_message_id` `id` gets: the message `n`, which was not evicted,
where all from `id` up to `n` were; or all of them were, and nothing is left to read. -/
def PureResult (id : ℕ) : Option α × Logged α CAP SUBS PUBS × ℕ → Prop
  | (some m, s, i) => ∃ n, id ≤ n ∧ (∀ e, id ≤ e → e < n → e ∈ s.evicted) ∧ n ∉ s.evicted ∧
      s.log[n]? = some m ∧ s.channel.subs[i]? = some (n + 1)
  | (none, s, i) => (∀ e, id ≤ e → e < s.log.length → e ∈ s.evicted) ∧
      s.channel.subs[i]? = some s.log.length

/-- A subscriber of the channel, with its `next_message_id`. -/
structure At (p : Logged α CAP SUBS PUBS × ℕ) (id : ℕ) : Prop where
  inv : LogInv p.1
  sub : p.1.channel.subs[p.2]? = some id

variable {s : Logged α CAP SUBS PUBS} {p : Logged α CAP SUBS PUBS × ℕ} {id i : ℕ} {a : Action α}

/-! ### The others -/

theorem subs_indexAfter {c c' : Channel α CAP SUBS PUBS} (h : c.step a = some c')
    (hown : own i a = false) (hid : c.subs[i]? = some id) :
    c'.subs[indexAfter i a]? = some id := by
  cases a with
  | subscriber =>
    unfold Channel.step PubSubState.subscriber at h
    by_cases hfull : SUBS ≤ c.state.subscriberCount
    · rw [if_pos hfull] at h
      obtain rfl := Option.some.inj h
      exact hid
    · rw [if_neg hfull] at h
      obtain rfl := Option.some.inj h
      exact (List.getElem?_append_left (List.getElem?_eq_some_iff.mp hid).1).trans hid
  | dropSubscriber j =>
    obtain ⟨n, -, hr⟩ := Option.bind_eq_some_iff.mp h
    obtain ⟨r, -, rfl⟩ := Option.map_eq_some_iff.mp hr
    have hne : j ≠ i := ne_of_beq_false hown
    change (c.subs.eraseIdx j)[if j < i then i - 1 else i]? = _
    rw [List.getElem?_eraseIdx]
    by_cases hlt : j < i
    · rw [if_pos hlt, if_neg (by omega), Nat.sub_add_cancel (by omega)]
      exact hid
    · rw [if_neg hlt, if_pos (by omega)]
      exact hid
  | publisher =>
    unfold Channel.step PubSubState.publisher at h
    by_cases hfull : PUBS ≤ c.state.publisherCount
    · rw [if_pos hfull] at h
      obtain rfl := Option.some.inj h
      exact hid
    · rw [if_neg hfull] at h
      obtain rfl := Option.some.inj h
      exact hid
  | read j cx =>
    obtain ⟨n, -, hr⟩ := Option.bind_eq_some_iff.mp h
    obtain ⟨r, -, rfl⟩ := Option.map_eq_some_iff.mp hr
    exact (List.getElem?_set_ne (ne_of_beq_false hown)).trans hid
  | dropPublish f =>
    obtain rfl := Option.some.inj h
    exact hid
  | wake task =>
    obtain rfl := Option.some.inj h
    exact hid
  | _ =>
    obtain ⟨r, -, rfl⟩ := Option.map_eq_some_iff.mp h
    exact hid

theorem mem_evictedAfter {e : ℕ} (h : e ∈ s.evicted) (a : Action α) : e ∈ s.evictedAfter a := by
  cases a with
  | publishImmediate message =>
    unfold evictedAfter
    split_ifs
    · exact List.mem_append_left _ h
    · exact h
  | _ => exact h

theorem evictedAfter_eq (h : evicts a = false) : s.evictedAfter a = s.evicted := by
  cases a with
  | publishImmediate message => exact absurd h (by simp [evicts])
  | _ => rfl

theorem other_cases (p : Logged α CAP SUBS PUBS × ℕ) (a : Action α) :
    other p a = p ∨ own p.2 a = false ∧ ∃ c, p.1.channel.step a = some c ∧
      other p a = (⟨c, p.1.logAfter a c.state, p.1.evictedAfter a, p.1.historiesAfter c a⟩,
        indexAfter p.2 a) := by
  unfold other
  cases hown : own p.2 a with
  | true => exact Or.inl (if_pos rfl)
  | false =>
    rw [if_neg Bool.false_ne_true]
    cases hc : p.1.channel.step a with
    | none =>
      have hs : p.1.step a = none := Option.map_eq_none_iff.mpr hc
      rw [hs]
      exact Or.inl rfl
    | some c =>
      have hs : p.1.step a = some ⟨c, p.1.logAfter a c.state, p.1.evictedAfter a,
          p.1.historiesAfter c a⟩ := Option.map_eq_some_iff.mpr ⟨c, hc, rfl⟩
      rw [hs]
      exact Or.inr ⟨rfl, c, rfl, rfl⟩

theorem At.other (h : At p id) (a : Action α) : At (other p a) id := by
  rcases other_cases p a with heq | ⟨hown, c, hc, heq⟩
  · rw [heq]
    exact h
  · rw [heq]
    exact ⟨h.inv.step (Option.map_eq_some_iff.mpr ⟨c, hc, rfl⟩), subs_indexAfter hc hown h.sub⟩

theorem At.others (h : At p id) (as : List (Action α)) : At (others p as) id := by
  induction as generalizing p with
  | nil => exact h
  | cons a as ih => exact ih (h.other a)

theorem mem_evicted_others {e : ℕ} (h : e ∈ p.1.evicted) (as : List (Action α)) :
    e ∈ (others p as).1.evicted := by
  induction as generalizing p with
  | nil => exact h
  | cons a as ih =>
    apply ih
    rcases other_cases p a with heq | ⟨-, c, -, heq⟩
    · rw [heq]
      exact h
    · rw [heq]
      exact mem_evictedAfter h a

/-- All messages that left the queue may count as evicted, with the subscribers as if they were
new. -/
theorem LogInv.rebase (hi : LogInv s) : LogInv ⟨s.channel, s.log,
    List.range s.channel.state.startId, s.channel.subs.map fun id => ⟨id, []⟩⟩ where
  count := hi.count
  room := hi.room
  next := hi.next
  bound := hi.bound
  kept := by
    refine ⟨hi.kept.suffix, hi.kept.pos_le, hi.kept.atLeast, fun n _ e _ he => ?_, fun e he => ?_⟩
    · rw [← hi.startId_eq] at he
      exact List.mem_range.mpr he
    · rw [← hi.startId_eq]
      exact List.mem_range.mp he
  covered := by
    refine ⟨List.length_map _, fun i h id hh hid => ?_⟩
    change (s.channel.subs.map _)[i]? = some h at hh
    rw [List.getElem?_map, hid] at hh
    obtain rfl := Option.some.inj hh
    rfl

theorem At.startId_other (h : At p id) (hle : p.1.channel.state.startId ≤ id)
    (ha : evicts a = false) : (Logged.other p a).1.channel.state.startId ≤ id := by
  have hat := h.other a
  rcases other_cases p a with heq | ⟨-, c, hc, heq⟩
  · rw [heq]
    exact hle
  · rw [heq] at hat ⊢
    have hi := h.inv.rebase.step (Option.map_eq_some_iff.mpr ⟨c, hc, rfl⟩)
    by_contra hlt
    have hmem := hi.kept.missed id (List.mem_of_getElem? hat.sub) id (Nat.le_refl id)
      (hi.startId_eq ▸ Nat.lt_of_not_le hlt)
    change id ∈ evictedAfter _ a at hmem
    rw [evictedAfter_eq ha] at hmem
    have := List.mem_range.mp hmem
    omega

theorem At.startId_others (h : At p id) (hle : p.1.channel.state.startId ≤ id)
    {as : List (Action α)} (has : as.countP evicts = 0) :
    (Logged.others p as).1.channel.state.startId ≤ id := by
  induction as generalizing p with
  | nil => exact hle
  | cons a as ih =>
    have hnot := List.countP_eq_zero.mp has
    have ha : evicts a = false := Bool.eq_false_iff.mpr (hnot a List.mem_cons_self)
    have has' : as.countP evicts = 0 :=
      List.countP_eq_zero.mpr fun b hb => hnot b (List.mem_cons_of_mem _ hb)
    exact ih (h.other a) (h.startId_other hle ha) has'

/-! ### The loop -/

/-- **One turn**: a subscriber that has not caught up is moved to the queue, and otherwise it gets
its next message, or has none. -/
theorem At.read (h : At p id) (cx : Option TaskRef) :
    ∃ s, p.1.step (.read p.2 cx) = some s ∧ s.evicted = p.1.evicted ∧ s.log = p.1.log ∧
      (id < p.1.channel.state.startId ∧ (∃ amount, p.1.result p.2 cx = some (.lagged amount)) ∧
          At (s, p.2) p.1.channel.state.startId ∧
            s.channel.state.startId = p.1.channel.state.startId ∨
        p.1.result p.2 cx = none ∧ p.1.log.length ≤ id ∧ s.channel.subs[p.2]? = some id ∨
        ∃ m, p.1.result p.2 cx = some (.message m) ∧ id ∉ p.1.evicted ∧
          p.1.log[id]? = some m ∧ s.channel.subs[p.2]? = some (id + 1)) := by
  obtain ⟨t, i⟩ := p
  have hi : LogInv t := h.inv
  have hid : t.channel.subs[i]? = some id := h.sub
  have hlt := (List.getElem?_eq_some_iff.mp hid).1
  have hstart := hi.startId_eq
  obtain ⟨r, hg⟩ := Option.isSome_iff_exists.mp
    (hi.accounts.read_isSome id (List.mem_of_getElem? hid) cx)
  have hres : t.result i cx = r.1.1 := by
    rw [result, hid, Option.bind_some, hg, Option.bind_some]
  have hstep : t.channel.step (.read i cx) = some
      { t.channel.after r.2.1 r.2.2 with subs := t.channel.subs.set i r.1.2 } :=
    Option.bind_eq_some_iff.mpr ⟨id, hid, Option.map_eq_some_iff.mpr ⟨r, hg, rfl⟩⟩
  have hnext : r.2.1.nextMessageId = t.channel.state.nextMessageId := by
    rcases PubSubState.getMessageWithContext_cases hi.length_le hg with
      ⟨-, rfl⟩ | ⟨j, -, ⟨-, reg, -, rfl⟩ | ⟨m, c, -, q, ⟨-, -, rfl⟩ | ⟨-, -, -, rfl⟩⟩⟩ <;> rfl
  have hlogged := Option.map_eq_some_iff (f := fun c : Channel α CAP SUBS PUBS =>
    (⟨c, t.logAfter (.read i cx) c.state, t.evicted, t.historiesAfter c (.read i cx)⟩ :
      Logged α CAP SUBS PUBS)).mpr ⟨_, hstep, rfl⟩
  have hinv := hi.read hlogged
  refine ⟨_, hlogged, rfl, logAfter_eq hnext, ?_⟩
  have hsub : ∀ n, (t.channel.subs.set i n)[i]? = some n := fun n => List.getElem?_set_self hlt
  rw [hres]
  rcases PubSubState.getMessageWithContext_cases hi.length_le hg with
    ⟨hbehind, rfl⟩ | ⟨j, rfl, ⟨hj, reg, -, rfl⟩ | ⟨m, c, hx, q, hcase⟩⟩
  · exact Or.inl ⟨hbehind, ⟨_, rfl⟩, ⟨hinv, hsub _⟩, rfl⟩
  · refine Or.inr (Or.inl ⟨rfl, ?_, hsub _⟩)
    have hlen := hi.kept.length_le
    change t.log.length ≤ _
    omega
  · have hlog : t.log[t.channel.state.startId + j]? = some m := by
      rw [hstart]
      exact hi.kept.getElem?_log hx
    have hnot : t.channel.state.startId + j ∉ t.evicted := by
      intro he
      have := hi.kept.passed _ he
      omega
    rcases hcase with ⟨-, -, rfl⟩ | ⟨-, -, -, rfl⟩
    · exact Or.inr (Or.inr ⟨m, rfl, hnot, hlog, hsub _⟩)
    · exact Or.inr (Or.inr ⟨m, rfl, hnot, hlog, hsub _⟩)

theorem PureResult.of_le {n : ℕ} {out : Option α × Logged α CAP SUBS PUBS × ℕ}
    (h : PureResult n out) (hle : id ≤ n)
    (hev : ∀ e, id ≤ e → e < n → e ∈ out.2.1.evicted) : PureResult id out := by
  obtain ⟨o, s, i⟩ := out
  have hall : ∀ {k : ℕ}, (∀ e, n ≤ e → e < k → e ∈ s.evicted) →
      ∀ e, id ≤ e → e < k → e ∈ s.evicted := by
    intro k hk e he hlt
    by_cases hen : e < n
    · exact hev e he hen
    · exact hk e (Nat.le_of_not_lt hen) hlt
  cases o with
  | none => exact ⟨hall h.1, h.2⟩
  | some m =>
    obtain ⟨k, hk, hlost, hnot, hlog, hsub⟩ := h
    exact ⟨k, Nat.le_trans hle hk, hall hlost, hnot, hlog, hsub⟩

theorem mem_evicted_nextMessagePure {cx : Option TaskRef} {turns : List (List (Action α))}
    {out : Option α × Logged α CAP SUBS PUBS × ℕ} (h : nextMessagePure cx turns p = some out)
    {e : ℕ} (he : e ∈ p.1.evicted) : e ∈ out.2.1.evicted := by
  induction turns generalizing p with
  | nil => exact absurd h (by simp [nextMessagePure])
  | cons as turns ih =>
    obtain ⟨s, hs, h⟩ := Option.bind_eq_some_iff.mp h
    have hes : e ∈ s.evicted := by
      obtain ⟨c, -, rfl⟩ := Option.map_eq_some_iff.mp hs
      exact mem_evicted_others he as
    cases hres : (others p as).1.result (others p as).2 cx with
    | none =>
      rw [hres] at h
      obtain rfl := Option.some.inj h
      exact hes
    | some result =>
      rw [hres] at h
      cases result with
      | lagged amount => exact ih h hes
      | message m =>
        obtain rfl := Option.some.inj h
        exact hes

theorem At.pureResult (h : At p id) {cx : Option TaskRef} {turns : List (List (Action α))}
    {out : Option α × Logged α CAP SUBS PUBS × ℕ} (hout : nextMessagePure cx turns p = some out) :
    PureResult id out := by
  induction turns generalizing p id with
  | nil => exact absurd hout (by simp [nextMessagePure])
  | cons as turns ih =>
    have hq := h.others as
    obtain ⟨s, hs, hev, hlog, hcase⟩ := hq.read cx
    rw [nextMessagePure, hs, Option.bind_some] at hout
    rcases hcase with ⟨hlt, ⟨amount, hres⟩, hat, -⟩ | ⟨hres, hle, hsub⟩ | ⟨m, hres, hnot, hm, hsub⟩
    · rw [hres] at hout
      refine (ih hat hout).of_le (Nat.le_of_lt hlt) fun e he hen => ?_
      apply mem_evicted_nextMessagePure hout
      rw [hev]
      apply hq.inv.kept.missed id (List.mem_of_getElem? hq.sub) e he
      rw [← hq.inv.startId_eq]
      exact hen
    · rw [hres] at hout
      obtain rfl := Option.some.inj hout
      have hid := hq.inv.kept.pos_le id (List.mem_of_getElem? hq.sub)
      obtain rfl : id = (Logged.others p as).1.log.length := Nat.le_antisymm hid hle
      refine ⟨fun e he hlt => ?_, ?_⟩
      · rw [hlog] at hlt
        omega
      · rw [hlog]
        exact hsub
    · rw [hres] at hout
      obtain rfl := Option.some.inj hout
      exact ⟨id, Nat.le_refl id, fun e he hlt => absurd he (Nat.not_le_of_lt hlt),
        by rw [hev]; exact hnot, by rw [hlog]; exact hm, hsub⟩

/-- A subscriber that has caught up needs a turn for each `publish_immediate`, and one more. -/
theorem At.exists_of_startId_le (h : At p id) (hle : p.1.channel.state.startId ≤ id)
    (cx : Option TaskRef) {turns : List (List (Action α))}
    (hlen : turns.flatten.countP evicts + 1 ≤ turns.length) :
    ∃ out, nextMessagePure cx turns p = some out := by
  induction turns generalizing p id with
  | nil => exact absurd hlen (by simp)
  | cons as turns ih =>
    have hq := h.others as
    obtain ⟨s, hs, -, -, hcase⟩ := hq.read cx
    rw [nextMessagePure, hs, Option.bind_some]
    rcases hcase with ⟨hlt, ⟨amount, hres⟩, hat, hstart⟩ | ⟨hres, -⟩ | ⟨m, hres, -⟩
    · rw [hres]
      apply ih hat (Nat.le_of_eq hstart)
      -- the subscriber has fallen behind, so something was evicted
      have hpos : as.countP evicts ≠ 0 := fun hz =>
        Nat.not_le_of_lt hlt (h.startId_others hle hz)
      rw [List.flatten_cons, List.countP_append, List.length_cons] at hlen
      omega
    · rw [hres]
      exact ⟨_, rfl⟩
    · rw [hres]
      exact ⟨_, rfl⟩

/-- **A read that ignores lags ends**, whatever the others do in between, after at most two turns
more than there are calls of `publish_immediate` between its turns. It gives the first message that
was not evicted, or all that was published has been read or evicted. -/
theorem exists_nextMessagePure (h : Reachable step (new : Logged α CAP SUBS PUBS) s)
    (hid : s.channel.subs[i]? = some id) (cx : Option TaskRef) (turns : List (List (Action α)))
    (hlen : turns.tail.flatten.countP evicts + 2 ≤ turns.length) :
    ∃ out, nextMessagePure cx turns (s, i) = some out ∧ PureResult id out := by
  have hat : At (s, i) id := ⟨h.invariant logInv_new fun _ _ _ hi => hi.step, hid⟩
  suffices hout : ∃ out, nextMessagePure cx turns (s, i) = some out by
    obtain ⟨out, hout⟩ := hout
    exact ⟨out, hout, hat.pureResult hout⟩
  cases turns with
  | nil => exact absurd hlen (by simp)
  | cons as turns =>
    obtain ⟨s', hs, -, -, hcase⟩ := (hat.others as).read cx
    rw [nextMessagePure, hs, Option.bind_some]
    rcases hcase with ⟨-, ⟨amount, hres⟩, hat', hstart⟩ | ⟨hres, -⟩ | ⟨m, hres, -⟩
    · rw [hres]
      exact hat'.exists_of_startId_le (Nat.le_of_eq hstart) cx (Nat.le_of_succ_le_succ hlen)
    · rw [hres]
      exact ⟨_, rfl⟩
    · rw [hres]
      exact ⟨_, rfl⟩

/-- A queue of one message, whose subscriber lags; it is overtaken again after the first turn. -/
theorem exists_nextMessagePure_overtaken : ∃ (s : Logged ℕ 1 1 1) (out : _),
    runList step new [.subscriber, .publishImmediate 10, .publishImmediate 11] = some s ∧
      nextMessagePure none [[], [.publishImmediate 12], []] (s, 0) = some out ∧
        out.1 = some 12 ∧ PureResult 0 out := by
  obtain ⟨s, hs, hv⟩ := exists_of_map_runList
    (f := fun s => (s.channel.subs[0]?,
      (nextMessagePure none [[], [.publishImmediate 12], []] (s, 0)).map Prod.fst))
    (s := (new : Logged ℕ 1 1 1)) (b := (some 0, some (some 12)))
    (l := [.subscriber, .publishImmediate 10, .publishImmediate 11]) (r := step) (by decide)
  obtain ⟨hid, hm⟩ := Prod.mk.inj hv
  obtain ⟨out, hout, hpure⟩ := exists_nextMessagePure (reachable_of_runList hs) hid none
    [[], [.publishImmediate 12], []] (by decide)
  rw [hout] at hm
  exact ⟨s, out, hs, hout, Option.some.inj hm, hpure⟩

end Logged

end PubSub

end AurixAsync
