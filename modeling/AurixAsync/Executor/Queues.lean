import AurixAsync.Executor.Step
import Mathlib.Data.Multiset.Bind

/-!
# What the queues of an executor hold

* `Wf`, `wf_of_reachable`: every task in the run queue, in the timer queue, in the ready vector or
  under poll was spawned on this executor, in every reachable state.
* `TimerOnce`: no task is in the timer queue twice, no `enqueue` of `update_timer_queue` can be
  refused, and no `unwrap` of `check_timer_queue` has panicked.
* `ArmsAfresh`: the steps that keep it so.
* `timerOnce_along_iff`: with at most 32 tasks, a run keeps `TimerOnce` if and only if each of its
  steps is one of these.
-/

namespace AurixAsync

namespace Executor

open Transition

variable {H : TimerHeap} {x x' : Executor H}

/-! ### The tasks in the queues -/

/-- The queues hold tasks of this executor only. -/
structure Wf (x : Executor H) : Prop where
  nodup : x.tasks.Nodup
  runQueue : ∀ t ∈ x.base.runQueue.items, t ∈ x.tasks
  timerQueue : ∀ i ∈ x.base.timerQueue.items, i.waker ∈ x.tasks
  ready : ∀ ready, x.phase = .enqueueReady ready → ∀ t ∈ ready, t ∈ x.tasks
  polling : ∀ t, x.phase = .polling t → t ∈ x.tasks

theorem wf_new (pender : Pender) (handle : Option AlarmHandle) :
    (new pender handle : Executor H).Wf where
  nodup := List.nodup_nil
  runQueue := fun _ h => absurd h List.not_mem_nil
  timerQueue := fun i h => by
    rw [show (new pender handle : Executor H).base.timerQueue.items = 0 from
      TimerQueue.items_new] at h
    exact absurd h (Multiset.notMem_zero i)
  ready := fun _ h => absurd h (by simp [new])
  polling := fun _ h => absurd h (by simp [new])

theorem mem_enqueue {e : BaseExecutor H} {t u : TaskRef} (h : u ∈ (e.enqueue t).runQueue.items) :
    u ∈ e.runQueue.items ∨ u = t := by
  rw [BaseExecutor.items_enqueue] at h
  split_ifs at h
  · exact Or.inl h
  · simpa using h

theorem mem_updateTimerQueue {e : BaseExecutor H} {t : TaskRef} {n : Option ℕ} {i : TimerQueueItem}
    (h : i ∈ (e.updateTimerQueue t n).timerQueue.items) : i ∈ e.timerQueue.items ∨ i.waker = t := by
  cases n with
  | none => exact Or.inl h
  | some n =>
    rw [BaseExecutor.items_updateTimerQueue] at h
    split_ifs at h
    · exact Or.inl h
    · rcases Multiset.mem_cons.mp h with rfl | h
      · exact Or.inr rfl
      · exact Or.inl h

theorem Wf.step {a : Action} (hw : x.Wf) (h : x.step a = some x') : x'.Wf := by
  obtain ⟨hnd, hrun, htq, hready, hpoll⟩ := hw
  cases a with
  | spawn task =>
    obtain ⟨hn, q, hq, rfl⟩ := step_spawn.mp h
    refine ⟨List.nodup_cons.mpr ⟨hn, hnd⟩, ?_, ?_, ?_, ?_⟩
    · intro t ht
      change t ∈ q.items at ht
      rw [hq] at ht
      exact List.mem_cons.mpr ((List.mem_cons.mp ht).imp_right (hrun t))
    · exact fun i hi => List.mem_cons_of_mem _ (htq i hi)
    · exact fun r hr t ht => List.mem_cons_of_mem _ (hready r hr t ht)
    · exact fun t ht => List.mem_cons_of_mem _ (hpoll t ht)
  | wake task =>
    obtain ⟨hm, rfl⟩ := step_wake.mp h
    refine ⟨hnd, ?_, htq, hready, hpoll⟩
    intro t ht
    rcases mem_enqueue ht with ht | rfl
    · exact hrun t ht
    · exact hm
  | overwrite handle =>
    obtain rfl := step_overwrite.mp h
    have hnew := wf_new (H := H) x.base.pender (some handle)
    exact ⟨hnd, fun t ht => absurd (hnew.runQueue t ht) List.not_mem_nil,
      fun i hi => absurd (hnew.timerQueue i hi) List.not_mem_nil, hready, hpoll⟩
  | registerAlarm handle =>
    obtain rfl := step_registerAlarm.mp h
    exact ⟨hnd, hrun, htq, hready, hpoll⟩
  | enter =>
    obtain ⟨-, rfl⟩ := step_enter.mp h
    exact ⟨hnd, hrun, htq, fun _ h => absurd h (by simp), fun _ h => absurd h (by simp)⟩
  | readNow now =>
    obtain ⟨-, rfl⟩ := step_readNow.mp h
    exact ⟨hnd, hrun, htq, fun _ h => absurd h (by simp), fun _ h => absurd h (by simp)⟩
  | dequeueExpired =>
    obtain ⟨now, -, ⟨ready, b, hb, rfl⟩ | ⟨-, rfl⟩⟩ := step_dequeueExpired.mp h
    · obtain ⟨-, hr, rfl⟩ := BaseExecutor.dequeueReady_eq_some hb
      refine ⟨hnd, hrun, ?_, ?_, fun _ h => absurd h (by simp)⟩
      · intro i hi
        change i ∈ (x.base.timerQueue.dequeueExpired now).2.items at hi
        rw [TimerQueue.items_dequeueExpired] at hi
        exact htq i (Multiset.mem_of_mem_filter hi)
      · rintro r hr' t ht
        obtain rfl := Phase.enqueueReady.inj hr'
        change ready = _ at hr
        rw [hr] at ht
        obtain ⟨i, hi, rfl⟩ := List.mem_map.mp ht
        exact htq i (TimerQueue.mem_dequeueExpired.mp hi).1
    · exact ⟨hnd, hrun, htq, fun _ h => absurd h (by simp), fun _ h => absurd h (by simp)⟩
  | enqueueReady =>
    obtain ⟨ready, hp, ⟨b, hb, rfl⟩ | ⟨-, rfl⟩⟩ := step_enqueueReady.mp h
    · obtain ⟨-, q, hq, rfl⟩ := BaseExecutor.enqueueReady_eq_some.mp hb
      refine ⟨hnd, ?_, htq, fun _ h => absurd h (by simp), fun _ h => absurd h (by simp)⟩
      intro t ht
      change t ∈ q.items at ht
      rw [hq] at ht
      exact (List.mem_append.mp ht).elim (hrun t) (hready ready hp t)
    · exact ⟨hnd, hrun, htq, fun _ h => absurd h (by simp), fun _ h => absurd h (by simp)⟩
  | popFront =>
    obtain ⟨-, ⟨t, q, hq, rfl⟩ | ⟨-, rfl⟩⟩ := step_popFront.mp h
    · refine ⟨hnd, fun u hu => hrun u (hq ▸ List.mem_cons_of_mem _ hu), htq,
        fun _ h => absurd h (by simp), ?_⟩
      intro u hu
      obtain rfl := Phase.polling.inj hu
      exact hrun _ (hq ▸ List.mem_cons_self)
    · exact ⟨hnd, hrun, htq, fun _ h => absurd h (by simp), fun _ h => absurd h (by simp)⟩
  | pollTimer now n =>
    obtain ⟨t, ht, rfl⟩ := step_pollTimer.mp h
    exact ⟨hnd, hrun, htq, hready, hpoll⟩
  | endPoll =>
    obtain ⟨t, ht, rfl⟩ := step_endPoll.mp h
    refine ⟨hnd, ?_, ?_, fun _ h => absurd h (by simp), fun _ h => absurd h (by simp)⟩
    · intro u hu
      rw [BaseExecutor.runQueue_updateTimerQueue] at hu
      exact hrun u hu
    · intro i hi
      rcases mem_updateTimerQueue hi with hi | hi
      · exact htq i hi
      · exact hi ▸ hpoll t ht
  | nextExpiration =>
    obtain ⟨-, ⟨n, -, rfl⟩ | ⟨-, rfl⟩⟩ := step_nextExpiration.mp h
    all_goals exact ⟨hnd, hrun, htq, fun _ h => absurd h (by simp), fun _ h => absurd h (by simp)⟩
  | setAlarm =>
    obtain ⟨n, -, ⟨k, -, rfl⟩ | ⟨-, rfl⟩⟩ := step_setAlarm.mp h
    all_goals exact ⟨hnd, hrun, htq, fun _ h => absurd h (by simp), fun _ h => absurd h (by simp)⟩

/-- **The queues of an executor hold its own tasks only**, in every reachable state. -/
theorem wf_of_reachable {pender : Pender} {handle : Option AlarmHandle}
    (h : Reachable step (new pender handle) x) : x.Wf :=
  h.invariant (wf_new pender handle) fun _ _ _ hw hs => hw.step hs

/-! ### At most one timer entry per task -/

/-- The entries of a task in the timer queue. -/
def entries (x : Executor H) (task : TaskRef) : ℕ :=
  (x.base.timerQueue.items.map TimerQueueItem.waker).count task

/-- No task is in the timer queue twice; the queue has room when `update_timer_queue` is about to
enqueue; neither `unwrap` of `check_timer_queue` has panicked. -/
structure TimerOnce (x : Executor H) : Prop where
  once : ∀ t, x.entries t ≤ 1
  room : ∀ t, x.phase = .polling t → x.expiresAt t ≠ none →
    x.base.timerQueue.items.card < N_TIMERS
  ready : x.phase ≠ .panicked .readyFull
  runQueue : x.phase ≠ .panicked .runQueueFull

/-- The condition on the steps: a poll that leaves a deadline in the header is one of a task
without an entry in the timer queue, and the expired tasks find room in the run queue. -/
def ArmsAfresh (x : Executor H) : Action → Prop
  | .endPoll => ∀ t, x.phase = .polling t → x.expiresAt t ≠ none → x.entries t = 0
  | .enqueueReady => ∀ ready, x.phase = .enqueueReady ready →
      x.base.runQueue.items.length + ready.length ≤ MAX_TASKS
  | _ => True

theorem nodup_wakers (h : ∀ t, x.entries t ≤ 1) :
    (x.base.timerQueue.items.map TimerQueueItem.waker).Nodup :=
  Multiset.nodup_iff_count_le_one.mpr h

theorem card_items_le (hw : x.Wf) (h : ∀ t, x.entries t ≤ 1) :
    x.base.timerQueue.items.card ≤ x.tasks.length := by
  have hsub : x.base.timerQueue.items.map TimerQueueItem.waker ⊆ (x.tasks : Multiset TaskRef) := by
    intro t ht
    obtain ⟨i, hi, rfl⟩ := Multiset.mem_map.mp ht
    exact hw.timerQueue i hi
  have hle := Multiset.card_le_card ((Multiset.le_iff_subset (nodup_wakers h)).mpr hsub)
  rwa [Multiset.card_map, Multiset.coe_card] at hle

theorem length_dequeueExpired_le (q : TimerQueue H) (now : ℕ) :
    (q.dequeueExpired now).1.length ≤ q.items.card := by
  rw [← Multiset.coe_card, (TimerQueue.dequeueExpired_spec q now).1]
  exact Multiset.card_le_card (Multiset.filter_le _ _)

theorem entries_dequeueExpired_le {b : BaseExecutor H} {now : ℕ}
    (h : b.timerQueue = (x.base.timerQueue.dequeueExpired now).2) (t : TaskRef) :
    (b.timerQueue.items.map TimerQueueItem.waker).count t ≤ x.entries t := by
  rw [h, TimerQueue.items_dequeueExpired]
  exact Multiset.count_le_of_le t (Multiset.map_le_map (Multiset.filter_le _ _))

theorem timerOnce_new (pender : Pender) (handle : Option AlarmHandle) :
    (new pender handle : Executor H).TimerOnce where
  once := fun t => by
    rw [entries, show (new pender handle : Executor H).base.timerQueue.items = 0 from
      TimerQueue.items_new]
    exact Nat.zero_le _
  room := fun _ h => absurd h (by simp [new])
  ready := by simp [new]
  runQueue := by simp [new]

/-- A step that meets the condition keeps `TimerOnce`, with at most 32 tasks. -/
theorem TimerOnce.step {a : Action} (hw : x.Wf) (ho : x.TimerOnce)
    (hle : x'.tasks.length ≤ MAX_TASKS) (h : x.step a = some x') (hc : x.ArmsAfresh a) :
    x'.TimerOnce := by
  have hcard : x.base.timerQueue.items.card ≤ MAX_TASKS :=
    (card_items_le hw ho.once).trans ((length_tasks_le h).trans hle)
  have hroom : x.base.timerQueue.items.card < N_TIMERS := lt_of_le_of_lt hcard (by decide)
  obtain ⟨honce, -, hr₁, hr₂⟩ := ho
  cases a with
  | spawn task =>
    obtain ⟨hn, q, hq, rfl⟩ := step_spawn.mp h
    exact ⟨honce, fun _ _ _ => hroom, hr₁, hr₂⟩
  | wake task =>
    obtain ⟨hm, rfl⟩ := step_wake.mp h
    exact ⟨honce, fun _ _ _ => hroom, hr₁, hr₂⟩
  | overwrite handle =>
    obtain rfl := step_overwrite.mp h
    have hnew := timerOnce_new (H := H) x.base.pender (some handle)
    refine ⟨hnew.once, fun _ _ _ => ?_, hr₁, hr₂⟩
    change Multiset.card (TimerQueue.items TimerQueue.new) < N_TIMERS
    rw [TimerQueue.items_new]
    decide
  | registerAlarm handle =>
    obtain rfl := step_registerAlarm.mp h
    exact ⟨honce, fun _ _ _ => hroom, hr₁, hr₂⟩
  | enter =>
    obtain ⟨-, rfl⟩ := step_enter.mp h
    exact ⟨honce, fun _ h => absurd h (by simp), by simp, by simp⟩
  | readNow now =>
    obtain ⟨-, rfl⟩ := step_readNow.mp h
    exact ⟨honce, fun _ h => absurd h (by simp), by simp, by simp⟩
  | dequeueExpired =>
    obtain ⟨now, -, ⟨ready, b, hb, rfl⟩ | ⟨hn, -⟩⟩ := step_dequeueExpired.mp h
    · obtain ⟨-, -, rfl⟩ := BaseExecutor.dequeueReady_eq_some hb
      refine ⟨fun t => ?_, fun _ h => absurd h (by simp), by simp, by simp⟩
      exact (entries_dequeueExpired_le (x := x) rfl t).trans (honce t)
    · -- 33 expired entries would be 33 entries
      have := BaseExecutor.dequeueReady_eq_none.mp hn
      have := length_dequeueExpired_le x.base.timerQueue now
      omega
  | enqueueReady =>
    obtain ⟨ready, hp, ⟨b, hb, rfl⟩ | ⟨hn, -⟩⟩ := step_enqueueReady.mp h
    · obtain ⟨-, q, -, rfl⟩ := BaseExecutor.enqueueReady_eq_some.mp hb
      exact ⟨honce, fun _ h => absurd h (by simp), by simp, by simp⟩
    · have := BaseExecutor.enqueueReady_eq_none.mp hn
      have := hc ready hp
      omega
  | popFront =>
    obtain ⟨-, ⟨t, q, -, rfl⟩ | ⟨-, rfl⟩⟩ := step_popFront.mp h
    · exact ⟨honce, fun _ _ _ => hroom, by simp, by simp⟩
    · exact ⟨honce, fun _ h => absurd h (by simp), by simp, by simp⟩
  | pollTimer now n =>
    obtain ⟨t, ht, rfl⟩ := step_pollTimer.mp h
    exact ⟨honce, fun _ _ _ => hroom, hr₁, hr₂⟩
  | endPoll =>
    obtain ⟨t, ht, rfl⟩ := step_endPoll.mp h
    refine ⟨fun u => ?_, fun _ h => absurd h (by simp), by simp, by simp⟩
    rw [entries]
    cases hx : x.expiresAt t with
    | none => exact honce u
    | some n =>
      have h₀ := hc t ht (by rw [hx]; simp)
      rw [BaseExecutor.items_updateTimerQueue, if_neg hroom.ne, Multiset.map_cons]
      by_cases hu : u = t
      · subst hu
        rw [Multiset.count_cons_self]
        exact Nat.succ_le_succ h₀.le
      · rw [Multiset.count_cons_of_ne hu]
        exact honce u
  | nextExpiration =>
    obtain ⟨-, ⟨n, -, rfl⟩ | ⟨-, rfl⟩⟩ := step_nextExpiration.mp h
    all_goals exact ⟨honce, fun _ h => absurd h (by simp), by simp, by simp⟩
  | setAlarm =>
    obtain ⟨n, -, ⟨k, -, rfl⟩ | ⟨-, rfl⟩⟩ := step_setAlarm.mp h
    all_goals exact ⟨honce, fun _ h => absurd h (by simp), by simp, by simp⟩

theorem armsAfresh_of_timerOnce {a : Action} (ho : x.TimerOnce) (h : x.step a = some x')
    (ho' : x'.TimerOnce) : x.ArmsAfresh a := by
  cases a with
  | endPoll =>
    obtain ⟨t, ht, rfl⟩ := step_endPoll.mp h
    intro u hu hx
    obtain rfl := Phase.polling.inj (ht.symm.trans hu)
    obtain ⟨n, hn⟩ := Option.ne_none_iff_exists'.mp hx
    have hone := ho'.once t
    rw [entries] at hone
    change Multiset.count t (Multiset.map _
      (x.base.updateTimerQueue t (x.expiresAt t)).timerQueue.items) ≤ 1 at hone
    rw [hn, BaseExecutor.items_updateTimerQueue, if_neg (ho.room t ht hx).ne, Multiset.map_cons,
      Multiset.count_cons_self] at hone
    rw [entries]
    omega
  | enqueueReady =>
    intro ready hp
    obtain ⟨ready', hp', ⟨b, hb, rfl⟩ | ⟨-, rfl⟩⟩ := step_enqueueReady.mp h
    · obtain rfl := Phase.enqueueReady.inj (hp.symm.trans hp')
      exact (BaseExecutor.enqueueReady_eq_some.mp hb).1
    · exact absurd rfl ho'.runQueue
  | _ => trivial

/-- **The timer queue holds each task at most once exactly when no task is armed twice.** In every
run of an executor with at most 32 tasks: `TimerOnce` holds in every state if and only if every
poll that leaves a deadline is one of a task without an entry, and the expired tasks always find
room in the run queue. -/
theorem timerOnce_along_iff (pender : Pender) (handle : Option AlarmHandle)
    (tr : List (Executor H × Action)) (x : Executor H) (hr : Run step (new pender handle) tr x)
    (hb : x.tasks.length ≤ MAX_TASKS) : Along TimerOnce tr x ↔ AllSteps ArmsAfresh tr := by
  refine Run.exact (I := fun x => x.Wf ∧ x.TimerOnce) (B := fun x => x.tasks.length ≤ MAX_TASKS)
    ⟨wf_new pender handle, timerOnce_new pender handle⟩ (fun _ h => h.2) ?_ ?_ ?_ hr hb
  · exact fun s a s' h hb => (length_tasks_le h).trans hb
  · exact fun s a s' hi hb h hc => ⟨hi.1.step h, hi.2.step hi.1 hb h hc⟩
  · exact fun s a s' hi _ h hg => armsAfresh_of_timerOnce hi.2 h hg

/-- One task waits in `select(Timer::after_ticks(100), signal)`: it is polled at tick 0, woken by
the signal, and polled again at tick 5, where it starts a new `select`. -/
def rearmRun : List Action :=
  [.spawn 0, .enter, .readNow 0, .dequeueExpired, .enqueueReady, .popFront, .pollTimer 0 100,
    .endPoll, .popFront, .nextExpiration, .setAlarm,
    .wake 0, .enter, .readNow 5, .dequeueExpired, .enqueueReady, .popFront, .pollTimer 5 105,
    .endPoll]

/-- The run `rearmRun` of a single task ends with two entries for it. -/
theorem not_timerOnce_rearmRun : ∃ x : Executor TimerHeap.list,
    runList step (new .threadExecutorPender (some ⟨0⟩)) rearmRun = some x ∧
      x.tasks.length ≤ MAX_TASKS ∧ ¬ x.TimerOnce := by
  obtain ⟨x, hx, hv⟩ := exists_of_map_runList (f := fun x => (x.tasks.length, x.entries 0))
    (s := (new .threadExecutorPender (some ⟨0⟩) : Executor TimerHeap.list)) (l := rearmRun)
    (b := (1, 2)) (r := step) (by decide)
  obtain ⟨hl, he⟩ := Prod.mk.inj hv
  refine ⟨x, hx, hl ▸ by decide, fun ho => ?_⟩
  have := ho.once 0
  omega

/-- The condition on the first eleven steps of `rearmRun`. -/
theorem timerOnce_along_iff_rearmRun :
    ∃ (tr : List (Executor TimerHeap.list × Action)) (x : Executor TimerHeap.list),
      Run step (new .threadExecutorPender (some ⟨0⟩)) tr x ∧ tr.map Prod.snd = rearmRun.take 11 ∧
        (Along TimerOnce tr x ↔ AllSteps ArmsAfresh tr) := by
  obtain ⟨x, hx, hl⟩ := exists_of_map_runList (f := fun x => x.tasks.length)
    (s := (new .threadExecutorPender (some ⟨0⟩) : Executor TimerHeap.list))
    (l := rearmRun.take 11) (b := 1) (r := step) (by decide)
  obtain ⟨tr, hr, ha⟩ := exists_run_of_runList hx
  exact ⟨tr, x, hr, ha, timerOnce_along_iff _ _ tr x hr (hl ▸ by decide)⟩

end Executor

end AurixAsync
