import AurixAsync.Executor.Queues

/-!
# Whose turn it is

Which tasks an executor polls, and when, whatever other contexts do to it between its steps.

* `polls`: the tasks polled in a run, in order. `causes`: the tasks spawned, woken, or left with a
  deadline by their own poll.
* `mem_polls_of_length_lt`: a task in the run queue is polled after those before it and those
  spawned meanwhile.
* `mem_polls_of_pass`: a pass polls every task that was ready and every task whose timer was due.
* `count_polls_le`: a task is polled once at most for each cause.
-/

namespace AurixAsync

namespace Executor

open Transition

variable {H : TimerHeap} {x x' y : Executor H} {a : Action} {t : TaskRef} {i j : ℕ}
  {tr : List (Executor H × Action)}

/-- The task whose poll begins with a step. -/
def polled (p : Executor H × Action) : Option TaskRef :=
  match p.2 with
  | .popFront => p.1.base.runQueue.items.head?
  | _ => none

/-- The tasks polled in a run, in order. -/
def polls (tr : List (Executor H × Action)) : List TaskRef := tr.filterMap polled

/-- The action is not one that overwrites the executor. -/
def Action.keeps : Action → Bool
  | .overwrite _ => false
  | _ => true

/-- The executor is not overwritten. -/
def Keeps (_ : Executor H) (a : Action) : Prop := a.keeps = true

theorem allSteps_keeps {as : List Action} (h : tr.map Prod.snd = as)
    (hk : as.all Action.keeps = true) : AllSteps Keeps tr := by
  intro p hp
  refine List.all_eq_true.mp hk p.2 ?_
  rw [← h]
  exact List.mem_map_of_mem hp

@[simp] theorem polls_nil : polls ([] : List (Executor H × Action)) = [] := rfl

theorem polls_snoc (tr : List (Executor H × Action)) (p : Executor H × Action) :
    polls (tr ++ [p]) = polls tr ++ (polled p).toList := by
  rw [polls, List.filterMap_append]
  congr 1

/-! ### The order of the run queue -/

/-- **One step** polls the task at index `j`, or moves it forward by one for a poll, back by one for
a spawn, and not at all otherwise. -/
theorem index_of_step (h : step x a = some x') (hk : Keeps x a)
    (hj : x.base.runQueue.items[j]? = some t) :
    polled (x, a) = some t ∨ ∃ k, x'.base.runQueue.items[k]? = some t ∧
      k + (polled (x, a)).toList.length + x.tasks.length = j + x'.tasks.length := by
  have hsame : x'.base.runQueue.items = x.base.runQueue.items → x'.tasks = x.tasks →
      polled (x, a) = none → ∃ k, x'.base.runQueue.items[k]? = some t ∧
        k + (polled (x, a)).toList.length + x.tasks.length = j + x'.tasks.length := by
    intro hq ht hp
    refine ⟨j, hq ▸ hj, ?_⟩
    rw [hp, ht]
    rfl
  cases a with
  | spawn task =>
    obtain ⟨-, q, hq, rfl⟩ := step_spawn.mp h
    refine Or.inr ⟨j + 1, ?_, ?_⟩
    · show q.items[j + 1]? = some t
      rw [hq, List.getElem?_cons_succ, hj]
    · show j + 1 + 0 + x.tasks.length = j + (x.tasks.length + 1)
      omega
  | wake task =>
    obtain ⟨-, rfl⟩ := step_wake.mp h
    refine Or.inr ⟨j, ?_, rfl⟩
    show (x.base.enqueue task).runQueue.items[j]? = some t
    rw [BaseExecutor.items_enqueue]
    split_ifs
    · exact hj
    · rw [List.getElem?_append_left (List.getElem?_eq_some_iff.mp hj).1]
      exact hj
  | overwrite handle => exact absurd hk Bool.false_ne_true
  | registerAlarm handle =>
    obtain rfl := step_registerAlarm.mp h
    exact Or.inr (hsame rfl rfl rfl)
  | enter =>
    obtain ⟨-, rfl⟩ := step_enter.mp h
    exact Or.inr (hsame rfl rfl rfl)
  | readNow now =>
    obtain ⟨-, rfl⟩ := step_readNow.mp h
    exact Or.inr (hsame rfl rfl rfl)
  | dequeueExpired =>
    obtain ⟨now, -, ⟨r, b, hb, rfl⟩ | ⟨-, rfl⟩⟩ := step_dequeueExpired.mp h
    · obtain ⟨-, -, rfl⟩ := BaseExecutor.dequeueReady_eq_some hb
      exact Or.inr (hsame rfl rfl rfl)
    · exact Or.inr (hsame rfl rfl rfl)
  | enqueueReady =>
    obtain ⟨ready, -, ⟨b, hb, rfl⟩ | ⟨-, rfl⟩⟩ := step_enqueueReady.mp h
    · obtain ⟨-, q, hq, rfl⟩ := BaseExecutor.enqueueReady_eq_some.mp hb
      refine Or.inr ⟨j, ?_, rfl⟩
      show q.items[j]? = some t
      rw [hq, List.getElem?_append_left (List.getElem?_eq_some_iff.mp hj).1]
      exact hj
    · exact Or.inr (hsame rfl rfl rfl)
  | popFront =>
    obtain ⟨-, ⟨task, q, hq, rfl⟩ | ⟨hempty, rfl⟩⟩ := step_popFront.mp h
    · rw [hq] at hj
      have hp : polled (x, .popFront) = some task := by
        show x.base.runQueue.items.head? = some task
        rw [hq, List.head?_cons]
      cases j with
      | zero =>
        obtain rfl := Option.some.inj hj
        exact Or.inl hp
      | succ j =>
        refine Or.inr ⟨j, hj, ?_⟩
        rw [hp]
        show j + 1 + x.tasks.length = j + 1 + x.tasks.length
        rfl
    · rw [hempty] at hj
      exact absurd hj (by simp)
  | pollTimer now n =>
    obtain ⟨task, -, rfl⟩ := step_pollTimer.mp h
    exact Or.inr (hsame rfl rfl rfl)
  | endPoll =>
    obtain ⟨task, -, rfl⟩ := step_endPoll.mp h
    refine Or.inr (hsame ?_ rfl rfl)
    show (x.base.updateTimerQueue _ _).runQueue.items = _
    rw [BaseExecutor.runQueue_updateTimerQueue]
  | nextExpiration =>
    obtain ⟨-, ⟨n, -, rfl⟩ | ⟨-, rfl⟩⟩ := step_nextExpiration.mp h <;>
      exact Or.inr (hsame rfl rfl rfl)
  | setAlarm =>
    obtain ⟨n, -, ⟨k, -, rfl⟩ | ⟨-, rfl⟩⟩ := step_setAlarm.mp h <;>
      exact Or.inr (hsame rfl rfl rfl)

/-- Along a run the task is polled, or its index goes down by one for each poll and up by one for
each spawn. -/
theorem mem_polls_or_index (hr : Run step x tr y) (hk : AllSteps Keeps tr)
    (hi : x.base.runQueue.items[i]? = some t) :
    t ∈ polls tr ∨ ∃ k, y.base.runQueue.items[k]? = some t ∧
      k + (polls tr).length + x.tasks.length = i + y.tasks.length := by
  induction hr with
  | nil => exact Or.inr ⟨i, hi, rfl⟩
  | snoc hr hs ih =>
    obtain ⟨hks, hka⟩ := allSteps_snoc.mp hk
    rw [polls_snoc]
    rcases ih hks with hmem | ⟨j, hj, hsum⟩
    · exact Or.inl (List.mem_append_left _ hmem)
    · rcases index_of_step hs hka hj with hp | ⟨k, hk, hsum'⟩
      · exact Or.inl (List.mem_append_right _ (by rw [hp]; exact List.mem_singleton_self t))
      · refine Or.inr ⟨k, hk, ?_⟩
        rw [List.length_append]
        omega

/-- **Bounded waiting.** The task at index `i` of the run queue is polled before more than `i` polls
of others begin, and one more for each task spawned meanwhile. -/
theorem mem_polls_of_length_lt (hr : Run step x tr y) (hk : AllSteps Keeps tr)
    (hi : x.base.runQueue.items[i]? = some t)
    (hlt : i + (y.tasks.length - x.tasks.length) < (polls tr).length) : t ∈ polls tr := by
  refine (mem_polls_or_index hr hk hi).resolve_right ?_
  rintro ⟨k, -, hsum⟩
  omega

/-! ### One pass -/

/-- The task is still to be polled in the pass: it is in the run queue or in the ready vector, or
its timer is due and has not been dequeued yet. -/
def ToPoll (x : Executor H) (t : TaskRef) : Prop :=
  match x.phase with
  | .dequeueExpired now =>
    t ∈ x.base.runQueue.items ∨ ∃ e ∈ x.base.timerQueue.items, e.waker = t ∧ e.expiresAt ≤ now
  | .enqueueReady ready => t ∈ x.base.runQueue.items ∨ t ∈ ready
  | .popFront | .polling _ => t ∈ x.base.runQueue.items
  | .panicked _ => True
  | .idle | .checkTimerQueue | .renewAlarm | .setAlarm _ => False

theorem ToPoll.mono (hp : x.ToPoll t) (h : x'.phase = x.phase)
    (hq : ∀ u ∈ x.base.runQueue.items, u ∈ x'.base.runQueue.items)
    (ht : x'.base.timerQueue = x.base.timerQueue) : x'.ToPoll t := by
  unfold ToPoll at hp ⊢
  rw [h, ht]
  cases hphase : x.phase with
  | dequeueExpired now =>
    rw [hphase] at hp
    exact hp.imp_left (hq t)
  | enqueueReady ready =>
    rw [hphase] at hp
    exact hp.imp_left (hq t)
  | popFront | polling task =>
    rw [hphase] at hp
    exact hq t hp
  | panicked site => trivial
  | idle | checkTimerQueue | renewAlarm | setAlarm next =>
    rw [hphase] at hp
    exact hp.elim

theorem ToPoll.step (hp : x.ToPoll t) (h : step x a = some x') (hk : Keeps x a) :
    polled (x, a) = some t ∨ x'.ToPoll t := by
  cases a with
  | spawn task =>
    obtain ⟨-, q, hq, rfl⟩ := step_spawn.mp h
    refine Or.inr (hp.mono rfl (fun u hu => ?_) rfl)
    show u ∈ q.items
    rw [hq]
    exact List.mem_cons_of_mem task hu
  | wake task =>
    obtain ⟨-, rfl⟩ := step_wake.mp h
    refine Or.inr (hp.mono rfl (fun u hu => ?_) rfl)
    show u ∈ (x.base.enqueue task).runQueue.items
    rw [BaseExecutor.items_enqueue]
    split_ifs
    · exact hu
    · exact List.mem_append_left _ hu
  | overwrite handle => exact absurd hk Bool.false_ne_true
  | registerAlarm handle =>
    obtain rfl := step_registerAlarm.mp h
    exact Or.inr (hp.mono rfl (fun _ hu => hu) rfl)
  | enter =>
    obtain ⟨hphase, rfl⟩ := step_enter.mp h
    rw [ToPoll, hphase] at hp
    exact hp.elim
  | readNow now =>
    obtain ⟨hphase, rfl⟩ := step_readNow.mp h
    rw [ToPoll, hphase] at hp
    exact hp.elim
  | dequeueExpired =>
    obtain ⟨now, hphase, ⟨ready, b, hb, rfl⟩ | ⟨-, rfl⟩⟩ := step_dequeueExpired.mp h
    · obtain ⟨-, hr, rfl⟩ := BaseExecutor.dequeueReady_eq_some hb
      rw [ToPoll, hphase] at hp
      refine Or.inr (hp.imp id ?_)
      rintro ⟨e, he, rfl, hle⟩
      change ready = _ at hr
      rw [hr]
      exact List.mem_map.mpr ⟨e, TimerQueue.mem_dequeueExpired.mpr ⟨he, hle⟩, rfl⟩
    · exact Or.inr trivial
  | enqueueReady =>
    obtain ⟨ready, hphase, ⟨b, hb, rfl⟩ | ⟨-, rfl⟩⟩ := step_enqueueReady.mp h
    · obtain ⟨-, q, hq, rfl⟩ := BaseExecutor.enqueueReady_eq_some.mp hb
      rw [ToPoll, hphase] at hp
      refine Or.inr ?_
      show t ∈ q.items
      rw [hq]
      exact List.mem_append.mpr hp
    · exact Or.inr trivial
  | popFront =>
    obtain ⟨hphase, ⟨task, q, hq, rfl⟩ | ⟨hempty, rfl⟩⟩ := step_popFront.mp h
    · rw [ToPoll, hphase, hq] at hp
      rcases List.mem_cons.mp hp with rfl | hp
      · refine Or.inl ?_
        show x.base.runQueue.items.head? = some t
        rw [hq, List.head?_cons]
      · exact Or.inr hp
    · rw [ToPoll, hphase, hempty] at hp
      exact absurd hp List.not_mem_nil
  | pollTimer now n =>
    obtain ⟨task, -, rfl⟩ := step_pollTimer.mp h
    exact Or.inr (hp.mono rfl (fun _ hu => hu) rfl)
  | endPoll =>
    obtain ⟨task, hphase, rfl⟩ := step_endPoll.mp h
    rw [ToPoll, hphase] at hp
    refine Or.inr ?_
    show t ∈ (x.base.updateTimerQueue _ _).runQueue.items
    rw [BaseExecutor.runQueue_updateTimerQueue]
    exact hp
  | nextExpiration =>
    obtain ⟨hphase, -⟩ := step_nextExpiration.mp h
    rw [ToPoll, hphase] at hp
    exact hp.elim
  | setAlarm =>
    obtain ⟨n, hphase, -⟩ := step_setAlarm.mp h
    rw [ToPoll, hphase] at hp
    exact hp.elim

/-- **A pass serves everybody.** When a pass that has read the clock gets to `renew_alarm`, it has
polled every task that was in the run queue and every task with a timer that was due. -/
theorem mem_polls_of_pass (hr : Run step x tr y) (hk : AllSteps Keeps tr) {now : ℕ}
    (hx : x.phase = .dequeueExpired now) (hy : y.phase = .renewAlarm)
    (ht : t ∈ x.base.runQueue.items ∨
      ∃ e ∈ x.base.timerQueue.items, e.waker = t ∧ e.expiresAt ≤ now) : t ∈ polls tr := by
  have hp : x.ToPoll t := by
    rw [ToPoll, hx]
    exact ht
  have hrun : t ∈ polls tr ∨ y.ToPoll t := by
    clear hy
    induction hr with
    | nil => exact Or.inr hp
    | snoc hr hs ih =>
      obtain ⟨hks, hka⟩ := allSteps_snoc.mp hk
      rw [polls_snoc]
      rcases ih hks with hmem | hto
      · exact Or.inl (List.mem_append_left _ hmem)
      · rcases hto.step hs hka with hp | hp
        · exact Or.inl (List.mem_append_right _ (by rw [hp]; exact List.mem_singleton_self t))
        · exact Or.inr hp
  refine hrun.resolve_right fun hto => ?_
  rw [ToPoll, hy] at hto
  exact hto

/-! ### Causes -/

/-- The task that a step spawns, wakes, or leaves with a deadline at the end of its poll. -/
def cause (p : Executor H × Action) : Option TaskRef :=
  match p.2 with
  | .spawn task | .wake task => some task
  | .endPoll =>
    match p.1.phase with
    | .polling task => if p.1.expiresAt task = none then none else some task
    | _ => none
  | _ => none

/-- The causes of polls in a run. -/
def causes (tr : List (Executor H × Action)) : List TaskRef := tr.filterMap cause

theorem causes_snoc (tr : List (Executor H × Action)) (p : Executor H × Action) :
    causes (tr ++ [p]) = causes tr ++ (cause p).toList := by
  rw [causes, List.filterMap_append]
  congr 1

/-- The tasks of the ready vector. -/
def readyTasks (x : Executor H) : List TaskRef :=
  match x.phase with
  | .enqueueReady ready => ready
  | _ => []

/-- The polls of a task that the queues hold for later. -/
def owed (x : Executor H) (t : TaskRef) : ℕ :=
  x.base.runQueue.items.count t + x.readyTasks.count t + x.entries t

theorem count_enqueue_le (e : BaseExecutor H) (task t : TaskRef) :
    (e.enqueue task).runQueue.items.count t ≤
      e.runQueue.items.count t + [task].count t := by
  rw [BaseExecutor.items_enqueue]
  split_ifs
  · exact Nat.le_add_right _ _
  · rw [List.count_append]

theorem count_dequeueExpired (q : TimerQueue H) (now : ℕ) (t : TaskRef) :
    ((q.dequeueExpired now).1.map TimerQueueItem.getTaskRef).count t +
        ((q.dequeueExpired now).2.items.map TimerQueueItem.waker).count t =
      (q.items.map TimerQueueItem.waker).count t := by
  have hfst : (((q.dequeueExpired now).1.map TimerQueueItem.getTaskRef).count t) =
      ((q.items.filter (·.expiresAt ≤ now)).map TimerQueueItem.waker).count t := by
    rw [← (TimerQueue.dequeueExpired_spec q now).1, Multiset.map_coe, Multiset.coe_count]
    rfl
  rw [hfst, (TimerQueue.dequeueExpired_spec q now).2.1, ← Multiset.count_add, ← Multiset.map_add,
    Multiset.filter_add_not]

/-- **One step** owes no poll that it does not cause. -/
theorem owed_of_step (h : step x a = some x') (t : TaskRef) :
    (polled (x, a)).toList.count t + x'.owed t ≤ x.owed t + (cause (x, a)).toList.count t := by
  unfold owed
  cases a with
  | spawn task =>
    obtain ⟨-, q, hq, rfl⟩ := step_spawn.mp h
    show 0 + (q.items.count t + x.readyTasks.count t + x.entries t) ≤ _ + [task].count t
    rw [hq, ← List.singleton_append, List.count_append]
    omega
  | wake task =>
    obtain ⟨-, rfl⟩ := step_wake.mp h
    have hle := count_enqueue_le x.base task t
    show 0 + ((x.base.enqueue task).runQueue.items.count t + x.readyTasks.count t +
      x.entries t) ≤ _ + [task].count t
    omega
  | overwrite handle =>
    obtain rfl := step_overwrite.mp h
    have hnew : (new x.base.pender (some handle) : Executor H).entries t = 0 := by
      rw [entries,
        show (new x.base.pender (some handle) : Executor H).base.timerQueue.items = 0 from
          TimerQueue.items_new]
      rfl
    have hnew' : ({ x with base := .new x.base.pender (some handle) } : Executor H).entries t = 0 :=
      hnew
    rw [hnew']
    show 0 + (0 + x.readyTasks.count t + 0) ≤ _
    omega
  | registerAlarm handle =>
    obtain rfl := step_registerAlarm.mp h
    exact (Nat.zero_add _).le
  | enter =>
    obtain ⟨hphase, rfl⟩ := step_enter.mp h
    show 0 + (x.base.runQueue.items.count t + 0 + x.entries t) ≤ _
    omega
  | readNow now =>
    obtain ⟨hphase, rfl⟩ := step_readNow.mp h
    show 0 + (x.base.runQueue.items.count t + 0 + x.entries t) ≤ _
    omega
  | dequeueExpired =>
    obtain ⟨now, -, ⟨ready, b, hb, rfl⟩ | ⟨-, rfl⟩⟩ := step_dequeueExpired.mp h
    · obtain ⟨-, hr, rfl⟩ := BaseExecutor.dequeueReady_eq_some hb
      have hsum := count_dequeueExpired x.base.timerQueue now t
      change ready = _ at hr
      rw [← hr] at hsum
      show 0 + (x.base.runQueue.items.count t + ready.count t +
        ((x.base.timerQueue.dequeueExpired now).2.items.map TimerQueueItem.waker).count t) ≤ _
      unfold entries
      omega
    · show 0 + (x.base.runQueue.items.count t + 0 + x.entries t) ≤ _
      omega
  | enqueueReady =>
    obtain ⟨ready, hphase, ⟨b, hb, rfl⟩ | ⟨-, rfl⟩⟩ := step_enqueueReady.mp h
    · obtain ⟨-, q, hq, rfl⟩ := BaseExecutor.enqueueReady_eq_some.mp hb
      have hready : x.readyTasks = ready := by rw [readyTasks, hphase]
      show 0 + (q.items.count t + 0 + x.entries t) ≤ _
      rw [hq, List.count_append, hready]
      omega
    · show 0 + (x.base.runQueue.items.count t + 0 + x.entries t) ≤ _
      omega
  | popFront =>
    obtain ⟨-, ⟨task, q, hq, rfl⟩ | ⟨hempty, rfl⟩⟩ := step_popFront.mp h
    · have hp : polled (x, .popFront) = some task := by
        show x.base.runQueue.items.head? = some task
        rw [hq, List.head?_cons]
      have hsum : (task :: q.items).count t = [task].count t + q.items.count t := by
        rw [← List.count_append]
        rfl
      rw [hp, hq]
      show [task].count t + (q.items.count t + 0 + x.entries t) ≤ _
      omega
    · have hp : polled (x, .popFront) = none := by
        show x.base.runQueue.items.head? = none
        rw [hempty, List.head?_nil]
      rw [hp]
      show 0 + (x.base.runQueue.items.count t + 0 + x.entries t) ≤ _
      omega
  | pollTimer now n =>
    obtain ⟨task, -, rfl⟩ := step_pollTimer.mp h
    exact (Nat.zero_add _).le
  | endPoll =>
    obtain ⟨task, hphase, rfl⟩ := step_endPoll.mp h
    cases hexp : x.expiresAt task with
    | none =>
      show 0 + (x.base.runQueue.items.count t + 0 + x.entries t) ≤ _
      omega
    | some n =>
      have hc : cause (x, .endPoll) = some task := by
        simp [cause, hphase, hexp]
      have hle : ((x.base.updateTimerQueue task (some n)).timerQueue.items.map
          TimerQueueItem.waker).count t ≤ x.entries t + [task].count t := by
        rw [BaseExecutor.items_updateTimerQueue]
        split_ifs
        · exact Nat.le_add_right _ _
        · rw [Multiset.map_cons, Multiset.count_cons, List.count_singleton]
          refine Nat.add_le_add_left ?_ _
          by_cases ht : t = task
          · rw [if_pos ht, if_pos (by simp [ht])]
          · rw [if_neg ht]
            exact Nat.zero_le _
      rw [hc]
      show 0 + (x.base.runQueue.items.count t + 0 +
        ((x.base.updateTimerQueue task (some n)).timerQueue.items.map
          TimerQueueItem.waker).count t) ≤ _ + [task].count t
      omega
  | nextExpiration =>
    obtain ⟨hphase, ⟨n, -, rfl⟩ | ⟨-, rfl⟩⟩ := step_nextExpiration.mp h
    all_goals
      show 0 + (x.base.runQueue.items.count t + 0 + x.entries t) ≤ _
      omega
  | setAlarm =>
    obtain ⟨n, hphase, ⟨k, -, rfl⟩ | ⟨-, rfl⟩⟩ := step_setAlarm.mp h
    all_goals
      show 0 + (x.base.runQueue.items.count t + 0 + x.entries t) ≤ _
      omega

/-- **Every poll has a cause.** In a run of a new executor a task is polled no more often than it
was spawned, woken, and left with a deadline by its own poll. -/
theorem count_polls_le {pender : Pender} {handle : Option AlarmHandle}
    (hr : Run step (new pender handle) tr y) (t : TaskRef) :
    (polls tr).count t ≤ (causes tr).count t := by
  suffices h : (polls tr).count t + y.owed t ≤ (causes tr).count t from
    (Nat.le_add_right _ _).trans h
  induction hr with
  | nil =>
    have hnew : (new pender handle : Executor H).entries t = 0 := by
      rw [entries, show (new pender handle : Executor H).base.timerQueue.items = 0 from
        TimerQueue.items_new]
      rfl
    rw [owed, hnew]
    exact Nat.le_refl 0
  | snoc hr hs ih =>
    have hstep := owed_of_step hs t
    rw [polls_snoc, causes_snoc, List.count_append, List.count_append]
    omega

/-! ### A run -/

/-- Two tasks are spawned; in a pass the one polled first wakes itself, and leaves a deadline. -/
def turnsRun : List Action :=
  [.dequeueExpired, .enqueueReady, .popFront, .wake 1, .pollTimer 3 9, .endPoll, .popFront,
    .endPoll, .popFront, .endPoll, .popFront]

theorem exists_turnsRun : ∃ (x : Executor .list) (tr : List (Executor .list × Action))
    (y : Executor .list),
    runList step (new .threadExecutorPender (some ⟨0⟩)) [.spawn 0, .spawn 1, .enter, .readNow 3] =
        some x ∧ Run step x tr y ∧ tr.map Prod.snd = turnsRun ∧
      x.base.runQueue.items = [1, 0] ∧ x.phase = .dequeueExpired 3 ∧
        x.tasks.length = 2 ∧ y.tasks.length = 2 ∧ y.phase = .renewAlarm ∧ polls tr = [1, 0, 1] := by
  obtain ⟨x, tr, y, hx, hr, ha, hv⟩ := exists_run_of_trace
    (r := step) (s := (new .threadExecutorPender (some ⟨0⟩) : Executor .list))
    (l := [.spawn 0, .spawn 1, .enter, .readNow 3]) (m := turnsRun)
    (f := fun x r => (x.base.runQueue.items, x.phase, x.tasks.length, r.2.tasks.length,
      r.2.phase, polls r.1))
    (b := ([1, 0], .dequeueExpired 3, 2, 2, .renewAlarm, [1, 0, 1])) (by decide)
  simp only [Prod.mk.injEq] at hv
  exact ⟨x, tr, y, hx, hr, ha, hv⟩

/-- Task 0 waits behind task 1, and is polled second. -/
theorem mem_polls_turnsRun : ∃ (x y : Executor .list) (tr : List (Executor .list × Action)),
    runList step (new .threadExecutorPender (some ⟨0⟩)) [.spawn 0, .spawn 1, .enter, .readNow 3] =
        some x ∧ Run step x tr y ∧ tr.map Prod.snd = turnsRun ∧ 0 ∈ polls tr := by
  obtain ⟨x, tr, y, hx, hr, ha, hq, -, hxt, hyt, -, hp⟩ := exists_turnsRun
  refine ⟨x, y, tr, hx, hr, ha, ?_⟩
  refine mem_polls_of_length_lt (i := 1) hr (allSteps_keeps ha (by decide)) (by rw [hq]; rfl) ?_
  rw [hxt, hyt, hp]
  decide

theorem mem_polls_of_pass_turnsRun : ∃ (x y : Executor .list)
    (tr : List (Executor .list × Action)),
    runList step (new .threadExecutorPender (some ⟨0⟩)) [.spawn 0, .spawn 1, .enter, .readNow 3] =
        some x ∧ Run step x tr y ∧ tr.map Prod.snd = turnsRun ∧ 1 ∈ polls tr := by
  obtain ⟨x, tr, y, hx, hr, ha, hq, hxp, -, -, hyp, -⟩ := exists_turnsRun
  refine ⟨x, y, tr, hx, hr, ha, ?_⟩
  refine mem_polls_of_pass hr (allSteps_keeps ha (by decide)) hxp hyp (Or.inl ?_)
  rw [hq]
  decide

/-- Task 1 is polled twice, and has four causes. -/
theorem count_polls_le_turnsRun : ∃ (tr : List (Executor .list × Action)) (y : Executor .list),
    Run step (new .threadExecutorPender (some ⟨0⟩)) tr y ∧
      tr.map Prod.snd = [.spawn 0, .spawn 1, .enter, .readNow 3] ++ turnsRun ∧
        (polls tr).count 1 ≤ (causes tr).count 1 := by
  obtain ⟨r, hr⟩ : ∃ r, traceList step (new .threadExecutorPender (some ⟨0⟩) : Executor .list)
      ([.spawn 0, .spawn 1, .enter, .readNow 3] ++ turnsRun) = some r := ⟨_, rfl⟩
  obtain ⟨hrun, ha⟩ := run_of_traceList hr
  exact ⟨r.1, r.2, hrun, ha, count_polls_le hrun 1⟩

end Executor

end AurixAsync
