import AurixAsync.Executor.BaseExecutor
import AurixAsync.Lib.Run
import Mathlib.Logic.Function.Basic

/-!
# One executor, step by step

An executor with the context that runs its `exec_once`. Each step is one critical section, or one
action of a polled future; between two of them any other context may act. What such a context can
do to this executor is spawn a task on it, wake one of its tasks, register its alarm, and overwrite
it, when `ExecutorList::allocate` is called again at its priority.

* `Phase`: where the context is in `exec_once`.
* `Executor`, `Action`, `step`: the state, the actions, the step.
* `step_spawn`, …, `step_setAlarm`: for each action, exactly what it does.
* `own`: the actions of the context itself.
-/

namespace AurixAsync

/-- The `unwrap`s an executor can panic in. -/
inductive Panic
  /-- `ready.push(..)` in `check_timer_queue`. -/
  | readyFull
  /-- `x.push_back(task)` in `check_timer_queue`. -/
  | runQueueFull
  /-- `alarm_handle` in `set_alarm`. -/
  | noAlarmHandle
deriving DecidableEq

/-- Where the context of an executor stands. -/
inductive Phase
  /-- Outside `exec_once`. -/
  | idle
  /-- At the entry of `check_timer_queue`, before it reads the clock. -/
  | checkTimerQueue
  | dequeueExpired (now : ℕ)
  | enqueueReady (ready : List TaskRef)
  /-- At the head of the `while let` of `advance_runnable_tasks`. -/
  | popFront
  | polling (task : TaskRef)
  /-- At the entry of `renew_alarm`. -/
  | renewAlarm
  | setAlarm (nextTick : ℕ)
  /-- In the panic handler, which loops for ever. -/
  | panicked (site : Panic)
deriving DecidableEq

/-- The context is inside `exec_once` and has yet to pop from an empty run queue; one that panicked
will never do so. -/
def Phase.draining : Phase → Bool
  | .idle | .renewAlarm | .setAlarm _ | .panicked _ => false
  | _ => true

/-- An executor: its memory, the tasks spawned on it, the `expires_at` of their headers, and its
context. -/
structure Executor (H : TimerHeap) where
  base : BaseExecutor H
  tasks : List TaskRef
  expiresAt : TaskRef → Option ℕ
  phase : Phase

namespace Executor

variable {H : TimerHeap}

/-- An executor without tasks, outside of `exec_once`. -/
def new (pender : Pender) (alarmHandle : Option AlarmHandle) : Executor H :=
  ⟨.new pender alarmHandle, [], fun _ => none, .idle⟩

/-- The actions. The first four are those of other contexts. -/
inductive Action
  /-- `spawn` of a task whose header was just allocated. -/
  | spawn (task : TaskRef)
  /-- The push of a `wake` or `wake_by_ref`. -/
  | wake (task : TaskRef)
  /-- `InterruptExecutor::new` written over this executor. -/
  | overwrite (handle : AlarmHandle)
  /-- `register_alarm`, in `ExecutorList::thread_executor`. -/
  | registerAlarm (handle : AlarmHandle)
  | enter
  | readNow (now : ℕ)
  | dequeueExpired
  | enqueueReady
  | popFront
  /-- The polled task polls a `Timer` with this deadline. -/
  | pollTimer (now expiresAt : ℕ)
  | endPoll
  | nextExpiration
  | setAlarm
deriving DecidableEq

/-- The actions of the context of the executor itself. -/
def Action.own : Action → Bool
  | .spawn _ | .wake _ | .overwrite _ | .registerAlarm _ => false
  | _ => true

/-- One action. `none` if it is not possible: the executor is at another place in the code. -/
def step (x : Executor H) : Action → Option (Executor H)
  | .spawn task =>
    if task ∈ x.tasks then none
    else (x.base.spawn task).map fun b =>
      { x with
        base := b
        tasks := task :: x.tasks
        expiresAt := Function.update x.expiresAt task none }
  | .wake task => if task ∈ x.tasks then some { x with base := x.base.enqueue task } else none
  | .overwrite handle => some { x with base := .new x.base.pender (some handle) }
  | .registerAlarm handle => some { x with base := x.base.registerAlarm handle }
  | .enter => if x.phase = .idle then some { x with phase := .checkTimerQueue } else none
  | .readNow now =>
    if x.phase = .checkTimerQueue then some { x with phase := .dequeueExpired now } else none
  | .dequeueExpired =>
    match x.phase with
    | .dequeueExpired now =>
      match x.base.dequeueReady now with
      | some (ready, b) => some { x with base := b, phase := .enqueueReady ready }
      | none => some { x with phase := .panicked .readyFull }
    | _ => none
  | .enqueueReady =>
    match x.phase with
    | .enqueueReady ready =>
      match x.base.enqueueReady ready with
      | some b => some { x with base := b, phase := .popFront }
      | none => some { x with phase := .panicked .runQueueFull }
    | _ => none
  | .popFront =>
    if x.phase = .popFront then
      match x.base.runQueue.popFront with
      | some (task, q) =>
        -- `expires_at` is cleared before the poll
        some { x with base := { x.base with runQueue := q },
                      expiresAt := Function.update x.expiresAt task none, phase := .polling task }
      | none => some { x with phase := .renewAlarm }
    else none
  | .pollTimer now expiresAt =>
    match x.phase with
    | .polling task =>
      some { x with expiresAt := Function.update x.expiresAt task
                      (Timer.poll ⟨expiresAt⟩ now (x.expiresAt task)).2 }
    | _ => none
  | .endPoll =>
    match x.phase with
    | .polling task =>
      some { x with base := x.base.updateTimerQueue task (x.expiresAt task), phase := .popFront }
    | _ => none
  | .nextExpiration =>
    if x.phase = .renewAlarm then
      match x.base.timerQueue.nextExpiration with
      | some nextTick => some { x with phase := .setAlarm nextTick }
      | none => some { x with phase := .idle }
    else none
  | .setAlarm =>
    match x.phase with
    | .setAlarm _ =>
      -- `alarm_handle.unwrap()`; the item itself goes into the queue of the core
      match x.base.alarmHandle with
      | some _ => some { x with phase := .idle }
      | none => some { x with phase := .panicked .noAlarmHandle }
    | _ => none

variable {x x' : Executor H}

/-! ### What each action does -/

theorem step_spawn {task : TaskRef} : step x (.spawn task) = some x' ↔
    task ∉ x.tasks ∧ ∃ q : Deque TaskRef MAX_TASKS, q.items = task :: x.base.runQueue.items ∧
      x' = { x with base := { x.base with runQueue := q }, tasks := task :: x.tasks,
                    expiresAt := Function.update x.expiresAt task none } := by
  simp only [step]
  split_ifs with h
  · simp [h]
  · rw [Option.map_eq_some_iff]
    constructor
    · rintro ⟨b, hb, rfl⟩
      obtain ⟨-, q, hq, rfl⟩ := BaseExecutor.spawn_eq_some.mp hb
      exact ⟨h, q, hq, rfl⟩
    · rintro ⟨-, q, hq, rfl⟩
      have hlt : x.base.runQueue.items.length < MAX_TASKS := by
        have := q.length_le
        rw [hq, List.length_cons] at this
        omega
      exact ⟨_, BaseExecutor.spawn_eq_some.mpr ⟨hlt, q, hq, rfl⟩, rfl⟩

theorem step_wake {task : TaskRef} : step x (.wake task) = some x' ↔
    task ∈ x.tasks ∧ x' = { x with base := x.base.enqueue task } := by
  simp only [step]
  split_ifs with h <;> simp [h, eq_comm]

theorem step_overwrite {handle : AlarmHandle} : step x (.overwrite handle) = some x' ↔
    x' = { x with base := .new x.base.pender (some handle) } := by
  rw [step, Option.some.injEq, eq_comm]

theorem step_registerAlarm {handle : AlarmHandle} : step x (.registerAlarm handle) = some x' ↔
    x' = { x with base := x.base.registerAlarm handle } := by
  rw [step, Option.some.injEq, eq_comm]

theorem step_enter : step x .enter = some x' ↔
    x.phase = .idle ∧ x' = { x with phase := .checkTimerQueue } := by
  simp only [step]
  split_ifs with h <;> simp [h, eq_comm]

theorem step_readNow {now : ℕ} : step x (.readNow now) = some x' ↔
    x.phase = .checkTimerQueue ∧ x' = { x with phase := .dequeueExpired now } := by
  simp only [step]
  split_ifs with h <;> simp [h, eq_comm]

theorem step_dequeueExpired : step x .dequeueExpired = some x' ↔
    ∃ now, x.phase = .dequeueExpired now ∧
      ((∃ ready b, x.base.dequeueReady now = some (ready, b) ∧
          x' = { x with base := b, phase := .enqueueReady ready }) ∨
        x.base.dequeueReady now = none ∧ x' = { x with phase := .panicked .readyFull }) := by
  simp only [step]
  split
  · rename_i now h
    rcases hr : x.base.dequeueReady now with _ | ⟨ready, b⟩
    · simp [h, hr, eq_comm]
    · constructor
      · rintro ⟨rfl⟩
        exact ⟨now, h, Or.inl ⟨ready, b, hr, rfl⟩⟩
      · rintro ⟨now', h', ⟨ready', b', hr', rfl⟩ | ⟨hr', -⟩⟩
        all_goals
          obtain rfl := Phase.dequeueExpired.inj (h.symm.trans h')
          rw [hr] at hr'
        · obtain ⟨rfl, rfl⟩ := Prod.mk.inj (Option.some.inj hr')
          rfl
        · exact absurd hr' (by simp)
  · rename_i h
    exact ⟨fun e => absurd e (by simp), fun ⟨now, hn, _⟩ => absurd hn (h now)⟩

theorem step_enqueueReady : step x .enqueueReady = some x' ↔
    ∃ ready, x.phase = .enqueueReady ready ∧
      ((∃ b, x.base.enqueueReady ready = some b ∧ x' = { x with base := b, phase := .popFront }) ∨
        x.base.enqueueReady ready = none ∧ x' = { x with phase := .panicked .runQueueFull }) := by
  simp only [step]
  split
  · rename_i ready h
    cases hr : x.base.enqueueReady ready <;> simp [h, hr, eq_comm]
  · rename_i h
    exact ⟨fun e => absurd e (by simp), fun ⟨r, hn, _⟩ => absurd hn (h r)⟩

theorem step_popFront : step x .popFront = some x' ↔
    x.phase = .popFront ∧
      ((∃ task q, x.base.runQueue.items = task :: q.items ∧
          x' = { x with base := { x.base with runQueue := q },
                        expiresAt := Function.update x.expiresAt task none,
                        phase := .polling task }) ∨
        x.base.runQueue.items = [] ∧ x' = { x with phase := .renewAlarm }) := by
  simp only [step]
  split_ifs with h
  · cases hq : x.base.runQueue.popFront with
    | none =>
      rw [Deque.popFront_eq_none] at hq
      simp [h, hq, eq_comm]
    | some r =>
      obtain ⟨task, q⟩ := r
      rw [Deque.popFront_eq_some] at hq
      simp only [Option.some.injEq, h, true_and, hq, List.cons.injEq, reduceCtorEq, false_and,
        or_false]
      constructor
      · rintro rfl
        exact ⟨task, q, ⟨rfl, rfl⟩, rfl⟩
      · rintro ⟨task', q', ⟨rfl, hq'⟩, rfl⟩
        rw [Deque.ext hq']
  · simp [h]

theorem polling_eq_some {f : TaskRef → Executor H} :
    (match x.phase with | .polling task => some (f task) | _ => none) = some x' ↔
      ∃ task, x.phase = .polling task ∧ x' = f task := by
  split
  · rename_i task h
    simp [h, eq_comm]
  · rename_i h
    exact ⟨fun e => absurd e (by simp), fun ⟨t, hn, _⟩ => absurd hn (h t)⟩

theorem step_pollTimer {now n : ℕ} : step x (.pollTimer now n) = some x' ↔
    ∃ task, x.phase = .polling task ∧
      x' = { x with expiresAt := Function.update x.expiresAt task
                      (Timer.poll ⟨n⟩ now (x.expiresAt task)).2 } :=
  polling_eq_some

theorem step_endPoll : step x .endPoll = some x' ↔
    ∃ task, x.phase = .polling task ∧
      x' = { x with base := x.base.updateTimerQueue task (x.expiresAt task),
                    phase := .popFront } :=
  polling_eq_some

theorem step_nextExpiration : step x .nextExpiration = some x' ↔
    x.phase = .renewAlarm ∧
      ((∃ n, x.base.timerQueue.nextExpiration = some n ∧ x' = { x with phase := .setAlarm n }) ∨
        x.base.timerQueue.nextExpiration = none ∧ x' = { x with phase := .idle }) := by
  simp only [step]
  split_ifs with h
  · cases hn : x.base.timerQueue.nextExpiration <;> simp [h, eq_comm]
  · simp [h]

theorem step_setAlarm : step x .setAlarm = some x' ↔
    ∃ n, x.phase = .setAlarm n ∧
      ((∃ handle, x.base.alarmHandle = some handle ∧ x' = { x with phase := .idle }) ∨
        x.base.alarmHandle = none ∧ x' = { x with phase := .panicked .noAlarmHandle }) := by
  simp only [step]
  split
  · rename_i n h
    cases hr : x.base.alarmHandle <;> simp [h, eq_comm]
  · rename_i h
    exact ⟨fun e => absurd e (by simp), fun ⟨t, hn, _⟩ => absurd hn (h t)⟩

/-- A spawn is the only action that adds a task, and no action removes one. -/
theorem tasks_of_step {a : Action} (h : step x a = some x') :
    x'.tasks = x.tasks ∨ ∃ task, task ∉ x.tasks ∧ x'.tasks = task :: x.tasks := by
  cases a with
  | spawn task =>
    obtain ⟨hn, q, -, rfl⟩ := step_spawn.mp h
    exact Or.inr ⟨task, hn, rfl⟩
  | wake task => obtain ⟨-, rfl⟩ := step_wake.mp h; exact Or.inl rfl
  | overwrite handle => obtain rfl := step_overwrite.mp h; exact Or.inl rfl
  | registerAlarm handle => obtain rfl := step_registerAlarm.mp h; exact Or.inl rfl
  | enter => obtain ⟨-, rfl⟩ := step_enter.mp h; exact Or.inl rfl
  | readNow now => obtain ⟨-, rfl⟩ := step_readNow.mp h; exact Or.inl rfl
  | dequeueExpired =>
    obtain ⟨-, -, ⟨r, b, -, rfl⟩ | ⟨-, rfl⟩⟩ := step_dequeueExpired.mp h <;> exact Or.inl rfl
  | enqueueReady =>
    obtain ⟨-, -, ⟨b, -, rfl⟩ | ⟨-, rfl⟩⟩ := step_enqueueReady.mp h
    all_goals exact Or.inl rfl
  | popFront =>
    obtain ⟨-, ⟨t, q, -, rfl⟩ | ⟨-, rfl⟩⟩ := step_popFront.mp h <;> exact Or.inl rfl
  | pollTimer now n => obtain ⟨t, -, rfl⟩ := step_pollTimer.mp h; exact Or.inl rfl
  | endPoll => obtain ⟨t, -, rfl⟩ := step_endPoll.mp h; exact Or.inl rfl
  | nextExpiration =>
    obtain ⟨-, ⟨n, -, rfl⟩ | ⟨-, rfl⟩⟩ := step_nextExpiration.mp h <;> exact Or.inl rfl
  | setAlarm =>
    obtain ⟨n, -, ⟨k, -, rfl⟩ | ⟨-, rfl⟩⟩ := step_setAlarm.mp h <;> exact Or.inl rfl

theorem idle_of_step {a : Action} (h : step x a = some x') (ha : a ≠ .enter)
    (hp : x.phase = .idle) (hq : x.base.timerQueue.items = 0) :
    x'.phase = .idle ∧ x'.base.timerQueue.items = 0 := by
  cases a with
  | spawn task => obtain ⟨-, q, -, rfl⟩ := step_spawn.mp h; exact ⟨hp, hq⟩
  | wake task => obtain ⟨-, rfl⟩ := step_wake.mp h; exact ⟨hp, hq⟩
  | overwrite handle =>
    obtain rfl := step_overwrite.mp h
    exact ⟨hp, TimerQueue.items_new⟩
  | registerAlarm handle => obtain rfl := step_registerAlarm.mp h; exact ⟨hp, hq⟩
  | enter => exact absurd rfl ha
  | readNow now => exact absurd (hp.symm.trans (step_readNow.mp h).1) (by simp)
  | dequeueExpired =>
    obtain ⟨now, hp', -⟩ := step_dequeueExpired.mp h
    exact absurd (hp.symm.trans hp') (by simp)
  | enqueueReady =>
    obtain ⟨ready, hp', -⟩ := step_enqueueReady.mp h
    exact absurd (hp.symm.trans hp') (by simp)
  | popFront => exact absurd (hp.symm.trans (step_popFront.mp h).1) (by simp)
  | pollTimer now n =>
    obtain ⟨t, hp', -⟩ := step_pollTimer.mp h
    exact absurd (hp.symm.trans hp') (by simp)
  | endPoll =>
    obtain ⟨t, hp', -⟩ := step_endPoll.mp h
    exact absurd (hp.symm.trans hp') (by simp)
  | nextExpiration => exact absurd (hp.symm.trans (step_nextExpiration.mp h).1) (by simp)
  | setAlarm =>
    obtain ⟨n, hp', -⟩ := step_setAlarm.mp h
    exact absurd (hp.symm.trans hp') (by simp)

/-- The actions that give the executor another alarm handle. -/
def Action.newHandle : Action → Option AlarmHandle
  | .overwrite handle | .registerAlarm handle => some handle
  | _ => none

theorem pender_alarmHandle_of_step {a : Action} (h : step x a = some x') :
    x'.base.pender = x.base.pender ∧
      x'.base.alarmHandle = a.newHandle.or x.base.alarmHandle := by
  cases a with
  | spawn task =>
    obtain ⟨-, q, -, rfl⟩ := step_spawn.mp h
    exact ⟨rfl, rfl⟩
  | wake task => obtain ⟨-, rfl⟩ := step_wake.mp h; exact ⟨rfl, rfl⟩
  | overwrite handle => obtain rfl := step_overwrite.mp h; exact ⟨rfl, rfl⟩
  | registerAlarm handle => obtain rfl := step_registerAlarm.mp h; exact ⟨rfl, rfl⟩
  | enter => obtain ⟨-, rfl⟩ := step_enter.mp h; exact ⟨rfl, rfl⟩
  | readNow now => obtain ⟨-, rfl⟩ := step_readNow.mp h; exact ⟨rfl, rfl⟩
  | dequeueExpired =>
    obtain ⟨now, -, ⟨r, b, hb, rfl⟩ | ⟨-, rfl⟩⟩ := step_dequeueExpired.mp h
    · obtain ⟨-, -, rfl⟩ := BaseExecutor.dequeueReady_eq_some hb
      exact ⟨rfl, rfl⟩
    · exact ⟨rfl, rfl⟩
  | enqueueReady =>
    obtain ⟨ready, -, ⟨b, hb, rfl⟩ | ⟨-, rfl⟩⟩ := step_enqueueReady.mp h
    · obtain ⟨-, q, -, rfl⟩ := BaseExecutor.enqueueReady_eq_some.mp hb
      exact ⟨rfl, rfl⟩
    · exact ⟨rfl, rfl⟩
  | popFront =>
    obtain ⟨-, ⟨t, q, -, rfl⟩ | ⟨-, rfl⟩⟩ := step_popFront.mp h <;> exact ⟨rfl, rfl⟩
  | pollTimer now n => obtain ⟨t, -, rfl⟩ := step_pollTimer.mp h; exact ⟨rfl, rfl⟩
  | endPoll =>
    obtain ⟨t, -, rfl⟩ := step_endPoll.mp h
    exact ⟨BaseExecutor.pender_updateTimerQueue _, BaseExecutor.alarmHandle_updateTimerQueue _⟩
  | nextExpiration =>
    obtain ⟨-, ⟨n, -, rfl⟩ | ⟨-, rfl⟩⟩ := step_nextExpiration.mp h <;> exact ⟨rfl, rfl⟩
  | setAlarm =>
    obtain ⟨n, -, ⟨k, -, rfl⟩ | ⟨-, rfl⟩⟩ := step_setAlarm.mp h <;> exact ⟨rfl, rfl⟩

theorem length_tasks_le {a : Action} (h : step x a = some x') :
    x.tasks.length ≤ x'.tasks.length := by
  rcases tasks_of_step h with h | ⟨task, -, h⟩ <;> rw [h]
  exact Nat.le_succ _

end Executor

end AurixAsync
