import AurixAsync.Cpu.Alarm
import AurixAsync.Lib.Deque
import AurixAsync.Time.TimerQueue

/-!
# The base executor

The memory of an executor and the functions on it: a run queue of at most 32 task references, a
timer queue of at most 64 entries, an alarm handle and a pender. What `check_timer_queue` does
under its two locks is two functions, since other contexts may run between them.

* `BaseExecutor`, `Pender`: the data.
* `spawn`, `enqueue`, `dequeueReady`, `enqueueReady`, `checkTimerQueue`, `updateTimerQueue`:
  the functions, `none` standing for a panic.
* `dequeueReady_eq_loop`: the first of the two is the loop of `dequeue_expired`.
* `Timer.poll`: the one future that writes a task header.
-/

namespace AurixAsync

/-- The capacity of the run queue. -/
def MAX_TASKS : ℕ := 32

/-- How an executor is pended; the software interrupt is given by its priority. -/
inductive Pender
  | threadExecutorPender
  | interruptExecutorPender (swInterrupt : UInt8)
deriving DecidableEq

/-- The tasks that are ready, the timers of those that wait, the alarm of the executor if it has
one, and how it is woken. -/
structure BaseExecutor (H : TimerHeap) where
  runQueue : Deque TaskRef MAX_TASKS
  timerQueue : TimerQueue H
  alarmHandle : Option AlarmHandle
  pender : Pender

namespace BaseExecutor

variable {H : TimerHeap}

/-- Both queues are empty. -/
def new (pender : Pender) (alarmHandle : Option AlarmHandle) : BaseExecutor H :=
  ⟨.new, .new, alarmHandle, pender⟩

/-- The executor gets its alarm. -/
def registerAlarm (e : BaseExecutor H) (handle : AlarmHandle) : BaseExecutor H :=
  { e with alarmHandle := some handle }

/-- `spawn`: the new task goes to the front; a full run queue is a panic. No pend follows. -/
def spawn (e : BaseExecutor H) (task : TaskRef) : Option (BaseExecutor H) :=
  (e.runQueue.pushFront task).map fun q => { e with runQueue := q }

/-- The push of `enqueue_and_pend`, and all of `enqueue_no_pend`: the task goes to the back, and
a refused push is dropped. -/
def enqueue (e : BaseExecutor H) (task : TaskRef) : BaseExecutor H :=
  { e with runQueue := (e.runQueue.pushBack task).getD e.runQueue }

/-- `check_timer_queue` up to the end of its first lock: the expired entries become the ready
vector, whose `push(..).unwrap()` panics at the 33rd task. -/
def dequeueReady (e : BaseExecutor H) (now : ℕ) : Option (List TaskRef × BaseExecutor H) :=
  let r := e.timerQueue.dequeueExpired now
  if r.1.length ≤ MAX_TASKS then
    some (r.1.map TimerQueueItem.getTaskRef, { e with timerQueue := r.2 })
  else none

/-- `on_each` in `check_timer_queue`: `ready.push(item.get_task_ref()).ok().unwrap()`. -/
def pushReady (ready : List TaskRef) (item : TimerQueueItem) : Option (List TaskRef) :=
  if ready.length < MAX_TASKS then some (ready ++ [item.getTaskRef]) else none

/-- The second lock of `check_timer_queue`, with its `push_back(task).unwrap()`. -/
def enqueueReady (e : BaseExecutor H) (ready : List TaskRef) : Option (BaseExecutor H) :=
  (e.runQueue.pushAll ready).map fun q => { e with runQueue := q }

/-- `check_timer_queue` without anything in between. -/
def checkTimerQueue (e : BaseExecutor H) (now : ℕ) : Option (BaseExecutor H) :=
  (e.dequeueReady now).bind fun r => r.2.enqueueReady r.1

/-- `update_timer_queue` of a task whose header holds `expiresAt`; the result of the enqueue is
discarded. -/
def updateTimerQueue (e : BaseExecutor H) (task : TaskRef) (expiresAt : Option ℕ) :
    BaseExecutor H :=
  match expiresAt with
  | none => e
  | some n => { e with timerQueue := (e.timerQueue.enqueue ⟨n, task⟩).getD e.timerQueue }

variable {e e' : BaseExecutor H} {task : TaskRef} {now : ℕ} {ready : List TaskRef}

theorem spawn_eq_some : e.spawn task = some e' ↔
    e.runQueue.items.length < MAX_TASKS ∧
      ∃ q : Deque TaskRef MAX_TASKS, q.items = task :: e.runQueue.items ∧
        e' = { e with runQueue := q } := by
  rw [spawn, Option.map_eq_some_iff]
  constructor
  · rintro ⟨q, hq, rfl⟩
    obtain ⟨hlt, hi⟩ := Deque.pushFront_eq_some.mp hq
    exact ⟨hlt, q, hi, rfl⟩
  · rintro ⟨hlt, q, hi, rfl⟩
    exact ⟨q, Deque.pushFront_eq_some.mpr ⟨hlt, hi⟩, rfl⟩

theorem items_enqueue (e : BaseExecutor H) (task : TaskRef) :
    (e.enqueue task).runQueue.items =
      if e.runQueue.items.length = MAX_TASKS then e.runQueue.items
      else e.runQueue.items ++ [task] := by
  rw [enqueue]
  split_ifs with h
  · rw [Deque.pushBack_eq_none.mpr h]
    rfl
  · obtain ⟨q, hq⟩ := Option.ne_none_iff_exists'.mp (fun hn => h (Deque.pushBack_eq_none.mp hn))
    rw [hq]
    exact (Deque.pushBack_eq_some.mp hq).2

theorem dequeueReady_eq_some {r : List TaskRef × BaseExecutor H} (h : e.dequeueReady now = some r) :
    (e.timerQueue.dequeueExpired now).1.length ≤ MAX_TASKS ∧
      r.1 = (e.timerQueue.dequeueExpired now).1.map TimerQueueItem.getTaskRef ∧
      r.2 = { e with timerQueue := (e.timerQueue.dequeueExpired now).2 } := by
  simp only [dequeueReady] at h
  split_ifs at h with hle
  obtain rfl := Option.some.inj h
  exact ⟨hle, rfl, rfl⟩

theorem dequeueReady_eq_none :
    e.dequeueReady now = none ↔ MAX_TASKS < (e.timerQueue.dequeueExpired now).1.length := by
  simp only [dequeueReady]
  split_ifs with hle
  · exact ⟨fun h => absurd h (by simp), fun h => absurd hle (by omega)⟩
  · exact ⟨fun _ => by omega, fun _ => rfl⟩

theorem foldlM_pushReady (l : List TimerQueueItem) (hready : ready.length ≤ MAX_TASKS) :
    l.foldlM pushReady ready =
      if ready.length + l.length ≤ MAX_TASKS then some (ready ++ l.map TimerQueueItem.getTaskRef)
      else none := by
  induction l generalizing ready with
  | nil =>
    rw [List.foldlM_nil, List.length_nil, Nat.add_zero, if_pos hready, List.map_nil,
      List.append_nil]
    rfl
  | cons item l ih =>
    rw [List.foldlM_cons, pushReady, List.length_cons]
    by_cases hlt : ready.length < MAX_TASKS
    · have hlen : (ready ++ [item.getTaskRef]).length = ready.length + 1 := List.length_append
      rw [if_pos hlt]
      show l.foldlM pushReady (ready ++ [item.getTaskRef]) = _
      rw [ih (by omega), hlen, Nat.add_right_comm, Nat.add_assoc, List.map_cons,
        List.append_assoc]
      rfl
    · rw [if_neg hlt, if_neg (by omega)]
      rfl

/-- The first lock of `check_timer_queue` is the loop of `dequeue_expired` with this `on_each`. -/
theorem dequeueReady_eq_loop (e : BaseExecutor H) (now : ℕ) :
    e.dequeueReady now =
      (e.timerQueue.dequeueExpiredWith now pushReady []).map fun r =>
        (r.1, { e with timerQueue := r.2.2 }) := by
  rw [TimerQueue.dequeueExpiredWith_eq, foldlM_pushReady _ (Nat.zero_le _), dequeueReady,
    List.length_nil, Nat.zero_add]
  split_ifs <;> rfl

theorem enqueueReady_eq_some : e.enqueueReady ready = some e' ↔
    e.runQueue.items.length + ready.length ≤ MAX_TASKS ∧
      ∃ q : Deque TaskRef MAX_TASKS, q.items = e.runQueue.items ++ ready ∧
        e' = { e with runQueue := q } := by
  rw [enqueueReady, Option.map_eq_some_iff]
  constructor
  · rintro ⟨q, hq, rfl⟩
    obtain ⟨hle, hi⟩ := Deque.pushAll_eq_some.mp hq
    exact ⟨hle, q, hi, rfl⟩
  · rintro ⟨hle, q, hi, rfl⟩
    exact ⟨q, Deque.pushAll_eq_some.mpr ⟨hle, hi⟩, rfl⟩

theorem enqueueReady_eq_none :
    e.enqueueReady ready = none ↔ MAX_TASKS < e.runQueue.items.length + ready.length := by
  rw [enqueueReady, Option.map_eq_none_iff, Deque.pushAll_eq_none]

theorem items_updateTimerQueue (e : BaseExecutor H) (task : TaskRef) (n : ℕ) :
    (e.updateTimerQueue task (some n)).timerQueue.items =
      if e.timerQueue.items.card = N_TIMERS then e.timerQueue.items
      else ⟨n, task⟩ ::ₘ e.timerQueue.items :=
  TimerQueue.items_enqueue_getD _ _

@[simp] theorem updateTimerQueue_none : e.updateTimerQueue task none = e := rfl

@[simp] theorem runQueue_updateTimerQueue (expiresAt : Option ℕ) :
    (e.updateTimerQueue task expiresAt).runQueue = e.runQueue := by
  cases expiresAt <;> rfl

@[simp] theorem pender_updateTimerQueue (expiresAt : Option ℕ) :
    (e.updateTimerQueue task expiresAt).pender = e.pender := by
  cases expiresAt <;> rfl

@[simp] theorem alarmHandle_updateTimerQueue (expiresAt : Option ℕ) :
    (e.updateTimerQueue task expiresAt).alarmHandle = e.alarmHandle := by
  cases expiresAt <;> rfl

end BaseExecutor

/-! ### Timers -/

/-- The result of a poll, without its value. -/
inductive Poll
  | ready
  | pending
deriving DecidableEq, Repr

/-- A future that is ready at a deadline. -/
structure Timer where
  expiresAt : ℕ
deriving DecidableEq, Repr

/-- `Timer::poll` where `Kernel::now()` reads `now` and `header` is the `expires_at` of the task
polled: a timer that is not due overwrites it. -/
def Timer.poll (t : Timer) (now : ℕ) (header : Option ℕ) : Poll × Option ℕ :=
  if t.expiresAt ≤ now then (.ready, header) else (.pending, some t.expiresAt)

end AurixAsync
