import AurixAsync.Executor.Step
import Mathlib.Data.UInt

/-!
# The kernel, step by step

The core: its tick counter, the alarm queue, the executors and their pend flags. A step is one
critical section of one of the contexts: an executor in its loop, a task or `main` that calls the
kernel, or the timer interrupt, which nothing preempts. The steps of different contexts come in
any order.

`Kernel::set_alarm`, `allocate_alarm` and `set_alarm_callback` each count as one step too. Their
`modify_alarm_queue` takes no critical section of its own, and trusts that nothing preempts it.

* `ExecutorId`, `Kernel`: the executors and the state of the core.
* `ExecutorId.handled`: the executors that something runs when they are pended.
* `Kernel.Action`, `Kernel.step`: the actions and the step.
* `Kernel.step_spawn`, …, `Kernel.step_timerInterrupt`: for each action, exactly what it does.
* `reachable_exec`: each executor of a reachable kernel is a reachable executor.
* `unhandled_of_reachable`: an executor that nothing runs never gets a timer.
* `foldl_pend`: what pending executors does to the flags.
-/

namespace AurixAsync

/-- The number of alarm handles of a core. -/
def N_ALARM_HANDLES : ℕ := 8

/-- The number of alarms that can be set. -/
def N_ALARM_ITEMS : ℕ := 64

/-- The capacity of the map of interrupt executors. -/
def N_EXECUTORS : ℕ := 4

/-- The priorities `main.rs` installs an interrupt executor handler for; the timer has 6. -/
def handlerPrios : List UInt8 := [2, 3, 4]

/-- The heaps the alarm queue can be built on. -/
abbrev AlarmHeap := MinHeap AlarmItem AlarmItem.key N_ALARM_ITEMS

/-- The list heap, to run examples on. -/
def AlarmHeap.list : AlarmHeap := MinHeap.ofList AlarmItem.key N_ALARM_ITEMS

/-- The thread executor, or the interrupt executor of a priority. -/
inductive ExecutorId
  | thread
  | interrupt (prio : UInt8)
deriving DecidableEq

/-- The pender an executor is made with. -/
def ExecutorId.pender : ExecutorId → Pender
  | .thread => .threadExecutorPender
  | .interrupt prio => .interruptExecutorPender prio

/-- Whom `Pender::pend` runs: the event flag is the thread executor's, a software interrupt is
that of its priority. -/
def Pender.target : Pender → ExecutorId
  | .threadExecutorPender => .thread
  | .interruptExecutorPender prio => .interrupt prio

@[simp] theorem Pender.target_pender (e : ExecutorId) : e.pender.target = e := by
  cases e <;> rfl

/-- A pend of the executor leads to its `exec_once`: in the loop of the thread executor, or in the
handler of the priority. The handlers of other priorities are the default ones. -/
def ExecutorId.handled : ExecutorId → Bool
  | .thread => true
  | .interrupt prio => prio ∈ handlerPrios

/-- The core. An alarm callback is `alarm_callback` with the executor it was registered for. -/
structure Kernel (H : TimerHeap) (A : AlarmHeap) where
  /-- `TICKS`. -/
  ticks : UInt32
  alarms : AlarmQueue N_ALARM_HANDLES A ExecutorId
  execs : ExecutorId → Executor H
  /-- `INITIALISED`, of `ExecutorList::thread_executor`. -/
  initialised : Bool
  /-- The keys of the map of interrupt executors. -/
  allocated : List UInt8
  /-- `CORE0_LOCAL_EVENT` and the requests of the software interrupts. -/
  pended : ExecutorId → Bool
  /-- Whether `start` was called, since the last `allocate` of the priority. -/
  started : ExecutorId → Bool
  /-- `header.executor` of each task ever spawned. -/
  owner : List ExecutorId
  /-- The calls of `enqueue_and_pend` between their push and their pend. -/
  enqueuing : List ExecutorId

namespace Kernel

open Transition

variable {H : TimerHeap} {A : AlarmHeap}

/-- After `Kernel::init`. The event flag starts set. -/
def new : Kernel H A where
  ticks := 0
  alarms := .new
  execs e := .new e.pender none
  initialised := false
  allocated := []
  pended e := e = .thread
  started _ := false
  owner := []
  enqueuing := []

/-- `Kernel::now`. -/
def now (k : Kernel H A) : ℕ := k.ticks.toNat

/-- `Pender::pend` of an executor. -/
def pend (k : Kernel H A) (pended : ExecutorId → Bool) (e : ExecutorId) : ExecutorId → Bool :=
  Function.update pended (k.execs e).base.pender.target true

/-- What the contexts of the core do. An executor takes its steps in its own context. -/
inductive Action
  /-- `thread_executor()` in a context that reads `INITIALISED` as false. -/
  | threadExecutor
  /-- `ExecutorList::allocate`; the new alarm handle is known to nobody before the insert. -/
  | allocate (prio : UInt8)
  | spawn (e : ExecutorId)
  /-- `start`, up to the loop of the thread executor. -/
  | start (e : ExecutorId)
  /-- The push of a wake. -/
  | wake (task : TaskRef)
  /-- The pend that ends an `enqueue_and_pend`. -/
  | pend (e : ExecutorId)
  /-- An executor's own action. -/
  | exec (e : ExecutorId) (a : Executor.Action)
  /-- The software interrupt of a priority with a default handler, which only returns. The one of
  the timer's priority is a `timerInterrupt` besides. -/
  | defaultHandler (prio : UInt8)
  | timerInterrupt
deriving DecidableEq

/-- The executor can be named: the thread executor was initialised, an interrupt executor is in
the map. -/
def available (k : Kernel H A) : ExecutorId → Bool
  | .thread => k.initialised
  | .interrupt prio => prio ∈ k.allocated

/-- When an own action of an executor is possible. A pass begins when its pend is found, in the
loop of a started thread executor or in the interrupt handler; timers and `check_timer_queue` read
the clock of the core. -/
def permits (k : Kernel H A) (e : ExecutorId) : Executor.Action → Bool
  | .enter => k.pended e && e.handled && (e ≠ .thread || k.started .thread)
  | .readNow now => now = k.now
  | .pollTimer now _ => now = k.now
  | a => a.own

/-- Finding the pend clears it. -/
def pendedAfter (k : Kernel H A) (e : ExecutorId) : Executor.Action → ExecutorId → Bool
  | .enter => Function.update k.pended e false
  | _ => k.pended

/-- `set_alarm` pushes an item, and its result is discarded. -/
def alarmsAfter (k : Kernel H A) (e : ExecutorId) :
    Executor.Action → AlarmQueue N_ALARM_HANDLES A ExecutorId
  | .setAlarm =>
    match (k.execs e).phase, (k.execs e).base.alarmHandle with
    | .setAlarm nextTick, some handle => (k.alarms.setAlarm handle nextTick).getD k.alarms
    | _, _ => k.alarms
  | _ => k.alarms

/-- The core when the executor has made this action and become `x`. -/
def afterExec (k : Kernel H A) (e : ExecutorId) (a : Executor.Action) (x : Executor H) :
    Kernel H A :=
  { k with
    execs := Function.update k.execs e x
    alarms := k.alarmsAfter e a
    pended := k.pendedAfter e a }

/-- The alarm queue after `register_alarm_callback`: nothing happens without a handle. -/
def registerAlarmCallback (k : Kernel H A) (e : ExecutorId) :
    Option (AlarmQueue N_ALARM_HANDLES A ExecutorId) :=
  match (k.execs e).base.alarmHandle with
  | none => some k.alarms
  | some handle => k.alarms.registerCallback handle e

/-- The thread executor starts once, and its loop waits for the event; an interrupt executor is
pended by its `start`. -/
def pendedAfterStart (k : Kernel H A) : ExecutorId → ExecutorId → Bool
  | .thread => k.pended
  | .interrupt prio => k.pend k.pended (.interrupt prio)

/-- `none` where the action is not possible, and where it is a panic of the caller. -/
def step (k : Kernel H A) : Action → Option (Kernel H A)
  | .threadExecutor =>
    if k.started .thread then none
    else k.alarms.tryAllocateHandle.bind fun r =>
      ((k.execs .thread).step (.registerAlarm r.1)).map fun x =>
        { k with alarms := r.2, execs := Function.update k.execs .thread x, initialised := true }
  | .allocate prio =>
    if prio ≠ 0 ∧ (prio ∈ k.allocated ∨ k.allocated.length < N_EXECUTORS) then
      k.alarms.tryAllocateHandle.bind fun r =>
        ((k.execs (.interrupt prio)).step (.overwrite r.1)).map fun x =>
          { k with
            alarms := r.2
            execs := Function.update k.execs (.interrupt prio) x
            allocated := k.allocated.insert prio
            started := Function.update k.started (.interrupt prio) false }
    else none
  | .spawn e =>
    if k.available e then
      ((k.execs e).step (.spawn k.owner.length)).map fun x =>
        { k with execs := Function.update k.execs e x, owner := k.owner ++ [e] }
    else none
  | .start e =>
    if k.available e ∧ (e = .thread → k.started e = false) then
      (k.registerAlarmCallback e).map fun q =>
        { k with
          alarms := q
          pended := k.pendedAfterStart e
          started := Function.update k.started e true }
    else none
  | .wake task =>
    k.owner[task]?.bind fun e =>
      ((k.execs e).step (.wake task)).map fun x =>
        { k with execs := Function.update k.execs e x, enqueuing := e :: k.enqueuing }
  | .pend e =>
    if e ∈ k.enqueuing then
      some { k with enqueuing := k.enqueuing.erase e, pended := k.pend k.pended e }
    else none
  | .exec e a =>
    if k.permits e a then ((k.execs e).step a).map (k.afterExec e a) else none
  | .defaultHandler prio =>
    if k.pended (.interrupt prio) ∧ (ExecutorId.interrupt prio).handled = false then
      some { k with pended := Function.update k.pended (.interrupt prio) false }
    else none
  | .timerInterrupt =>
    -- `fetch_add` returns the old value
    (k.alarms.callAllExpired k.now).map fun r =>
      { k with ticks := k.ticks + 1, alarms := r.2.2, pended := r.1.foldl k.pend k.pended }

variable {k k' : Kernel H A} {e : ExecutorId}

/-! ### What each action does -/

theorem step_threadExecutor : k.step .threadExecutor = some k' ↔
    k.started .thread = false ∧ ∃ handle q, k.alarms.tryAllocateHandle = some (handle, q) ∧
      ∃ x, (k.execs .thread).step (.registerAlarm handle) = some x ∧
        { k with alarms := q, execs := Function.update k.execs .thread x,
                 initialised := true } = k' := by
  rw [step]
  cases k.started .thread <;> simp [Option.bind_eq_some_iff]

theorem step_allocate {prio : UInt8} : k.step (.allocate prio) = some k' ↔
    (prio ≠ 0 ∧ (prio ∈ k.allocated ∨ k.allocated.length < N_EXECUTORS)) ∧
      ∃ handle q, k.alarms.tryAllocateHandle = some (handle, q) ∧
        ∃ x, (k.execs (.interrupt prio)).step (.overwrite handle) = some x ∧
          { k with
            alarms := q
            execs := Function.update k.execs (.interrupt prio) x
            allocated := k.allocated.insert prio
            started := Function.update k.started (.interrupt prio) false } = k' := by
  rw [step]
  split_ifs with h <;> simp [h, Option.bind_eq_some_iff]

theorem step_spawn : k.step (.spawn e) = some k' ↔
    k.available e ∧ ∃ x, (k.execs e).step (.spawn k.owner.length) = some x ∧
      { k with execs := Function.update k.execs e x, owner := k.owner ++ [e] } = k' := by
  rw [step]
  split_ifs with h <;> simp [h]

theorem step_start : k.step (.start e) = some k' ↔
    (k.available e ∧ (e = .thread → k.started e = false)) ∧
      ∃ q, k.registerAlarmCallback e = some q ∧
        { k with
          alarms := q
          pended := k.pendedAfterStart e
          started := Function.update k.started e true } = k' := by
  rw [step]
  split_ifs with h
  · rw [Option.map_eq_some_iff]
    exact (and_iff_right h).symm
  · exact ⟨fun hn => absurd hn (by simp), fun hc => absurd hc.1 h⟩

theorem step_wake {task : TaskRef} : k.step (.wake task) = some k' ↔
    ∃ e, k.owner[task]? = some e ∧ ∃ x, (k.execs e).step (.wake task) = some x ∧
      { k with execs := Function.update k.execs e x, enqueuing := e :: k.enqueuing } = k' := by
  simp only [step, Option.bind_eq_some_iff, Option.map_eq_some_iff]

theorem step_pend : k.step (.pend e) = some k' ↔
    e ∈ k.enqueuing ∧
      { k with enqueuing := k.enqueuing.erase e, pended := k.pend k.pended e } = k' := by
  rw [step]
  split_ifs with h <;> simp [h]

theorem step_exec {a : Executor.Action} : k.step (.exec e a) = some k' ↔
    k.permits e a ∧ ∃ x, (k.execs e).step a = some x ∧ k.afterExec e a x = k' := by
  rw [step]
  split_ifs with h <;> simp [h]

theorem step_defaultHandler {prio : UInt8} : k.step (.defaultHandler prio) = some k' ↔
    (k.pended (.interrupt prio) ∧ (ExecutorId.interrupt prio).handled = false) ∧
      { k with pended := Function.update k.pended (.interrupt prio) false } = k' := by
  rw [step]
  split_ifs with h <;> simp [h]

theorem step_timerInterrupt : k.step .timerInterrupt = some k' ↔
    ∃ cs n q, k.alarms.callAllExpired k.now = some (cs, n, q) ∧
      { k with ticks := k.ticks + 1, alarms := q, pended := cs.foldl k.pend k.pended } = k' := by
  simp [step]

@[simp] theorem execs_afterExec_self {a : Executor.Action} {x : Executor H} :
    (k.afterExec e a x).execs e = x := Function.update_self _ _ _

theorem execs_afterExec_of_ne {a : Executor.Action} {x : Executor H} {e' : ExecutorId}
    (h : e' ≠ e) : (k.afterExec e a x).execs e' = k.execs e' := Function.update_of_ne h _ _

theorem own_of_permits {a : Executor.Action} (h : k.permits e a) : a.own := by
  cases a <;> first | rfl | exact h

/-- What a kernel action does to each executor is one of its steps or nothing, and the steps of its
own context are permitted. -/
theorem exec_of_step {a : Action} (h : k.step a = some k') (e : ExecutorId) :
    k'.execs e = k.execs e ∨
      ∃ b, (b.own → k.permits e b) ∧ (k.execs e).step b = some (k'.execs e) := by
  have hupd : ∀ {e' : ExecutorId} {b : Executor.Action} {x : Executor H},
      (b.own → k.permits e' b) → (k.execs e').step b = some x →
        k'.execs = Function.update k.execs e' x → k'.execs e = k.execs e ∨
          ∃ b, (b.own → k.permits e b) ∧ (k.execs e).step b = some (k'.execs e) := by
    intro e' b x hown hx he
    rw [he]
    by_cases hee : e = e'
    · subst hee
      rw [Function.update_self]
      exact Or.inr ⟨b, hown, hx⟩
    · rw [Function.update_of_ne hee]
      exact Or.inl rfl
  have hother : ∀ {p : Prop}, false = true → p := fun h => absurd h Bool.false_ne_true
  cases a with
  | threadExecutor =>
    obtain ⟨-, handle, q, -, x, hx, rfl⟩ := step_threadExecutor.mp h
    exact hupd hother hx rfl
  | allocate prio =>
    obtain ⟨-, handle, q, -, x, hx, rfl⟩ := step_allocate.mp h
    exact hupd hother hx rfl
  | spawn e' =>
    obtain ⟨-, x, hx, rfl⟩ := step_spawn.mp h
    exact hupd hother hx rfl
  | start e' =>
    obtain ⟨-, q, -, rfl⟩ := step_start.mp h
    exact Or.inl rfl
  | wake task =>
    obtain ⟨e', -, x, hx, rfl⟩ := step_wake.mp h
    exact hupd hother hx rfl
  | pend e' =>
    obtain ⟨-, rfl⟩ := step_pend.mp h
    exact Or.inl rfl
  | exec e' b =>
    obtain ⟨hperm, x, hx, rfl⟩ := step_exec.mp h
    exact hupd (fun _ => hperm) hx rfl
  | defaultHandler prio =>
    obtain ⟨-, rfl⟩ := step_defaultHandler.mp h
    exact Or.inl rfl
  | timerInterrupt =>
    obtain ⟨cs, n, q, -, rfl⟩ := step_timerInterrupt.mp h
    exact Or.inl rfl

/-- **Each executor of a reachable kernel is a reachable executor**, so what is proved of a single
executor under every interference holds of it. -/
theorem reachable_exec (h : Reachable step (new : Kernel H A) k) (e : ExecutorId) :
    Reachable Executor.step (.new e.pender none) (k.execs e) := by
  refine h.invariant (I := fun k => Reachable Executor.step (.new e.pender none) (k.execs e))
    .refl ?_
  intro s a s' hs hstep
  rcases exec_of_step hstep e with he | ⟨b, -, hb⟩
  · rw [he]
    exact hs
  · exact hs.tail hb

/-- Nothing runs an executor without a handler, so it waits outside `exec_once` and no task of it
sets a timer. -/
theorem unhandled_of_reachable (h : Reachable step (new : Kernel H A) k)
    (he : e.handled = false) :
    (k.execs e).phase = .idle ∧ (k.execs e).base.timerQueue.items = 0 := by
  refine h.invariant (I := fun k => (k.execs e).phase = .idle ∧
    (k.execs e).base.timerQueue.items = 0) ⟨rfl, TimerQueue.items_new⟩ ?_
  intro s a s' hs hstep
  rcases exec_of_step hstep e with hx | ⟨b, hown, hb⟩
  · rw [hx]
    exact hs
  · refine Executor.idle_of_step hb ?_ hs.1 hs.2
    rintro rfl
    have hperm : s.permits e .enter := hown rfl
    simp [permits, he] at hperm

/-- The pender of each executor is the one it was made with. -/
def PendersKept (k : Kernel H A) : Prop := ∀ e, (k.execs e).base.pender = e.pender

theorem pendersKept_new : PendersKept (new : Kernel H A) := fun _ => rfl

theorem PendersKept.step {a : Action} (hp : PendersKept k) (h : k.step a = some k') :
    PendersKept k' := by
  intro e
  rcases exec_of_step h e with he | ⟨b, -, hb⟩
  · rw [he]
    exact hp e
  · rw [(Executor.pender_alarmHandle_of_step hb).1]
    exact hp e

theorem pendersKept_of_reachable (h : Reachable Kernel.step (new : Kernel H A) k) : PendersKept k :=
  h.invariant pendersKept_new fun _ _ _ hp hs => hp.step hs

theorem pend_apply (hp : PendersKept k) (p : ExecutorId → Bool) (e' : ExecutorId) :
    k.pend p e' = Function.update p e' true := by
  rw [pend, hp e', Pender.target_pender]

theorem foldl_pend (hp : PendersKept k) (cs : List ExecutorId) (p : ExecutorId → Bool)
    (e : ExecutorId) : cs.foldl k.pend p e = true ↔ p e = true ∨ e ∈ cs := by
  induction cs generalizing p with
  | nil => simp
  | cons c cs ih =>
    rw [List.foldl_cons, ih, pend_apply hp, List.mem_cons]
    by_cases he : e = c
    · subst he
      simp
    · rw [Function.update_of_ne he]
      simp [he]

end Kernel

end AurixAsync
