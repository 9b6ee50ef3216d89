import AurixAsync.Executor.Step
import AurixAsync.Lib.FiniteBuffer

/-!
# One pass of an executor

`exec_once` from its entry to its return, where the wakes come from the tasks it polls: `acts n` is
what the `n`-th poll of the pass does, each poll being one that returns. Any tasks, with whatever
they share, give such a sequence.

* `PollAct`, `perform`: what a poll does to its executor.
* `checkTimers`, `advance`, `renewAlarm`, `execOnce`: the pass, made of the steps of `Executor`.
* `PassEnds`: the pass makes finitely many polls and returns, and the next `check_timer_queue`
  enqueues the tasks whose timers have expired.
* `advance_spec`: what the loop leaves in the two queues.
* `reachable_execOnce`: a pass is a run of the executor.
* `passEnds_iff`: `PassEnds` holds if and only if the polls wake few enough tasks and few enough
  timers are due at the next check.
* `Yielder.poll`, `yieldLoop`: the future of `Kernel::yields`, and a task that awaits it in a loop.
-/

namespace AurixAsync

namespace Executor

open Transition

variable {H : TimerHeap}

/-- What a poll does. A wake of a task of another executor leaves this one alone. -/
inductive PollAct
  | wake (task : TaskRef)
  | pollTimer (now expiresAt : ℕ)
deriving DecidableEq

/-- An act is an action of the executor. -/
def PollAct.action : PollAct → Action
  | .wake task => .wake task
  | .pollTimer now expiresAt => .pollTimer now expiresAt

/-- The executor after these acts of the task that it polls. -/
def perform (x : Executor H) : List PollAct → Executor H
  | [] => x
  | a :: as => perform ((step x a.action).getD x) as

/-- `check_timer_queue`, from the entry of `exec_once`. -/
def checkTimers (now : ℕ) (x : Executor H) : Option (Executor H) :=
  runList step x [.enter, .readNow now, .dequeueExpired, .enqueueReady]

/-- `advance_runnable_tasks` from the poll `n` on, with at most `polls` turns of its loop. -/
def advance (acts : ℕ → List PollAct) : ℕ → ℕ → Executor H → Option (Executor H)
  | 0, _, _ => none
  | polls + 1, n, x =>
    (step x .popFront).bind fun y =>
      match y.phase with
      | .polling _ =>
        (step (perform y (acts n)) .endPoll).bind fun z => advance acts polls (n + 1) z
      | _ => some y

/-- `renew_alarm`, up to the return of `exec_once`. -/
def renewAlarm (x : Executor H) : Option (Executor H) :=
  (step x .nextExpiration).bind fun y => if y.phase = .idle then some y else step y .setAlarm

/-- `exec_once`, with a bound on the turns of its loop. -/
def execOnce (acts : ℕ → List PollAct) (polls now : ℕ) (x : Executor H) : Option (Executor H) :=
  (checkTimers now x).bind fun y => (advance acts polls 0 y).bind renewAlarm

/-- After finitely many polls `exec_once` returns, and the next `check_timer_queue`, which reads the
clock as `later`, gets to the loop behind it with the task of every expired timer enqueued. -/
def PassEnds (acts : ℕ → List PollAct) (now later : ℕ) (x : Executor H) : Prop :=
  ∃ polls y, execOnce acts polls now x = some y ∧ y.phase = .idle ∧
    ∃ z, checkTimers later y = some z ∧ z.phase = .popFront ∧
      ∀ i ∈ y.base.timerQueue.items, i.expiresAt ≤ later → i.getTaskRef ∈ z.base.runQueue.items

/-- The number of acts that wake one of these tasks. -/
def ownWakes (tasks : List TaskRef) (as : List PollAct) : ℕ :=
  as.countP fun a => ∃ task ∈ tasks, a = .wake task

/-- The tasks that are ready when the loop of the pass begins: those in the run queue, and one for
each expired timer. -/
def readyCount (now : ℕ) (x : Executor H) : ℕ :=
  x.base.runQueue.items.length + (x.base.timerQueue.items.filter (·.expiresAt ≤ now)).card

/-- The deadlines in the timer queue. -/
def timers (x : Executor H) : Multiset ℕ := x.base.timerQueue.items.map (·.expiresAt)

/-- What an act makes of `expires_at` in the header of the task that is polled. -/
def PollAct.deadline (header : Option ℕ) : PollAct → Option ℕ
  | .wake _ => header
  | .pollTimer now expiresAt => (Timer.poll ⟨expiresAt⟩ now header).2

/-- `expires_at` after a poll, which finds it cleared. -/
def armed (as : List PollAct) : Option ℕ := as.foldl PollAct.deadline none

/-- The deadlines that `k` polls, from the poll `n` on, leave in the headers of their tasks. -/
def deadlines (acts : ℕ → List PollAct) (n k : ℕ) : List ℕ :=
  (List.range k).filterMap fun i => armed (acts (n + i))

variable {acts : ℕ → List PollAct} {as : List PollAct} {polls now later n : ℕ} {x y : Executor H}

/-! ### Polls -/

/-- What every step of a pass leaves as it is. -/
structure SamePass (x y : Executor H) : Prop where
  tasks : y.tasks = x.tasks
  alarmHandle : y.base.alarmHandle = x.base.alarmHandle

theorem SamePass.trans {z : Executor H} (h : SamePass x y) (h' : SamePass y z) : SamePass x z where
  tasks := h'.tasks.trans h.tasks
  alarmHandle := h'.alarmHandle.trans h.alarmHandle

theorem step_action_getD (a : PollAct) (x : Executor H) :
    SamePass x ((step x a.action).getD x) ∧ ((step x a.action).getD x).phase = x.phase ∧
      ((step x a.action).getD x).base.runQueue.items.length =
        min MAX_TASKS (x.base.runQueue.items.length + ownWakes x.tasks [a]) := by
  have hle := x.base.runQueue.length_le
  cases a with
  | wake task =>
    by_cases ht : task ∈ x.tasks
    · have hstep : step x (.wake task) = some { x with base := x.base.enqueue task } :=
        step_wake.mpr ⟨ht, rfl⟩
      have hone : ownWakes x.tasks [.wake task] = 1 := by
        simp [ownWakes, ht]
      rw [PollAct.action, hstep, hone]
      refine ⟨⟨rfl, rfl⟩, rfl, ?_⟩
      show (x.base.enqueue task).runQueue.items.length = _
      rw [BaseExecutor.items_enqueue]
      by_cases hfull : x.base.runQueue.items.length = MAX_TASKS
      · rw [if_pos hfull]
        omega
      · rw [if_neg hfull, List.length_append, List.length_singleton]
        omega
    · have hstep : step x (.wake task) = none := by
        rw [step, if_neg ht]
      have hzero : ownWakes x.tasks [.wake task] = 0 := by
        simp [ownWakes, ht]
      rw [PollAct.action, hstep, hzero]
      exact ⟨⟨rfl, rfl⟩, rfl, (min_eq_right hle).symm⟩
  | pollTimer now' expiresAt =>
    have hzero : ownWakes x.tasks [.pollTimer now' expiresAt] = 0 := by
      simp [ownWakes]
    rw [PollAct.action, hzero]
    cases hstep : step x (.pollTimer now' expiresAt) with
    | none => exact ⟨⟨rfl, rfl⟩, rfl, (min_eq_right hle).symm⟩
    | some z =>
      obtain ⟨task, -, rfl⟩ := step_pollTimer.mp hstep
      exact ⟨⟨rfl, rfl⟩, rfl, (min_eq_right hle).symm⟩

theorem timerQueue_step_action_getD {task : TaskRef} (a : PollAct) (hx : x.phase = .polling task) :
    ((step x a.action).getD x).base.timerQueue = x.base.timerQueue ∧
      ((step x a.action).getD x).expiresAt task = a.deadline (x.expiresAt task) := by
  cases a with
  | wake task' =>
    rw [PollAct.action, step]
    split_ifs <;> exact ⟨rfl, rfl⟩
  | pollTimer now' expiresAt =>
    rw [PollAct.action, step_pollTimer.mpr ⟨task, hx, rfl⟩]
    exact ⟨rfl, Function.update_self _ _ _⟩

/-- **What the acts of a poll do**: the run queue takes the wakes that find a place. -/
theorem perform_spec (x : Executor H) (as : List PollAct) :
    SamePass x (perform x as) ∧ (perform x as).phase = x.phase ∧
      (perform x as).base.runQueue.items.length =
        min MAX_TASKS (x.base.runQueue.items.length + ownWakes x.tasks as) := by
  induction as generalizing x with
  | nil => exact ⟨⟨rfl, rfl⟩, rfl, (min_eq_right x.base.runQueue.length_le).symm⟩
  | cons a as ih =>
    obtain ⟨hsame, hphase, hlen⟩ := step_action_getD a x
    obtain ⟨hsame', hphase', hlen'⟩ := ih ((step x a.action).getD x)
    have hcons : ownWakes x.tasks (a :: as) = ownWakes x.tasks [a] + ownWakes x.tasks as := by
      rw [ownWakes, ← List.singleton_append, List.countP_append]
      rfl
    refine ⟨hsame.trans hsame', hphase'.trans hphase, hlen'.trans ?_⟩
    rw [hlen, hsame.tasks, hcons]
    omega

theorem timerQueue_perform {task : TaskRef} (as : List PollAct) (hx : x.phase = .polling task) :
    (perform x as).base.timerQueue = x.base.timerQueue ∧
      (perform x as).expiresAt task = as.foldl PollAct.deadline (x.expiresAt task) := by
  induction as generalizing x with
  | nil => exact ⟨rfl, rfl⟩
  | cons a as ih =>
    obtain ⟨hq, he⟩ := timerQueue_step_action_getD a hx
    obtain ⟨hq', he'⟩ := ih ((step_action_getD a x).2.1.trans hx)
    rw [perform, List.foldl_cons, ← he]
    exact ⟨hq'.trans hq, he'⟩

theorem timers_updateTimerQueue (b : BaseExecutor H) (task : TaskRef) (expiresAt : Option ℕ) :
    (b.updateTimerQueue task expiresAt).timerQueue.items.map (·.expiresAt) =
      FiniteBuffer.store N_TIMERS (b.timerQueue.items.map (·.expiresAt)) expiresAt.toList := by
  cases expiresAt with
  | none => exact FiniteBuffer.store_nil.symm
  | some deadline =>
    have hle : (b.timerQueue.items.map (·.expiresAt)).card ≤ N_TIMERS := by
      rw [Multiset.card_map]
      exact b.timerQueue.card_items_le
    rw [BaseExecutor.items_updateTimerQueue, Option.toList_some, FiniteBuffer.store_cons hle,
      FiniteBuffer.store_nil, Multiset.card_map]
    split_ifs
    · rfl
    · exact Multiset.map_cons _ _ _

/-! ### The loop -/

theorem advance_empty (hx : x.phase = .popFront) (hq : x.base.runQueue.items = []) :
    advance acts (polls + 1) n x = some { x with phase := .renewAlarm } := by
  have hstep : step x .popFront = some { x with phase := .renewAlarm } :=
    step_popFront.mpr ⟨hx, Or.inr ⟨hq, rfl⟩⟩
  rw [advance, hstep]
  rfl

/-- **One turn of the loop.** One task is taken out, and its poll wakes others and may arm it. -/
theorem exists_advance_turn (acts : ℕ → List PollAct) (n : ℕ) (hx : x.phase = .popFront)
    (hq : x.base.runQueue.items ≠ []) :
    ∃ y, (∀ polls, advance acts (polls + 1) n x = advance acts polls (n + 1) y) ∧
      y.phase = .popFront ∧ SamePass x y ∧
        y.base.runQueue.items.length =
          min MAX_TASKS (x.base.runQueue.items.length - 1 + ownWakes x.tasks (acts n)) ∧
        timers y = FiniteBuffer.store N_TIMERS (timers x) (armed (acts n)).toList := by
  obtain ⟨task, items, hitems⟩ := List.exists_cons_of_ne_nil hq
  have hle := x.base.runQueue.length_le
  rw [hitems, List.length_cons] at hle
  let q : Deque TaskRef MAX_TASKS := ⟨items, by omega⟩
  let p : Executor H := { x with
    base := { x.base with runQueue := q }, expiresAt := Function.update x.expiresAt task none,
    phase := .polling task }
  have hpop : step x .popFront = some p :=
    step_popFront.mpr ⟨hx, Or.inl ⟨task, q, hitems, rfl⟩⟩
  obtain ⟨hsame, hphase, hlen⟩ := perform_spec p (acts n)
  let e : Executor H := { perform p (acts n) with
    base := (perform p (acts n)).base.updateTimerQueue task ((perform p (acts n)).expiresAt task),
    phase := .popFront }
  have hend : step (perform p (acts n)) .endPoll = some e :=
    step_endPoll.mpr ⟨task, hphase, rfl⟩
  obtain ⟨htimers, hheader⟩ := timerQueue_perform (x := p) (acts n) rfl
  refine ⟨e, fun polls => ?_, rfl, ⟨hsame.tasks, ?_⟩, ?_, ?_⟩
  · rw [advance, hpop, Option.bind_some]
    show (step (perform p (acts n)) .endPoll).bind _ = _
    rw [hend, Option.bind_some]
  · show ((perform p (acts n)).base.updateTimerQueue _ _).alarmHandle = _
    rw [BaseExecutor.alarmHandle_updateTimerQueue]
    exact hsame.alarmHandle
  · show ((perform p (acts n)).base.updateTimerQueue _ _).runQueue.items.length = _
    rw [BaseExecutor.runQueue_updateTimerQueue, hlen, hitems, List.length_cons,
      Nat.add_sub_cancel]
  · show ((perform p (acts n)).base.updateTimerQueue _ _).timerQueue.items.map _ = _
    rw [timers_updateTimerQueue, htimers, hheader]
    -- the header was cleared before the poll
    show FiniteBuffer.store _ _
      ((acts n).foldl _ (Function.update x.expiresAt task none task)).toList = _
    rw [Function.update_self]
    rfl

theorem ownWakes_shift (acts : ℕ → List PollAct) (tasks : List TaskRef) (n : ℕ) :
    (fun i => ownWakes tasks (acts (n + 1 + i))) =
      fun i => ownWakes tasks (acts (n + (i + 1))) := by
  funext i
  rw [Nat.add_assoc, Nat.add_comm 1]

theorem deadlines_succ (acts : ℕ → List PollAct) (n k : ℕ) :
    deadlines acts n (k + 1) = (armed (acts n)).toList ++ deadlines acts (n + 1) k := by
  have hshift : (fun i => armed (acts (n + 1 + i))) = fun i => armed (acts (n + (i + 1))) := by
    funext i
    rw [Nat.add_assoc, Nat.add_comm 1]
  rw [deadlines, deadlines, hshift, List.range_succ_eq_map, List.filterMap_cons,
    List.filterMap_map, Nat.add_zero]
  cases armed (acts n) <;> rfl

/-- **What the loop leaves**, after the polls that it takes to empty the run queue. -/
theorem advance_spec (h : advance acts polls n x = some y) (hx : x.phase = .popFront) :
    y.phase = .renewAlarm ∧ SamePass x y ∧ y.base.runQueue.items = [] ∧
      ∃ k, FiniteBuffer.EmptiesAt MAX_TASKS (fun i => ownWakes x.tasks (acts (n + i)))
          x.base.runQueue.items.length k ∧
        timers y = FiniteBuffer.store N_TIMERS (timers x) (deadlines acts n k) := by
  induction polls generalizing n x with
  | zero => exact absurd h (by simp [advance])
  | succ polls ih =>
    by_cases hq : x.base.runQueue.items = []
    · rw [advance_empty hx hq] at h
      obtain rfl := Option.some.inj h
      refine ⟨rfl, ⟨rfl, rfl⟩, hq, 0, ?_, FiniteBuffer.store_nil.symm⟩
      rw [hq]
      exact FiniteBuffer.emptiesAt_zero
    · obtain ⟨z, hturn, hz, hsame, hlen, htimers⟩ := exists_advance_turn acts n hx hq
      rw [hturn] at h
      obtain ⟨hy, hsame', hempty, k, hk, hstore⟩ := ih h hz
      refine ⟨hy, hsame.trans hsame', hempty, k + 1, ?_, ?_⟩
      · rw [hlen, hsame.tasks, ownWakes_shift] at hk
        exact hk.succ (mt List.length_eq_zero_iff.mp hq)
      · have hle : (timers x).card ≤ N_TIMERS := by
          rw [timers, Multiset.card_map]
          exact x.base.timerQueue.card_items_le
        rw [hstore, htimers, deadlines_succ]
        cases armed (acts n) with
        | none => rw [Option.toList_none, FiniteBuffer.store_nil, List.nil_append]
        | some deadline =>
          rw [Option.toList_some, FiniteBuffer.store_cons hle, FiniteBuffer.store_nil,
            List.singleton_append, FiniteBuffer.store_cons hle]

/-- **The loop ends** when the run queue, a buffer served once per poll, is ever empty. -/
theorem exists_advance {k : ℕ} (hx : x.phase = .popFront)
    (hk : FiniteBuffer.level MAX_TASKS (fun i => ownWakes x.tasks (acts (n + i)))
      x.base.runQueue.items.length k = 0) : ∃ polls y, advance acts polls n x = some y := by
  induction k generalizing n x with
  | zero => exact ⟨1, _, advance_empty hx (List.length_eq_zero_iff.mp hk)⟩
  | succ k ih =>
    by_cases hq : x.base.runQueue.items = []
    · exact ⟨1, _, advance_empty hx hq⟩
    · obtain ⟨z, hturn, hz, hsame, hlen, -⟩ := exists_advance_turn acts n hx hq
      rw [FiniteBuffer.level_succ_start] at hk
      obtain ⟨polls, y, hy⟩ := ih (n := n + 1) hz (by
        rw [hlen, hsame.tasks, ownWakes_shift]
        exact hk)
      exact ⟨polls + 1, y, (hturn polls).trans hy⟩

/-! ### The pass -/

theorem checkTimers_eq (hx : x.phase = .idle) : checkTimers now x =
    runList step { x with phase := .dequeueExpired now } [.dequeueExpired, .enqueueReady] := by
  have h₁ : step x .enter = some { x with phase := .checkTimerQueue } :=
    step_enter.mpr ⟨hx, rfl⟩
  have h₂ : step { x with phase := .checkTimerQueue } (.readNow now) =
      some { x with phase := .dequeueExpired now } :=
    step_readNow.mpr ⟨rfl, rfl⟩
  rw [checkTimers, runList, h₁, Option.bind_some, runList, h₂, Option.bind_some]

theorem exists_checkTimers (hx : x.phase = .idle) (hle : readyCount now x ≤ MAX_TASKS) :
    ∃ y, checkTimers now x = some y ∧ y.phase = .popFront ∧ SamePass x y ∧
      y.base.runQueue.items.length = readyCount now x ∧
      (∀ i ∈ x.base.timerQueue.items, i.expiresAt ≤ now →
        i.getTaskRef ∈ y.base.runQueue.items) ∧
      timers y = (timers x).filter (now < ·) := by
  have hcard := TimerQueue.length_dequeueExpired x.base.timerQueue now
  unfold readyCount at hle ⊢
  rw [← hcard] at hle ⊢
  obtain ⟨⟨ready, b⟩, hr⟩ : ∃ r, x.base.dequeueReady now = some r := by
    rw [← Option.ne_none_iff_exists', ne_eq, BaseExecutor.dequeueReady_eq_none]
    omega
  obtain ⟨-, hready, hb⟩ := BaseExecutor.dequeueReady_eq_some hr
  change ready = _ at hready
  change b = _ at hb
  have hlen : ready.length = (x.base.timerQueue.dequeueExpired now).1.length := by
    rw [hready, List.length_map]
  have hqueue : b.runQueue = x.base.runQueue := by rw [hb]
  obtain ⟨b', hb'⟩ : ∃ b', b.enqueueReady ready = some b' := by
    rw [← Option.ne_none_iff_exists', ne_eq, BaseExecutor.enqueueReady_eq_none, hqueue]
    omega
  obtain ⟨-, q, hq, rfl⟩ := BaseExecutor.enqueueReady_eq_some.mp hb'
  refine ⟨{ x with base := { b with runQueue := q }, phase := .popFront }, ?_, rfl, ⟨rfl, ?_⟩, ?_,
    fun i him hdue => ?_, ?_⟩
  · have h₁ : step { x with phase := .dequeueExpired now } .dequeueExpired =
        some { x with base := b, phase := .enqueueReady ready } :=
      step_dequeueExpired.mpr ⟨now, rfl, Or.inl ⟨ready, b, hr, rfl⟩⟩
    have h₂ : step { x with base := b, phase := .enqueueReady ready } .enqueueReady =
        some { x with base := { b with runQueue := q }, phase := .popFront } :=
      step_enqueueReady.mpr ⟨ready, rfl, Or.inl ⟨_, hb', rfl⟩⟩
    rw [checkTimers_eq hx]
    simp only [runList, h₁, h₂, Option.bind_some]
  · show b.alarmHandle = x.base.alarmHandle
    rw [hb]
  · show q.items.length = _
    rw [hq, hqueue, List.length_append, hlen]
  · show i.getTaskRef ∈ q.items
    rw [hq, hready]
    refine List.mem_append_right _ (List.mem_map_of_mem ?_)
    exact TimerQueue.mem_dequeueExpired.mpr ⟨him, hdue⟩
  · show b.timerQueue.items.map _ = (x.base.timerQueue.items.map _).filter _
    rw [hb, TimerQueue.items_dequeueExpired, Multiset.filter_map]
    rfl

theorem checkTimers_panics (hx : x.phase = .idle) (hlt : MAX_TASKS < readyCount now x)
    (h : checkTimers now x = some y) : y.phase ≠ .popFront := by
  have hcard := TimerQueue.length_dequeueExpired x.base.timerQueue now
  unfold readyCount at hlt
  rw [← hcard] at hlt
  rw [checkTimers_eq hx] at h
  obtain ⟨u, hu, h⟩ := Option.bind_eq_some_iff.mp h
  obtain ⟨v, hv, h⟩ := Option.bind_eq_some_iff.mp h
  obtain rfl : v = y := Option.some.inj h
  obtain ⟨ready, hphase, ⟨b, hb, rfl⟩ | ⟨-, rfl⟩⟩ := step_enqueueReady.mp hv
  · obtain ⟨now', hnow, ⟨ready', b', hr, rfl⟩ | ⟨-, rfl⟩⟩ := step_dequeueExpired.mp hu
    · obtain rfl : now = now' := Phase.dequeueExpired.inj hnow
      obtain rfl : ready' = ready := Phase.enqueueReady.inj hphase
      obtain ⟨-, hready, hb'⟩ := BaseExecutor.dequeueReady_eq_some hr
      obtain ⟨hle, -⟩ := BaseExecutor.enqueueReady_eq_some.mp hb
      change ready' = _ at hready
      change b' = _ at hb'
      change b'.runQueue.items.length + _ ≤ _ at hle
      rw [hb', hready, List.length_map] at hle
      change x.base.runQueue.items.length + (x.base.timerQueue.dequeueExpired now).1.length ≤ _
        at hle
      exact absurd hle (by omega)
    · exact absurd hphase (by simp)
  · simp

theorem renewAlarm_eq (hx : x.phase = .renewAlarm) (halarm : x.base.alarmHandle ≠ none) :
    renewAlarm x = some { x with phase := .idle } := by
  obtain ⟨handle, hh⟩ := Option.ne_none_iff_exists'.mp halarm
  cases hn : x.base.timerQueue.nextExpiration with
  | none =>
    rw [renewAlarm, step_nextExpiration.mpr ⟨hx, Or.inr ⟨hn, rfl⟩⟩, Option.bind_some]
    exact if_pos rfl
  | some nextTick =>
    rw [renewAlarm, step_nextExpiration.mpr ⟨hx, Or.inl ⟨nextTick, hn, rfl⟩⟩, Option.bind_some,
      if_neg (by simp)]
    exact step_setAlarm.mpr ⟨nextTick, rfl, Or.inl ⟨handle, hh, rfl⟩⟩

/-- The executor is ready for its next pass with the timers that are due by then. -/
theorem readyCount_of_empty (later : ℕ) (hq : x.base.runQueue.items = []) :
    readyCount later x = ((timers x).filter (· ≤ later)).card := by
  rw [readyCount, hq, List.length_nil, Nat.zero_add, timers, Multiset.filter_map, Multiset.card_map]
  rfl

/-- What the run queue gets in a pass, after the tasks that are ready at its start. -/
def wakesOf (acts : ℕ → List PollAct) (x : Executor H) (i : ℕ) : ℕ := ownWakes x.tasks (acts i)

/-- The deadlines in the timer queue after `k` polls of a pass that begins at `now`. -/
def timersLeft (acts : ℕ → List PollAct) (now : ℕ) (x : Executor H) (k : ℕ) : Multiset ℕ :=
  FiniteBuffer.store N_TIMERS ((timers x).filter (now < ·)) (deadlines acts 0 k)

/-- **What a pass leaves** if there is room for the expired tasks. -/
theorem execOnce_spec {u v : Executor H} (later : ℕ) (hx : x.phase = .idle)
    (halarm : x.base.alarmHandle ≠ none) (hle : readyCount now x ≤ MAX_TASKS)
    (hu : checkTimers now x = some u)
    (hv : advance acts polls 0 u = some v) :
    execOnce acts polls now x = some { v with phase := .idle } ∧
      ∃ k, FiniteBuffer.EmptiesAt MAX_TASKS (wakesOf acts x) (readyCount now x) k ∧
        readyCount later { v with phase := .idle } =
          ((timersLeft acts now x k).filter (· ≤ later)).card := by
  obtain ⟨u', hu', hphase, hsame, hlen, -, htimers⟩ := exists_checkTimers hx hle
  obtain rfl : u' = u := Option.some.inj (hu'.symm.trans hu)
  obtain ⟨hrenew, hsame', hempty, k, hk, hstore⟩ := advance_spec hv hphase
  have hhandle : v.base.alarmHandle ≠ none := by
    rw [hsame'.alarmHandle, hsame.alarmHandle]
    exact halarm
  refine ⟨?_, k, ?_, ?_⟩
  · rw [execOnce, hu, Option.bind_some, hv, Option.bind_some, renewAlarm_eq hrenew hhandle]
  · rw [hlen, hsame.tasks] at hk
    simp only [Nat.zero_add] at hk
    exact hk
  · rw [readyCount_of_empty (x := { v with phase := .idle }) later hempty, timersLeft, ← htimers,
      ← hstore]
    rfl

/-- **A pass ends** if there is room for the expired tasks, the run queue is ever empty, and then
there is room for the tasks that are due at the next check. -/
theorem passEnds_iff_level (hx : x.phase = .idle) (halarm : x.base.alarmHandle ≠ none) :
    PassEnds acts now later x ↔ readyCount now x ≤ MAX_TASKS ∧
      ∃ k, FiniteBuffer.EmptiesAt MAX_TASKS (wakesOf acts x) (readyCount now x) k ∧
        ((timersLeft acts now x k).filter (· ≤ later)).card ≤ MAX_TASKS := by
  constructor
  · rintro ⟨polls, y, h, hidle, z, hz, hphase, -⟩
    obtain ⟨u, hu, hbind⟩ := Option.bind_eq_some_iff.mp h
    obtain ⟨v, hv, -⟩ := Option.bind_eq_some_iff.mp hbind
    by_cases hle : readyCount now x ≤ MAX_TASKS
    · obtain ⟨heq, k, hk, hcount⟩ := execOnce_spec later hx halarm hle hu hv
      obtain rfl : y = { v with phase := .idle } := Option.some.inj (h.symm.trans heq)
      refine ⟨hle, k, hk, ?_⟩
      rw [← hcount]
      by_contra hlt
      exact checkTimers_panics hidle (Nat.lt_of_not_le hlt) hz hphase
    · have hpanic := checkTimers_panics hx (Nat.lt_of_not_le hle) hu
      cases polls with
      | zero => exact absurd hv (by simp [advance])
      | succ polls =>
        obtain ⟨w, hw, -⟩ := Option.bind_eq_some_iff.mp hv
        exact absurd (step_popFront.mp hw).1 hpanic
  · rintro ⟨hle, k, hk, hroom⟩
    obtain ⟨u, hu, hphase, hsame, hlen, -, -⟩ := exists_checkTimers hx hle
    have hlevel : FiniteBuffer.level MAX_TASKS (fun i => ownWakes u.tasks (acts (0 + i)))
        u.base.runQueue.items.length k = 0 := by
      rw [hlen, hsame.tasks]
      simp only [Nat.zero_add]
      exact hk.1
    obtain ⟨polls, v, hv⟩ := exists_advance hphase hlevel
    obtain ⟨heq, k', hk', hcount⟩ := execOnce_spec later hx halarm hle hu hv
    obtain rfl := hk.unique hk'
    have hfits : readyCount later { v with phase := .idle } ≤ MAX_TASKS := hcount.le.trans hroom
    obtain ⟨z, hz, hz', -, -, hqueued, -⟩ := exists_checkTimers rfl hfits
    exact ⟨polls, _, heq, rfl, z, hz, hz', hqueued⟩

/-! ### A pass is a run -/

theorem reachable_perform (x : Executor H) (as : List PollAct) :
    Reachable step x (perform x as) := by
  induction as generalizing x with
  | nil => exact Reachable.refl
  | cons a as ih =>
    unfold perform
    cases h : step x a.action with
    | none => exact ih x
    | some y => exact (Reachable.refl.tail h).trans (ih y)

theorem reachable_advance (h : advance acts polls n x = some y) : Reachable step x y := by
  induction polls generalizing n x with
  | zero => exact absurd h (by simp [advance])
  | succ polls ih =>
    obtain ⟨u, hu, h⟩ := Option.bind_eq_some_iff.mp h
    have hpop : Reachable step x u := Reachable.refl.tail hu
    rcases (step_popFront.mp hu).2 with ⟨task, q, -, rfl⟩ | ⟨-, rfl⟩
    · obtain ⟨z, hz, h⟩ := Option.bind_eq_some_iff.mp h
      exact ((hpop.trans (reachable_perform _ _)).tail hz).trans (ih h)
    · obtain rfl := Option.some.inj h
      exact hpop

theorem reachable_renewAlarm (h : renewAlarm x = some y) : Reachable step x y := by
  obtain ⟨u, hu, h⟩ := Option.bind_eq_some_iff.mp h
  have hnext : Reachable step x u := Reachable.refl.tail hu
  by_cases hidle : u.phase = .idle
  · rw [if_pos hidle] at h
    obtain rfl := Option.some.inj h
    exact hnext
  · rw [if_neg hidle] at h
    exact hnext.tail h

/-- A pass that returns is a run of the executor, so that the invariants of runs hold after it. -/
theorem reachable_execOnce (h : execOnce acts polls now x = some y) : Reachable step x y := by
  obtain ⟨u, hu, h⟩ := Option.bind_eq_some_iff.mp h
  obtain ⟨v, hv, h⟩ := Option.bind_eq_some_iff.mp h
  exact (reachable_of_runList hu).trans ((reachable_advance hv).trans (reachable_renewAlarm h))

/-! ### When a pass ends -/

/-- The condition on the wakes: there is room for the expired tasks, and the polls wake few tasks.
Some number of polls is enough for the tasks that are ready and all that these polls wake, or some
stretch of polls is enough for a full run queue and all that the stretch wakes. -/
def WakesFewTasks (acts : ℕ → List PollAct) (now : ℕ) (x : Executor H) : Prop :=
  readyCount now x ≤ MAX_TASKS ∧
    ((∃ n, readyCount now x + ∑ i ∈ Finset.range n, ownWakes x.tasks (acts i) ≤ n) ∨
      ∃ k n, MAX_TASKS + ∑ i ∈ Finset.range n, ownWakes x.tasks (acts (k + i)) ≤ n)

/-- The condition on the timers: of the entries that have not expired and those that the polls arm,
up to the poll that leaves the run queue empty, there is room for the tasks that are due by `later`.
Entries that find all 64 places taken are lost. -/
def FewTimersDue (acts : ℕ → List PollAct) (now later : ℕ) (x : Executor H) : Prop :=
  ∀ k, FiniteBuffer.EmptiesAt MAX_TASKS (wakesOf acts x) (readyCount now x) k →
    ((timersLeft acts now x k).filter (· ≤ later)).card ≤ MAX_TASKS

/-- **One pass ends exactly when its polls wake few enough tasks and arm few enough timers.** For
every executor that is about to enter `exec_once`, with any tasks, everything their polls may do,
and every reading of the clock at the next `check_timer_queue`. -/
theorem passEnds_iff (acts : ℕ → List PollAct) (now later : ℕ) (x : Executor H)
    (hx : x.phase = .idle) (halarm : x.base.alarmHandle ≠ none) :
    PassEnds acts now later x ↔ WakesFewTasks acts now x ∧ FewTimersDue acts now later x := by
  rw [passEnds_iff_level hx halarm, WakesFewTasks, and_assoc]
  refine and_congr_right fun hle => ?_
  have hends : (∃ k, FiniteBuffer.EmptiesAt MAX_TASKS (wakesOf acts x) (readyCount now x) k) ↔ _ :=
    FiniteBuffer.exists_emptiesAt.trans (FiniteBuffer.empties_iff hle)
  simp only [FiniteBuffer.arrivals, Nat.zero_add, wakesOf] at hends
  rw [← hends]
  constructor
  · rintro ⟨k, hk, hroom⟩
    refine ⟨⟨k, hk⟩, fun k' hk' => ?_⟩
    obtain rfl := hk.unique hk'
    exact hroom
  · rintro ⟨⟨k, hk⟩, hroom⟩
    exact ⟨k, hk, hroom k hk⟩

/-! ### A task that yields -/

/-- The future of `Kernel::yields`. -/
structure Yielder where
  yielded : Bool
deriving DecidableEq, Repr

/-- It has not been polled. -/
def Yielder.new : Yielder := ⟨false⟩

/-- `Yielder::poll`: the first poll wakes its own task. -/
def Yielder.poll (y : Yielder) (task : TaskRef) : Poll × Yielder × List PollAct :=
  if y.yielded then (.ready, y, []) else (.pending, ⟨true⟩, [.wake task])

/-- One poll of `loop { Kernel::yields().await }`, whose state is the yielder it awaits. -/
def yieldLoop (task : TaskRef) (awaited : Option Yielder) : Option Yielder × List PollAct :=
  match awaited with
  | none => (some (Yielder.new.poll task).2.1, (Yielder.new.poll task).2.2)
  | some y =>
    match y.poll task with
    | (.pending, y', as) => (some y', as)
    | (.ready, _, as) => (some (Yielder.new.poll task).2.1, as ++ (Yielder.new.poll task).2.2)

theorem yieldLoop_acts (task : TaskRef) (awaited : Option Yielder) :
    (yieldLoop task awaited).2 = [.wake task] := by
  rcases awaited with _ | ⟨_ | _⟩ <;> rfl

/-- What the yielder of the loop is after `n` polls. -/
def yieldState (task : TaskRef) : ℕ → Option Yielder
  | 0 => none
  | n + 1 => (yieldLoop task (yieldState task n)).1

/-- The fast task, 0, yields in a loop. The slow task, 1, waits for a timer of one tick. Polled
first at tick 0, it is the one that was spawned last. -/
def starvationTest : ℕ → List PollAct
  | 0 => [.pollTimer 0 1]
  | n + 1 => (yieldLoop 0 (yieldState 0 n)).2

/-- Both tasks are spawned, and the pass never ends. -/
theorem not_passEnds_starvationTest : ∃ x : Executor .list,
    runList step (new .threadExecutorPender (some ⟨0⟩)) [.spawn 0, .spawn 1] = some x ∧
      ∀ later, ¬ PassEnds starvationTest 0 later x := by
  obtain ⟨x, hs, hv⟩ := exists_of_map_runList
    (f := fun x => (x.phase, x.tasks, x.base.alarmHandle, readyCount 0 x))
    (s := (new .threadExecutorPender (some ⟨0⟩) : Executor .list)) (l := [.spawn 0, .spawn 1])
    (b := (.idle, [1, 0], some ⟨0⟩, 2)) (r := step) (by decide)
  simp only [Prod.mk.injEq] at hv
  obtain ⟨hphase, htasks, halarm, hready⟩ := hv
  refine ⟨x, hs, fun later h => ?_⟩
  obtain ⟨-, k, hk, -⟩ := (passEnds_iff_level hphase (by rw [halarm]; simp)).mp h
  have hk := hk.1
  rw [hready, show wakesOf starvationTest x = fun i => ownWakes [1, 0] (starvationTest i) by
    funext i; rw [wakesOf, htasks]] at hk
  -- after the first poll there is always one task in the run queue
  have hone : ∀ k, FiniteBuffer.level MAX_TASKS (fun i => ownWakes [1, 0] (starvationTest i)) 2
      (k + 1) = 1 := by
    intro k
    induction k with
    | zero => rfl
    | succ k ih =>
      rw [FiniteBuffer.level, ih, starvationTest, yieldLoop_acts]
      rfl
  cases k with
  | zero => exact absurd hk (by simp [FiniteBuffer.level])
  | succ k => exact absurd ((hone k).symm.trans hk) Nat.one_ne_zero

/-- Task 1 waits for a timer of one tick, and task 0 yields once before it does the same. -/
def yieldOnce : ℕ → List PollAct
  | 0 => [.pollTimer 0 1]
  | 1 => (Yielder.new.poll 0).2.2
  | 2 => [.pollTimer 0 1]
  | _ => []

/-- Three polls are enough for these two tasks, and at tick 1 both are enqueued again. -/
theorem passEnds_iff_yieldOnce : ∃ x : Executor .list,
    runList step (new .threadExecutorPender (some ⟨0⟩)) [.spawn 0, .spawn 1] = some x ∧
      PassEnds yieldOnce 0 1 x := by
  obtain ⟨x, hs, hv⟩ := exists_of_map_runList
    (f := fun x => (x.phase, x.tasks, x.base.alarmHandle, readyCount 0 x, timers x))
    (s := (new .threadExecutorPender (some ⟨0⟩) : Executor .list)) (l := [.spawn 0, .spawn 1])
    (b := (.idle, [1, 0], some ⟨0⟩, 2, 0)) (r := step) (by decide)
  simp only [Prod.mk.injEq] at hv
  obtain ⟨hphase, htasks, halarm, hready, htimers⟩ := hv
  refine ⟨x, hs, (passEnds_iff _ 0 1 x hphase (by rw [halarm]; simp)).mpr
    ⟨⟨?_, Or.inl ⟨3, ?_⟩⟩, ?_⟩⟩
  · rw [hready]
    decide
  · rw [hready, htasks]
    decide
  · intro k hk
    rw [hready] at hk
    have hthree : FiniteBuffer.EmptiesAt MAX_TASKS (wakesOf yieldOnce x) 2 3 := by
      rw [show wakesOf yieldOnce x = fun i => ownWakes [1, 0] (yieldOnce i) by
        funext i; rw [wakesOf, htasks]]
      exact ⟨by decide, by decide⟩
    obtain rfl := hk.unique hthree
    rw [timersLeft, htimers]
    decide

end Executor

end AurixAsync
