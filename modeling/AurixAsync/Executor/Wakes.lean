import AurixAsync.Executor.Step

/-!
# Wakes and the run queue

A wake pushes into the run queue whatever the queue holds, and a refused push is dropped. To say
which wakes survive, the executor is run together with a log of the tasks woken and not yet popped.

* `Logged`, `logStep`: the executor with the log.
* `WakesKept`: every task of the log is in the run queue.
* `KeepsWakes`: the steps that keep it so.
* `wakesKept_along_iff`: a run keeps every wake if and only if each of its steps is one of these.
-/

namespace AurixAsync

namespace Executor

open Transition

variable {H : TimerHeap}

/-- An executor and the tasks whose wake completed and that it has not popped since. -/
structure Logged (H : TimerHeap) where
  exec : Executor H
  woken : List TaskRef

/-- Nothing was woken. -/
def Logged.new (pender : Pender) (handle : Option AlarmHandle) : Logged H :=
  ⟨Executor.new pender handle, []⟩

/-- The log after an action that leads to the executor `x'`. -/
def logAfter (woken : List TaskRef) (x' : Executor H) : Action → List TaskRef
  | .wake task => task :: woken
  | .popFront =>
    match x'.phase with
    | .polling task => woken.filter (· ≠ task)
    | _ => woken
  | _ => woken

/-- The step of the executor, logged. -/
def logStep (s : Logged H) (a : Action) : Option (Logged H) :=
  (s.exec.step a).map fun x' => ⟨x', logAfter s.woken x' a⟩

/-- Every task woken and not popped since is in the run queue. -/
def WakesKept (s : Logged H) : Prop := ∀ t ∈ s.woken, t ∈ s.exec.base.runQueue.items

/-- The condition on the steps: a wake finds its task in the run queue already, or a free place
there, and the executor is overwritten only while no woken task waits in it. -/
def KeepsWakes (s : Logged H) : Action → Prop
  | .wake task =>
    task ∈ s.exec.base.runQueue.items ∨ s.exec.base.runQueue.items.length < MAX_TASKS
  | .overwrite _ => s.woken = []
  | _ => True

variable {s s' : Logged H} {a : Action}

theorem logStep_eq_some : logStep s a = some s' ↔
    s.exec.step a = some s'.exec ∧ s'.woken = logAfter s.woken s'.exec a := by
  rw [logStep, Option.map_eq_some_iff]
  constructor
  · rintro ⟨x', hx, rfl⟩
    exact ⟨hx, rfl⟩
  · rintro ⟨hx, hw⟩
    exact ⟨s'.exec, hx, by rw [← hw]⟩

theorem mem_enqueue_self {e : BaseExecutor H} {t : TaskRef}
    (h : t ∈ e.runQueue.items ∨ e.runQueue.items.length < MAX_TASKS) :
    t ∈ (e.enqueue t).runQueue.items := by
  rw [BaseExecutor.items_enqueue]
  split_ifs with hf
  · exact h.resolve_right (by omega)
  · exact List.mem_append_right _ (List.mem_singleton_self t)

theorem mem_enqueue_of_mem {e : BaseExecutor H} {t u : TaskRef} (h : u ∈ e.runQueue.items) :
    u ∈ (e.enqueue t).runQueue.items := by
  rw [BaseExecutor.items_enqueue]
  split_ifs
  · exact h
  · exact List.mem_append_left _ h

/-- A step that meets the condition keeps every wake. -/
theorem WakesKept.step (hk : WakesKept s) (h : logStep s a = some s') (hc : KeepsWakes s a) :
    WakesKept s' := by
  obtain ⟨x, w⟩ := s
  obtain ⟨x', w'⟩ := s'
  obtain ⟨h, hw⟩ := logStep_eq_some.mp h
  change w' = logAfter w x' a at hw
  subst hw
  change ∀ t ∈ w, t ∈ x.base.runQueue.items at hk
  change ∀ t ∈ logAfter w x' a, t ∈ x'.base.runQueue.items
  change x.step a = some x' at h
  cases a with
  | spawn task =>
    obtain ⟨hn, q, hq, rfl⟩ := step_spawn.mp h
    intro t ht
    change t ∈ q.items
    rw [hq]
    exact List.mem_cons_of_mem _ (hk t ht)
  | wake task =>
    obtain ⟨-, rfl⟩ := step_wake.mp h
    intro t ht
    rcases List.mem_cons.mp ht with rfl | ht
    · exact mem_enqueue_self hc
    · exact mem_enqueue_of_mem (hk t ht)
  | overwrite handle =>
    intro t ht
    change w = [] at hc
    change t ∈ w at ht
    rw [hc] at ht
    exact absurd ht List.not_mem_nil
  | registerAlarm handle => obtain rfl := step_registerAlarm.mp h; exact hk
  | popFront =>
    obtain ⟨-, ⟨task, q, hq, rfl⟩ | ⟨-, rfl⟩⟩ := step_popFront.mp h
    · intro t ht
      obtain ⟨htw, hne⟩ := List.mem_filter.mp ht
      have hmem := hk t htw
      rw [hq] at hmem
      exact (List.mem_cons.mp hmem).resolve_left (by simpa using hne)
    · exact hk
  | enqueueReady =>
    obtain ⟨ready, -, ⟨b, hb, rfl⟩ | ⟨-, rfl⟩⟩ := step_enqueueReady.mp h
    · obtain ⟨-, q, hq, rfl⟩ := BaseExecutor.enqueueReady_eq_some.mp hb
      intro t ht
      change t ∈ q.items
      rw [hq]
      exact List.mem_append_left _ (hk t ht)
    · exact hk
  | dequeueExpired =>
    obtain ⟨now, -, ⟨r, b, hb, rfl⟩ | ⟨-, rfl⟩⟩ := step_dequeueExpired.mp h
    · obtain ⟨-, -, rfl⟩ := BaseExecutor.dequeueReady_eq_some hb
      exact hk
    · exact hk
  | endPoll =>
    obtain ⟨task, -, rfl⟩ := step_endPoll.mp h
    intro t ht
    rw [BaseExecutor.runQueue_updateTimerQueue]
    exact hk t ht
  | enter => obtain ⟨-, rfl⟩ := step_enter.mp h; exact hk
  | readNow now => obtain ⟨-, rfl⟩ := step_readNow.mp h; exact hk
  | pollTimer now n => obtain ⟨task, -, rfl⟩ := step_pollTimer.mp h; exact hk
  | nextExpiration =>
    obtain ⟨-, ⟨n, -, rfl⟩ | ⟨-, rfl⟩⟩ := step_nextExpiration.mp h <;> exact hk
  | setAlarm => obtain ⟨n, -, ⟨k, -, rfl⟩ | ⟨-, rfl⟩⟩ := step_setAlarm.mp h <;> exact hk

theorem keepsWakes_of_wakesKept (h : logStep s a = some s') (hk : WakesKept s') :
    KeepsWakes s a := by
  obtain ⟨x, w⟩ := s
  obtain ⟨x', w'⟩ := s'
  obtain ⟨h, hw⟩ := logStep_eq_some.mp h
  change w' = logAfter w x' a at hw
  subst hw
  change ∀ t ∈ logAfter w x' a, t ∈ x'.base.runQueue.items at hk
  change x.step a = some x' at h
  cases a with
  | wake task =>
    obtain ⟨-, rfl⟩ := step_wake.mp h
    have hmem := hk task List.mem_cons_self
    rw [BaseExecutor.items_enqueue] at hmem
    split_ifs at hmem with hf
    · exact Or.inl hmem
    · exact Or.inr (lt_of_le_of_ne x.base.runQueue.length_le hf)
  | overwrite handle =>
    obtain rfl := step_overwrite.mp h
    exact List.eq_nil_iff_forall_not_mem.mpr fun t ht => absurd (hk t ht) List.not_mem_nil
  | _ => trivial

/-- **No wake is dropped exactly when no wake meets a full run queue without its task.** In every
run: each task woken and not popped since is in the run queue, in every state, if and only if every
wake finds its task queued already or a free place, and the executor is never overwritten while a
woken task waits. -/
theorem wakesKept_along_iff (pender : Pender) (handle : Option AlarmHandle)
    (tr : List (Logged H × Action)) (s : Logged H)
    (hr : Run logStep (Logged.new pender handle) tr s) :
    Along WakesKept tr s ↔ AllSteps KeepsWakes tr := by
  refine Run.exact (I := WakesKept) (B := fun _ => True) ?_ (fun _ h => h) (fun _ _ _ _ h => h)
    (fun _ _ _ hk _ h hc => hk.step h hc) (fun _ _ _ _ _ h hk => keepsWakes_of_wakesKept h hk) hr
    trivial
  exact fun t ht => absurd ht List.not_mem_nil

/-- Two tasks are spawned and polled once; then an interrupt handler wakes task 0 32 times before
it wakes task 1. -/
def floodRun : List Action :=
  [.spawn 0, .spawn 1, .enter, .readNow 0, .dequeueExpired, .enqueueReady, .popFront, .endPoll,
    .popFront, .endPoll, .popFront, .nextExpiration] ++ List.replicate 32 (.wake 0) ++ [.wake 1]

set_option maxRecDepth 4000 in
/-- The run `floodRun` of two tasks drops the wake of task 1. -/
theorem not_wakesKept_floodRun : ∃ s : Logged TimerHeap.list,
    runList logStep (Logged.new .threadExecutorPender (some ⟨0⟩)) floodRun = some s ∧
      s.exec.tasks.length ≤ MAX_TASKS ∧ ¬ WakesKept s := by
  obtain ⟨s, hs, hv⟩ := exists_of_map_runList
    (f := fun s => (s.exec.tasks.length, s.woken.head?, decide (1 ∈ s.exec.base.runQueue.items)))
    (s := (Logged.new .threadExecutorPender (some ⟨0⟩) : Logged TimerHeap.list)) (l := floodRun)
    (b := (2, some 1, false)) (r := logStep) (by decide)
  obtain ⟨hl, hv⟩ := Prod.mk.inj hv
  obtain ⟨hh, hm⟩ := Prod.mk.inj hv
  refine ⟨s, hs, hl ▸ by decide, fun hk => ?_⟩
  exact of_decide_eq_false hm (hk 1 (List.mem_of_mem_head? hh))

set_option maxRecDepth 4000 in
/-- The condition on `floodRun` without its last wake. -/
theorem wakesKept_along_iff_floodRun :
    ∃ (tr : List (Logged TimerHeap.list × Action)) (s : Logged TimerHeap.list),
      Run logStep (Logged.new .threadExecutorPender (some ⟨0⟩)) tr s ∧
        tr.map Prod.snd = floodRun.take 44 ∧ (Along WakesKept tr s ↔ AllSteps KeepsWakes tr) := by
  obtain ⟨s, hs, -⟩ := exists_of_map_runList (f := fun s => s.woken.length)
    (s := (Logged.new .threadExecutorPender (some ⟨0⟩) : Logged TimerHeap.list))
    (l := floodRun.take 44) (b := 32) (r := logStep) (by decide)
  obtain ⟨tr, hr, ha⟩ := exists_run_of_runList hs
  exact ⟨tr, s, hr, ha, wakesKept_along_iff _ _ tr s hr⟩

end Executor

end AurixAsync
