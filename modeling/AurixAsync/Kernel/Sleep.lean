import AurixAsync.Kernel.Alarms

/-!
# Sleeping executors and their alarms

Each pass pushes an item for the next expiration into the alarm queue of the core, which all
executors share, and the refusal of a full queue is ignored.

* `nextTick_of_reachable`: a pass sets the alarm for the next expiration of its timer queue.
* `AlarmSet`: a sleeping executor with timers is pended or owns an alarm in time.
* `AlarmFits`: the `set_alarm`s that keep it so.
* `alarmSet_along_iff`: a run keeps `AlarmSet` if and only if each of its steps is one of these.
-/

namespace AurixAsync

open Transition

variable {H : TimerHeap} {A : AlarmHeap}

/-- Between `next_expiration` and `set_alarm` the timer queue of an executor does not change, unless
the executor is overwritten. -/
theorem Executor.nextTick_of_reachable {pender : Pender} {handle : Option AlarmHandle}
    {x : Executor H} (h : Reachable step (new pender handle) x) (n : ℕ)
    (hp : x.phase = .setAlarm n) :
    x.base.timerQueue.nextExpiration = none ∨ x.base.timerQueue.nextExpiration = some n := by
  refine h.invariant (I := fun x => ∀ n, x.phase = .setAlarm n →
    x.base.timerQueue.nextExpiration = none ∨ x.base.timerQueue.nextExpiration = some n)
    (fun n hp => absurd hp (by simp [new])) ?_ n hp
  intro x a x' hx h n hp
  cases a with
  | spawn task =>
    obtain ⟨-, q, -, rfl⟩ := step_spawn.mp h
    exact hx n hp
  | wake task => obtain ⟨-, rfl⟩ := step_wake.mp h; exact hx n hp
  | overwrite handle =>
    obtain rfl := step_overwrite.mp h
    exact Or.inl (TimerQueue.nextExpiration_eq_none.mpr TimerQueue.items_new)
  | registerAlarm handle => obtain rfl := step_registerAlarm.mp h; exact hx n hp
  | enter => obtain ⟨-, rfl⟩ := step_enter.mp h; exact absurd hp (by simp)
  | readNow now => obtain ⟨-, rfl⟩ := step_readNow.mp h; exact absurd hp (by simp)
  | dequeueExpired =>
    obtain ⟨now, -, ⟨r, b, -, rfl⟩ | ⟨-, rfl⟩⟩ := step_dequeueExpired.mp h
    all_goals exact absurd hp (by simp)
  | enqueueReady =>
    obtain ⟨ready, -, ⟨b, -, rfl⟩ | ⟨-, rfl⟩⟩ := step_enqueueReady.mp h
    all_goals exact absurd hp (by simp)
  | popFront =>
    obtain ⟨-, ⟨t, q, -, rfl⟩ | ⟨-, rfl⟩⟩ := step_popFront.mp h
    all_goals exact absurd hp (by simp)
  | pollTimer now m =>
    obtain ⟨t, ht, rfl⟩ := step_pollTimer.mp h
    exact absurd (ht.symm.trans hp) (by simp)
  | endPoll => obtain ⟨t, -, rfl⟩ := step_endPoll.mp h; exact absurd hp (by simp)
  | nextExpiration =>
    obtain ⟨-, ⟨m, hm, rfl⟩ | ⟨-, rfl⟩⟩ := step_nextExpiration.mp h
    · obtain rfl := Phase.setAlarm.inj hp
      exact Or.inr hm
    · exact absurd hp (by simp)
  | setAlarm =>
    obtain ⟨m, -, ⟨handle, -, rfl⟩ | ⟨-, rfl⟩⟩ := step_setAlarm.mp h
    all_goals exact absurd hp (by simp)

namespace Kernel

variable {k k' : Kernel H A} {e : ExecutorId}

/-- The next expiration of the timer queue of an executor. -/
def nextOf (k : Kernel H A) (e : ExecutorId) : Option ℕ :=
  (k.execs e).base.timerQueue.nextExpiration

/-- The queue of the core has an item of the executor's handle that is due no later. -/
def OwnsAlarm (k : Kernel H A) (e : ExecutorId) (next : ℕ) : Prop :=
  ∃ i ∈ k.alarms.items, k.handleOf e = some i.handle ∧ i.expiresAt ≤ next

/-- Every started executor outside `exec_once` whose timer queue is not empty is pended or owns an
alarm no later than its next expiration. -/
def AlarmSet (k : Kernel H A) : Prop :=
  ∀ e, k.started e → (k.execs e).phase = .idle → ∀ next, k.nextOf e = some next →
    k.pended e ∨ k.OwnsAlarm e next

/-- The condition on a `set_alarm`: the queue of the core is not full, or the executor needs no
new item. -/
def AlarmFits (k : Kernel H A) : Action → Prop
  | .exec e .setAlarm => k.started e → ∀ next, k.nextOf e = some next →
      k.alarms.items.card ≠ N_ALARM_ITEMS ∨ k.pended e ∨ k.OwnsAlarm e next
  | _ => True

/-- What `AlarmSet` says of one executor is kept when its phase, timer queue and handle stay, its
pend is not cleared and no item is taken out. -/
theorem alarmSet_frame {next : ℕ} (hs : AlarmSet k) (hst : k.started e)
    (hid : (k'.execs e).phase = .idle) (hn : k'.nextOf e = some next)
    (hphase : (k'.execs e).phase = (k.execs e).phase) (hnext : k'.nextOf e = k.nextOf e)
    (hh : k'.handleOf e = k.handleOf e) (hp : k.pended e → k'.pended e)
    (hi : ∀ i ∈ k.alarms.items, i ∈ k'.alarms.items) : k'.pended e ∨ k'.OwnsAlarm e next := by
  rcases hs e hst (hphase.symm.trans hid) next (hnext.symm.trans hn) with h | ⟨i, him, hih, hle⟩
  · exact Or.inl (hp h)
  · exact Or.inr ⟨i, hi i him, hh.trans hih, hle⟩

theorem alarmSet_frame_execs {next : ℕ} (hs : AlarmSet k) (hst : k.started e)
    (hid : (k'.execs e).phase = .idle) (hn : k'.nextOf e = some next)
    (hx : k'.execs e = k.execs e) (hp : k.pended e → k'.pended e)
    (hi : ∀ i ∈ k.alarms.items, i ∈ k'.alarms.items) : k'.pended e ∨ k'.OwnsAlarm e next := by
  refine alarmSet_frame hs hst hid hn ?_ ?_ ?_ hp hi
  · rw [hx]
  · rw [nextOf, nextOf, hx]
  · rw [handleOf, handleOf, hx]

theorem update_phase_timerQueue {x : Executor H} {e' : ExecutorId}
    (hphase : x.phase = (k.execs e').phase)
    (htimers : x.base.timerQueue = (k.execs e').base.timerQueue) (e : ExecutorId) :
    (Function.update k.execs e' x e).phase = (k.execs e).phase ∧
      (Function.update k.execs e' x e).base.timerQueue = (k.execs e).base.timerQueue := by
  by_cases he : e = e'
  · subst he
    rw [Function.update_self]
    exact ⟨hphase, htimers⟩
  · rw [Function.update_of_ne he]
    exact ⟨rfl, rfl⟩

theorem alarmSet_frame_update {x : Executor H} {e' : ExecutorId} {b : Executor.Action} {next : ℕ}
    (hs : AlarmSet k) (hst : k.started e) (hid : (k'.execs e).phase = .idle)
    (hn : k'.nextOf e = some next) (hk : k'.execs = Function.update k.execs e' x)
    (hx : (k.execs e').step b = some x) (hb : b.newHandle = none)
    (hsame : x.phase = (k.execs e').phase ∧ x.base.timerQueue = (k.execs e').base.timerQueue)
    (hp : k.pended e → k'.pended e) (hi : ∀ i ∈ k.alarms.items, i ∈ k'.alarms.items) :
    k'.pended e ∨ k'.OwnsAlarm e next := by
  have hframe := update_phase_timerQueue hsame.1 hsame.2 e
  rw [← hk] at hframe
  exact alarmSet_frame hs hst hid hn hframe.1
    (congrArg (fun q => TimerQueue.nextExpiration q) hframe.2) (handleOf_step hk hx hb e) hp hi

theorem mem_alarmsAfter {a : Executor.Action} {i : AlarmItem} (h : i ∈ k.alarms.items) :
    i ∈ (k.alarmsAfter e a).items := by
  rw [alarmsAfter.eq_def]
  split
  · split
    · rw [AlarmQueue.items_setAlarm_getD]
      split_ifs
      · exact h
      · exact Multiset.mem_cons_of_mem h
    · exact h
  · exact h

theorem items_alarmsAfter_setAlarm {n : ℕ} {handle : AlarmHandle}
    (hp : (k.execs e).phase = .setAlarm n) (hh : k.handleOf e = some handle) :
    (k.alarmsAfter e .setAlarm).items =
      if k.alarms.items.card = N_ALARM_ITEMS then k.alarms.items
      else ⟨n, handle⟩ ::ₘ k.alarms.items := by
  have h : k.alarmsAfter e .setAlarm = (k.alarms.setAlarm handle n).getD k.alarms := by
    simp only [alarmsAfter, hp, show (k.execs e).base.alarmHandle = some handle from hh]
  rw [h]
  exact AlarmQueue.items_setAlarm_getD _ _ _

theorem alarmSet_exec {a : Executor.Action} {next : ℕ} (hr : Reachable step new k)
    (hc : AlarmFits k (.exec e a)) (h : k.step (.exec e a) = some k')
    (hst : k.started e) (hid : (k'.execs e).phase = .idle) (hn : k'.nextOf e = some next) :
    k'.pended e ∨ k'.OwnsAlarm e next := by
  obtain ⟨hperm, x, hx, rfl⟩ := step_exec.mp h
  have hown := own_of_permits hperm
  rw [execs_afterExec_self] at hid
  rw [nextOf, execs_afterExec_self] at hn
  cases a with
  | spawn task => exact absurd hown Bool.false_ne_true
  | wake task => exact absurd hown Bool.false_ne_true
  | overwrite handle => exact absurd hown Bool.false_ne_true
  | registerAlarm handle => exact absurd hown Bool.false_ne_true
  | enter => obtain ⟨-, rfl⟩ := Executor.step_enter.mp hx; exact absurd hid (by simp)
  | readNow now => obtain ⟨-, rfl⟩ := Executor.step_readNow.mp hx; exact absurd hid (by simp)
  | dequeueExpired =>
    obtain ⟨now, -, ⟨r, b, -, rfl⟩ | ⟨-, rfl⟩⟩ := Executor.step_dequeueExpired.mp hx
    all_goals exact absurd hid (by simp)
  | enqueueReady =>
    obtain ⟨ready, -, ⟨b, -, rfl⟩ | ⟨-, rfl⟩⟩ := Executor.step_enqueueReady.mp hx
    all_goals exact absurd hid (by simp)
  | popFront =>
    obtain ⟨-, ⟨t, q, -, rfl⟩ | ⟨-, rfl⟩⟩ := Executor.step_popFront.mp hx
    all_goals exact absurd hid (by simp)
  | pollTimer now n =>
    obtain ⟨t, ht, rfl⟩ := Executor.step_pollTimer.mp hx
    exact absurd (ht.symm.trans hid) (by simp)
  | endPoll => obtain ⟨t, -, rfl⟩ := Executor.step_endPoll.mp hx; exact absurd hid (by simp)
  | nextExpiration =>
    obtain ⟨-, ⟨n, -, rfl⟩ | ⟨hnone, rfl⟩⟩ := Executor.step_nextExpiration.mp hx
    · exact absurd hid (by simp)
    · exact absurd (hnone.symm.trans hn) (by simp)
  | setAlarm =>
    obtain ⟨n, hp, ⟨handle, hh, rfl⟩ | ⟨-, rfl⟩⟩ := Executor.step_setAlarm.mp hx
    · -- the tick read by `next_expiration` is still the next one
      have hnn : n = next := by
        rcases Executor.nextTick_of_reachable (reachable_exec hr e) n hp with h | h
        · exact absurd (h.symm.trans hn) (by simp)
        · exact Option.some.inj (h.symm.trans hn)
      have hitems := items_alarmsAfter_setAlarm hp hh
      change k.pended e ∨ ∃ i ∈ (k.alarmsAfter e .setAlarm).items,
        handleOf _ e = some i.handle ∧ i.expiresAt ≤ next
      rw [handleOf_step (k := k) rfl hx rfl]
      rcases hc hst next hn with hf | hpe | ⟨i, him, hih, hle⟩
      · rw [if_neg hf] at hitems
        rw [hitems]
        exact Or.inr ⟨⟨n, handle⟩, Multiset.mem_cons_self _ _, hh, hnn.le⟩
      · exact Or.inl hpe
      · exact Or.inr ⟨i, mem_alarmsAfter him, hih, hle⟩
    · exact absurd hid (by simp)

/-- A step that meets the condition leaves no sleeping executor without an alarm. -/
theorem AlarmSet.step {a : Action} (hr : Reachable step new k) (hs : AlarmSet k)
    (h : k.step a = some k') (hc : AlarmFits k a) : AlarmSet k' := by
  have hi := alarmInv_of_reachable hr
  have hp := pendersKept_of_reachable hr
  intro e hst hid next hn
  cases a with
  | threadExecutor =>
    obtain ⟨hns, handle, q, hq, x, -, rfl⟩ := step_threadExecutor.mp h
    have hne : e ≠ .thread := by
      rintro rfl
      exact absurd (hns.symm.trans hst) Bool.false_ne_true
    have hx : Function.update k.execs .thread x e = k.execs e := Function.update_of_ne hne _ _
    have hitems := (AlarmQueue.tryAllocateHandle_eq_some (by decide) hq).2.2
    exact alarmSet_frame_execs hs hst hid hn hx id fun i him => hitems.symm ▸ him
  | allocate prio =>
    obtain ⟨-, handle, q, hq, x, -, rfl⟩ := step_allocate.mp h
    change Function.update k.started (.interrupt prio) false e = true at hst
    have hne : e ≠ .interrupt prio := by
      rintro rfl
      rw [Function.update_self] at hst
      exact absurd hst Bool.false_ne_true
    rw [Function.update_of_ne hne] at hst
    have hx : Function.update k.execs (.interrupt prio) x e = k.execs e :=
      Function.update_of_ne hne _ _
    have hitems := (AlarmQueue.tryAllocateHandle_eq_some (by decide) hq).2.2
    exact alarmSet_frame_execs hs hst hid hn hx id fun i him => hitems.symm ▸ him
  | spawn e' =>
    obtain ⟨-, x, hx, rfl⟩ := step_spawn.mp h
    have hsame : x.phase = (k.execs e').phase ∧
        x.base.timerQueue = (k.execs e').base.timerQueue := by
      obtain ⟨-, q, -, rfl⟩ := Executor.step_spawn.mp hx
      exact ⟨rfl, rfl⟩
    exact alarmSet_frame_update hs hst hid hn rfl hx rfl hsame id fun i him => him
  | start e' =>
    obtain ⟨⟨-, hth⟩, q, hq, rfl⟩ := step_start.mp h
    change Function.update k.started e' true e = true at hst
    change k.pendedAfterStart e' e ∨ _
    by_cases he : e = e'
    · subst he
      left
      cases e with
      | thread => exact event_of_reachable hr (hth rfl)
      | interrupt prio =>
        change k.pend k.pended (.interrupt prio) (.interrupt prio) = true
        rw [pend_apply hp, Function.update_self]
    · rw [Function.update_of_ne he] at hst
      have hitems : q.items = k.alarms.items := by
        rw [registerAlarmCallback.eq_def] at hq
        split at hq
        · rw [← Option.some.inj hq]
        · obtain ⟨-, rfl⟩ := AlarmQueue.registerCallback_eq_some.mp hq
          rfl
      refine alarmSet_frame_execs hs hst hid hn rfl ?_ fun i him => hitems.symm ▸ him
      intro hpe
      cases e' with
      | thread => exact hpe
      | interrupt prio =>
        change k.pend k.pended (.interrupt prio) e = true
        rwa [pend_apply hp, Function.update_of_ne he]
  | wake task =>
    obtain ⟨e', -, x, hx, rfl⟩ := step_wake.mp h
    have hsame : x.phase = (k.execs e').phase ∧
        x.base.timerQueue = (k.execs e').base.timerQueue := by
      obtain ⟨-, rfl⟩ := Executor.step_wake.mp hx
      exact ⟨rfl, rfl⟩
    exact alarmSet_frame_update hs hst hid hn rfl hx rfl hsame id fun i him => him
  | pend e' =>
    obtain ⟨-, rfl⟩ := step_pend.mp h
    exact alarmSet_frame_execs hs hst hid hn rfl
      (fun hpe => (foldl_pend hp [e'] k.pended e).mpr (Or.inl hpe)) fun i him => him
  | exec e' a =>
    by_cases he : e = e'
    · subst he
      have hst' : k.started e := by
        obtain ⟨-, x, -, rfl⟩ := step_exec.mp h
        exact hst
      exact alarmSet_exec hr hc h hst' hid hn
    · obtain ⟨-, x, -, rfl⟩ := step_exec.mp h
      have hx := execs_afterExec_of_ne (k := k) (a := a) (x := x) he
      refine alarmSet_frame_execs hs hst hid hn hx ?_ fun i him => mem_alarmsAfter him
      intro hpe
      cases a with
      | enter =>
        change Function.update k.pended e' false e = true
        rwa [Function.update_of_ne he]
      | _ => exact hpe
  | defaultHandler prio =>
    obtain ⟨⟨-, hun⟩, rfl⟩ := step_defaultHandler.mp h
    by_cases he : e = .interrupt prio
    · -- the executor never had a timer
      subst he
      have hnone := TimerQueue.nextExpiration_eq_none.mpr (unhandled_of_reachable hr hun).2
      exact absurd (hnone.symm.trans hn) (by simp)
    · refine alarmSet_frame_execs hs hst hid hn rfl ?_ fun i him => him
      intro hpe
      change Function.update k.pended (.interrupt prio) false e = true
      rwa [Function.update_of_ne he]
  | timerInterrupt =>
    obtain ⟨-, hx, hst', hitems, hpend⟩ := timerInterrupt_spec hi hp h
    rw [hst'] at hst
    have hxe : k'.execs e = k.execs e := congrFun hx e
    have hnk : k.nextOf e = some next := by
      rw [← hn, nextOf, nextOf, hxe]
    rw [hxe] at hid
    rcases hs e hst hid next hnk with hpe | ⟨i, him, hih, hle⟩
    · exact Or.inl ((hpend e).mpr (Or.inl hpe))
    · by_cases hdue : i.expiresAt ≤ k.now
      · -- the item is taken out, and its callback is that of the executor
        exact Or.inl ((hpend e).mpr (Or.inr (hi.callsBack hst him hih hdue)))
      · refine Or.inr ⟨i, ?_, ?_, hle⟩
        · rw [hitems, Multiset.mem_filter]
          exact ⟨him, by omega⟩
        · rw [handleOf, hxe]
          exact hih

theorem alarmFits_of_alarmSet {a : Action} (hr : Reachable step new k) (h : k.step a = some k')
    (hs : AlarmSet k') : AlarmFits k a := by
  have hi := alarmInv_of_reachable hr
  cases a with
  | exec e a =>
    cases a with
    | setAlarm =>
      intro hst next hn
      by_cases hf : k.alarms.items.card = N_ALARM_ITEMS
      · refine Or.inr ?_
        obtain ⟨-, x, hx, rfl⟩ := step_exec.mp h
        obtain ⟨handle, hh, -⟩ := hi.registered e hst
        have hh' : (k.afterExec e .setAlarm x).handleOf e = k.handleOf e :=
          handleOf_step rfl hx rfl e
        obtain ⟨n, hp, ⟨-, -, rfl⟩ | ⟨hnone, -⟩⟩ := Executor.step_setAlarm.mp hx
        · have hitems := items_alarmsAfter_setAlarm hp hh
          rw [if_pos hf] at hitems
          have hgood := hs e hst (by rw [execs_afterExec_self]) next
            (by rw [nextOf, execs_afterExec_self]; exact hn)
          refine hgood.imp_right ?_
          rintro ⟨i, him, hih, hle⟩
          exact ⟨i, hitems ▸ him, hh'.symm.trans hih, hle⟩
        · exact absurd (hnone.symm.trans hh) (by simp)
      · exact Or.inl hf
    | _ => trivial
  | _ => trivial

/-- **A sleeping executor has its alarm exactly when no needed alarm meets a full queue.** In every
run of the kernel: `AlarmSet` holds in every state if and only if at every `set_alarm` of a started
executor with timers the alarm queue has a free place, or the executor is pended or owns an item in
time already. -/
theorem alarmSet_along_iff (tr : List (Kernel H A × Action)) (k : Kernel H A)
    (hr : Run step new tr k) : Along AlarmSet tr k ↔ AllSteps AlarmFits tr := by
  refine Run.exact (I := fun k => Reachable step new k ∧ AlarmSet k) (B := fun _ => True) ?_
    (fun _ h => h.2) (fun _ _ _ _ h => h) ?_ ?_ hr trivial
  · exact ⟨.refl, fun _ hs => absurd hs Bool.false_ne_true⟩
  · exact fun k a k' hi _ h hc => ⟨hi.1.tail h, hi.2.step hi.1 h hc⟩
  · exact fun k a k' hi _ h hs => alarmFits_of_alarmSet hi.1 h hs

/-! ### A full queue -/

/-- Two executors at tick 0. Task 0 of the interrupt executor waits for a signal; task 1 of the
thread executor waits for tick 1000, and task 2 is polled besides. -/
def startRun : List Action :=
  [.allocate 2, .spawn (.interrupt 2), .start (.interrupt 2)] ++
    [Executor.Action.enter, .readNow 0, .dequeueExpired, .enqueueReady, .popFront, .endPoll,
      .popFront, .nextExpiration].map (.exec (.interrupt 2)) ++
  [.threadExecutor, .spawn .thread, .spawn .thread, .start .thread] ++
    [Executor.Action.enter, .readNow 0, .dequeueExpired, .enqueueReady, .popFront, .endPoll,
      .popFront, .pollTimer 0 1000, .endPoll, .popFront, .nextExpiration, .setAlarm].map
      (.exec .thread)

/-- Task 2 is woken and polled; the pass sets the alarm for tick 1000 once more. -/
def renewRun : List Action :=
  [.wake 2, .pend .thread] ++
    [Executor.Action.enter, .readNow 0, .dequeueExpired, .enqueueReady, .popFront, .endPoll,
      .popFront, .nextExpiration, .setAlarm].map (.exec .thread)

/-- Task 0 is signalled and starts to wait for tick 10. -/
def signalRun : List Action :=
  [.wake 0, .pend (.interrupt 2)] ++
    [Executor.Action.enter, .readNow 0, .dequeueExpired, .enqueueReady, .popFront,
      .pollTimer 0 10, .endPoll, .popFront, .nextExpiration, .setAlarm].map (.exec (.interrupt 2))

/-- `n` passes of the thread executor before task 0 is signalled. -/
def crowdRun (n : ℕ) : List Action :=
  startRun ++ (List.replicate n renewRun).flatten ++ signalRun

set_option maxRecDepth 10000 in
/-- With 64 alarms for tick 1000 in the queue, the interrupt executor sleeps without one for its
timer of tick 10. -/
theorem not_alarmSet_crowdRun : ∃ k : Kernel TimerHeap.list AlarmHeap.list,
    runList step new (crowdRun 63) = some k ∧ ¬ AlarmSet k := by
  obtain ⟨k, hk, hv⟩ := exists_of_map_runList
    (f := fun k => decide (k.started (.interrupt 2) ∧ (k.execs (.interrupt 2)).phase = .idle ∧
      k.nextOf (.interrupt 2) = some 10 ∧ k.pended (.interrupt 2) = false ∧
      k.handleOf (.interrupt 2) = some ⟨0⟩ ∧ ∀ i ∈ k.alarms.queue.1, i.handle ≠ ⟨0⟩))
    (s := (new : Kernel TimerHeap.list AlarmHeap.list)) (l := crowdRun 63) (b := true)
    (r := step) (by decide)
  obtain ⟨hst, hid, hn, hp, hh, hall⟩ := of_decide_eq_true hv
  refine ⟨k, hk, fun hs => ?_⟩
  rcases hs (.interrupt 2) hst hid 10 hn with h | ⟨i, him, hih, -⟩
  · exact absurd (hp.symm.trans h) Bool.false_ne_true
  · change i ∈ (k.alarms.queue.1 : Multiset AlarmItem) at him
    exact hall i (Multiset.mem_coe.mp him) (Option.some.inj (hih.symm.trans hh))

set_option maxRecDepth 10000 in
/-- The condition on the same run with one pass of the thread executor. -/
theorem alarmSet_along_iff_crowdRun :
    ∃ (tr : List (Kernel TimerHeap.list AlarmHeap.list × Action))
      (k : Kernel TimerHeap.list AlarmHeap.list), Run step new tr k ∧
        tr.map Prod.snd = crowdRun 1 ∧ (Along AlarmSet tr k ↔ AllSteps AlarmFits tr) := by
  obtain ⟨k, hk, -⟩ := exists_of_map_runList (f := fun k => k.alarms.queue.1.length)
    (s := (new : Kernel TimerHeap.list AlarmHeap.list)) (l := crowdRun 1) (b := 3)
    (r := step) (by decide)
  obtain ⟨tr, hr, ha⟩ := exists_run_of_runList hk
  exact ⟨tr, k, hr, ha, alarmSet_along_iff tr k hr⟩

end Kernel

end AurixAsync
