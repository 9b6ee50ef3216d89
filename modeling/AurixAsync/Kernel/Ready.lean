import AurixAsync.Kernel.Step

/-!
# Ready tasks and pends

A task pushed into the run queue of an executor that is not about to pop it needs a pend. Wakes
push and then pend, timers pend, and `spawn` only pushes. A pass that panics pops nothing more, and
a default interrupt handler pops nothing at all.

* `Stuck`, `HasRoom`, `Stuck.of_own`: a pass with room for the expired tasks never leaves a task
  behind that it did not find behind.
* `NoneStranded`: every non-empty run queue is about to be popped or has a pend outstanding.
* `KeepsAwake`: the steps that keep it so.
* `noneStranded_along_iff`: a run keeps `NoneStranded` if and only if each of its steps is one of
  these.
-/

namespace AurixAsync

open Transition

variable {H : TimerHeap} {A : AlarmHeap}

/-- Tasks wait in the run queue and the context will not pop them before it is pended again. -/
def Executor.Stuck (x : Executor H) : Prop :=
  x.base.runQueue.items ≠ [] ∧ x.phase.draining = false

/-- The condition on the steps of `check_timer_queue` while tasks wait in the run queue: the ready
vector, and then the run queue, has room for the expired tasks. -/
def Executor.HasRoom (x : Executor H) : Executor.Action → Prop
  | .dequeueExpired => ∀ now, x.phase = .dequeueExpired now → x.base.runQueue.items ≠ [] →
      (x.base.timerQueue.items.filter (·.expiresAt ≤ now)).card ≤ MAX_TASKS
  | .enqueueReady => ∀ ready, x.phase = .enqueueReady ready → x.base.runQueue.items ≠ [] →
      x.base.runQueue.items.length + ready.length ≤ MAX_TASKS
  | _ => True

/-- A pass pops until the run queue is empty, so no step of it leaves a waiting task behind, as long
as it does not panic. -/
theorem Executor.Stuck.of_own {x x' : Executor H} {a : Executor.Action} (ha : a.own)
    (h : x.step a = some x') (hroom : x.HasRoom a) (hs : x'.Stuck) : x.Stuck := by
  obtain ⟨hq, hd⟩ := hs
  cases a with
  | spawn task => exact absurd ha Bool.false_ne_true
  | wake task => exact absurd ha Bool.false_ne_true
  | overwrite handle => exact absurd ha Bool.false_ne_true
  | registerAlarm handle => exact absurd ha Bool.false_ne_true
  | enter => obtain ⟨-, rfl⟩ := step_enter.mp h; exact absurd hd (by simp [Phase.draining])
  | readNow now => obtain ⟨-, rfl⟩ := step_readNow.mp h; exact absurd hd (by simp [Phase.draining])
  | dequeueExpired =>
    obtain ⟨now, hp, ⟨r, b, hb, rfl⟩ | ⟨hnone, rfl⟩⟩ := step_dequeueExpired.mp h
    · exact absurd hd (by simp [Phase.draining])
    · have hlt := BaseExecutor.dequeueReady_eq_none.mp hnone
      rw [TimerQueue.length_dequeueExpired] at hlt
      exact absurd (hroom now hp hq) (Nat.not_le.mpr hlt)
  | enqueueReady =>
    obtain ⟨ready, hp, ⟨b, hb, rfl⟩ | ⟨hnone, rfl⟩⟩ := step_enqueueReady.mp h
    · exact absurd hd (by simp [Phase.draining])
    · have hlt := BaseExecutor.enqueueReady_eq_none.mp hnone
      exact absurd (hroom ready hp hq) (Nat.not_le.mpr hlt)
  | popFront =>
    obtain ⟨-, ⟨t, q, -, rfl⟩ | ⟨he, rfl⟩⟩ := step_popFront.mp h
    · exact absurd hd (by simp [Phase.draining])
    · exact absurd he hq
  | pollTimer now n =>
    obtain ⟨t, ht, rfl⟩ := step_pollTimer.mp h
    exact ⟨hq, hd⟩
  | endPoll =>
    obtain ⟨t, -, rfl⟩ := step_endPoll.mp h
    exact absurd hd (by simp [Phase.draining])
  | nextExpiration =>
    obtain ⟨hp, ⟨n, -, rfl⟩ | ⟨-, rfl⟩⟩ := step_nextExpiration.mp h
    all_goals exact ⟨hq, by rw [hp]; rfl⟩
  | setAlarm =>
    obtain ⟨n, hp, ⟨handle, -, rfl⟩ | ⟨-, rfl⟩⟩ := step_setAlarm.mp h
    all_goals exact ⟨hq, by rw [hp]; rfl⟩

theorem Executor.hasRoom_of_not_stuck {x x' : Executor H} {a : Executor.Action}
    (h : x.step a = some x') (hs : ¬ x'.Stuck) : x.HasRoom a := by
  cases a with
  | dequeueExpired =>
    intro now hp hq
    by_contra hlt
    have hnone : x.base.dequeueReady now = none := by
      rw [BaseExecutor.dequeueReady_eq_none, TimerQueue.length_dequeueExpired]
      exact Nat.lt_of_not_le hlt
    obtain ⟨now', hp', hor⟩ := step_dequeueExpired.mp h
    obtain rfl := Phase.dequeueExpired.inj (hp.symm.trans hp')
    rcases hor with ⟨r, b, hb, -⟩ | ⟨-, rfl⟩
    · exact absurd (hnone.symm.trans hb) (by simp)
    · exact hs ⟨hq, rfl⟩
  | enqueueReady =>
    intro ready hp hq
    by_contra hlt
    have hnone : x.base.enqueueReady ready = none :=
      BaseExecutor.enqueueReady_eq_none.mpr (Nat.lt_of_not_le hlt)
    obtain ⟨ready', hp', hor⟩ := step_enqueueReady.mp h
    obtain rfl := Phase.enqueueReady.inj (hp.symm.trans hp')
    rcases hor with ⟨b, hb, -⟩ | ⟨-, rfl⟩
    · exact absurd (hnone.symm.trans hb) (by simp)
    · exact hs ⟨hq, rfl⟩
  | _ => trivial

namespace Kernel

/-- A started executor with a non-empty run queue and no `enqueue_and_pend` in progress is in a
pass that has yet to find the queue empty, or has a pend outstanding. -/
def NoneStranded (k : Kernel H A) : Prop :=
  ∀ e, k.started e → e ∉ k.enqueuing → (k.execs e).base.runQueue.items ≠ [] →
    (k.execs e).phase.draining ∨ k.pended e

/-- The executor is started, and no pend of it is outstanding or about to follow a push. -/
def Unpended (k : Kernel H A) (e : ExecutorId) : Prop :=
  k.started e ∧ e ∉ k.enqueuing ∧ k.pended e = false

/-- The condition on a step. A spawn on an executor that is not pended finds it in a pass that has
yet to find its run queue empty; the `check_timer_queue` of one has room for the expired tasks; and
no default handler takes the interrupt of an executor for whose tasks it was requested. -/
def KeepsAwake (k : Kernel H A) : Action → Prop
  | .spawn e => k.Unpended e → (k.execs e).phase.draining
  | .exec e a => k.Unpended e → (k.execs e).HasRoom a
  | .defaultHandler prio => k.started (.interrupt prio) → .interrupt prio ∉ k.enqueuing →
      (k.execs (.interrupt prio)).base.runQueue.items = []
  | _ => True

/-- What a run whose steps meet the condition keeps. -/
structure ReadyInv (k : Kernel H A) : Prop where
  reachable : Reachable step new k
  none : NoneStranded k

variable {k k' : Kernel H A}

theorem noneStranded_iff : NoneStranded k ↔
    ∀ e, k.started e → e ∉ k.enqueuing → (k.execs e).Stuck → k.pended e := by
  refine forall_congr' fun e => ?_
  constructor
  · intro h hs hq ⟨hne, hd⟩
    exact (h hs hq hne).resolve_left (by rw [hd]; exact Bool.false_ne_true)
  · intro h hs hq hne
    by_cases hd : (k.execs e).phase.draining
    · exact Or.inl hd
    · exact Or.inr (h hs hq ⟨hne, Bool.eq_false_iff.mpr hd⟩)

theorem readyInv_new : ReadyInv (new : Kernel H A) where
  reachable := .refl
  none := fun _ hs => absurd hs Bool.false_ne_true

theorem event_step {a : Action} (hp : PendersKept k)
    (he : k.started .thread = false → k.pended .thread) (h : k.step a = some k')
    (hs : k'.started .thread = false) : k'.pended .thread := by
  cases a with
  | threadExecutor =>
    obtain ⟨-, handle, q, -, x, -, rfl⟩ := step_threadExecutor.mp h
    exact he hs
  | allocate prio =>
    obtain ⟨-, handle, q, -, x, -, rfl⟩ := step_allocate.mp h
    change Function.update k.started (.interrupt prio) false .thread = false at hs
    rw [Function.update_of_ne (by simp)] at hs
    exact he hs
  | spawn e => obtain ⟨-, x, -, rfl⟩ := step_spawn.mp h; exact he hs
  | start e =>
    obtain ⟨-, q, -, rfl⟩ := step_start.mp h
    change Function.update k.started e true .thread = false at hs
    cases e with
    | thread => exact absurd hs (by simp)
    | interrupt prio =>
      rw [Function.update_of_ne (by simp)] at hs
      change k.pend k.pended (.interrupt prio) .thread = true
      rw [pend_apply hp, Function.update_of_ne (by simp)]
      exact he hs
  | wake task => obtain ⟨e, -, x, -, rfl⟩ := step_wake.mp h; exact he hs
  | pend e =>
    obtain ⟨-, rfl⟩ := step_pend.mp h
    exact (foldl_pend hp [e] k.pended .thread).mpr (Or.inl (he hs))
  | exec e a =>
    obtain ⟨hperm, x, -, rfl⟩ := step_exec.mp h
    have hpend := he hs
    cases a with
    | enter =>
      have hne : ExecutorId.thread ≠ e := by
        rintro rfl
        change k.started .thread = false at hs
        simp [permits, hs] at hperm
      change Function.update k.pended e false .thread = true
      rwa [Function.update_of_ne hne]
    | _ => exact hpend
  | defaultHandler prio =>
    obtain ⟨-, rfl⟩ := step_defaultHandler.mp h
    change Function.update k.pended (.interrupt prio) false .thread = true
    rw [Function.update_of_ne (by simp)]
    exact he hs
  | timerInterrupt =>
    obtain ⟨cs, n, q, -, rfl⟩ := step_timerInterrupt.mp h
    exact (foldl_pend hp cs k.pended .thread).mpr (Or.inl (he hs))

theorem event_of_reachable (h : Reachable step (new : Kernel H A) k)
    (hs : k.started .thread = false) : k.pended .thread := by
  have hi : PendersKept k ∧ (k.started .thread = false → k.pended .thread = true) :=
    h.invariant
      (I := fun k => PendersKept k ∧ (k.started .thread = false → k.pended .thread = true))
      ⟨pendersKept_new, fun _ => rfl⟩
      fun _ _ _ hi hst => ⟨hi.1.step hst, event_step hi.1 hi.2 hst⟩
  exact hi.2 hs

/-- A step that meets the condition strands no task. -/
theorem ReadyInv.noneStranded_step {a : Action} (hi : ReadyInv k) (h : k.step a = some k')
    (hc : KeepsAwake k a) : NoneStranded k' := by
  obtain ⟨hr, hn⟩ := hi
  have hp := pendersKept_of_reachable hr
  have hn := noneStranded_iff.mp hn
  rw [noneStranded_iff]
  intro e hs hq hst
  cases a with
  | threadExecutor =>
    obtain ⟨hns, handle, q, -, x, -, rfl⟩ := step_threadExecutor.mp h
    have hne : e ≠ .thread := by
      rintro rfl
      exact absurd (hns.symm.trans hs) Bool.false_ne_true
    change (Function.update k.execs .thread x e).Stuck at hst
    rw [Function.update_of_ne hne] at hst
    exact hn e hs hq hst
  | allocate prio =>
    obtain ⟨-, handle, q, -, x, -, rfl⟩ := step_allocate.mp h
    change Function.update k.started _ false e = true at hs
    change (Function.update k.execs _ x e).Stuck at hst
    by_cases he : e = .interrupt prio
    · subst he
      rw [Function.update_self] at hs
      exact absurd hs Bool.false_ne_true
    · rw [Function.update_of_ne he] at hs hst
      exact hn e hs hq hst
  | spawn e' =>
    obtain ⟨-, x, hx, rfl⟩ := step_spawn.mp h
    change (Function.update k.execs e' x e).Stuck at hst
    by_cases he : e = e'
    · subst he
      rw [Function.update_self] at hst
      have hd : x.phase = (k.execs e).phase := by
        obtain ⟨-, q, -, rfl⟩ := Executor.step_spawn.mp hx
        rfl
      by_contra hpe
      have hdrain := hc ⟨hs, hq, Bool.eq_false_iff.mpr hpe⟩
      rw [← hd, hst.2] at hdrain
      exact Bool.false_ne_true hdrain
    · rw [Function.update_of_ne he] at hst
      exact hn e hs hq hst
  | start e' =>
    obtain ⟨⟨-, hth⟩, q, -, rfl⟩ := step_start.mp h
    change Function.update k.started e' true e = true at hs
    change k.pendedAfterStart e' e = true
    by_cases he : e = e'
    · subst he
      cases e with
      | thread => exact event_of_reachable hr (hth rfl)
      | interrupt prio =>
        change k.pend k.pended (.interrupt prio) (.interrupt prio) = true
        rw [pend_apply hp, Function.update_self]
    · rw [Function.update_of_ne he] at hs
      have hpe := hn e hs hq hst
      cases e' with
      | thread => exact hpe
      | interrupt prio =>
        change k.pend k.pended (.interrupt prio) e = true
        rw [pend_apply hp, Function.update_of_ne he]
        exact hpe
  | wake task =>
    obtain ⟨e', -, x, -, rfl⟩ := step_wake.mp h
    obtain ⟨hne, hq⟩ := not_or.mp (fun hor => hq (List.mem_cons.mpr hor))
    change (Function.update k.execs e' x e).Stuck at hst
    rw [Function.update_of_ne hne] at hst
    exact hn e hs hq hst
  | pend e' =>
    obtain ⟨-, rfl⟩ := step_pend.mp h
    change k.pend k.pended e' e = true
    rw [pend_apply hp]
    by_cases he : e = e'
    · rw [he, Function.update_self]
    · rw [Function.update_of_ne he]
      exact hn e hs (fun hm => hq ((List.mem_erase_of_ne he).mpr hm)) hst
  | exec e' a =>
    obtain ⟨hperm, x, hx, rfl⟩ := step_exec.mp h
    have hown := own_of_permits hperm
    change k.pendedAfter e' a e = true
    by_cases he : e = e'
    · subst he
      rw [execs_afterExec_self] at hst
      have hpe : k.pended e = true := by
        by_contra hpe
        have hroom := hc ⟨hs, hq, Bool.eq_false_iff.mpr hpe⟩
        exact hpe (hn e hs hq (hst.of_own hown hx hroom))
      cases a with
      | enter =>
        obtain ⟨-, rfl⟩ := Executor.step_enter.mp hx
        exact absurd hst.2 (by simp [Phase.draining])
      | _ => exact hpe
    · rw [execs_afterExec_of_ne he] at hst
      have hpe := hn e hs hq hst
      cases a with
      | enter =>
        change Function.update k.pended e' false e = true
        rwa [Function.update_of_ne he]
      | _ => exact hpe
  | defaultHandler prio =>
    obtain ⟨-, rfl⟩ := step_defaultHandler.mp h
    change Function.update k.pended (.interrupt prio) false e = true
    by_cases he : e = .interrupt prio
    · subst he
      exact absurd (hc hs hq) hst.1
    · rw [Function.update_of_ne he]
      exact hn e hs hq hst
  | timerInterrupt =>
    obtain ⟨cs, n, q, -, rfl⟩ := step_timerInterrupt.mp h
    exact (foldl_pend hp cs k.pended e).mpr (Or.inl (hn e hs hq hst))

theorem keepsAwake_of_noneStranded {a : Action} (hr : Reachable step new k)
    (h : k.step a = some k') (hn : NoneStranded k') : KeepsAwake k a := by
  cases a with
  | spawn e =>
    obtain ⟨-, x, hx, rfl⟩ := step_spawn.mp h
    rintro ⟨hs, hq, hpe⟩
    have hne := hn e hs hq
    change (Function.update k.execs e x e).base.runQueue.items ≠ [] →
      (Function.update k.execs e x e).phase.draining ∨ k.pended e at hne
    rw [Function.update_self, hpe] at hne
    obtain ⟨-, q, hq', rfl⟩ := Executor.step_spawn.mp hx
    exact (hne (by change q.items ≠ []; rw [hq']; exact List.cons_ne_nil _ _)).resolve_right
      Bool.false_ne_true
  | exec e a =>
    obtain ⟨hperm, x, hx, rfl⟩ := step_exec.mp h
    rintro ⟨hs, hq, hpe⟩
    refine Executor.hasRoom_of_not_stuck hx fun hst => ?_
    have hpend := noneStranded_iff.mp hn e hs hq (by rwa [execs_afterExec_self])
    change k.pendedAfter e a e = true at hpend
    cases a with
    | enter =>
      change Function.update k.pended e false e = true at hpend
      rw [Function.update_self] at hpend
      exact Bool.false_ne_true hpend
    | _ => exact absurd (hpe.symm.trans hpend) Bool.false_ne_true
  | defaultHandler prio =>
    obtain ⟨⟨-, hun⟩, rfl⟩ := step_defaultHandler.mp h
    intro hs hq
    by_contra hne
    have hidle := (unhandled_of_reachable hr hun).1
    have hpend := noneStranded_iff.mp hn _ hs hq ⟨hne, by rw [hidle]; rfl⟩
    change Function.update k.pended (.interrupt prio) false (.interrupt prio) = true at hpend
    rw [Function.update_self] at hpend
    exact Bool.false_ne_true hpend
  | _ => trivial

/-- **No ready task is stranded exactly when no task is spawned on a sleeping executor, no check of
a timer queue panics and no default handler is run for a waiting task.** In every run of the kernel:
`NoneStranded` holds in every state if and only if every spawn is on an executor that is not
started, is in a pass that has yet to find its run queue empty, or has a pend outstanding or about
to follow; every `check_timer_queue` of an executor that is not pended has room for the expired
tasks, if tasks wait besides; and no default handler takes the interrupt of a started executor with
waiting tasks. -/
theorem noneStranded_along_iff (tr : List (Kernel H A × Action)) (k : Kernel H A)
    (hr : Run step new tr k) : Along NoneStranded tr k ↔ AllSteps KeepsAwake tr := by
  refine Run.exact (I := ReadyInv) (B := fun _ => True) readyInv_new (fun _ h => h.none)
    (fun _ _ _ _ h => h) ?_ ?_ hr trivial
  · exact fun k a k' hi _ h hc => ⟨hi.reachable.tail h, hi.noneStranded_step h hc⟩
  · exact fun k a k' hi _ h hn => keepsAwake_of_noneStranded hi.reachable h hn

/-- `main` allocates and starts the executor of priority 2, which runs at once and finds nothing;
then it spawns a task on it. -/
def spawnLateRun : List Action :=
  [.allocate 2, .start (.interrupt 2)] ++
    [Executor.Action.enter, .readNow 0, .dequeueExpired, .enqueueReady, .popFront,
      .nextExpiration].map (.exec (.interrupt 2)) ++ [.spawn (.interrupt 2)]

/-- After `spawnLateRun` the task waits in the run queue and nothing will pop it. -/
theorem not_noneStranded_spawnLateRun : ∃ k : Kernel TimerHeap.list AlarmHeap.list,
    runList step new spawnLateRun = some k ∧ ¬ NoneStranded k := by
  obtain ⟨k, hk, hv⟩ := exists_of_map_runList
    (f := fun k => (k.started (.interrupt 2), k.enqueuing, k.pended (.interrupt 2),
      (k.execs (.interrupt 2)).base.runQueue.items, (k.execs (.interrupt 2)).phase))
    (s := (new : Kernel TimerHeap.list AlarmHeap.list)) (l := spawnLateRun)
    (b := (true, [], false, [0], .idle)) (r := step) (by decide)
  simp only [Prod.mk.injEq] at hv
  obtain ⟨hs, hq, hp, hr, hph⟩ := hv
  refine ⟨k, hk, fun hn => ?_⟩
  rcases hn (.interrupt 2) hs (by rw [hq]; exact List.not_mem_nil) (by rw [hr]; decide) with h | h
  · rw [hph] at h
    exact absurd h (by decide)
  · rw [hp] at h
    exact absurd h (by decide)

/-- The condition on a run of two executors. That of priority 2 is spawned on before its start and
runs; priority 5 has no handler, and its task is left behind. -/
theorem noneStranded_along_iff_twoPrios :
    ∃ (tr : List (Kernel TimerHeap.list AlarmHeap.list × Action))
      (k : Kernel TimerHeap.list AlarmHeap.list), Run step new tr k ∧
        tr.map Prod.snd = [.allocate 2, .spawn (.interrupt 2), .start (.interrupt 2)] ++
          [Executor.Action.enter, .readNow 0, .dequeueExpired, .enqueueReady, .popFront,
            .endPoll].map (.exec (.interrupt 2)) ++
          [.allocate 5, .spawn (.interrupt 5), .start (.interrupt 5), .defaultHandler 5] ∧
        (Along NoneStranded tr k ↔ AllSteps KeepsAwake tr) := by
  obtain ⟨k, hk, -⟩ := exists_of_map_runList (f := fun k => k.owner)
    (s := (new : Kernel TimerHeap.list AlarmHeap.list))
    (l := [.allocate 2, .spawn (.interrupt 2), .start (.interrupt 2)] ++
      [Executor.Action.enter, .readNow 0, .dequeueExpired, .enqueueReady, .popFront,
        .endPoll].map (.exec (.interrupt 2)) ++
      [.allocate 5, .spawn (.interrupt 5), .start (.interrupt 5), .defaultHandler 5])
    (b := [.interrupt 2, .interrupt 5]) (r := step) (by decide)
  obtain ⟨tr, hr, ha⟩ := exists_run_of_runList hk
  exact ⟨tr, k, hr, ha, noneStranded_along_iff tr k hr⟩

end Kernel

end AurixAsync
