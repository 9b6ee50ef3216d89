import AurixAsync.Executor.Queues
import AurixAsync.Sync.Select

/-!
# Arming the timers of a poll

All timers of a task share the `expires_at` of its header, and `update_timer_queue` turns what is
left there into one entry of a bounded queue.

* `Arming`, `armStep`: the executor with the timers of the poll in progress; the end of a poll
  names the future that was polled.
* `Armed`: after the end of a poll, an entry covers every timer still awaited.
* `ArmsEarliest`: the polls that keep it so.
* `armed_along_iff`: a run keeps `Armed` if and only if each of its steps is one of these.
-/

namespace AurixAsync

namespace Executor

open Transition

variable {H : TimerHeap}

/-- An executor, the timers met since its last pop, and, just after the end of a poll, the task
polled with the deadlines it still awaits. -/
structure Arming (H : TimerHeap) where
  exec : Executor H
  timers : List (ℕ × ℕ)
  polled : Option (TaskRef × List ℕ)

/-- A new executor polls no task. -/
def Arming.new (pender : Pender) (handle : Option AlarmHandle) : Arming H :=
  ⟨Executor.new pender handle, [], none⟩

/-- The end of the poll of a future, with the clock readings of that poll, or another action. -/
inductive ArmAction
  | endPoll (f : Fut) (clock : ℕ → ℕ)
  | other (a : Action)

/-- The timers that the poll in progress has met, after an action. -/
def timersAfter (timers : List (ℕ × ℕ)) : Action → List (ℕ × ℕ)
  | .popFront => []
  | .pollTimer now n => timers ++ [(now, n)]
  | _ => timers

/-- The steps of the executor, where the end of a poll is that of a poll of `f`: the timers that `f`
meets were polled, in this order. -/
def armStep (s : Arming H) : ArmAction → Option (Arming H)
  | .other a =>
    if a = .endPoll then none
    else (s.exec.step a).map fun x' => ⟨x', timersAfter s.timers a, none⟩
  | .endPoll f clock =>
    match s.exec.phase with
    | .polling task =>
      -- the poll met just the timers that this future polls
      if (f.poll clock 0).timers = s.timers then
        (s.exec.step .endPoll).map fun x' => ⟨x', s.timers, some (task, (f.poll clock 0).awaiting)⟩
      else none
    | _ => none

/-- The queue has an entry for the task that is due no later than each of these deadlines. -/
def Covers (e : BaseExecutor H) (task : TaskRef) (deadlines : List ℕ) : Prop :=
  ∃ i ∈ e.timerQueue.items, i.waker = task ∧ ∀ d ∈ deadlines, i.expiresAt ≤ d

/-- If a poll just ended, an entry of the task covers every timer it left awaited. -/
def Armed (s : Arming H) : Prop :=
  ∀ task awaiting, s.polled = some (task, awaiting) →
    awaiting = [] ∨ Covers s.exec.base task awaiting

/-- The condition on the end of a poll that leaves timers awaited: an older entry of the task
covers them, or the queue has a free place and the last timer found pending is due no later than
any of them. -/
def ArmsEarliest (s : Arming H) : ArmAction → Prop
  | .endPoll f clock =>
    ∀ task, s.exec.phase = .polling task →
      let p := f.poll clock 0
      p.awaiting = [] ∨ Covers s.exec.base task p.awaiting ∨
        s.exec.base.timerQueue.items.card ≠ N_TIMERS ∧
          ∃ n, lastPending p.timers = some n ∧ ∀ d ∈ p.awaiting, n ≤ d
  | .other _ => True

/-- The header of the task under poll holds the last pending deadline of this poll. -/
structure HeaderInv (s : Arming H) : Prop where
  wf : s.exec.Wf
  header : ∀ t, s.exec.phase = .polling t → s.exec.expiresAt t = lastPending s.timers

variable {s s' : Arming H}

theorem armStep_other {a : Action} : armStep s (.other a) = some s' ↔
    a ≠ .endPoll ∧ ∃ x', s.exec.step a = some x' ∧ s' = ⟨x', timersAfter s.timers a, none⟩ := by
  rw [armStep]
  by_cases h : a = .endPoll
  · rw [if_pos h]
    exact ⟨fun e => absurd e (by simp), fun ⟨hn, _⟩ => absurd h hn⟩
  · rw [if_neg h, Option.map_eq_some_iff]
    exact ⟨fun ⟨x', hx, e⟩ => ⟨h, x', hx, e.symm⟩, fun ⟨_, x', hx, e⟩ => ⟨x', hx, e.symm⟩⟩

theorem armStep_endPoll {f : Fut} {clock : ℕ → ℕ} : armStep s (.endPoll f clock) = some s' ↔
    ∃ task, s.exec.phase = .polling task ∧ (f.poll clock 0).timers = s.timers ∧
      s' = ⟨{ s.exec with base := s.exec.base.updateTimerQueue task (s.exec.expiresAt task),
                          phase := .popFront },
        s.timers, some (task, (f.poll clock 0).awaiting)⟩ := by
  simp only [armStep]
  split
  · rename_i task hp
    constructor
    · intro h
      split_ifs at h with ht
      obtain ⟨x', hx, rfl⟩ := Option.map_eq_some_iff.mp h
      obtain ⟨task', hp', rfl⟩ := step_endPoll.mp hx
      obtain rfl := Phase.polling.inj (hp.symm.trans hp')
      exact ⟨task, hp, ht, rfl⟩
    · rintro ⟨task', hp', ht, rfl⟩
      obtain rfl := Phase.polling.inj (hp.symm.trans hp')
      rw [if_pos ht, Option.map_eq_some_iff]
      exact ⟨_, step_endPoll.mpr ⟨task, hp, rfl⟩, rfl⟩
  · rename_i hp
    exact ⟨fun h => absurd h (by simp), fun ⟨t, ht, _⟩ => absurd ht (hp t)⟩

theorem HeaderInv.other {a : Action} (hi : HeaderInv s) (h : armStep s (.other a) = some s') :
    HeaderInv s' := by
  obtain ⟨hne, x', hx, rfl⟩ := armStep_other.mp h
  refine ⟨hi.wf.step hx, ?_⟩
  intro t ht
  change x'.phase = .polling t at ht
  change x'.expiresAt t = lastPending (timersAfter s.timers a)
  cases a with
  | spawn task =>
    obtain ⟨hn, q, -, rfl⟩ := step_spawn.mp hx
    -- the task under poll is none of the new ones
    have hne : t ≠ task := fun e => hn (e ▸ hi.wf.polling t ht)
    change Function.update s.exec.expiresAt task none t = _
    rw [Function.update_of_ne hne]
    exact hi.header t ht
  | wake task => obtain ⟨-, rfl⟩ := step_wake.mp hx; exact hi.header t ht
  | overwrite handle => obtain rfl := step_overwrite.mp hx; exact hi.header t ht
  | registerAlarm handle => obtain rfl := step_registerAlarm.mp hx; exact hi.header t ht
  | enter => obtain ⟨-, rfl⟩ := step_enter.mp hx; exact absurd ht (by simp)
  | readNow now => obtain ⟨-, rfl⟩ := step_readNow.mp hx; exact absurd ht (by simp)
  | dequeueExpired =>
    obtain ⟨-, -, ⟨r, b, -, rfl⟩ | ⟨-, rfl⟩⟩ := step_dequeueExpired.mp hx
    all_goals exact absurd ht (by simp)
  | enqueueReady =>
    obtain ⟨-, -, ⟨b, -, rfl⟩ | ⟨-, rfl⟩⟩ := step_enqueueReady.mp hx
    all_goals exact absurd ht (by simp)
  | popFront =>
    obtain ⟨-, ⟨task, q, -, rfl⟩ | ⟨-, rfl⟩⟩ := step_popFront.mp hx
    · obtain rfl := Phase.polling.inj ht
      change Function.update s.exec.expiresAt task none task = lastPending []
      rw [Function.update_self, lastPending_nil]
    · exact absurd ht (by simp)
  | pollTimer now n =>
    obtain ⟨task, hp, rfl⟩ := step_pollTimer.mp hx
    obtain rfl := Phase.polling.inj (hp.symm.trans ht)
    change Function.update s.exec.expiresAt task _ task = lastPending (s.timers ++ [(now, n)])
    rw [Function.update_self, lastPending_snoc, hi.header task hp]
  | endPoll => exact absurd rfl hne
  | nextExpiration =>
    obtain ⟨-, ⟨n, -, rfl⟩ | ⟨-, rfl⟩⟩ := step_nextExpiration.mp hx
    all_goals exact absurd ht (by simp)
  | setAlarm =>
    obtain ⟨n, -, ⟨k, -, rfl⟩ | ⟨-, rfl⟩⟩ := step_setAlarm.mp hx
    all_goals exact absurd ht (by simp)

theorem HeaderInv.step {a : ArmAction} (hi : HeaderInv s) (h : armStep s a = some s') :
    HeaderInv s' := by
  cases a with
  | other a => exact hi.other h
  | endPoll f clock =>
    obtain ⟨task, hp, -, rfl⟩ := armStep_endPoll.mp h
    exact ⟨hi.wf.step (step_endPoll.mpr ⟨task, hp, rfl⟩), fun t ht => absurd ht (by simp)⟩

/-- **What `update_timer_queue` covers**: what an older entry of the task covered, or what the
deadline of its header covers if there is a place for it. -/
theorem covers_updateTimerQueue {e : BaseExecutor H} {task : TaskRef} {header : Option ℕ}
    {deadlines : List ℕ} : Covers (e.updateTimerQueue task header) task deadlines ↔
      Covers e task deadlines ∨ e.timerQueue.items.card ≠ N_TIMERS ∧
        ∃ n, header = some n ∧ ∀ d ∈ deadlines, n ≤ d := by
  cases header with
  | none => simp
  | some n =>
    rw [Covers, BaseExecutor.items_updateTimerQueue]
    by_cases hf : e.timerQueue.items.card = N_TIMERS
    · rw [if_pos hf]
      exact ⟨Or.inl, fun h => h.resolve_right fun h' => h'.1 hf⟩
    · rw [if_neg hf]
      constructor
      · rintro ⟨i, hi, hw, hd⟩
        rcases Multiset.mem_cons.mp hi with rfl | hi
        · exact Or.inr ⟨hf, n, rfl, hd⟩
        · exact Or.inl ⟨i, hi, hw, hd⟩
      · rintro (⟨i, hi, hw, hd⟩ | ⟨-, m, hm, hd⟩)
        · exact ⟨i, Multiset.mem_cons_of_mem hi, hw, hd⟩
        · obtain rfl := Option.some.inj hm
          exact ⟨⟨n, task⟩, Multiset.mem_cons_self _ _, rfl, hd⟩

/-- The end of a poll covers the timers it left awaited exactly when it meets the condition. -/
theorem armed_endPoll_iff {f : Fut} {clock : ℕ → ℕ} (hi : HeaderInv s)
    (h : armStep s (.endPoll f clock) = some s') :
    Armed s' ↔ ArmsEarliest s (.endPoll f clock) := by
  obtain ⟨task, hp, ht, rfl⟩ := armStep_endPoll.mp h
  have hcov : Covers (s.exec.base.updateTimerQueue task (s.exec.expiresAt task)) task
        (f.poll clock 0).awaiting ↔
      Covers s.exec.base task (f.poll clock 0).awaiting ∨
        s.exec.base.timerQueue.items.card ≠ N_TIMERS ∧
          ∃ n, lastPending (f.poll clock 0).timers = some n ∧
            ∀ d ∈ (f.poll clock 0).awaiting, n ≤ d := by
    rw [ht, ← hi.header task hp]
    exact covers_updateTimerQueue
  constructor
  · intro hg task' hp'
    obtain rfl := Phase.polling.inj (hp.symm.trans hp')
    exact (hg task _ rfl).imp_right hcov.mp
  · intro hc task' awaiting he
    obtain ⟨rfl, rfl⟩ := Prod.mk.inj (Option.some.inj he)
    exact (hc task hp).imp_right hcov.mpr

theorem armed_of_polled_eq_none (h : s.polled = none) : Armed s := by
  intro task awaiting he
  rw [h] at he
  exact absurd he (by simp)

/-- **A poll covers its timers exactly when the one written last is the earliest.** In every run:
after every poll, the timers still awaited are covered by an entry of the task, if and only if at
the end of every poll that leaves timers awaited an older entry covers them, or the queue is not
full and the last timer found pending is due no later than any of them. -/
theorem armed_along_iff (pender : Pender) (handle : Option AlarmHandle)
    (tr : List (Arming H × ArmAction)) (s : Arming H)
    (hr : Run armStep (Arming.new pender handle) tr s) :
    Along Armed tr s ↔ AllSteps ArmsEarliest tr := by
  refine Run.exact (I := fun s => HeaderInv s ∧ Armed s) (B := fun _ => True) ?_
    (fun _ h => h.2) (fun _ _ _ _ h => h) ?_ ?_ hr trivial
  · exact ⟨⟨wf_new pender handle, fun t ht => absurd ht (by simp [Arming.new, Executor.new])⟩,
      armed_of_polled_eq_none rfl⟩
  · intro s a s' hi _ h hc
    refine ⟨hi.1.step h, ?_⟩
    cases a with
    | endPoll f clock => exact (armed_endPoll_iff hi.1 h).mpr hc
    | other a =>
      obtain ⟨-, x', -, rfl⟩ := armStep_other.mp h
      exact armed_of_polled_eq_none rfl
  · intro s a s' hi _ h hg
    cases a with
    | endPoll f clock => exact (armed_endPoll_iff hi.1 h).mp hg
    | other a => trivial

/-- One task is spawned and popped. -/
def popRun : List Action :=
  [.spawn 0, .enter, .readNow 0, .dequeueExpired, .enqueueReady, .popFront]

/-- Its first poll, at tick 0. -/
def armRun (timers : List ℕ) (f : Fut) : List ArmAction :=
  (popRun ++ timers.map (Action.pollTimer 0)).map .other ++ [.endPoll f fun _ => 0]

/-- A task that selects over timers of 10 and of 100 ticks gets one entry, at 100. -/
theorem not_armed_select : ∃ s : Arming TimerHeap.list,
    runList armStep (Arming.new .threadExecutorPender (some ⟨0⟩))
      (armRun [10, 100] (.select (.timer ⟨10⟩) (.timer ⟨100⟩))) = some s ∧ ¬ Armed s := by
  obtain ⟨s, hs, hv⟩ := exists_of_map_runList
    (f := fun s => (s.polled, s.exec.base.timerQueue.queue.1))
    (s := (Arming.new .threadExecutorPender (some ⟨0⟩) : Arming TimerHeap.list))
    (l := armRun [10, 100] (.select (.timer ⟨10⟩) (.timer ⟨100⟩)))
    (b := (some (0, [10, 100]), [⟨100, 0⟩])) (r := armStep) (by decide)
  obtain ⟨hp, hq⟩ := Prod.mk.inj hv
  refine ⟨s, hs, fun hg => ?_⟩
  rcases hg 0 [10, 100] hp with h | ⟨i, hi, -, hd⟩
  · exact absurd h (by simp)
  · change i ∈ (s.exec.base.timerQueue.queue.1 : Multiset TimerQueueItem) at hi
    rw [hq] at hi
    obtain rfl := List.mem_singleton.mp (Multiset.mem_coe.mp hi)
    exact absurd (hd 10 (by simp)) (by decide)

/-- The same select the other way round is covered. -/
theorem armed_along_iff_select : ∃ (tr : List (Arming TimerHeap.list × ArmAction))
    (s : Arming TimerHeap.list), Run armStep (Arming.new .threadExecutorPender (some ⟨0⟩)) tr s ∧
      tr.length = 9 ∧ (Along Armed tr s ↔ AllSteps ArmsEarliest tr) := by
  obtain ⟨s, hs, -⟩ := exists_of_map_runList
    (f := fun s => s.exec.base.timerQueue.queue.1)
    (s := (Arming.new .threadExecutorPender (some ⟨0⟩) : Arming TimerHeap.list))
    (l := armRun [100, 10] (.select (.timer ⟨100⟩) (.timer ⟨10⟩)))
    (b := [⟨10, 0⟩]) (r := armStep) (by decide)
  obtain ⟨tr, hr, ha⟩ := exists_run_of_runList hs
  refine ⟨tr, s, hr, ?_, armed_along_iff _ _ tr s hr⟩
  rw [← List.length_map (f := Prod.snd), ha]
  rfl

end Executor

end AurixAsync
