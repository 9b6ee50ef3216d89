import AurixAsync.Kernel.Tick

/-!
# Timers and the uptime

`TICKS` counts the timer interrupts in 32 bits, and a `Timer` holds a deadline of 64 bits.

* `Timer.afterTicks`: the code, `none` for the overflow of the sum.
* `Clocked`: the kernel with what `Kernel::now()` gave after each number of timer interrupts, and
  the timer entries that `check_timer_queue` found expired.
* `SurvivesUptime`: a timer of `n` ticks is ready exactly `n` interrupts after it was made, the
  clock never goes back, and an entry that expired stays ready.
* `NoWrap`: the timer interrupts that keep it so.
* `survivesUptime_along_iff`: a run keeps `SurvivesUptime` if and only if each of its timer
  interrupts is one of these.
* `pending_of_le`: a deadline the counter cannot reach is never met.
-/

namespace AurixAsync

/-- `after_ticks`, where `Kernel::now()` reads `now`. -/
def Timer.afterTicks (now ticks : ℕ) : Option Timer :=
  if now + ticks < 2 ^ 64 then some ⟨now + ticks⟩ else none

theorem Timer.poll_eq_ready {t : Timer} {now : ℕ} {header : Option ℕ} :
    (t.poll now header).1 = .ready ↔ t.expiresAt ≤ now := by
  unfold Timer.poll
  split_ifs with h
  · exact ⟨fun _ => h, fun _ => rfl⟩
  · exact ⟨fun e => absurd e (by simp), fun e => absurd e h⟩

theorem Executor.readNow_of_phase {H : TimerHeap} {x x' : Executor H} {a : Executor.Action} {n : ℕ}
    (h : x.step a = some x') (hp : x'.phase = .dequeueExpired n) :
    a = .readNow n ∨ x.phase = .dequeueExpired n := by
  cases a with
  | readNow now =>
    obtain ⟨-, rfl⟩ := step_readNow.mp h
    obtain rfl := Phase.dequeueExpired.inj hp
    exact Or.inl rfl
  | spawn task => obtain ⟨-, q, -, rfl⟩ := step_spawn.mp h; exact Or.inr hp
  | wake task => obtain ⟨-, rfl⟩ := step_wake.mp h; exact Or.inr hp
  | overwrite handle => obtain rfl := step_overwrite.mp h; exact Or.inr hp
  | registerAlarm handle => obtain rfl := step_registerAlarm.mp h; exact Or.inr hp
  | pollTimer now m => obtain ⟨t, -, rfl⟩ := step_pollTimer.mp h; exact Or.inr hp
  | enter => obtain ⟨-, rfl⟩ := step_enter.mp h; exact absurd hp (by simp)
  | dequeueExpired =>
    obtain ⟨now, -, ⟨r, b, -, rfl⟩ | ⟨-, rfl⟩⟩ := step_dequeueExpired.mp h
    all_goals exact absurd hp (by simp)
  | enqueueReady =>
    obtain ⟨ready, -, ⟨b, -, rfl⟩ | ⟨-, rfl⟩⟩ := step_enqueueReady.mp h
    all_goals exact absurd hp (by simp)
  | popFront =>
    obtain ⟨-, ⟨t, q, -, rfl⟩ | ⟨-, rfl⟩⟩ := step_popFront.mp h
    all_goals exact absurd hp (by simp)
  | endPoll => obtain ⟨t, -, rfl⟩ := step_endPoll.mp h; exact absurd hp (by simp)
  | nextExpiration =>
    obtain ⟨-, ⟨m, -, rfl⟩ | ⟨-, rfl⟩⟩ := step_nextExpiration.mp h
    all_goals exact absurd hp (by simp)
  | setAlarm =>
    obtain ⟨m, -, ⟨handle, -, rfl⟩ | ⟨-, rfl⟩⟩ := step_setAlarm.mp h
    all_goals exact absurd hp (by simp)

namespace Kernel

open Transition

variable {H : TimerHeap} {A : AlarmHeap} {k k' : Kernel H A}

theorem now_lt (k : Kernel H A) : k.now < 2 ^ 32 := k.ticks.toNat_lt

/-- **A deadline from `2 ^ 32` on is never met**, in whatever state the timer is polled. -/
theorem pending_of_le {t : Timer} (ht : 2 ^ 32 ≤ t.expiresAt) (header : Option ℕ) :
    (t.poll k.now header).1 = .pending := by
  have hlt := k.now_lt
  cases hp : (t.poll k.now header).1 with
  | pending => rfl
  | ready =>
    have hle := Timer.poll_eq_ready.mp hp
    omega

theorem ticks_of_step {a : Action} (ha : a ≠ .timerInterrupt) (h : k.step a = some k') :
    k'.ticks = k.ticks := by
  cases a with
  | threadExecutor => obtain ⟨-, handle, q, -, x, -, rfl⟩ := step_threadExecutor.mp h; rfl
  | allocate prio => obtain ⟨-, handle, q, -, x, -, rfl⟩ := step_allocate.mp h; rfl
  | spawn e => obtain ⟨-, x, -, rfl⟩ := step_spawn.mp h; rfl
  | start e => obtain ⟨-, q, -, rfl⟩ := step_start.mp h; rfl
  | wake task => obtain ⟨e, -, x, -, rfl⟩ := step_wake.mp h; rfl
  | pend e => obtain ⟨-, rfl⟩ := step_pend.mp h; rfl
  | exec e b => obtain ⟨-, x, -, rfl⟩ := step_exec.mp h; rfl
  | defaultHandler prio => obtain ⟨-, rfl⟩ := step_defaultHandler.mp h; rfl
  | timerInterrupt => exact absurd rfl ha

theorem readNow_of_phase {a : Action} {e : ExecutorId} {n : ℕ} (h : k.step a = some k')
    (hp : (k'.execs e).phase = .dequeueExpired n) :
    n = k.now ∨ (k.execs e).phase = .dequeueExpired n := by
  have hupd : ∀ {e' : ExecutorId} {b : Executor.Action} {x : Executor H},
      (k.execs e').step b = some x → k'.execs = Function.update k.execs e' x →
        (b = .readNow n → n = k.now) → n = k.now ∨ (k.execs e).phase = .dequeueExpired n := by
    intro e' b x hx he hb
    rw [he] at hp
    by_cases hee : e = e'
    · subst hee
      rw [Function.update_self] at hp
      exact (Executor.readNow_of_phase hx hp).imp_left hb
    · rw [Function.update_of_ne hee] at hp
      exact Or.inr hp
  cases a with
  | threadExecutor =>
    obtain ⟨-, handle, q, -, x, hx, rfl⟩ := step_threadExecutor.mp h
    exact hupd hx rfl fun hb => absurd hb (by simp)
  | allocate prio =>
    obtain ⟨-, handle, q, -, x, hx, rfl⟩ := step_allocate.mp h
    exact hupd hx rfl fun hb => absurd hb (by simp)
  | spawn e' =>
    obtain ⟨-, x, hx, rfl⟩ := step_spawn.mp h
    exact hupd hx rfl fun hb => absurd hb (by simp)
  | start e' => obtain ⟨-, q, -, rfl⟩ := step_start.mp h; exact Or.inr hp
  | wake task =>
    obtain ⟨e', -, x, hx, rfl⟩ := step_wake.mp h
    exact hupd hx rfl fun hb => absurd hb (by simp)
  | pend e' => obtain ⟨-, rfl⟩ := step_pend.mp h; exact Or.inr hp
  | exec e' b =>
    obtain ⟨hperm, x, hx, rfl⟩ := step_exec.mp h
    refine hupd hx rfl fun hb => ?_
    subst hb
    exact of_decide_eq_true hperm
  | defaultHandler prio => obtain ⟨-, rfl⟩ := step_defaultHandler.mp h; exact Or.inr hp
  | timerInterrupt => obtain ⟨cs, m, q, -, rfl⟩ := step_timerInterrupt.mp h; exact Or.inr hp

/-! ### The clock along a run -/

/-- The kernel with its history: `readings` lists what `Kernel::now()` reads after no timer
interrupt, after one, and so on; `expired` the entries taken out by `check_timer_queue`. -/
structure Clocked (H : TimerHeap) (A : AlarmHeap) where
  kernel : Kernel H A
  readings : List ℕ
  expired : List TimerQueueItem

/-- The entries that an action takes out of a timer queue. -/
def expiredBy (k : Kernel H A) : Action → List TimerQueueItem
  | .exec e .dequeueExpired =>
    match (k.execs e).phase with
    | .dequeueExpired now => ((k.execs e).base.timerQueue.dequeueExpired now).1
    | _ => []
  | _ => []

namespace Clocked

/-- A new kernel, whose clock was read once. -/
def new : Clocked H A := ⟨.new, [(Kernel.new : Kernel H A).now], []⟩

/-- A step of the kernel. A timer interrupt makes a new reading, and what a `check_timer_queue`
takes out is recorded. -/
def step (s : Clocked H A) (a : Action) : Option (Clocked H A) :=
  (s.kernel.step a).map fun k =>
    { kernel := k
      readings := if a = .timerInterrupt then s.readings ++ [k.now] else s.readings
      expired := s.expired ++ s.kernel.expiredBy a }

/-- A timer made after `k` interrupts and polled now, `m` interrupts later, is ready exactly if it
is one of at most `m` ticks; the clock has never gone back; and the timer of an entry that expired
is ready. -/
structure SurvivesUptime (s : Clocked H A) : Prop where
  ready : ∀ k m n r, s.readings[k]? = some r → k + m + 1 = s.readings.length → k + n < 2 ^ 64 →
    ∃ t, Timer.afterTicks r n = some t ∧
      ∀ header, (t.poll s.kernel.now header).1 = .ready ↔ n ≤ m
  monotone : s.readings.Pairwise (· ≤ ·)
  expired : ∀ i ∈ s.expired, ∀ header,
    (Timer.poll ⟨i.expiresAt⟩ s.kernel.now header).1 = .ready

/-- The condition on a timer interrupt: `TICKS` does not wrap around. -/
def NoWrap (s : Clocked H A) : Action → Prop
  | .timerInterrupt => s.kernel.now + 1 < 2 ^ 32
  | _ => True

/-- The clock counts the interrupts, and no executor has read a later time. -/
structure ClockInv (s : Clocked H A) : Prop where
  readings : s.readings = List.range (s.kernel.now + 1)
  phase : ∀ e n, (s.kernel.execs e).phase = .dequeueExpired n → n ≤ s.kernel.now
  expired : ∀ i ∈ s.expired, i.expiresAt ≤ s.kernel.now

variable {s s' : Clocked H A}

theorem step_eq_some {a : Action} : s.step a = some s' ↔
    ∃ k, s.kernel.step a = some k ∧
      { kernel := k
        readings := if a = .timerInterrupt then s.readings ++ [k.now] else s.readings
        expired := s.expired ++ s.kernel.expiredBy a } = s' := by
  rw [step, Option.map_eq_some_iff]

theorem clockInv_new : ClockInv (new : Clocked H A) where
  readings := rfl
  phase := fun _ _ h => absurd h (by simp [new, Kernel.new, Executor.new])
  expired := fun _ h => absurd h List.not_mem_nil

theorem ClockInv.survivesUptime (hi : ClockInv s) : SurvivesUptime s where
  ready := by
    intro k m n r hr hlen hlt
    rw [hi.readings, List.length_range] at hlen
    rw [hi.readings, List.getElem?_range (by omega)] at hr
    obtain rfl := Option.some.inj hr
    refine ⟨⟨k + n⟩, if_pos hlt, fun header => ?_⟩
    rw [Timer.poll_eq_ready]
    show k + n ≤ s.kernel.now ↔ n ≤ m
    omega
  monotone := by
    rw [hi.readings]
    exact List.pairwise_lt_range.imp Nat.le_of_lt
  expired := fun i him _ => Timer.poll_eq_ready.mpr (hi.expired i him)

/-- What `check_timer_queue` takes out is due by the clock it read, and so by the clock. -/
theorem ClockInv.expiredBy_le (hi : ClockInv s) {a : Action} {i : TimerQueueItem}
    (h : i ∈ s.kernel.expiredBy a) : i.expiresAt ≤ s.kernel.now := by
  unfold expiredBy at h
  split at h
  · rename_i e
    split at h
    · rename_i now hp
      exact (TimerQueue.mem_dequeueExpired.mp h).2.trans (hi.phase e now hp)
    · exact absurd h List.not_mem_nil
  · exact absurd h List.not_mem_nil

theorem ClockInv.timerInterrupt (hi : ClockInv s) (h : s.step .timerInterrupt = some s')
    (hc : s.kernel.now + 1 < 2 ^ 32) : ClockInv s' := by
  obtain ⟨k, hk, rfl⟩ := step_eq_some.mp h
  obtain ⟨cs, n, q, -, hk'⟩ := step_timerInterrupt.mp hk
  have hnow : k.now = s.kernel.now + 1 := by
    rw [now_timerInterrupt hk, nextTick, if_pos hc]
  refine ⟨?_, fun e m hp => ?_, fun i him => ?_⟩
  · show s.readings ++ [k.now] = List.range (k.now + 1)
    rw [hi.readings, hnow]
    exact List.range_succ.symm
  · have hp' : (s.kernel.execs e).phase = .dequeueExpired m := by
      rw [← hk'] at hp
      exact hp
    have hle := hi.phase e m hp'
    show m ≤ k.now
    omega
  · show i.expiresAt ≤ k.now
    have hle : i.expiresAt ≤ s.kernel.now := by
      rcases List.mem_append.mp him with him | him
      · exact hi.expired i him
      · exact hi.expiredBy_le him
    omega

theorem ClockInv.step {a : Action} (hi : ClockInv s) (h : s.step a = some s')
    (hc : NoWrap s a) : ClockInv s' := by
  by_cases ha : a = .timerInterrupt
  · subst ha
    exact hi.timerInterrupt h hc
  · obtain ⟨k, hk, rfl⟩ := step_eq_some.mp h
    have hnow : k.now = s.kernel.now := by
      unfold now
      rw [ticks_of_step ha hk]
    refine ⟨?_, fun e m hp => ?_, fun i him => ?_⟩
    · show (if a = .timerInterrupt then s.readings ++ [k.now] else s.readings) = _
      rw [if_neg ha, hi.readings]
      show _ = List.range (k.now + 1)
      rw [hnow]
    · show m ≤ k.now
      rw [hnow]
      rcases readNow_of_phase hk hp with rfl | hp
      · exact Nat.le_refl _
      · exact hi.phase e m hp
    · show i.expiresAt ≤ k.now
      rw [hnow]
      rcases List.mem_append.mp him with him | him
      · exact hi.expired i him
      · exact hi.expiredBy_le him

theorem noWrap_of_survivesUptime {a : Action} (hi : ClockInv s) (h : s.step a = some s')
    (hg : SurvivesUptime s') : NoWrap s a := by
  cases a with
  | timerInterrupt =>
    by_contra hwrap
    change ¬ s.kernel.now + 1 < 2 ^ 32 at hwrap
    obtain ⟨k, hk, rfl⟩ := step_eq_some.mp h
    have hnow : k.now = 0 := by
      rw [now_timerInterrupt hk, nextTick, if_neg hwrap]
    have hmono := hg.monotone
    change (s.readings ++ [k.now]).Pairwise _ at hmono
    rw [hi.readings] at hmono
    have hle := (List.pairwise_append.mp hmono).2.2 s.kernel.now
      (List.mem_range.mpr (Nat.lt_succ_self _)) k.now (List.mem_singleton_self _)
    omega
  | _ => trivial

/-- **Timers survive the uptime exactly as long as the tick counter does not wrap around.** In
every run of the kernel: `SurvivesUptime` holds in every state if and only if no timer interrupt
of the run finds the counter at `2 ^ 32 - 1`. -/
theorem survivesUptime_along_iff (tr : List (Clocked H A × Action)) (s : Clocked H A)
    (hr : Run step new tr s) : Along SurvivesUptime tr s ↔ AllSteps NoWrap tr := by
  refine Run.exact (I := ClockInv) (B := fun _ => True) clockInv_new
    (fun _ h => h.survivesUptime) (fun _ _ _ _ h => h) ?_ ?_ hr trivial
  · exact fun s a s' hi _ h hc => hi.step h hc
  · exact fun s a s' hi _ h hg => noWrap_of_survivesUptime hi h hg

/-! ### The wrap of the counter -/

theorem reachable_kernel (h : Reachable step (new : Clocked H A) s) :
    Reachable Kernel.step (Kernel.new : Kernel H A) s.kernel := by
  refine h.invariant (I := fun s => Reachable Kernel.step Kernel.new s.kernel) .refl ?_
  intro s a s' hs hst
  obtain ⟨k, hk, rfl⟩ := step_eq_some.mp hst
  exact hs.tail hk

/-- Timer interrupts and nothing else, up to the last tick of the counter. -/
theorem exists_interrupts (n : ℕ) (hn : n < 2 ^ 32) :
    ∃ tr s, Run step (new : Clocked H A) tr s ∧
      tr.map Prod.snd = List.replicate n Action.timerInterrupt ∧ s.kernel.now = n ∧ ClockInv s := by
  induction n with
  | zero => exact ⟨[], new, .nil, rfl, rfl, clockInv_new⟩
  | succ n ih =>
    obtain ⟨tr, s, hr, ha, hnow, hi⟩ := ih (Nat.lt_of_succ_lt hn)
    obtain ⟨k, hk⟩ := exists_timerInterrupt (reachable_kernel ⟨tr, hr⟩)
    have hst := step_eq_some.mpr ⟨k, hk, rfl⟩
    have hlt : s.kernel.now + 1 < 2 ^ 32 := by
      rw [hnow]
      exact hn
    refine ⟨_, _, hr.snoc hst, ?_, ?_, hi.timerInterrupt hst hlt⟩
    · rw [List.map_append, ha, List.replicate_succ']
      rfl
    · show k.now = n + 1
      rw [now_timerInterrupt hk, nextTick, if_pos hlt, hnow]

/-- After `2 ^ 32` timer interrupts a timer of one tick, made before the last of them, is
pending. -/
theorem not_survivesUptime_wrap :
    ∃ (tr : List (Clocked TimerHeap.list AlarmHeap.list × Action)) (s : _),
      Run step new tr s ∧ tr.map Prod.snd = List.replicate (2 ^ 32) Action.timerInterrupt ∧
        ¬ SurvivesUptime s := by
  obtain ⟨tr, s, hr, ha, hnow, hi⟩ := exists_interrupts (H := TimerHeap.list) (A := AlarmHeap.list)
    (2 ^ 32 - 1) (by omega)
  obtain ⟨k, hk⟩ := exists_timerInterrupt (reachable_kernel ⟨tr, hr⟩)
  have hst := step_eq_some.mpr ⟨k, hk, rfl⟩
  refine ⟨_, _, hr.snoc hst, ?_, fun hg => ?_⟩
  · rw [List.map_append, ha]
    exact (List.replicate_succ' (n := 2 ^ 32 - 1)).symm
  · have hlen : s.readings.length = 2 ^ 32 := by
      rw [hi.readings, List.length_range, hnow]
      omega
    obtain ⟨t, ht, hready⟩ := hg.ready (2 ^ 32 - 1) 1 1 (2 ^ 32 - 1)
      (by
        show (s.readings ++ [k.now])[2 ^ 32 - 1]? = _
        rw [List.getElem?_append_left (by omega), hi.readings, List.getElem?_range (by omega)])
      (by
        show _ = (s.readings ++ [k.now]).length
        rw [List.length_append, hlen]
        rfl)
      (by omega)
    rw [Timer.afterTicks, if_pos (by omega)] at ht
    obtain rfl := Option.some.inj ht
    have hp := pending_of_le (k := k) (t := ⟨2 ^ 32 - 1 + 1⟩) (Nat.le_refl _) none
    exact absurd (hp.symm.trans ((hready none).mpr (Nat.le_refl 1))) (by simp)

/-- Two ticks after the kernel was made. -/
theorem survivesUptime_along_iff_two :
    ∃ (tr : List (Clocked TimerHeap.list AlarmHeap.list × Action)) (s : _), Run step new tr s ∧
      tr.map Prod.snd = [.timerInterrupt, .timerInterrupt] ∧
        (Along SurvivesUptime tr s ↔ AllSteps NoWrap tr) := by
  obtain ⟨tr, s, hr, ha, -⟩ := exists_interrupts (H := TimerHeap.list) (A := AlarmHeap.list) 2
    (by omega)
  exact ⟨tr, s, hr, ha, survivesUptime_along_iff tr s hr⟩

end Clocked

end Kernel

end AurixAsync
