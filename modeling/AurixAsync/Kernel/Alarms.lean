import AurixAsync.Kernel.Ready

/-!
# Alarm handles and callbacks

What holds of the alarm handles in every reachable state of the kernel.

* `handleOf`: the alarm handle of an executor.
* `AlarmInv`, `alarmInv_of_reachable`: handles are allocated and belong to one executor each, every
  item carries an allocated handle, and the callback of a started executor is its own.
* `exists_timerInterrupt`: a timer interrupt never panics.
* `CallsBack`, `timerInterrupt_spec`: it pends the executors whose items it takes out.
-/

namespace AurixAsync

namespace AlarmQueue

variable {nHandles nAlarms : ℕ} {A : MinHeap AlarmItem AlarmItem.key nAlarms} {C : Type}
  {q q' : AlarmQueue nHandles A C} {handle : AlarmHandle}

theorem tryAllocateHandle_eq_some (hn : nHandles ≤ 2 ^ 8)
    (h : q.tryAllocateHandle = some (handle, q')) :
    handle = ⟨q.callbacks.length⟩ ∧ q'.callbacks = q.callbacks ++ [none] ∧ q'.items = q.items := by
  rw [tryAllocateHandle] at h
  split_ifs at h with hlt
  obtain ⟨rfl, rfl⟩ := Prod.mk.inj (Option.some.inj h)
  refine ⟨?_, rfl, rfl⟩
  rw [AlarmHandle.ofIdx, Nat.mod_eq_of_lt (by omega)]

theorem registerCallback_eq_some {f : C} : q.registerCallback handle f = some q' ↔
    handle.id < q.callbacks.length ∧
      q' = { q with callbacks := q.callbacks.set handle.id (some f) } := by
  rw [registerCallback]
  split_ifs with h <;> simp [h, eq_comm]

end AlarmQueue

namespace Kernel

open Transition

variable {H : TimerHeap} {A : AlarmHeap} {k k' : Kernel H A}

/-- The alarm handle of an executor. -/
def handleOf (k : Kernel H A) (e : ExecutorId) : Option AlarmHandle :=
  (k.execs e).base.alarmHandle

/-- What holds of the handles. -/
structure AlarmInv (k : Kernel H A) : Prop where
  /-- Handles are indices of the callback table. -/
  allocated : ∀ e h, k.handleOf e = some h → h.id < k.alarms.callbacks.length
  /-- No two executors share one. -/
  distinct : ∀ e e' h, k.handleOf e = some h → k.handleOf e' = some h → e = e'
  /-- An executor that can be named has one. -/
  available : ∀ e, k.available e → ∃ h, k.handleOf e = some h
  items : ∀ i ∈ k.alarms.items, i.handle.id < k.alarms.callbacks.length
  /-- `start` registered the callback. -/
  registered : ∀ e, k.started e →
    ∃ h, k.handleOf e = some h ∧ k.alarms.callbacks[h.id]? = some (some e)

theorem alarmInv_new : AlarmInv (new : Kernel H A) where
  allocated := fun _ _ h => absurd h (by simp [handleOf, new, Executor.new, BaseExecutor.new])
  distinct := fun _ _ _ h => absurd h (by simp [handleOf, new, Executor.new, BaseExecutor.new])
  available := fun e h => by
    cases e with
    | thread => exact absurd h (by simp [Kernel.available, new])
    | interrupt prio => exact absurd h (by simp [Kernel.available, new])
  items := fun i h => by
    have h₀ : (new : Kernel H A).alarms.items = 0 := AlarmQueue.items_new
    rw [h₀] at h
    exact absurd h (Multiset.notMem_zero i)
  registered := fun _ h => absurd h Bool.false_ne_true

theorem handleOf_update_self {x : Executor H} {e : ExecutorId}
    (hk : k'.execs = Function.update k.execs e x) : k'.handleOf e = x.base.alarmHandle := by
  rw [handleOf, hk, Function.update_self]

theorem handleOf_update_of_ne {x : Executor H} {e e' : ExecutorId}
    (hk : k'.execs = Function.update k.execs e x) (hne : e' ≠ e) :
    k'.handleOf e' = k.handleOf e' := by
  rw [handleOf, hk, Function.update_of_ne hne, handleOf]

theorem handleOf_step {b : Executor.Action} {x : Executor H} {e : ExecutorId}
    (hk : k'.execs = Function.update k.execs e x) (hx : (k.execs e).step b = some x)
    (hb : b.newHandle = none) (e' : ExecutorId) : k'.handleOf e' = k.handleOf e' := by
  by_cases he : e' = e
  · subst he
    rw [handleOf, hk, Function.update_self, (Executor.pender_alarmHandle_of_step hx).2, hb]
    rfl
  · exact handleOf_update_of_ne hk he

theorem newHandle_eq_none_of_own {b : Executor.Action} (hb : b.own) : b.newHandle = none := by
  cases b <;> first | rfl | exact absurd hb Bool.false_ne_true

theorem AlarmInv.frame (hi : AlarmInv k) (hh : ∀ e, k'.handleOf e = k.handleOf e)
    (hc : k'.alarms.callbacks = k.alarms.callbacks)
    (hitems : ∀ i ∈ k'.alarms.items, i ∈ k.alarms.items ∨ ∃ e, k.handleOf e = some i.handle)
    (hs : ∀ e, k'.started e → k.started e) (ha : ∀ e, k'.available e → k.available e) :
    AlarmInv k' where
  allocated e h he := by
    rw [hc]
    exact hi.allocated e h ((hh e).symm.trans he)
  distinct e e' h he he' := hi.distinct e e' h ((hh e).symm.trans he) ((hh e').symm.trans he')
  available e he := by
    rw [hh]
    exact hi.available e (ha e he)
  items i him := by
    rw [hc]
    rcases hitems i him with him | ⟨e, he⟩
    · exact hi.items i him
    · exact hi.allocated e i.handle he
  registered e he := by
    rw [hh, hc]
    exact hi.registered e (hs e he)

theorem AlarmInv.newHandle {e : ExecutorId} {h : AlarmHandle} (hi : AlarmInv k)
    (hid : h = ⟨k.alarms.callbacks.length⟩) (hself : k'.handleOf e = some h)
    (hother : ∀ e', e' ≠ e → k'.handleOf e' = k.handleOf e')
    (hc : k'.alarms.callbacks = k.alarms.callbacks ++ [none])
    (hitems : k'.alarms.items = k.alarms.items) (hse : k'.started e = false)
    (hs : ∀ e', e' ≠ e → k'.started e' = k.started e')
    (ha : ∀ e', e' ≠ e → k'.available e' → k.available e') : AlarmInv k' := by
  have hlen : k'.alarms.callbacks.length = k.alarms.callbacks.length + 1 := by
    rw [hc, List.length_append, List.length_singleton]
  -- no executor had the new handle
  have hnew : ∀ e', k.handleOf e' ≠ some h := by
    intro e' he'
    have := hi.allocated e' h he'
    rw [hid] at this
    exact absurd this (lt_irrefl _)
  refine ⟨?_, ?_, ?_, ?_, ?_⟩
  · intro e' h' he'
    rw [hlen]
    by_cases hee : e' = e
    · subst hee
      obtain rfl : h = h' := Option.some.inj (hself.symm.trans he')
      rw [hid]
      exact Nat.lt_succ_self _
    · rw [hother e' hee] at he'
      have := hi.allocated e' h' he'
      omega
  · intro e₁ e₂ h' h₁ h₂
    by_cases he₁ : e₁ = e <;> by_cases he₂ : e₂ = e
    · rw [he₁, he₂]
    · rw [he₁, hself] at h₁
      rw [hother e₂ he₂, ← h₁] at h₂
      exact absurd h₂ (hnew e₂)
    · rw [he₂, hself] at h₂
      rw [hother e₁ he₁, ← h₂] at h₁
      exact absurd h₁ (hnew e₁)
    · rw [hother e₁ he₁] at h₁
      rw [hother e₂ he₂] at h₂
      exact hi.distinct e₁ e₂ h' h₁ h₂
  · intro e' he'
    by_cases hee : e' = e
    · exact ⟨h, hee ▸ hself⟩
    · rw [hother e' hee]
      exact hi.available e' (ha e' hee he')
  · intro i him
    rw [hitems] at him
    have := hi.items i him
    omega
  · intro e' he'
    by_cases hee : e' = e
    · subst hee
      exact absurd (hse.symm.trans he') Bool.false_ne_true
    · rw [hs e' hee] at he'
      obtain ⟨h', hh', hcb⟩ := hi.registered e' he'
      refine ⟨h', (hother e' hee).trans hh', ?_⟩
      rw [hc, List.getElem?_append_left (hi.allocated e' h' hh')]
      exact hcb

theorem AlarmInv.start {e : ExecutorId} (hi : AlarmInv k) (h : k.step (.start e) = some k') :
    AlarmInv k' := by
  obtain ⟨⟨ha, -⟩, q, hq, rfl⟩ := step_start.mp h
  obtain ⟨handle, hh⟩ := hi.available e ha
  rw [registerAlarmCallback, show (k.execs e).base.alarmHandle = some handle from hh] at hq
  obtain ⟨hlt, rfl⟩ := AlarmQueue.registerCallback_eq_some.mp hq
  have hlen : (k.alarms.callbacks.set handle.id (some e)).length = k.alarms.callbacks.length :=
    List.length_set
  refine ⟨?_, hi.distinct, hi.available, ?_, ?_⟩
  · intro e' h' he'
    change h'.id < (k.alarms.callbacks.set handle.id (some e)).length
    rw [hlen]
    exact hi.allocated e' h' he'
  · intro i him
    change i.handle.id < (k.alarms.callbacks.set handle.id (some e)).length
    rw [hlen]
    exact hi.items i him
  · intro e' he'
    change Function.update k.started e true e' = true at he'
    change ∃ h', k.handleOf e' = some h' ∧
      (k.alarms.callbacks.set handle.id (some e))[h'.id]? = some (some e')
    by_cases hee : e' = e
    · subst hee
      exact ⟨handle, hh, List.getElem?_set_self hlt⟩
    · rw [Function.update_of_ne hee] at he'
      obtain ⟨h', hh', hcb⟩ := hi.registered e' he'
      refine ⟨h', hh', ?_⟩
      -- another executor, so another handle
      have hne : handle.id ≠ h'.id := by
        intro hid
        have hhe : handle = h' := by cases handle; cases h'; cases hid; rfl
        exact hee (hi.distinct e' e handle (hhe ▸ hh') hh)
      rw [List.getElem?_set_ne hne]
      exact hcb

theorem mem_items_alarmsAfter {e : ExecutorId} {a : Executor.Action} {i : AlarmItem}
    (h : i ∈ (k.alarmsAfter e a).items) : i ∈ k.alarms.items ∨ k.handleOf e = some i.handle := by
  rw [alarmsAfter.eq_def] at h
  split at h
  · split at h
    · rename_i nextTick handle hp hh
      rw [AlarmQueue.items_setAlarm_getD] at h
      split_ifs at h
      · exact Or.inl h
      · rcases Multiset.mem_cons.mp h with rfl | h
        · exact Or.inr hh
        · exact Or.inl h
    · exact Or.inl h
  · exact Or.inl h

theorem callbacks_alarmsAfter (e : ExecutorId) (a : Executor.Action) :
    (k.alarmsAfter e a).callbacks = k.alarms.callbacks := by
  rw [alarmsAfter.eq_def]
  split
  · split
    · exact AlarmQueue.callbacks_setAlarm_getD _ _ _
    · rfl
  · rfl

theorem AlarmInv.callAllExpired (hi : AlarmInv k) : ∃ cs n q,
    k.alarms.callAllExpired k.now = some (cs, n, q) ∧ q.callbacks = k.alarms.callbacks ∧
      q.items = k.alarms.items.filter (k.now < ·.expiresAt) ∧
      ∀ c, c ∈ cs ↔ ∃ i ∈ k.alarms.items, i.expiresAt ≤ k.now ∧
        k.alarms.callbacks[i.handle.id]? = some (some c) :=
  AlarmQueue.callAllExpired_spec k.alarms k.now hi.items

theorem AlarmInv.step {a : Action} (hi : AlarmInv k) (h : k.step a = some k') : AlarmInv k' := by
  have hn : N_ALARM_HANDLES ≤ 2 ^ 8 := by decide
  cases a with
  | threadExecutor =>
    obtain ⟨hs, handle, q, hq, x, hx, rfl⟩ := step_threadExecutor.mp h
    obtain ⟨hid, hc, hitems⟩ := AlarmQueue.tryAllocateHandle_eq_some hn hq
    obtain rfl := Executor.step_registerAlarm.mp hx
    refine hi.newHandle (e := .thread) (h := handle) hid ?_ ?_ hc hitems hs (fun _ _ => rfl) ?_
    · exact (handleOf_update_self (k := k) rfl).trans rfl
    · exact fun e' hne => handleOf_update_of_ne rfl hne
    · intro e' hne
      cases e' with
      | thread => exact absurd rfl hne
      | interrupt prio => exact id
  | allocate prio =>
    obtain ⟨-, handle, q, hq, x, hx, rfl⟩ := step_allocate.mp h
    obtain ⟨hid, hc, hitems⟩ := AlarmQueue.tryAllocateHandle_eq_some hn hq
    obtain rfl := Executor.step_overwrite.mp hx
    refine hi.newHandle (e := .interrupt prio) (h := handle) hid ?_ ?_ hc hitems ?_ ?_ ?_
    · exact (handleOf_update_self (k := k) rfl).trans rfl
    · exact fun e' hne => handleOf_update_of_ne rfl hne
    · exact Function.update_self _ _ _
    · exact fun e' hne => Function.update_of_ne hne _ _
    · intro e' hne ha
      cases e' with
      | thread => exact ha
      | interrupt p =>
        have hp : p ≠ prio := fun e => hne (e ▸ rfl)
        have hm : p ∈ k.allocated.insert prio := by simpa [Kernel.available] using ha
        have hm := (List.mem_insert_iff.mp hm).resolve_left hp
        simpa [Kernel.available] using hm
  | spawn e =>
    obtain ⟨-, x, hx, rfl⟩ := step_spawn.mp h
    exact hi.frame (handleOf_step rfl hx rfl) rfl (fun i him => Or.inl him) (fun _ => id)
      (fun e' ha => by cases e' <;> exact ha)
  | start e => exact hi.start h
  | wake task =>
    obtain ⟨e, -, x, hx, rfl⟩ := step_wake.mp h
    exact hi.frame (handleOf_step rfl hx rfl) rfl (fun i him => Or.inl him) (fun _ => id)
      (fun e' ha => by cases e' <;> exact ha)
  | pend e =>
    obtain ⟨-, rfl⟩ := step_pend.mp h
    exact hi.frame (fun _ => rfl) rfl (fun i him => Or.inl him) (fun _ => id)
      (fun e' ha => by cases e' <;> exact ha)
  | exec e b =>
    obtain ⟨hperm, x, hx, rfl⟩ := step_exec.mp h
    have hb := newHandle_eq_none_of_own (own_of_permits hperm)
    exact hi.frame (handleOf_step rfl hx hb) (callbacks_alarmsAfter e b)
      (fun i him => (mem_items_alarmsAfter him).imp_right fun hh => ⟨e, hh⟩) (fun _ => id)
      (fun e' ha => by cases e' <;> exact ha)
  | defaultHandler prio =>
    obtain ⟨-, rfl⟩ := step_defaultHandler.mp h
    exact hi.frame (fun _ => rfl) rfl (fun i him => Or.inl him) (fun _ => id)
      (fun e' ha => by cases e' <;> exact ha)
  | timerInterrupt =>
    obtain ⟨cs, n, q, hq, rfl⟩ := step_timerInterrupt.mp h
    obtain ⟨cs', n', q', hq', hcb, hitems, -⟩ := hi.callAllExpired
    obtain ⟨rfl, rfl, rfl⟩ : cs = cs' ∧ n = n' ∧ q = q' := by
      simpa using hq.symm.trans hq'
    refine hi.frame (fun _ => rfl) hcb (fun i him => Or.inl ?_) (fun _ => id)
      (fun e' ha => by cases e' <;> exact ha)
    change i ∈ q.items at him
    rw [hitems] at him
    exact Multiset.mem_of_mem_filter him

/-- **Handles and callbacks are in order** in every reachable state. -/
theorem alarmInv_of_reachable (h : Reachable step (new : Kernel H A) k) : AlarmInv k :=
  h.invariant alarmInv_new fun _ _ _ hi hs => hi.step hs

/-- **A timer interrupt never panics**, whatever was allocated, started and armed before. -/
theorem exists_timerInterrupt (h : Reachable step (new : Kernel H A) k) :
    ∃ k', k.step .timerInterrupt = some k' := by
  obtain ⟨cs, n, q, hq, -⟩ := (alarmInv_of_reachable h).callAllExpired
  exact ⟨_, step_timerInterrupt.mpr ⟨cs, n, q, hq, rfl⟩⟩

/-- A timer interrupt that judges by `now` calls the executor back. -/
def CallsBack (k : Kernel H A) (now : ℕ) (e : ExecutorId) : Prop :=
  ∃ i ∈ k.alarms.items, i.expiresAt ≤ now ∧ k.alarms.callbacks[i.handle.id]? = some (some e)

theorem timerInterrupt_spec (hi : AlarmInv k) (hp : PendersKept k)
    (h : k.step .timerInterrupt = some k') :
    k'.ticks = k.ticks + 1 ∧ k'.execs = k.execs ∧ k'.started = k.started ∧
      k'.alarms.items = k.alarms.items.filter (k.now < ·.expiresAt) ∧
      ∀ e, k'.pended e ↔ k.pended e ∨ k.CallsBack k.now e := by
  obtain ⟨cs, n, q, hq, rfl⟩ := step_timerInterrupt.mp h
  obtain ⟨cs', n', q', hq', -, hitems, hcs⟩ := hi.callAllExpired
  obtain ⟨rfl, rfl, rfl⟩ : cs = cs' ∧ n = n' ∧ q = q' := by
    simpa using hq.symm.trans hq'
  refine ⟨rfl, rfl, rfl, hitems, fun e => ?_⟩
  exact (foldl_pend hp cs k.pended e).trans (or_congr_right (hcs e))

/-- A timer interrupt calls back a started executor that has a due item of its own handle. -/
theorem AlarmInv.callsBack {e : ExecutorId} {now : ℕ} {i : AlarmItem} (hi : AlarmInv k)
    (hs : k.started e) (him : i ∈ k.alarms.items) (hh : k.handleOf e = some i.handle)
    (hle : i.expiresAt ≤ now) : k.CallsBack now e := by
  obtain ⟨handle, hh', hcb⟩ := hi.registered e hs
  obtain rfl : handle = i.handle := Option.some.inj (hh'.symm.trans hh)
  exact ⟨i, him, hle, hcb⟩

end Kernel

end AurixAsync
