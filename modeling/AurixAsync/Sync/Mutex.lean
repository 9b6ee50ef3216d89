import AurixAsync.Lib.Run
import AurixAsync.Sync.WakerRegistration

/-!
# The async mutex

The state of a `Mutex`, with its guards and the futures that wait for it. Every operation is one
critical section; the closure of a `map` runs outside of them, and the step is its end, where one
guard is forgotten and the other made.

* `Mutex`, `pollLock`, `tryLock`, `unlock`: the code.
* `Locks`, `Action`, `step`: a mutex with the guards that are alive and the futures of `lock()`
  that wait.
* `Exclusive`: the mutex is locked exactly if one guard is alive, there are never two, and a future
  waits only for a locked mutex.
* `exclusive_of_reachable`: this holds in every reachable state.
-/

namespace AurixAsync

/-- `State`. -/
structure Mutex where
  locked : Bool
  waker : WakerRegistration
deriving DecidableEq, Repr

namespace Mutex

open Transition

/-- An unlocked mutex. -/
def new : Mutex := ⟨false, .new⟩

/-- One poll of `lock()`: whether it returns a guard. -/
def pollLock (s : Mutex) (task : TaskRef) : Bool × Mutex × List TaskRef :=
  if s.locked then
    let r := s.waker.register task
    (false, { s with waker := r.1 }, r.2)
  else (true, { s with locked := true }, [])

/-- `try_lock`: whether it returns a guard. -/
def tryLock (s : Mutex) : Bool × Mutex :=
  if s.locked then (false, s) else (true, { s with locked := true })

/-- The `drop` of both kinds of guards. -/
def unlock (s : Mutex) : Mutex × List TaskRef :=
  let r := s.waker.wake
  (⟨false, r.1⟩, r.2)

section

variable {s : Mutex} {task : TaskRef}

theorem pollLock_of_locked (h : s.locked = true) : s.pollLock task =
    (false, { s with waker := (s.waker.register task).1 }, (s.waker.register task).2) :=
  if_pos h

theorem pollLock_of_unlocked (h : s.locked = false) :
    s.pollLock task = (true, { s with locked := true }, []) := by
  apply if_neg
  rw [h]
  exact Bool.false_ne_true

theorem tryLock_of_locked (h : s.locked = true) : s.tryLock = (false, s) := if_pos h

theorem tryLock_of_unlocked (h : s.locked = false) :
    s.tryLock = (true, { s with locked := true }) := by
  apply if_neg
  rw [h]
  exact Bool.false_ne_true

end

/-- The guards. The place in the data that a mapped one points to is left out. -/
inductive Guard
  | mutexGuard
  | mappedMutexGuard
deriving DecidableEq, Repr

/-- `MutexGuard::map` and `MappedMutexGuard::map`. -/
def Guard.map : Guard → Guard
  | .mutexGuard => .mappedMutexGuard
  | .mappedMutexGuard => .mappedMutexGuard

/-- A mutex with its guards, and for each future of `lock()` that waits the task it was last polled
by. -/
structure Locks where
  mutex : Mutex
  guards : List Guard
  waiting : ℕ → Option TaskRef

namespace Locks

/-- Nobody uses the mutex. -/
def new : Locks := ⟨.new, [], fun _ => none⟩

/-- What the users of the mutex do. -/
inductive Action
  /-- A task polls the future `f` of `lock()`. -/
  | pollLock (f : ℕ) (task : TaskRef)
  /-- The future `f` is dropped. -/
  | dropLock (f : ℕ)
  | tryLock
  /-- `map` of the guard `i`. -/
  | map (i : ℕ)
  | dropGuard (i : ℕ)
  /-- Something else wakes a task. -/
  | wake (task : TaskRef)
deriving DecidableEq

/-- The guards after one more was asked for. -/
def given (gs : List Guard) (ok : Bool) : List Guard := if ok then .mutexGuard :: gs else gs

/-- One action. `none` if there is no such guard. -/
def step (s : Locks) : Action → Option Locks
  | .pollLock f task =>
    let r := s.mutex.pollLock task
    some { mutex := r.2.1
           guards := given s.guards r.1
           waiting := Waiting.polled (Waiting.wake s.waiting r.2.2) f task (!r.1) }
  | .dropLock f => some { s with waiting := Waiting.dropped s.waiting f }
  | .tryLock =>
    let r := s.mutex.tryLock
    some { s with mutex := r.2, guards := given s.guards r.1 }
  | .map i => (s.guards[i]?).map fun g => { s with guards := s.guards.set i g.map }
  | .dropGuard i =>
    (s.guards[i]?).map fun _ =>
      let r := s.mutex.unlock
      { mutex := r.1
        guards := s.guards.eraseIdx i
        waiting := Waiting.wake s.waiting r.2 }
  | .wake task => some { s with waiting := Waiting.wake s.waiting [task] }

/-- The mutex is locked exactly if one guard is alive, there are never two, and a future waits only
for a locked mutex. -/
structure Exclusive (s : Locks) : Prop where
  locked : s.mutex.locked = true ↔ s.guards.length = 1
  atMostOne : s.guards.length ≤ 1
  waits : ∀ f t, s.waiting f = some t → s.mutex.locked = true

/-- The flag counts the guards, and the waiting futures are registered. -/
structure LocksInv (s : Locks) : Prop where
  guards : s.guards.length = if s.mutex.locked then 1 else 0
  waiting : s.mutex.waker.Guards s.waiting (s.mutex.locked = true)

variable {s s' : Locks}

theorem locksInv_new : LocksInv new where
  guards := rfl
  waiting := WakerRegistration.guards_of_forall_none fun _ => rfl

theorem LocksInv.exclusive (hi : LocksInv s) : Exclusive s := by
  have hg := hi.guards
  refine ⟨?_, ?_, hi.waiting.waits⟩
  · cases hl : s.mutex.locked with
    | true => rw [hg, hl]; simp
    | false => rw [hg, hl]; simp
  · rw [hg]
    split_ifs <;> omega

theorem LocksInv.free (hi : LocksInv s) (hl : s.mutex.locked = false) :
    s.guards.length = 0 ∧ ∀ f, s.waiting f = none := by
  refine ⟨by rw [hi.guards, hl]; rfl, ?_⟩
  apply hi.waiting.eq_none
  rw [hl]
  exact Bool.false_ne_true

theorem LocksInv.pollLock (hi : LocksInv s) {f : ℕ} {task : TaskRef}
    (h : s.step (.pollLock f task) = some s') : LocksInv s' := by
  obtain rfl := Option.some.inj h
  cases hl : s.mutex.locked with
  | true =>
    rw [pollLock_of_locked hl]
    exact ⟨hi.guards, hi.waiting.register hl⟩
  | false =>
    obtain ⟨hlen, hnone⟩ := hi.free hl
    rw [pollLock_of_unlocked hl]
    refine ⟨?_, ?_⟩
    · show s.guards.length + 1 = 1
      rw [hlen]
    · apply WakerRegistration.guards_of_forall_none
      apply Waiting.polled_false_eq_none
      exact Waiting.wake_eq_none hnone

/-- A `try_lock` that barges in finds nobody waiting for what it takes. -/
theorem LocksInv.tryLock (hi : LocksInv s) (h : s.step .tryLock = some s') : LocksInv s' := by
  obtain rfl := Option.some.inj h
  cases hl : s.mutex.locked with
  | true =>
    rw [tryLock_of_locked hl]
    exact ⟨hi.guards, hi.waiting⟩
  | false =>
    obtain ⟨hlen, hnone⟩ := hi.free hl
    rw [tryLock_of_unlocked hl]
    refine ⟨?_, WakerRegistration.guards_of_forall_none hnone⟩
    show s.guards.length + 1 = 1
    rw [hlen]

theorem LocksInv.dropGuard (hi : LocksInv s) {i : ℕ} (h : s.step (.dropGuard i) = some s') :
    LocksInv s' := by
  obtain ⟨g, hg, rfl⟩ := Option.map_eq_some_iff.mp h
  have hlt : i < s.guards.length := (List.getElem?_eq_some_iff.mp hg).1
  have hle := hi.exclusive.atMostOne
  refine ⟨?_, hi.waiting.wake⟩
  show (s.guards.eraseIdx i).length = 0
  rw [List.length_eraseIdx_of_lt hlt]
  omega

theorem LocksInv.step {a : Action} (hi : LocksInv s) (h : s.step a = some s') : LocksInv s' := by
  cases a with
  | pollLock f task => exact hi.pollLock h
  | dropLock f =>
    obtain rfl := Option.some.inj h
    exact ⟨hi.guards, hi.waiting.dropped⟩
  | tryLock => exact hi.tryLock h
  | map i =>
    -- the guard is replaced, not dropped
    obtain ⟨g, hg, rfl⟩ := Option.map_eq_some_iff.mp h
    refine ⟨?_, hi.waiting⟩
    show (s.guards.set i g.map).length = _
    rw [List.length_set]
    exact hi.guards
  | dropGuard i => exact hi.dropGuard h
  | wake task =>
    obtain rfl := Option.some.inj h
    exact ⟨hi.guards, hi.waiting.mono id⟩

/-- **The async mutex is exclusive and forgets nobody**: in every reachable state, for any number
of tasks, futures and guards. -/
theorem exclusive_of_reachable (h : Reachable step new s) : Exclusive s :=
  (h.invariant locksInv_new fun _ _ _ hi hs => hi.step hs).exclusive

/-- Task 1 locks and maps its guard twice; task 2 waits, and is cancelled after it was woken;
task 3 barges in. -/
def bargeRun : List Action :=
  [.pollLock 0 1, .map 0, .map 0, .pollLock 1 2, .dropGuard 0, .tryLock, .dropLock 1, .pollLock 2 4]

/-- After `bargeRun` the mutex is locked with one guard, and the future of task 4 waits. -/
theorem exclusive_of_reachable_barge :
    ∃ s, runList step new bargeRun = some s ∧ s.waiting 2 = some 4 ∧ Exclusive s := by
  obtain ⟨s, hs, hw⟩ := exists_of_map_runList (f := fun s => s.waiting 2) (s := new)
    (l := bargeRun) (b := some 4) (r := step) (by decide)
  exact ⟨s, hs, hw, exclusive_of_reachable (reachable_of_runList hs)⟩

end Locks

end Mutex

end AurixAsync
