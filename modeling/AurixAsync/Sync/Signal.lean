import AurixAsync.Lib.Run
import AurixAsync.Lib.Waiting
import AurixAsync.Time.TimerQueue

/-!
# Signals

One cell that holds a value, or the waker of a task that waits for one, or nothing. Every operation
is one critical section. It returns what the caller gets, the cell, and the tasks woken.

* `State`, `signal`, `reset`, `pollWait`, `tryTake`, `signaled`: the code.
* `Signalled`, `Action`, `step`: the cell with the futures of `wait()` that wait, the values
  signalled and the values obtained.
* `NoLostWake`: a task that waits is the one in the cell, and a value obtained is that of the most
  recent signal not yet taken or reset, each at most once.
* `ResetsIdle`: the calls of `reset` that keep it so.
* `noLostSignal_along_iff`: a run keeps `NoLostWake` if and only if each of its steps is one of
  these.
-/

namespace AurixAsync

namespace Signal

open Transition

/-- The cell. -/
inductive State (α : Type)
  | none
  | waiting (waker : TaskRef)
  | signaled (val : α)
deriving DecidableEq, Repr

namespace State

variable {α : Type}

/-- `signal`, with the tasks it wakes. -/
def signal (s : State α) (val : α) : State α × List TaskRef :=
  match s with
  | .waiting waker => (.signaled val, [waker])
  | _ => (.signaled val, [])

/-- `reset`, whatever the cell holds. -/
def reset (_ : State α) : State α := .none

/-- `poll_wait`: the value, if it is ready. -/
def pollWait (s : State α) (task : TaskRef) : Option α × State α × List TaskRef :=
  match s with
  | .none => (Option.none, .waiting task, [])
  | .waiting w =>
    if w = task then (Option.none, .waiting w, []) else (Option.none, .waiting task, [w])
  | .signaled res => (some res, .none, [])

/-- `try_take`. -/
def tryTake (s : State α) : Option α × State α :=
  match s with
  | .signaled res => (some res, .none)
  | state => (Option.none, state)

variable {s : State α} {task w : TaskRef} {val : α}

theorem fst_signal : (s.signal val).1 = .signaled val := by
  cases s <;> rfl

theorem mem_woken_signal : w ∈ (s.signal val).2 ↔ s = .waiting w := by
  cases s with
  | none => simp [signal]
  | signaled v => simp [signal]
  | waiting w' => simp [signal, eq_comm]

theorem pollWait_cases (s : State α) (task : TaskRef) :
    (∃ res, s = .signaled res ∧ s.pollWait task = (some res, .none, [])) ∨
      (∀ val, s ≠ .signaled val) ∧ ∃ woken, s.pollWait task = (Option.none, .waiting task, woken) ∧
        task ∉ woken ∧ ∀ w, s = .waiting w → w ∉ woken → w = task := by
  cases s with
  | none => exact Or.inr ⟨by simp, [], rfl, List.not_mem_nil, fun w h => absurd h (by simp)⟩
  | signaled res => exact Or.inl ⟨res, rfl, rfl⟩
  | waiting w' =>
    refine Or.inr ⟨by simp, ?_⟩
    unfold pollWait
    by_cases hw : w' = task
    · simp only [hw, if_true]
      exact ⟨[], rfl, List.not_mem_nil, fun w h _ => (State.waiting.inj h).symm⟩
    · simp only [hw, if_false]
      refine ⟨[w'], rfl, fun hm => hw (List.mem_singleton.mp hm).symm,
        fun w h hnot => absurd ?_ hnot⟩
      obtain rfl := State.waiting.inj h
      exact List.mem_singleton_self _

theorem tryTake_cases (s : State α) :
    (∃ res, s = .signaled res ∧ s.tryTake = (some res, .none)) ∨
      (∀ val, s ≠ .signaled val) ∧ s.tryTake = (Option.none, s) := by
  cases s with
  | signaled res => exact Or.inl ⟨res, rfl, rfl⟩
  | none => exact Or.inr ⟨by simp, rfl⟩
  | waiting w => exact Or.inr ⟨by simp, rfl⟩

end State

/-- `signaled` puts back what it took out. -/
def signaled {α : Type} (s : State α) : Bool × State α :=
  match s with
  | .signaled val => (true, .signaled val)
  | state => (false, state)

theorem snd_signaled {α : Type} (s : State α) : (signaled s).2 = s := by
  cases s <;> rfl

/-- A signal with the futures of `wait()` that wait. The rest belongs to no code: the values ever
signalled, in order; the number of the most recent signal that was not taken or reset; and what the
calls of `wait()` and `try_take` obtained, with this number at the time. -/
structure Signalled (α : Type) where
  state : State α
  waiting : ℕ → Option TaskRef
  signals : List α
  latest : Option ℕ
  obtained : List (Option ℕ × α)

namespace Signalled

variable {α : Type}

/-- Nobody uses the signal. -/
def new : Signalled α := ⟨.none, fun _ => none, [], none, []⟩

/-- What the users of the signal do. -/
inductive Action (α : Type)
  | signal (val : α)
  | reset
  /-- A task polls the future `f` of `wait()`. -/
  | pollWait (f : ℕ) (task : TaskRef)
  | dropWait (f : ℕ)
  | tryTake
  | signaled
  /-- Something else wakes a task. -/
  | wake (task : TaskRef)
deriving DecidableEq

/-- What is known after a call that returned this result. -/
def took (s : Signalled α) (res : Option α) : Signalled α :=
  match res with
  | some val => { s with latest := none, obtained := s.obtained ++ [(s.latest, val)] }
  | none => s

/-- One action. All of them are possible. -/
def step (s : Signalled α) : Action α → Option (Signalled α)
  | .signal val =>
    let r := s.state.signal val
    some { s with
      state := r.1
      waiting := Waiting.wake s.waiting r.2
      signals := s.signals ++ [val]
      latest := some s.signals.length }
  | .reset => some { s with state := s.state.reset, latest := none }
  | .pollWait f task =>
    let r := s.state.pollWait task
    some { s.took r.1 with
      state := r.2.1
      waiting := Waiting.polled (Waiting.wake s.waiting r.2.2) f task r.1.isNone }
  | .dropWait f => some { s with waiting := Waiting.dropped s.waiting f }
  | .tryTake =>
    let r := s.state.tryTake
    some { s.took r.1 with state := r.2 }
  | .signaled => some { s with state := (Signal.signaled s.state).2 }
  | .wake task => some { s with waiting := Waiting.wake s.waiting [task] }

/-- A task that waits is the one in the cell, so that the next signal wakes it; a value obtained is
the one of the most recent signal not yet taken or reset; and no signal is obtained twice. -/
structure NoLostWake (s : Signalled α) : Prop where
  held : ∀ f t, s.waiting f = some t → s.state = .waiting t
  woken : ∀ f t val, s.waiting f = some t → t ∈ (s.state.signal val).2
  latest : ∀ p ∈ s.obtained, ∃ i, p.1 = some i ∧ s.signals[i]? = some p.2
  once : (s.obtained.map Prod.fst).Nodup

/-- The condition on `reset`: no task waits. -/
def ResetsIdle (s : Signalled α) : Action α → Prop
  | .reset => ∀ f, s.waiting f = none
  | _ => True

/-- The cell holds the task that waits, or the latest value. -/
structure SignalInv (s : Signalled α) : Prop where
  held : ∀ f t, s.waiting f = some t → s.state = .waiting t
  signaled : ∀ val, s.state = .signaled val → ∃ i, s.latest = some i ∧ s.signals[i]? = some val
  /-- The latest signal is the last one, and was not obtained. -/
  latest : ∀ i, s.latest = some i → i + 1 = s.signals.length ∧ some i ∉ s.obtained.map Prod.fst
  obtained : ∀ p ∈ s.obtained, ∃ i, p.1 = some i ∧ s.signals[i]? = some p.2
  once : (s.obtained.map Prod.fst).Nodup

variable {s s' : Signalled α}

theorem signalInv_new : SignalInv (new : Signalled α) where
  held := fun _ _ h => absurd h (by simp [new])
  signaled := fun _ h => absurd h (by simp [new])
  latest := fun _ h => absurd h (by simp [new])
  obtained := fun _ h => absurd h List.not_mem_nil
  once := List.nodup_nil

theorem SignalInv.noLostWake (hi : SignalInv s) : NoLostWake s where
  held := hi.held
  woken := fun f t _ hf => State.mem_woken_signal.mpr (hi.held f t hf)
  latest := hi.obtained
  once := hi.once

theorem SignalInv.idle (hi : SignalInv s) (h : ∀ t, s.state ≠ .waiting t) (f : ℕ) :
    s.waiting f = none := by
  by_contra hne
  obtain ⟨t, ht⟩ := Option.ne_none_iff_exists'.mp hne
  exact h t (hi.held f t ht)

theorem SignalInv.signal (hi : SignalInv s) {val : α} (h : s.step (.signal val) = some s') :
    SignalInv s' := by
  obtain rfl := Option.some.inj h
  have hlen : (s.signals ++ [val]).length = s.signals.length + 1 := by
    rw [List.length_append, List.length_singleton]
  refine ⟨fun f t hf => ?_, fun v hv => ?_, fun i he => ?_, fun p hp => ?_, hi.once⟩
  · obtain ⟨hw, hnot⟩ := Waiting.wake_eq_some.mp hf
    exact absurd (State.mem_woken_signal.mpr (hi.held f t hw)) hnot
  · obtain rfl : val = v := State.signaled.inj (State.fst_signal.symm.trans hv)
    exact ⟨s.signals.length, rfl, List.getElem?_concat_length⟩
  · obtain rfl := Option.some.inj he
    refine ⟨hlen.symm, fun hm => ?_⟩
    -- what was obtained was signalled before
    obtain ⟨p, hp, hpi⟩ := List.mem_map.mp hm
    obtain ⟨i, hi', hget⟩ := hi.obtained p hp
    obtain rfl := Option.some.inj (hpi.symm.trans hi')
    rw [List.getElem?_eq_none (Nat.le_refl _)] at hget
    exact absurd hget (by simp)
  · obtain ⟨i, hp₁, hget⟩ := hi.obtained p hp
    refine ⟨i, hp₁, ?_⟩
    show (s.signals ++ [val])[i]? = some p.2
    rw [List.getElem?_append_left (List.getElem?_eq_some_iff.mp hget).1]
    exact hget

theorem SignalInv.took (hi : SignalInv s) {val : α} (hs : s.state = .signaled val)
    {w : ℕ → Option TaskRef} (hw : ∀ f, w f = none) :
    SignalInv { s.took (some val) with state := .none, waiting := w } := by
  obtain ⟨i, hl, hget⟩ := hi.signaled val hs
  obtain ⟨-, hnot⟩ := hi.latest i hl
  refine ⟨fun f t hf => absurd ((hw f).symm.trans hf) (by simp), fun _ hv => absurd hv (by simp),
    fun _ he => absurd he (by simp [Signalled.took]), fun p hp => ?_, ?_⟩
  · show ∃ j, p.1 = some j ∧ s.signals[j]? = some p.2
    rcases List.mem_append.mp hp with hp | hp
    · exact hi.obtained p hp
    · obtain rfl := List.mem_singleton.mp hp
      exact ⟨i, hl, hget⟩
  · show ((s.obtained ++ [(s.latest, val)]).map Prod.fst).Nodup
    rw [List.map_append, List.map_singleton, hl]
    exact List.nodup_append.mpr ⟨hi.once, List.nodup_singleton _, by
      rintro a ha b hb rfl
      rw [List.mem_singleton.mp hb] at ha
      exact hnot ha⟩

/-- A poll takes the value, or puts its task into the cell and wakes the one it replaces. -/
theorem SignalInv.pollWait (hi : SignalInv s) {f : ℕ} {task : TaskRef}
    (h : s.step (.pollWait f task) = some s') : SignalInv s' := by
  obtain rfl := Option.some.inj h
  rcases State.pollWait_cases s.state task with ⟨res, hs, hr⟩ | ⟨hne, woken, hr, -, hother⟩
  · rw [hr]
    apply hi.took hs
    apply Waiting.polled_false_eq_none
    apply Waiting.wake_eq_none
    exact hi.idle fun t ht => absurd (hs.symm.trans ht) (by simp)
  · rw [hr]
    refine ⟨fun g t hg => ?_, fun _ hv => absurd hv (by simp), hi.latest, hi.obtained, hi.once⟩
    show State.waiting task = .waiting t
    rcases Waiting.polled_eq_some.mp hg with ⟨-, -, rfl⟩ | ⟨-, hg⟩
    · rfl
    · obtain ⟨hw, hnot⟩ := Waiting.wake_eq_some.mp hg
      rw [hother t (hi.held g t hw) hnot]

theorem SignalInv.step {a : Action α} (hi : SignalInv s) (h : s.step a = some s')
    (hc : ResetsIdle s a) : SignalInv s' := by
  cases a with
  | signal val => exact hi.signal h
  | reset =>
    obtain rfl := Option.some.inj h
    exact ⟨fun f t hf => absurd ((hc f).symm.trans hf) (by simp),
      fun _ hv => absurd hv (by simp [State.reset]), fun _ he => absurd he (by simp), hi.obtained,
      hi.once⟩
  | pollWait f task => exact hi.pollWait h
  | dropWait f =>
    obtain rfl := Option.some.inj h
    exact ⟨fun g t hg => hi.held g t (Waiting.dropped_eq_some.mp hg).2, hi.signaled, hi.latest,
      hi.obtained, hi.once⟩
  | tryTake =>
    obtain rfl := Option.some.inj h
    rcases State.tryTake_cases s.state with ⟨res, hs, hr⟩ | ⟨-, hr⟩
    · rw [hr]
      apply hi.took hs
      exact hi.idle fun t ht => absurd (hs.symm.trans ht) (by simp)
    · rw [hr]
      exact hi
  | signaled =>
    obtain rfl := Option.some.inj h
    rw [snd_signaled]
    exact hi
  | wake task =>
    obtain rfl := Option.some.inj h
    exact ⟨fun g t hg => hi.held g t (Waiting.wake_eq_some.mp hg).1, hi.signaled, hi.latest,
      hi.obtained, hi.once⟩

/-- After a `reset` that finds a task waiting, the cell has forgotten it. -/
theorem resetsIdle_of_noLostWake {a : Action α} (h : s.step a = some s') (hg : NoLostWake s') :
    ResetsIdle s a := by
  cases a with
  | reset =>
    obtain rfl := Option.some.inj h
    intro f
    by_contra hne
    obtain ⟨t, ht⟩ := Option.ne_none_iff_exists'.mp hne
    exact absurd (hg.held f t ht) (by simp [State.reset])
  | _ => trivial

/-- **A signal loses no wakeup exactly when no `reset` finds a task waiting.** In every run, for
every type of values: `NoLostWake` holds in every state if and only if at every `reset` no future
of `wait()` waits. -/
theorem noLostSignal_along_iff (tr : List (Signalled α × Action α)) (s : Signalled α)
    (hr : Run step new tr s) : Along NoLostWake tr s ↔ AllSteps ResetsIdle tr := by
  refine Run.exact (I := SignalInv) (B := fun _ => True) signalInv_new
    (fun _ h => h.noLostWake) (fun _ _ _ _ h => h) ?_ ?_ hr trivial
  · exact fun s a s' hi _ h hc => hi.step h hc
  · exact fun s a s' _ _ h hg => resetsIdle_of_noLostWake h hg

/-- Task 1 waits, and the signal is reset before it is signalled. -/
def resetRun : List (Action ℕ) := [.pollWait 0 1, .reset, .signal 7]

/-- After `resetRun` the value is there and task 1 sleeps. -/
theorem not_noLostWake_resetRun :
    ∃ s, runList step new resetRun = some s ∧ ¬ NoLostWake s := by
  obtain ⟨s, hs, hv⟩ := exists_of_map_runList (f := fun s => (s.waiting 0, s.state))
    (s := (new : Signalled ℕ)) (l := resetRun) (b := (some 1, .signaled 7)) (r := step) (by decide)
  obtain ⟨hw, hst⟩ := Prod.mk.inj hv
  exact ⟨s, hs, fun hg => absurd (hst.symm.trans (hg.held 0 1 hw)) (by simp)⟩

/-- The condition on a run in which two tasks wait in turn and the second takes the value. -/
theorem noLostSignal_along_iff_take :
    ∃ (tr : List (Signalled ℕ × Action ℕ)) (s : Signalled ℕ), Run step new tr s ∧
      tr.map Prod.snd = [.reset, .pollWait 0 1, .pollWait 1 2, .signal 7, .pollWait 1 2] ∧
        (Along NoLostWake tr s ↔ AllSteps ResetsIdle tr) := by
  obtain ⟨s, hs, -⟩ := exists_of_map_runList (f := fun s => s.obtained)
    (s := (new : Signalled ℕ))
    (l := [.reset, .pollWait 0 1, .pollWait 1 2, .signal 7, .pollWait 1 2])
    (b := [(some 0, 7)]) (r := step) (by decide)
  obtain ⟨tr, hr, ha⟩ := exists_run_of_runList hs
  exact ⟨tr, s, hr, ha, noLostSignal_along_iff tr s hr⟩

end Signalled

end Signal

end AurixAsync
