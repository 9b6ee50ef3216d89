import AurixAsync.Lib.Run
import AurixAsync.Sync.Pipe

/-!
# Wakeups of the pipe

A pipe with the futures that wait on it: those whose last poll returned pending and whose task was
not woken since. The operations come in any order, from tasks of any executors.

* `Piped`, `Action`, `step`: the pipe, its readers and its writers.
* `NoLostWake`: a waiting writer means a full pipe, a waiting reader an empty one.
* `ConsumesQuietly`: the calls of `consume` that keep it so.
* `noLostWake_along_iff`: a run keeps `NoLostWake` if and only if each of its steps is one of these.
-/

namespace AurixAsync

namespace Pipe

open Transition

variable {N : ℕ}

/-- A pipe, and for each future that waits the task it was last polled by. -/
structure Piped (N : ℕ) where
  pipe : Pipe N
  writers : ℕ → Option TaskRef
  readers : ℕ → Option TaskRef

namespace Piped

/-- Nobody uses the pipe. -/
def new : Piped N := ⟨.new, fun _ => none, fun _ => none⟩

/-- What the users of the pipe do. -/
inductive Action
  /-- A task polls the `WriteFuture` `f`. -/
  | pollWrite (f : ℕ) (task : TaskRef) (bytes : List UInt8)
  | tryWrite (bytes : List UInt8)
  | dropWrite (f : ℕ)
  /-- A task polls the `ReadFuture` `f`. -/
  | pollRead (f : ℕ) (task : TaskRef) (n : ℕ)
  | tryRead (n : ℕ)
  /-- A task polls the `FillBufFuture` `f`. -/
  | pollFillBuf (f : ℕ) (task : TaskRef)
  | tryFillBuf
  | dropRead (f : ℕ)
  | consume (amt : ℕ)
  | clear
  /-- Something else wakes a task. -/
  | wake (task : TaskRef)
deriving DecidableEq

/-- The pipe after an operation that woke these tasks. -/
def after (s : Piped N) (pipe : Pipe N) (woken : List TaskRef) : Piped N :=
  ⟨pipe, Waiting.wake s.writers woken, Waiting.wake s.readers woken⟩

/-- `poll` returns pending for an error. -/
def pends {ε α : Type} : Except ε α → Bool
  | .error _ => true
  | .ok _ => false

/-- One action. `none` if it panics. -/
def step (s : Piped N) : Action → Option (Piped N)
  | .pollWrite f task bytes =>
    (s.pipe.tryWriteWithContext (some task) bytes).map fun r =>
      let s' := s.after r.2.1 r.2.2
      { s' with writers := Waiting.polled s'.writers f task (pends r.1) }
  | .tryWrite bytes =>
    (s.pipe.tryWriteWithContext none bytes).map fun r => s.after r.2.1 r.2.2
  | .dropWrite f => some { s with writers := Waiting.dropped s.writers f }
  | .pollRead f task n =>
    (s.pipe.tryReadWithContext (some task) n).map fun r =>
      let s' := s.after r.2.1 r.2.2
      { s' with readers := Waiting.polled s'.readers f task (pends r.1) }
  | .tryRead n => (s.pipe.tryReadWithContext none n).map fun r => s.after r.2.1 r.2.2
  | .pollFillBuf f task =>
    (s.pipe.tryFillBufWithContext (some task)).map fun r =>
      let s' := s.after r.2.1 r.2.2
      { s' with readers := Waiting.polled s'.readers f task (pends r.1) }
  | .tryFillBuf => (s.pipe.tryFillBufWithContext none).map fun r => s.after r.2.1 r.2.2
  | .dropRead f => some { s with readers := Waiting.dropped s.readers f }
  | .consume amt => (s.pipe.consume amt).map fun pipe => s.after pipe []
  | .clear =>
    let r := s.pipe.clear
    some (s.after r.1 r.2)
  | .wake task => some (s.after s.pipe [task])

/-- A waiting writer means a full pipe, and a waiting reader an empty one. -/
def NoLostWake (s : Piped N) : Prop :=
  (∀ f t, s.writers f = some t → s.pipe.isFull) ∧ ∀ f t, s.readers f = some t → s.pipe.isEmpty

/-- The condition on `consume`: it takes nothing, or the pipe is not full, or no writer waits. -/
def ConsumesQuietly (s : Piped N) : Action → Prop
  | .consume amt => amt = 0 ∨ s.pipe.isFull = false ∨ ∀ f, s.writers f = none
  | _ => True

/-- The waiting futures are registered, and wait for room or for bytes. -/
structure PipeInv (s : Piped N) : Prop where
  valid : s.pipe.Valid
  writers : s.pipe.writeWaker.Guards s.writers (s.pipe.len = N)
  readers : s.pipe.readWaker.Guards s.readers (s.pipe.len = 0)

variable {s s' : Piped N}

theorem pipeInv_new (hN : 0 < N) : PipeInv (new : Piped N) where
  valid := valid_new hN
  writers := WakerRegistration.guards_of_forall_none fun _ => rfl
  readers := WakerRegistration.guards_of_forall_none fun _ => rfl

theorem PipeInv.noLostWake (h : PipeInv s) : NoLostWake s :=
  ⟨fun f t hf => decide_eq_true (h.writers.waits f t hf),
    fun f t hf => decide_eq_true (h.readers.waits f t hf)⟩

theorem PipeInv.pollWrite {f : ℕ} {task : TaskRef} {bytes : List UInt8} (hi : PipeInv s)
    (h : s.step (.pollWrite f task bytes) = some s') : PipeInv s' := by
  have hN := hi.valid.pos
  obtain ⟨r, p, woken, hw, hv, hcase⟩ := tryWrite_cases hi.valid (some task) bytes
  rw [step, hw] at h
  obtain rfl := Option.some.inj h
  rcases hcase with ⟨hfull, rfl, hlen, hrw, hww, rfl⟩ | ⟨hlt, ⟨n, rfl⟩, hle, hww, hrw, rfl⟩
  · refine ⟨hv, ?_, hi.readers.idle (by omega)⟩
    have hg := hi.writers
    rw [hfull] at hg
    change p.writeWaker.Guards (Waiting.polled _ f task true) (p.len = N)
    rw [hww, hlen]
    exact hg.register rfl
  · refine ⟨hv, ?_, ?_⟩
    · exact WakerRegistration.guards_of_forall_none
        (Waiting.polled_false_eq_none (Waiting.wake_eq_none (hi.writers.eq_none (by omega))))
    · change p.readWaker.Guards _ _
      rw [hrw]
      exact hi.readers.wakeIf

theorem PipeInv.tryWrite {bytes : List UInt8} (hi : PipeInv s)
    (h : s.step (.tryWrite bytes) = some s') : PipeInv s' := by
  have hN := hi.valid.pos
  obtain ⟨r, p, woken, hw, hv, hcase⟩ := tryWrite_cases hi.valid none bytes
  rw [step, hw] at h
  obtain rfl := Option.some.inj h
  rcases hcase with ⟨hfull, rfl, hlen, hrw, hww, rfl⟩ | ⟨hlt, ⟨n, rfl⟩, hle, hww, hrw, rfl⟩
  · refine ⟨hv, ?_, hi.readers.idle (by omega)⟩
    change p.writeWaker.Guards _ _
    rw [hww]
    exact hi.writers.mono fun _ => hlen
  · refine ⟨hv, hi.writers.idle (by omega), ?_⟩
    change p.readWaker.Guards _ _
    rw [hrw]
    exact hi.readers.wakeIf

theorem PipeInv.pollReads {f : ℕ} {task : TaskRef} {r : Except TryReadError (List UInt8)}
    {p : Pipe N} {woken : List TaskRef} (hi : PipeInv s) (hv : p.Valid)
    (hr : s.pipe.Reads (some task) r p woken) :
    PipeInv { s.after p woken with
      readers := Waiting.polled (s.after p woken).readers f task (pends r) } := by
  have hN := hi.valid.pos
  rcases hr with ⟨hz, rfl, hlen, hww, hrw, rfl⟩ | ⟨hlt, ⟨bytes, rfl⟩, hle, hrw, hww, rfl⟩
  · refine ⟨hv, hi.writers.idle (by omega), ?_⟩
    have hg := hi.readers
    rw [hz] at hg
    change p.readWaker.Guards (Waiting.polled _ f task true) (p.len = 0)
    rw [hrw, hlen]
    exact hg.register rfl
  · refine ⟨hv, ?_, ?_⟩
    · change p.writeWaker.Guards _ _
      rw [hww]
      exact hi.writers.wakeIf
    · exact WakerRegistration.guards_of_forall_none
        (Waiting.polled_false_eq_none (Waiting.wake_eq_none (hi.readers.eq_none (by omega))))

theorem PipeInv.tryReads {r : Except TryReadError (List UInt8)} {p : Pipe N}
    {woken : List TaskRef} (hi : PipeInv s) (hv : p.Valid) (hr : s.pipe.Reads none r p woken) :
    PipeInv (s.after p woken) := by
  have hN := hi.valid.pos
  rcases hr with ⟨hz, rfl, hlen, hww, hrw, rfl⟩ | ⟨hlt, ⟨bytes, rfl⟩, hle, hrw, hww, rfl⟩
  · refine ⟨hv, hi.writers.idle (by omega), ?_⟩
    change p.readWaker.Guards _ _
    rw [hrw]
    exact hi.readers.mono fun _ => hlen
  · refine ⟨hv, ?_, hi.readers.idle (by omega)⟩
    change p.writeWaker.Guards _ _
    rw [hww]
    exact hi.writers.wakeIf

/-- A `consume` that meets the condition leaves no writer behind. -/
theorem PipeInv.consume {amt : ℕ} (hi : PipeInv s) (h : s.step (.consume amt) = some s')
    (hc : ConsumesQuietly s (.consume amt)) : PipeInv s' := by
  obtain ⟨p, hp, rfl⟩ := Option.map_eq_some_iff.mp h
  obtain ⟨hv, hle, hlen, hrw, hww⟩ := consume_cases hi.valid hp
  refine ⟨hv, ?_, ?_⟩
  · change p.writeWaker.Guards (Waiting.wake s.writers []) (p.len = N)
    rw [hww]
    rcases hc with rfl | hf | hnone
    · exact hi.writers.mono fun hN => by omega
    · exact hi.writers.idle (of_decide_eq_false hf)
    · exact WakerRegistration.guards_of_forall_none (Waiting.wake_eq_none hnone)
  · change p.readWaker.Guards (Waiting.wake s.readers []) (p.len = 0)
    rw [hrw]
    exact hi.readers.mono fun hz => by omega

theorem PipeInv.step {a : Action} (hi : PipeInv s) (h : s.step a = some s')
    (hc : ConsumesQuietly s a) : PipeInv s' := by
  cases a with
  | pollWrite f task bytes => exact hi.pollWrite h
  | tryWrite bytes => exact hi.tryWrite h
  | dropWrite f =>
    obtain rfl := Option.some.inj h
    exact ⟨hi.valid, hi.writers.dropped, hi.readers⟩
  | pollRead f task n =>
    obtain ⟨r, p, woken, hr, hv, hreads⟩ := tryRead_cases hi.valid (some task) n
    rw [Piped.step, hr] at h
    obtain rfl := Option.some.inj h
    exact hi.pollReads hv hreads
  | tryRead n =>
    obtain ⟨r, p, woken, hr, hv, hreads⟩ := tryRead_cases hi.valid none n
    rw [Piped.step, hr] at h
    obtain rfl := Option.some.inj h
    exact hi.tryReads hv hreads
  | pollFillBuf f task =>
    obtain ⟨r, p, woken, hr, hv, hreads, -⟩ := tryFillBuf_cases hi.valid (some task)
    rw [Piped.step, hr] at h
    obtain rfl := Option.some.inj h
    exact hi.pollReads hv hreads
  | tryFillBuf =>
    obtain ⟨r, p, woken, hr, hv, hreads, -⟩ := tryFillBuf_cases hi.valid none
    rw [Piped.step, hr] at h
    obtain rfl := Option.some.inj h
    exact hi.tryReads hv hreads
  | dropRead f =>
    obtain rfl := Option.some.inj h
    exact ⟨hi.valid, hi.writers, hi.readers.dropped⟩
  | consume amt => exact hi.consume h hc
  | clear =>
    obtain rfl := Option.some.inj h
    have hN := hi.valid.pos
    refine ⟨⟨RingBuffer.valid_clear s.pipe.buffer hN, hi.valid.length⟩, hi.writers.wake, ?_⟩
    exact hi.readers.mono fun _ => RingBuffer.len_clear s.pipe.buffer
  | wake task =>
    obtain rfl := Option.some.inj h
    exact ⟨hi.valid, hi.writers.mono id, hi.readers.mono id⟩

/-- A step after which nobody waits in vain meets the condition. -/
theorem consumesQuietly_of_noLostWake {a : Action} (hi : PipeInv s) (h : s.step a = some s')
    (hg : NoLostWake s') : ConsumesQuietly s a := by
  cases a with
  | consume amt =>
    obtain ⟨p, hp, rfl⟩ := Option.map_eq_some_iff.mp h
    obtain ⟨-, hle, hlen, -, -⟩ := consume_cases hi.valid hp
    by_cases hz : amt = 0
    · exact Or.inl hz
    · refine Or.inr (Or.inr fun f => ?_)
      by_contra hne
      obtain ⟨t, ht⟩ := Option.ne_none_iff_exists'.mp hne
      have hfull : p.len = N := of_decide_eq_true (hg.1 f t (by
        change Waiting.wake s.writers [] f = some t
        rw [Waiting.wake_nil]
        exact ht))
      have hlen' : s.pipe.len ≤ N := RingBuffer.len_le hi.valid.buffer
      omega
  | _ => trivial

/-- **The pipe loses no wakeup exactly when no `consume` empties a full pipe past a waiting
writer.** In every run, for every capacity: `NoLostWake` holds in every state if and only if every
`consume` takes nothing, or finds the pipe not full, or finds no writer waiting. -/
theorem noLostWake_along_iff (hN : 0 < N) (tr : List (Piped N × Action)) (s : Piped N)
    (hr : Run step new tr s) : Along NoLostWake tr s ↔ AllSteps ConsumesQuietly tr := by
  refine Run.exact (I := PipeInv) (B := fun _ => True) (pipeInv_new hN)
    (fun _ h => h.noLostWake) (fun _ _ _ _ h => h) ?_ ?_ hr trivial
  · exact fun s a s' hi _ h hc => hi.step h hc
  · exact fun s a s' hi _ h hg => consumesQuietly_of_noLostWake hi h hg

/-- A pipe of one byte. The reader (task 0) finds it full and wakes the writer (task 1), which is
polled again before the reader consumes. -/
def refillRun : List Action :=
  [.pollWrite 0 1 [7], .pollWrite 1 1 [8], .pollFillBuf 2 0, .pollWrite 1 1 [8], .consume 1]

/-- After `refillRun` the pipe is empty and the writer waits. -/
theorem not_noLostWake_refillRun :
    ∃ s : Piped 1, runList step new refillRun = some s ∧ ¬ NoLostWake s := by
  obtain ⟨s, hs, hv⟩ := exists_of_map_runList (f := fun s => (s.writers 1, s.pipe.isFull))
    (s := (new : Piped 1)) (l := refillRun) (b := (some 1, false)) (r := step) (by decide)
  obtain ⟨hw, hf⟩ := Prod.mk.inj hv
  refine ⟨s, hs, fun hg => ?_⟩
  have hfull := hg.1 1 1 hw
  rw [hf] at hfull
  exact absurd hfull Bool.false_ne_true

/-- The condition on `refillRun`. -/
theorem noLostWake_along_iff_refillRun :
    ∃ (tr : List (Piped 1 × Action)) (s : Piped 1), Run step new tr s ∧
      tr.map Prod.snd = refillRun ∧ (Along NoLostWake tr s ↔ AllSteps ConsumesQuietly tr) := by
  obtain ⟨s, hs, -⟩ := exists_of_map_runList (f := fun s => s.writers 1)
    (s := (new : Piped 1)) (l := refillRun) (b := some 1) (r := step) (by decide)
  obtain ⟨tr, hr, ha⟩ := exists_run_of_runList hs
  exact ⟨tr, s, hr, ha, noLostWake_along_iff Nat.one_pos tr s hr⟩

end Piped

end Pipe

end AurixAsync
