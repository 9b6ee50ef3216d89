import AurixAsync.Executor.BaseExecutor

/-!
# Futures that wait for timers

What one poll of a task does with the timers its future is made of. A future is a timer, a future
without timers, two futures awaited one after the other, or the select of several futures; all five
selects poll their futures in order until one is ready, so they are one constructor.

* `Fut`, `select`, `select3`, `select4`, `selectArray`, `selectSlice`: the futures.
* `Fut.poll`: the timers a poll meets, those it leaves awaited, and the future left.
* `lastPending`: the deadline the header of the task holds after the poll.
-/

namespace AurixAsync

/-- What a task awaits. -/
inductive Fut
  | timer (t : Timer)
  /-- A future without timers, by what its next polls return. -/
  | other (polls : List Poll)
  /-- Two futures awaited one after the other, as an `async` block does. -/
  | andThen (a b : Fut)
  /-- The futures of a select. -/
  | firstOf (inner : List Fut)

namespace Fut

/-- `select`. -/
def select (a b : Fut) : Fut := .firstOf [a, b]

/-- `select3`. -/
def select3 (a b c : Fut) : Fut := .firstOf [a, b, c]

/-- `select4`. -/
def select4 (a b c d : Fut) : Fut := .firstOf [a, b, c, d]

/-- `select_array`. -/
def selectArray (arr : List Fut) : Fut := .firstOf arr

/-- `select_slice`. -/
def selectSlice (slice : List Fut) : Fut := .firstOf slice

end Fut

/-- The outcome of a poll: its result; every timer polled, with the time it read and its deadline,
in order; the deadlines of the timers that were pending and are still part of the future; and the
future left. -/
structure Polled (α : Type) where
  result : Poll
  timers : List (ℕ × ℕ)
  awaiting : List ℕ
  rest : α

mutual

/-- `poll`, where `clock i` is what the `i`-th timer polled reads from `Kernel::now()`. -/
def Fut.poll (clock : ℕ → ℕ) : Fut → ℕ → Polled Fut
  | .timer t, i =>
    match (t.poll (clock i) none).1 with
    | .ready => ⟨.ready, [(clock i, t.expiresAt)], [], .timer t⟩
    | .pending => ⟨.pending, [(clock i, t.expiresAt)], [t.expiresAt], .timer t⟩
  | .other [], _ => ⟨.pending, [], [], .other []⟩
  | .other (p :: polls), _ => ⟨p, [], [], .other polls⟩
  | .andThen a b, i =>
    let ra := a.poll clock i
    match ra.result with
    | .pending => ⟨.pending, ra.timers, ra.awaiting, .andThen ra.rest b⟩
    | .ready =>
      let rb := b.poll clock (i + ra.timers.length)
      ⟨rb.result, ra.timers ++ rb.timers, rb.awaiting, rb.rest⟩
  | .firstOf inner, i =>
    let r := Fut.pollFirst clock inner i
    match r.result with
    | .pending => ⟨.pending, r.timers, r.awaiting, .firstOf r.rest⟩
    -- the other futures are dropped with the select
    | .ready => ⟨.ready, r.timers, [], .firstOf r.rest⟩

/-- The futures of a select, polled in order until one is ready. -/
def Fut.pollFirst (clock : ℕ → ℕ) : List Fut → ℕ → Polled (List Fut)
  | [], _ => ⟨.pending, [], [], []⟩
  | f :: fs, i =>
    let r := f.poll clock i
    match r.result with
    | .ready => ⟨.ready, r.timers, r.awaiting, r.rest :: fs⟩
    | .pending =>
      let rs := Fut.pollFirst clock fs (i + r.timers.length)
      ⟨rs.result, r.timers ++ rs.timers, r.awaiting ++ rs.awaiting, r.rest :: rs.rest⟩

end

/-- The timers of a list that were not due when they were polled. -/
def pendings (timers : List (ℕ × ℕ)) : List ℕ :=
  (timers.filter fun p => p.1 < p.2).map Prod.snd

/-- The deadline of the last timer polled that was not due. -/
def lastPending (timers : List (ℕ × ℕ)) : Option ℕ := (pendings timers).getLast?

theorem pendings_append (ts us : List (ℕ × ℕ)) :
    pendings (ts ++ us) = pendings ts ++ pendings us := by
  rw [pendings, List.filter_append, List.map_append]
  rfl

theorem lastPending_nil : lastPending [] = none := rfl

/-- Each `Timer::poll` keeps the header at the last pending deadline. -/
theorem lastPending_snoc (ts : List (ℕ × ℕ)) (now n : ℕ) :
    lastPending (ts ++ [(now, n)]) = (Timer.poll ⟨n⟩ now (lastPending ts)).2 := by
  rw [lastPending, pendings_append, Timer.poll]
  by_cases h : n ≤ now
  · rw [if_pos h]
    have hp : pendings [(now, n)] = [] := by simp [pendings, h]
    rw [hp, List.append_nil]
    rfl
  · rw [if_neg h]
    have hp : pendings [(now, n)] = [n] := by simp [pendings, Nat.lt_of_not_le h]
    rw [hp, List.getLast?_concat]

example : ((Fut.select (.timer ⟨10⟩) (.timer ⟨100⟩)).poll (fun _ => 0) 0).awaiting = [10, 100] := by
  decide

end AurixAsync
