import AurixAsync.Lib.Run
import AurixAsync.Time.TimerQueue

/-!
# Values that are set once

A flag and a value that is initialized when the flag is set. Setting and taking the value are
critical sections; `try_get`, `get` and the end of `get_or_init` are not, they read the flag first
and the value later, and anything may come in between. `take` and `into_inner` need the lock for
themselves: there is no reference and no call then.

The critical section of `get_or_init` looks at the flag before it calls the closure, and not again
after it. Nobody else runs in between, but the closure may use the lock itself.

* `OnceLock`, `initValue`, `getOrInit`, `tryGet`, `pollGet`, `takeValue`, `getRefUnchecked`: the
  code.
* `Shared`, `Action`, `step`: a lock with the closures that run, the calls that have yet to read the
  value, and the references.
* `Once`: all the references are to the value that was set last, no uninitialized memory is read,
  and the values set are those taken, in this order, and the one that is there.
* `once_along_iff`: a run keeps this if and only if no closure returns to a lock that was set
  meanwhile.
-/

namespace AurixAsync

/-- `none` is memory that is not initialized, or zeroed. -/
structure OnceLock (α : Type) where
  init : Bool
  data : Option α
deriving DecidableEq, Repr

namespace OnceLock

open Transition

variable {α : Type}

/-- A lock that is not set. -/
def new : OnceLock α := ⟨false, none⟩

/-- `init`: the value comes back if there is one already. -/
def initValue (s : OnceLock α) (value : α) : Except α Unit × OnceLock α :=
  if !s.init then (.ok (), ⟨true, some value⟩) else (.error value, s)

/-- The critical section of `get_or_init` after the closure has returned `f`. -/
def storeInit (_ : OnceLock α) (f : α) : OnceLock α := ⟨true, some f⟩

/-- The critical section of `get_or_init`, with what the closure does to the lock. -/
def getOrInit (s : OnceLock α) (f : OnceLock α → α × OnceLock α) : OnceLock α :=
  if !s.init then (f s).2.storeInit (f s).1 else s

/-- The load of the flag in `try_get`. -/
def tryGet (s : OnceLock α) : Bool := s.init

/-- A poll of `get`: whether the value can be read, and the tasks woken. -/
def pollGet (s : OnceLock α) (task : TaskRef) : Bool × List TaskRef :=
  if s.tryGet then (true, []) else (false, [task])

/-- `get_ref_unchecked`. -/
def getRefUnchecked (s : OnceLock α) : Option α := s.data

/-- `take`, and `into_inner`, after which there is no lock. -/
def takeValue (s : OnceLock α) : Option α × OnceLock α :=
  if s.init then (s.data, ⟨false, none⟩) else (none, s)

/-- `is_set`. -/
def isSet (s : OnceLock α) : Bool := s.init

/-- A use of the value: a call that has yet to read it, or a reference to what was read. -/
inductive Use (α : Type)
  | call
  | ref (data : Option α)
deriving DecidableEq, Repr

/-- A lock with the closures that run and its uses. The rest belongs to no code: the values that
were set, in order; those that were taken; and the polls of `get` that were pending, with the tasks
woken by them. -/
structure Shared (α : Type) where
  lock : OnceLock α
  closures : ℕ
  uses : List (Use α)
  stored : List α
  taken : List (Option α)
  pending : List (TaskRef × List TaskRef)

namespace Shared

/-- Nobody uses the lock. -/
def new : Shared α := ⟨.new, 0, [], [], [], []⟩

/-- What the users of the lock do, each access to the flag or to the value on its own. -/
inductive Action (α : Type)
  | init (value : α)
  /-- A `get_or_init` looks at the flag. -/
  | enter
  /-- The closure of a `get_or_init` returns. -/
  | leave (f : α)
  | tryGet
  | pollGet (task : TaskRef)
  /-- The call `i` reads the value. -/
  | getRef (i : ℕ)
  | dropRef (i : ℕ)
  | take
  | isSet
deriving DecidableEq

/-- One action. `none` if no call is at that place. -/
def step (s : Shared α) : Action α → Option (Shared α)
  | .init value =>
    some { s with
      lock := (s.lock.initValue value).2
      stored := if s.lock.init then s.stored else s.stored ++ [value] }
  | .enter =>
    if s.lock.init then some { s with uses := .call :: s.uses }
    else some { s with closures := s.closures + 1 }
  | .leave f =>
    match s.closures with
    | 0 => none
    | n + 1 =>
      some { s with
        lock := s.lock.storeInit f
        closures := n
        uses := .call :: s.uses
        stored := s.stored ++ [f] }
  | .tryGet => some { s with uses := if s.lock.tryGet then .call :: s.uses else s.uses }
  | .pollGet task =>
    let r := s.lock.pollGet task
    some { s with
      uses := if r.1 then .call :: s.uses else s.uses
      pending := if r.1 then s.pending else (task, r.2) :: s.pending }
  | .getRef i =>
    match s.uses[i]? with
    | some .call => some { s with uses := s.uses.set i (.ref s.lock.getRefUnchecked) }
    | _ => none
  | .dropRef i => (s.uses[i]?).map fun _ => { s with uses := s.uses.eraseIdx i }
  | .take =>
    -- the lock is borrowed mutably
    match s.closures, s.uses with
    | 0, [] =>
      some { s with
        lock := s.lock.takeValue.2
        taken := if s.lock.init then s.taken ++ [s.lock.takeValue.1] else s.taken }
    | _, _ => none
  | .isSet => some s

/-- The references see the value that was set last, nothing uninitialized is read or taken, the
values taken are those set but for the last one, and a pending `get` has woken its task. -/
structure Once (s : Shared α) : Prop where
  refs : ∀ d, .ref d ∈ s.uses →
    ∃ v, d = some v ∧ s.lock.getRefUnchecked = some v ∧ s.stored.getLast? = some v
  data : s.uses ≠ [] → ∃ v, s.lock.getRefUnchecked = some v
  stored : s.stored.map some = s.taken ++ (s.lock.data.map some).toList
  woken : ∀ p ∈ s.pending, p.1 ∈ p.2

/-- The condition on the closure of a `get_or_init`: when it returns, the lock is not set. -/
def LeavesUnset (s : Shared α) : Action α → Prop
  | .leave _ => s.lock.init = false
  | _ => True

/-- The flag tells whether the value is initialized, and while there are uses it is. -/
structure OnceInv (s : Shared α) : Prop where
  flag : s.lock.init = s.lock.data.isSome
  uses : ∀ u ∈ s.uses, ∃ v, s.lock.data = some v ∧ (u = .call ∨ u = .ref (some v))
  stored : s.stored.map some = s.taken ++ (s.lock.data.map some).toList
  woken : ∀ p ∈ s.pending, p.1 ∈ p.2

variable {s s' : Shared α}

theorem onceInv_new : OnceInv (new : Shared α) where
  flag := rfl
  uses := fun _ hu => absurd hu List.not_mem_nil
  stored := rfl
  woken := fun _ hp => absurd hp List.not_mem_nil

theorem OnceInv.getLast? (hi : OnceInv s) {v : α} (h : s.lock.data = some v) :
    s.stored.getLast? = some v := by
  have hs := congrArg List.getLast? hi.stored
  rw [h, List.getLast?_map] at hs
  change Option.map some _ = (s.taken ++ [some v]).getLast? at hs
  rw [List.getLast?_concat] at hs
  obtain ⟨w, hw, hwv⟩ := Option.map_eq_some_iff.mp hs
  rw [hw, Option.some.inj hwv]

theorem OnceInv.once (hi : OnceInv s) : Once s where
  refs := by
    intro d hd
    obtain ⟨v, hv, hu⟩ := hi.uses _ hd
    rcases hu with hu | hu
    · exact absurd hu (by simp)
    · exact ⟨v, Use.ref.inj hu, hv, hi.getLast? hv⟩
  data := by
    intro hne
    obtain ⟨u, hu⟩ := List.exists_mem_of_ne_nil _ hne
    obtain ⟨v, hv, -⟩ := hi.uses u hu
    exact ⟨v, hv⟩
  stored := hi.stored
  woken := hi.woken

theorem OnceInv.unset (hi : OnceInv s) (h : s.lock.init = false) :
    s.lock.data = none ∧ s.uses = [] := by
  have hdata : s.lock.data = none := by
    rw [hi.flag] at h
    exact Option.isNone_iff_eq_none.mp (by rw [← Option.not_isSome, h]; rfl)
  refine ⟨hdata, List.eq_nil_iff_forall_not_mem.mpr fun u hu => ?_⟩
  obtain ⟨v, hv, -⟩ := hi.uses u hu
  rw [hdata] at hv
  exact absurd hv (by simp)

theorem OnceInv.call (hi : OnceInv s) (h : s.lock.init = true) :
    OnceInv { s with uses := .call :: s.uses } := by
  refine ⟨hi.flag, fun u hu => ?_, hi.stored, hi.woken⟩
  rcases List.mem_cons.mp hu with rfl | hu
  · rw [hi.flag] at h
    obtain ⟨v, hv⟩ := Option.isSome_iff_exists.mp h
    exact ⟨v, hv, Or.inl rfl⟩
  · exact hi.uses u hu

theorem OnceInv.set (hi : OnceInv s) (h : s.lock.init = false) (value : α) :
    OnceInv { s with lock := s.lock.storeInit value, stored := s.stored ++ [value] } := by
  obtain ⟨hdata, huses⟩ := hi.unset h
  refine ⟨rfl, fun u hu => ?_, ?_, hi.woken⟩
  · rw [huses] at hu
    exact absurd hu List.not_mem_nil
  · change (s.stored ++ [value]).map some = s.taken ++ [some value]
    rw [List.map_append, hi.stored, hdata]
    simp

theorem OnceInv.take (hi : OnceInv s) (h : s.step .take = some s') : OnceInv s' := by
  obtain ⟨lock, closures, uses, stored, taken, pending⟩ := s
  cases closures with
  | succ n => exact absurd h (by simp [Shared.step])
  | zero =>
    cases uses with
    | cons u us => exact absurd h (by simp [Shared.step])
    | nil =>
      obtain rfl := Option.some.inj h
      cases hinit : lock.init with
      | false =>
        rw [takeValue, hinit]
        exact hi
      | true =>
        have hflag := hi.flag
        change lock.init = _ at hflag
        rw [hinit] at hflag
        obtain ⟨v, hv⟩ := Option.isSome_iff_exists.mp hflag.symm
        rw [takeValue, hinit]
        refine ⟨rfl, fun u hu => absurd hu List.not_mem_nil, ?_, hi.woken⟩
        change stored.map some = taken ++ [lock.data] ++ []
        have hstored : stored.map some = taken ++ (lock.data.map some).toList := hi.stored
        rw [hstored, hv, List.append_nil]
        rfl

theorem OnceInv.getRef (hi : OnceInv s) {i : ℕ} (h : s.step (.getRef i) = some s') :
    OnceInv s' := by
  cases hu : s.uses[i]? with
  | none => exact absurd h (by simp [Shared.step, hu])
  | some u =>
    cases u with
    | ref d => exact absurd h (by simp [Shared.step, hu])
    | call =>
      rw [Shared.step, hu] at h
      obtain rfl := Option.some.inj h
      obtain ⟨v, hv, -⟩ := hi.uses _ (List.mem_of_getElem? hu)
      refine ⟨hi.flag, fun u hu => ?_, hi.stored, hi.woken⟩
      rcases List.mem_or_eq_of_mem_set hu with hu | rfl
      · exact hi.uses u hu
      · exact ⟨v, hv, Or.inr (congrArg Use.ref hv)⟩

theorem leave_eq_some {f : α} (h : s.step (.leave f) = some s') :
    ∃ n, s.closures = n + 1 ∧ s' = { s with
      lock := s.lock.storeInit f, closures := n, uses := .call :: s.uses
      stored := s.stored ++ [f] } := by
  cases hn : s.closures with
  | zero => exact absurd h (by simp [Shared.step, hn])
  | succ n =>
    rw [Shared.step, hn] at h
    exact ⟨n, rfl, (Option.some.inj h).symm⟩

/-- The steps of a `get_or_init` are its critical section: the closure leads to `t`. -/
theorem lock_leave {f : OnceLock α → α × OnceLock α} {t : Shared α} (hunset : s.lock.init = false)
    (ht : t.lock = (f s.lock).2) (h : t.step (.leave (f s.lock).1) = some s') :
    s'.lock = s.lock.getOrInit f := by
  obtain ⟨n, -, rfl⟩ := leave_eq_some h
  rw [getOrInit, hunset, ← ht]
  rfl

theorem OnceInv.step {a : Action α} (hi : OnceInv s) (h : s.step a = some s')
    (hc : LeavesUnset s a) : OnceInv s' := by
  cases a with
  | init value =>
    obtain rfl := Option.some.inj h
    cases hinit : s.lock.init with
    | true =>
      rw [initValue, hinit]
      exact hi
    | false =>
      rw [initValue, hinit]
      exact hi.set hinit value
  | enter =>
    cases hinit : s.lock.init with
    | true =>
      rw [Shared.step, hinit] at h
      obtain rfl := Option.some.inj h
      exact hi.call hinit
    | false =>
      rw [Shared.step, hinit] at h
      obtain rfl := Option.some.inj h
      exact ⟨hi.flag, hi.uses, hi.stored, hi.woken⟩
  | leave f =>
    obtain ⟨n, -, rfl⟩ := leave_eq_some h
    have hset := (hi.set hc f).call rfl
    exact ⟨hset.flag, hset.uses, hset.stored, hset.woken⟩
  | tryGet =>
    obtain rfl := Option.some.inj h
    cases hinit : s.lock.init with
    | true =>
      rw [OnceLock.tryGet, hinit]
      exact hi.call hinit
    | false =>
      rw [OnceLock.tryGet, hinit]
      exact hi
  | pollGet task =>
    obtain rfl := Option.some.inj h
    cases hinit : s.lock.init with
    | true =>
      rw [OnceLock.pollGet, OnceLock.tryGet, hinit]
      exact hi.call hinit
    | false =>
      rw [OnceLock.pollGet, OnceLock.tryGet, hinit]
      refine ⟨hi.flag, hi.uses, hi.stored, fun p hp => ?_⟩
      rcases List.mem_cons.mp hp with rfl | hp
      · exact List.mem_singleton_self _
      · exact hi.woken p hp
  | getRef i => exact hi.getRef h
  | dropRef i =>
    obtain ⟨u, -, rfl⟩ := Option.map_eq_some_iff.mp h
    exact ⟨hi.flag, fun u hu => hi.uses u (List.mem_of_mem_eraseIdx hu), hi.stored, hi.woken⟩
  | take => exact hi.take h
  | isSet =>
    obtain rfl := Option.some.inj h
    exact hi

/-- A closure that returns to a lock that is set replaces a value that nobody took. -/
theorem leavesUnset_of_once {a : Action α} (hi : OnceInv s) (h : Shared.step s a = some s')
    (ho : Once s') : LeavesUnset s a := by
  cases a with
  | leave f =>
    obtain ⟨n, -, rfl⟩ := leave_eq_some h
    cases hinit : s.lock.init with
    | false => exact hinit
    | true =>
      have hflag := hi.flag
      rw [hinit] at hflag
      obtain ⟨v, hv⟩ := Option.isSome_iff_exists.mp hflag.symm
      have hold := congrArg List.length hi.stored
      have hnew := congrArg List.length ho.stored
      rw [hv] at hold
      simp [storeInit] at hold hnew
      omega
  | _ => trivial

/-- **A value is set once, and all see the same one.** In a run with any number of callers between
the flag and the value, this holds in every state if and only if no closure of a `get_or_init`
returns to a lock that was set while it ran. -/
theorem once_along_iff (tr : List (Shared α × Action α)) (s : Shared α)
    (hr : Run step new tr s) : Along Once tr s ↔ AllSteps LeavesUnset tr :=
  hr.exact (I := OnceInv) (B := fun _ => True) onceInv_new (fun _ hi => hi.once)
    (fun _ _ _ _ _ => trivial) (fun _ _ _ hi _ hs hc => hi.step hs hc)
    (fun _ _ _ hi _ hs ho => leavesUnset_of_once hi hs ho) trivial

/-- A `get` waits, two callers race to set the value, and both read the first one; it is taken when
the references are gone, and the lock is set again. -/
def raceRun : List (Action ℕ) :=
  [.pollGet 1, .enter, .leave 5, .enter, .init 6, .pollGet 1, .getRef 1, .getRef 0, .getRef 2,
    .dropRef 2, .dropRef 1, .dropRef 0, .take, .init 9, .tryGet]

theorem once_along_iff_race : ∃ tr s, Run step new tr s ∧ tr.map Prod.snd = raceRun ∧
    s.stored = [5, 9] ∧ s.taken = [some 5] ∧ (Along Once tr s ↔ AllSteps LeavesUnset tr) := by
  obtain ⟨s, hs, hv⟩ := exists_of_map_runList (f := fun s => (s.stored, s.taken))
    (s := (new : Shared ℕ)) (l := raceRun) (b := ([5, 9], [some 5])) (r := step) (by decide)
  obtain ⟨tr, hr, ha⟩ := exists_run_of_runList hs
  obtain ⟨hst, hta⟩ := Prod.mk.inj hv
  exact ⟨tr, s, hr, ha, hst, hta, once_along_iff tr s hr⟩

/-- A closure that sets the lock itself: its reference is to a value that is replaced. -/
example : (runList step new [.enter, .enter, .leave 5, .getRef 0, .leave 6]).map
    (fun s => (s.uses, s.lock.data)) = some ([.call, .ref (some 5)], some 6) := by decide

end Shared

end OnceLock

end AurixAsync
