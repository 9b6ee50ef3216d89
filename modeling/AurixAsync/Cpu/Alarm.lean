import AurixAsync.Lib.MinHeap
import Mathlib.Algebra.Group.Nat.Defs
import Mathlib.Data.Prod.Lex

/-!
# The alarm queue of the core

One heap of alarm items is shared by all executors, next to a table of callbacks indexed by the
handles. A callback is a function with its context; here `C` is the type of these pairs. The heap
is a parameter with the laws of `MinHeap`.

* `AlarmHandle`, `AlarmItem`, `AlarmQueue`: an item is compared by `expires_at` first.
* `tryAllocateHandle`, `registerCallback`, `call`, `setAlarm`, `callAllExpired`: the operations.
* `callAllExpired_spec`: what one timer interrupt takes out and calls.
* `callAllExpiredLoop`: the loop of `call_all_expired` as the code has it.
-/

namespace AurixAsync

/-- A handle is an index of the handles of the queue. -/
structure AlarmHandle where
  id : ℕ
deriving DecidableEq, Repr

/-- `AlarmHandle::from(idx as u8)`. -/
def AlarmHandle.ofIdx (idx : ℕ) : AlarmHandle := ⟨idx % 2 ^ 8⟩

/-- An alarm that is set: its deadline, and the handle whose callback is called then. -/
structure AlarmItem where
  expiresAt : ℕ
  handle : AlarmHandle
deriving DecidableEq, Repr

/-- The derived order: `expires_at` first, then the handle. -/
def AlarmItem.key (i : AlarmItem) : ℕ ×ₗ ℕ := toLex (i.expiresAt, i.handle.id)

theorem AlarmItem.expiresAt_le_of_key_le {i j : AlarmItem} (h : i.key ≤ j.key) :
    i.expiresAt ≤ j.expiresAt := by
  rw [key, key, Prod.Lex.toLex_le_toLex] at h
  rcases h with h | h
  · exact h.le
  · exact h.1.le

/-- `AlarmQueue<N_HANDLES, N_ALARMS>`. -/
structure AlarmQueue (nHandles : ℕ) {nAlarms : ℕ} (A : MinHeap AlarmItem AlarmItem.key nAlarms)
    (C : Type) where
  callbacks : List (Option C)
  queue : A.Carrier

namespace AlarmQueue

variable {nHandles nAlarms : ℕ} {A : MinHeap AlarmItem AlarmItem.key nAlarms} {C : Type}

/-- No handle is allocated and no alarm is set. -/
def new : AlarmQueue nHandles A C := ⟨[], A.new⟩

/-- The items, in no order. -/
def items (q : AlarmQueue nHandles A C) : Multiset AlarmItem := A.items q.queue

/-- `try_allocate_handle`, `none` when the table is full. -/
def tryAllocateHandle (q : AlarmQueue nHandles A C) :
    Option (AlarmHandle × AlarmQueue nHandles A C) :=
  if q.callbacks.length < nHandles then
    some (.ofIdx q.callbacks.length, { q with callbacks := q.callbacks ++ [none] })
  else none

/-- `register_callback`; `none` is the panic of `get_mut(idx).unwrap()`. -/
def registerCallback (q : AlarmQueue nHandles A C) (handle : AlarmHandle) (f : C) :
    Option (AlarmQueue nHandles A C) :=
  if handle.id < q.callbacks.length then
    some { q with callbacks := q.callbacks.set handle.id (some f) }
  else none

/-- `set_alarm`, `none` where the heap hands the item back. -/
def setAlarm (q : AlarmQueue nHandles A C) (handle : AlarmHandle) (expiresAt : ℕ) :
    Option (AlarmQueue nHandles A C) :=
  (A.push q.queue ⟨expiresAt, handle⟩).map fun h => { q with queue := h }

/-- The calls made for a list of popped items, in order: an entry of the table that is not set is
skipped. `none` is the panic of `get(idx).unwrap()`. -/
def calls (callbacks : List (Option C)) : List AlarmItem → Option (List C)
  | [] => some []
  | i :: is =>
    match callbacks[i.handle.id]? with
    | none => none
    | some f => (calls callbacks is).map (f.toList ++ ·)

/-- `call_all_expired`: the callbacks called, the count returned and the queue left. The loop
peeks, and pops while `expires_at <= now`; no callback touches the queue. -/
def callAllExpired (q : AlarmQueue nHandles A C) (now : ℕ) :
    Option (List C × ℕ × AlarmQueue nHandles A C) :=
  let r := A.drain (fun item => item.expiresAt ≤ now) q.queue
  (calls q.callbacks r.1).map fun cs => (cs, r.1.length, { q with queue := r.2 })

/-- `call`: the callback that is called, if one is set; `none` is the panic of
`get(idx).unwrap()`. -/
def call (q : AlarmQueue nHandles A C) (handle : AlarmHandle) : Option (Option C) :=
  q.callbacks[handle.id]?

/-- `get_one_expired_item`. -/
def getOneExpiredItem (q : AlarmQueue nHandles A C) (now : ℕ) :
    Option (AlarmItem × A.Carrier) :=
  match A.peek q.queue with
  | some item => if item.expiresAt ≤ now then A.pop q.queue else none
  | none => none

theorem card_of_getOneExpiredItem {q : AlarmQueue nHandles A C} {now : ℕ}
    {r : AlarmItem × A.Carrier} (h : q.getOneExpiredItem now = some r) :
    (A.items r.2).card < q.items.card := by
  unfold getOneExpiredItem at h
  cases hpk : A.peek q.queue with
  | none =>
    rw [hpk] at h
    exact absurd h (by simp)
  | some item =>
    rw [hpk] at h
    dsimp only at h
    split_ifs at h
    exact MinHeap.card_of_pop h

/-- The loop of `call_all_expired`: the callbacks called so far, and `count`. -/
def callAllExpiredLoop (now : ℕ) (q : AlarmQueue nHandles A C) (called : List C) (count : ℕ) :
    Option (List C × ℕ × AlarmQueue nHandles A C) :=
  match hitem : q.getOneExpiredItem now with
  | some (item, queue) =>
    if item.expiresAt ≤ now then
      (q.call item.handle).bind fun f =>
        callAllExpiredLoop now { q with queue := queue } (called ++ f.toList) (count + 1)
    else some (called, count, { q with queue := queue })
  | none => some (called, count, q)
termination_by q.items.card
decreasing_by exact card_of_getOneExpiredItem hitem

variable {q q' : AlarmQueue nHandles A C} {handle : AlarmHandle} {now : ℕ}

@[simp] theorem items_new : (new : AlarmQueue nHandles A C).items = 0 := A.items_new

theorem setAlarm_eq_none {n : ℕ} : q.setAlarm handle n = none ↔ q.items.card = nAlarms := by
  rw [setAlarm, Option.map_eq_none_iff, MinHeap.push_eq_none]
  rfl

theorem items_setAlarm_getD (q : AlarmQueue nHandles A C) (handle : AlarmHandle) (n : ℕ) :
    ((q.setAlarm handle n).getD q).items =
      if q.items.card = nAlarms then q.items else ⟨n, handle⟩ ::ₘ q.items := by
  split_ifs with h
  · rw [setAlarm_eq_none.mpr h]
    rfl
  · obtain ⟨h', he, hi⟩ := MinHeap.exists_push (h := q.queue) h ⟨n, handle⟩
    rw [setAlarm, he]
    exact hi

@[simp] theorem callbacks_setAlarm_getD (q : AlarmQueue nHandles A C) (handle : AlarmHandle)
    (n : ℕ) : ((q.setAlarm handle n).getD q).callbacks = q.callbacks := by
  rw [setAlarm]
  cases A.push q.queue ⟨n, handle⟩ <;> rfl

theorem calls_isSome {callbacks : List (Option C)} {is : List AlarmItem}
    (h : ∀ i ∈ is, i.handle.id < callbacks.length) :
    ∃ cs, calls callbacks is = some cs ∧
      ∀ c, c ∈ cs ↔ ∃ i ∈ is, callbacks[i.handle.id]? = some (some c) := by
  induction is with
  | nil => exact ⟨[], rfl, fun c => by simp⟩
  | cons i is ih =>
    obtain ⟨cs, hcs, hmem⟩ := ih fun j hj => h j (List.mem_cons_of_mem _ hj)
    have hi := h i List.mem_cons_self
    refine ⟨(callbacks[i.handle.id]).toList ++ cs, ?_, fun c => ?_⟩
    · rw [calls, List.getElem?_eq_getElem hi, hcs]
      rfl
    · rw [List.mem_append, hmem, List.exists_mem_cons_iff, List.getElem?_eq_getElem hi,
        Option.mem_toList, Option.some.injEq]

/-- **What a drain of the alarms takes out**: the items with `expires_at <= now`, in the order of
`expires_at` and then of the handle. -/
theorem drain_spec (q : AlarmQueue nHandles A C) (now : ℕ) :
    ((A.drain (fun item => item.expiresAt ≤ now) q.queue).1 : Multiset AlarmItem) =
        q.items.filter (·.expiresAt ≤ now) ∧
      A.items (A.drain (fun item => item.expiresAt ≤ now) q.queue).2 =
        q.items.filter (now < ·.expiresAt) ∧
      (A.drain (fun item => item.expiresAt ≤ now) q.queue).1.Pairwise (·.key ≤ ·.key) := by
  obtain ⟨h₁, h₂, h₃⟩ := MinHeap.drain_spec (H := A) (p := fun item => item.expiresAt ≤ now)
    (fun x y hxy hy => by
      rw [decide_eq_true_eq] at hy ⊢
      exact (AlarmItem.expiresAt_le_of_key_le hxy).trans hy) q.queue
  simp only [decide_eq_true_eq] at h₁ h₂
  exact ⟨h₁, h₂.trans (Multiset.filter_congr fun x _ => not_le), h₃⟩

/-- **One timer interrupt** on a queue whose items all carry allocated handles: it calls exactly
the registered callbacks of the items with `expires_at <= now` and leaves the other items. -/
theorem callAllExpired_spec (q : AlarmQueue nHandles A C) (now : ℕ)
    (h : ∀ i ∈ q.items, i.handle.id < q.callbacks.length) :
    ∃ cs n q', q.callAllExpired now = some (cs, n, q') ∧ q'.callbacks = q.callbacks ∧
      q'.items = q.items.filter (now < ·.expiresAt) ∧
      ∀ c, c ∈ cs ↔ ∃ i ∈ q.items, i.expiresAt ≤ now ∧
        q.callbacks[i.handle.id]? = some (some c) := by
  obtain ⟨h₁, h₂, -⟩ := drain_spec q now
  have hmem : ∀ i, i ∈ (A.drain (fun item => item.expiresAt ≤ now) q.queue).1 ↔
      i ∈ q.items ∧ i.expiresAt ≤ now := by
    intro i
    rw [← Multiset.mem_coe, h₁, Multiset.mem_filter]
  have hid : ∀ i ∈ (A.drain (fun item => item.expiresAt ≤ now) q.queue).1,
      i.handle.id < q.callbacks.length := fun i hi => h i ((hmem i).mp hi).1
  obtain ⟨cs, hcs, hc⟩ := calls_isSome hid
  have hq : q.callAllExpired now =
      some (cs, (A.drain (fun item => item.expiresAt ≤ now) q.queue).1.length,
        { q with queue := (A.drain (fun item => item.expiresAt ≤ now) q.queue).2 }) := by
    rw [callAllExpired, hcs]
    rfl
  refine ⟨_, _, _, hq, rfl, ?_, fun c => ?_⟩
  · exact h₂
  · rw [hc]
    simp only [hmem, and_assoc]

/-! ### The loop -/

theorem callAllExpiredLoop_eq (callbacks : List (Option C)) (h : A.Carrier) (called : List C)
    (count : ℕ) :
    callAllExpiredLoop now (⟨callbacks, h⟩ : AlarmQueue nHandles A C) called count =
      (calls callbacks (A.drain (fun item => item.expiresAt ≤ now) h).1).map fun cs =>
        (called ++ cs, count + (A.drain (fun item => item.expiresAt ≤ now) h).1.length,
          ⟨callbacks, (A.drain (fun item => item.expiresAt ≤ now) h).2⟩) := by
  refine MinHeap.drain_induction (H := A) (p := fun item => item.expiresAt ≤ now)
    (motive := fun h l h' => ∀ called count,
      callAllExpiredLoop now (⟨callbacks, h⟩ : AlarmQueue nHandles A C) called count =
        (calls callbacks l).map fun cs => (called ++ cs, count + l.length, ⟨callbacks, h'⟩))
    ?_ ?_ h called count
  · intro h hstop called count
    have hnone : (⟨callbacks, h⟩ : AlarmQueue nHandles A C).getOneExpiredItem now = none := by
      rw [getOneExpiredItem]
      cases hpk : A.peek h with
      | none => rfl
      | some item =>
        have hlate : ¬ item.expiresAt ≤ now := fun hle => hstop item hpk (decide_eq_true hle)
        dsimp only
        rw [if_neg hlate]
    rw [callAllExpiredLoop]
    split
    · rename_i item queue he
      rw [hnone] at he
      exact absurd he (by simp)
    · rw [calls, Option.map_some, List.append_nil]
      rfl
  · intro h item h' hpk hle hpop ih called count
    have hdue : item.expiresAt ≤ now := of_decide_eq_true hle
    have hone : (⟨callbacks, h⟩ : AlarmQueue nHandles A C).getOneExpiredItem now =
        some (item, h') := by
      rw [getOneExpiredItem, hpk]
      dsimp only
      rw [if_pos hdue, hpop]
    rw [callAllExpiredLoop]
    split
    · rename_i item' queue he
      obtain ⟨rfl, rfl⟩ := Prod.mk.inj (Option.some.inj (hone.symm.trans he))
      rw [if_pos hdue, call, calls]
      cases callbacks[item.handle.id]? with
      | none => rfl
      | some f =>
        show callAllExpiredLoop now _ (called ++ f.toList) (count + 1) = _
        rw [ih, List.length_cons, Nat.add_right_comm, ← Nat.add_assoc, Option.map_map]
        simp only [List.append_assoc]
        rfl
    · rename_i he
      rw [hone] at he
      exact absurd he (by simp)

theorem callAllExpired_eq_loop (q : AlarmQueue nHandles A C) (now : ℕ) :
    q.callAllExpired now = callAllExpiredLoop now q [] 0 := by
  obtain ⟨callbacks, h⟩ := q
  rw [callAllExpiredLoop_eq]
  simp only [List.nil_append, Nat.zero_add]
  rfl

theorem calls_eq_filterMap {callbacks : List (Option C)} {reg : AlarmHandle → Option C}
    {is : List AlarmItem}
    (h : ∀ i ∈ is, callbacks[i.handle.id]? = some (reg i.handle)) :
    calls callbacks is = some (is.filterMap fun i => reg i.handle) := by
  induction is with
  | nil => rfl
  | cons i is ih =>
    rw [calls, h i List.mem_cons_self, ih fun j hj => h j (List.mem_cons_of_mem _ hj),
      List.filterMap_cons]
    -- an entry that is not set adds nothing on either side
    cases reg i.handle with
    | none => rfl
    | some c => rfl

end AlarmQueue

end AurixAsync
