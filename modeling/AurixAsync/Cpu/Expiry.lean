import AurixAsync.Cpu.Alarm
import AurixAsync.Lib.Run
import AurixAsync.Time.TimerQueue
import Mathlib.Logic.Function.Basic

/-!
# What expires

The two loops that take out what has expired: `TimerQueue::dequeue_expired`, of any timer queue,
and `AlarmQueue::call_all_expired`, of an alarm queue in use. The handles of an alarm queue come
from `try_allocate_handle`: nothing else in the crate makes one.

* `AlarmUse`, `AlarmUse.Action`, `AlarmUse.step`: an alarm queue with the handles its callers got
  and the callbacks they registered.
* `AlarmUse.Inv`: the table holds, at the index of a handle, what was registered for it.
* `TimerQueue.Exact`, `AlarmUse.Exact`: what the loops are to do.
* `expiry_exact`: they do it.
-/

namespace AurixAsync

/-- `l` is what is due at `now`, in the order of `expires_at`, and `q'` is left. -/
structure TimerQueue.Drained {H : TimerHeap} (q : TimerQueue H) (now : ℕ)
    (l : List TimerQueueItem) (q' : TimerQueue H) : Prop where
  due : (l : Multiset TimerQueueItem) = q.items.filter (·.expiresAt ≤ now)
  sorted : l.Pairwise (·.expiresAt ≤ ·.expiresAt)
  left : q'.items = q.items.filter (now < ·.expiresAt)
  next : ∀ n, q'.nextExpiration = some n → now < n

/-- A drain calls `on_each` for what is due, and counts the calls. A panic of `on_each` ends it. -/
def TimerQueue.Exact {H : TimerHeap} (q : TimerQueue H) (now : ℕ) : Prop :=
  ∃ l q', q.Drained now l q' ∧
    ∀ {σ : Type} (onEach : σ → TimerQueueItem → Option σ) (s : σ),
      q.dequeueExpiredWith now onEach s = (l.foldlM onEach s).map fun t => (t, l.length, q')

theorem TimerQueue.exact {H : TimerHeap} (q : TimerQueue H) (now : ℕ) : q.Exact now := by
  obtain ⟨hdue, -, hsorted⟩ := dequeueExpired_spec q now
  refine ⟨_, _, ⟨hdue, hsorted, items_dequeueExpired, ?_⟩, fun onEach s => ?_⟩
  · exact fun n hn => lt_nextExpiration_dequeueExpired hn
  · exact dequeueExpiredWith_eq q now onEach s

/-- An alarm queue in use. -/
structure AlarmUse (nHandles : ℕ) {nAlarms : ℕ} (A : MinHeap AlarmItem AlarmItem.key nAlarms)
    (C : Type) where
  queue : AlarmQueue nHandles A C
  /-- What `try_allocate_handle` returned, in order. -/
  handles : List AlarmHandle
  /-- The callback last registered for each handle. -/
  registered : AlarmHandle → Option C

namespace AlarmUse

open Transition

variable {nHandles nAlarms : ℕ} {A : MinHeap AlarmItem AlarmItem.key nAlarms} {C : Type}

/-- Nothing is allocated, registered or set. -/
def new : AlarmUse nHandles A C := ⟨.new, [], fun _ => none⟩

/-- The calls of the alarm queue. -/
inductive Action (C : Type)
  | tryAllocateHandle
  | registerCallback (handle : AlarmHandle) (f : C)
  | setAlarm (handle : AlarmHandle) (expiresAt : ℕ)
  | callAllExpired (now : ℕ)

/-- `none` where the caller has no such handle, and for a panic. -/
def step (w : AlarmUse nHandles A C) : Action C → Option (AlarmUse nHandles A C)
  | .tryAllocateHandle =>
    match w.queue.tryAllocateHandle with
    | some (handle, q) => some { w with queue := q, handles := w.handles ++ [handle] }
    | none => some w
  | .registerCallback handle f =>
    if handle ∈ w.handles then
      (w.queue.registerCallback handle f).map fun q =>
        { w with queue := q, registered := Function.update w.registered handle (some f) }
    else none
  | .setAlarm handle expiresAt =>
    if handle ∈ w.handles then
      some { w with queue := (w.queue.setAlarm handle expiresAt).getD w.queue }
    else none
  | .callAllExpired now =>
    (w.queue.callAllExpired now).map fun r => { w with queue := r.2.2 }

/-- The handles are the indices of the table, which holds what was registered for them. -/
structure Inv (w : AlarmUse nHandles A C) : Prop where
  handles : w.handles = (List.range w.queue.callbacks.length).map AlarmHandle.ofIdx
  callbacks : ∀ handle, (w.queue.callbacks[handle.id]?).join = w.registered handle
  items : ∀ i ∈ w.queue.items, i.handle ∈ w.handles

variable {w w' : AlarmUse nHandles A C}

theorem inv_new : (new : AlarmUse nHandles A C).Inv where
  handles := rfl
  callbacks _ := rfl
  items i hi := by
    rw [new, AlarmQueue.items_new] at hi
    exact absurd hi (Multiset.notMem_zero i)

theorem Inv.id_lt (h : w.Inv) {handle : AlarmHandle} (hm : handle ∈ w.handles) :
    handle.id < w.queue.callbacks.length := by
  rw [h.handles, List.mem_map] at hm
  obtain ⟨idx, hidx, rfl⟩ := hm
  exact (Nat.mod_le idx _).trans_lt (List.mem_range.mp hidx)

theorem Inv.getElem?_callbacks (h : w.Inv) {handle : AlarmHandle} (hm : handle ∈ w.handles) :
    w.queue.callbacks[handle.id]? = some (w.registered handle) := by
  rw [← h.callbacks handle, List.getElem?_eq_getElem (h.id_lt hm)]
  rfl

/-! ### The actions -/

theorem Inv.tryAllocateHandle (h : w.Inv) {handle : AlarmHandle} {q : AlarmQueue nHandles A C}
    (hq : w.queue.tryAllocateHandle = some (handle, q)) :
    ({ w with queue := q, handles := w.handles ++ [handle] } : AlarmUse nHandles A C).Inv := by
  unfold AlarmQueue.tryAllocateHandle at hq
  split_ifs at hq
  obtain ⟨rfl, rfl⟩ := Prod.mk.inj (Option.some.inj hq)
  refine ⟨?_, fun handle => ?_, fun i hi => List.mem_append_left _ (h.items i hi)⟩
  · show w.handles ++ [_] = (List.range (w.queue.callbacks ++ [none]).length).map _
    rw [List.length_append, List.length_singleton, List.range_succ, List.map_append, ← h.handles]
    rfl
  · -- the new entry is not set, as if it were not there
    rw [← h.callbacks handle]
    show ((w.queue.callbacks ++ [none])[handle.id]?).join = _
    rw [List.getElem?_append]
    split_ifs with hlt
    · rfl
    · rw [List.getElem?_eq_none (not_lt.mp hlt), List.getElem?_singleton]
      split_ifs <;> rfl

theorem Inv.registerCallback (h : w.Inv) {handle : AlarmHandle} {f : C}
    {q : AlarmQueue nHandles A C} (hq : w.queue.registerCallback handle f = some q) :
    ({ w with
        queue := q
        registered := Function.update w.registered handle (some f) } :
      AlarmUse nHandles A C).Inv := by
  unfold AlarmQueue.registerCallback at hq
  split_ifs at hq with hlt
  obtain rfl := Option.some.inj hq
  refine ⟨?_, fun handle' => ?_, h.items⟩
  · show w.handles = (List.range (w.queue.callbacks.set handle.id (some f)).length).map _
    rw [List.length_set]
    exact h.handles
  · show ((w.queue.callbacks.set handle.id (some f))[handle'.id]?).join =
      Function.update w.registered handle (some f) handle'
    by_cases he : handle' = handle
    · subst he
      rw [List.getElem?_set_self hlt, Function.update_self]
      rfl
    · have hid : handle.id ≠ handle'.id := by
        intro hid
        apply he
        cases handle
        cases handle'
        exact congrArg AlarmHandle.mk hid.symm
      rw [List.getElem?_set_ne hid, Function.update_of_ne he]
      exact h.callbacks handle'

theorem Inv.setAlarm (h : w.Inv) {handle : AlarmHandle} (hm : handle ∈ w.handles) (n : ℕ) :
    ({ w with queue := (w.queue.setAlarm handle n).getD w.queue } : AlarmUse nHandles A C).Inv := by
  refine ⟨?_, fun handle' => ?_, fun i hi => ?_⟩
  · show w.handles = (List.range ((w.queue.setAlarm handle n).getD w.queue).callbacks.length).map _
    rw [AlarmQueue.callbacks_setAlarm_getD]
    exact h.handles
  · show (((w.queue.setAlarm handle n).getD w.queue).callbacks[handle'.id]?).join = _
    rw [AlarmQueue.callbacks_setAlarm_getD]
    exact h.callbacks handle'
  · rw [AlarmQueue.items_setAlarm_getD] at hi
    split_ifs at hi
    · exact h.items i hi
    · rcases Multiset.mem_cons.mp hi with rfl | hi
      · exact hm
      · exact h.items i hi

/-! ### Draining the alarms -/

/-- `l` is what is due at `now`, in the order of `expires_at` and then of the handle, and `q'` is
left. -/
structure Drained (w : AlarmUse nHandles A C) (now : ℕ) (l : List AlarmItem)
    (q' : AlarmQueue nHandles A C) : Prop where
  due : (l : Multiset AlarmItem) = w.queue.items.filter (·.expiresAt ≤ now)
  sorted : l.Pairwise (·.key ≤ ·.key)
  left : q'.items = w.queue.items.filter (now < ·.expiresAt)
  callbacks : q'.callbacks = w.queue.callbacks

theorem Inv.callAllExpired (h : w.Inv) (now : ℕ) : ∃ l q', w.Drained now l q' ∧
    w.queue.callAllExpired now =
      some (l.filterMap fun i => w.registered i.handle, l.length, q') := by
  obtain ⟨hdue, hleft, hsorted⟩ := AlarmQueue.drain_spec w.queue now
  have hreg : ∀ i ∈ (A.drain (fun item => item.expiresAt ≤ now) w.queue.queue).1,
      w.queue.callbacks[i.handle.id]? = some (w.registered i.handle) := by
    intro i hi
    rw [← Multiset.mem_coe, hdue] at hi
    exact h.getElem?_callbacks (h.items i (Multiset.mem_of_mem_filter hi))
  refine ⟨_, ⟨w.queue.callbacks, _⟩, ⟨hdue, hsorted, hleft, rfl⟩, ?_⟩
  unfold AlarmQueue.callAllExpired
  dsimp only
  rw [AlarmQueue.calls_eq_filterMap hreg]
  rfl

theorem Inv.step (h : w.Inv) {a : Action C} (hs : w.step a = some w') : w'.Inv := by
  cases a with
  | tryAllocateHandle =>
    rw [AlarmUse.step] at hs
    cases hq : w.queue.tryAllocateHandle with
    | none =>
      rw [hq] at hs
      obtain rfl := Option.some.inj hs
      exact h
    | some r =>
      rw [hq] at hs
      obtain rfl := Option.some.inj hs
      exact h.tryAllocateHandle hq
  | registerCallback handle f =>
    rw [AlarmUse.step] at hs
    split_ifs at hs
    obtain ⟨q, hq, rfl⟩ := Option.map_eq_some_iff.mp hs
    exact h.registerCallback hq
  | setAlarm handle n =>
    rw [AlarmUse.step] at hs
    split_ifs at hs with hm
    obtain rfl := Option.some.inj hs
    exact h.setAlarm hm n
  | callAllExpired now =>
    obtain ⟨l, q', hd, hcall⟩ := h.callAllExpired now
    rw [AlarmUse.step, hcall] at hs
    obtain rfl := Option.some.inj hs
    refine ⟨?_, fun handle => ?_, fun i hi => ?_⟩
    · rw [h.handles, ← hd.callbacks]
    · rw [← h.callbacks handle, ← hd.callbacks]
    · rw [hd.left] at hi
      exact h.items i (Multiset.mem_of_mem_filter hi)

theorem inv_of_reachable (h : Reachable step (new : AlarmUse nHandles A C) w) : w.Inv :=
  h.invariant inv_new fun _ _ _ hw hs => hw.step hs

theorem Inv.nodup_id (h : w.Inv) (hle : w.handles.length ≤ 2 ^ 8) :
    (w.handles.map AlarmHandle.id).Nodup := by
  have hlen : w.queue.callbacks.length ≤ 2 ^ 8 := by
    rw [h.handles, List.length_map, List.length_range] at hle
    exact hle
  have hid : (List.range w.queue.callbacks.length).map (AlarmHandle.id ∘ AlarmHandle.ofIdx) =
      List.range w.queue.callbacks.length := by
    refine (List.map_congr_left fun idx hidx => ?_).trans (List.map_id _)
    exact Nat.mod_eq_of_lt ((List.mem_range.mp hidx).trans_le hlen)
  rw [h.handles, List.map_map, hid]
  exact List.nodup_range

/-- No two handles share an entry, and every drain is exact. -/
structure Exact (w : AlarmUse nHandles A C) : Prop where
  slots : w.handles.length ≤ 2 ^ 8 → (w.handles.map AlarmHandle.id).Nodup
  drains : ∀ now, ∃ l q', w.Drained now l q' ∧
    AlarmQueue.callAllExpiredLoop now w.queue [] 0 =
      some (l.filterMap fun i => w.registered i.handle, l.length, q')

theorem exact_of_reachable (h : Reachable step (new : AlarmUse nHandles A C) w) : w.Exact where
  slots := (inv_of_reachable h).nodup_id
  drains now := by
    rw [← AlarmQueue.callAllExpired_eq_loop]
    exact (inv_of_reachable h).callAllExpired now

end AlarmUse

/-- **The two drains are exact**, for every content of the queues and every `now`. -/
theorem expiry_exact {H : TimerHeap} {nHandles nAlarms : ℕ}
    {A : MinHeap AlarmItem AlarmItem.key nAlarms} {C : Type} :
    (∀ (q : TimerQueue H) (now : ℕ), q.Exact now) ∧
      ∀ w, Transition.Reachable AlarmUse.step (AlarmUse.new : AlarmUse nHandles A C) w →
        w.Exact :=
  ⟨TimerQueue.exact, fun _ h => AlarmUse.exact_of_reachable h⟩

/-- Two handles, of which the second has two alarms at the tick of the first one. -/
def expiryRun : List (AlarmUse.Action ℕ) :=
  [.tryAllocateHandle, .tryAllocateHandle, .registerCallback ⟨0⟩ 10, .registerCallback ⟨1⟩ 20,
    .registerCallback ⟨1⟩ 21, .setAlarm ⟨1⟩ 5, .setAlarm ⟨0⟩ 9, .setAlarm ⟨0⟩ 5, .setAlarm ⟨1⟩ 5]

/-- At tick 5 the callbacks of the first and twice the last one of the second are called. -/
theorem expiry_exact_expiryRun :
    ∃ w : AlarmUse 8 (MinHeap.ofList AlarmItem.key 64) ℕ, w.Exact ∧
      (w.queue.callAllExpired 5).map (fun r => (r.1, r.2.1)) = some ([10, 21, 21], 3) := by
  obtain ⟨w, hw, hcall⟩ := Transition.exists_of_map_runList
    (f := fun w : AlarmUse 8 (MinHeap.ofList AlarmItem.key 64) ℕ =>
      (w.queue.callAllExpired 5).map fun r => (r.1, r.2.1))
    (r := AlarmUse.step) (s := AlarmUse.new) (l := expiryRun) (b := some ([10, 21, 21], 3))
    (by decide)
  exact ⟨w, (expiry_exact (H := TimerHeap.list)).2 w (Transition.reachable_of_runList hw), hcall⟩

end AurixAsync
