import AurixAsync.Kernel.Step
import AurixAsync.Lib.BoundedMap

/-!
# The executor list

The interrupt executors live by value in a map whose keys are their priorities. A node is given by
its priority, as its pender is. The map comes from a third-party crate; its `insert` replaces the
value of a key that is there, and reports success. `none` is a panic.

* `ExecutorHandle`, `InterruptExecutor`, `ExecutorList`, `allocate`, `spawn`, `get`,
  `startInterruptExecutor`: the code.
* `Allocations`, `Allocations.Action`, `Allocations.step`: the list with the handles that were
  returned and the tasks that were spawned.
* `Undisturbed`: what an `allocate` is to leave alone.
* `undisturbed_along_iff`: it does as long as no priority is allocated twice.
* `Kernel.executorList_of_reachable`: the steps of the kernel use these functions.
-/

namespace AurixAsync

open Transition

/-- The priority of an interrupt executor, which is the key of the map. -/
structure ExecutorHandle where
  prio : UInt8
deriving DecidableEq

/-- `BaseExecutor::register_alarm_callback`, the context being `ctx`. -/
def BaseExecutor.registerAlarmCallback {H : TimerHeap} {nHandles nAlarms : ℕ}
    {A : MinHeap AlarmItem AlarmItem.key nAlarms} {C : Type} (e : BaseExecutor H)
    (alarms : AlarmQueue nHandles A C) (ctx : C) : Option (AlarmQueue nHandles A C) :=
  match e.alarmHandle with
  | none => some alarms
  | some handle => alarms.registerCallback handle ctx

/-- The base executor that is run by a software interrupt. -/
structure InterruptExecutor (H : TimerHeap) where
  inner : BaseExecutor H

namespace InterruptExecutor

variable {H : TimerHeap}

/-- An executor that is pended by the software interrupt of its priority. -/
def new (swInterrupt : UInt8) (alarmHandle : Option AlarmHandle) : InterruptExecutor H :=
  ⟨.new (.interruptExecutorPender swInterrupt) alarmHandle⟩

/-- `BaseExecutor::spawn`. -/
def spawn (e : InterruptExecutor H) (task : TaskRef) : Option (InterruptExecutor H) :=
  (e.inner.spawn task).map .mk

/-- `start`: the alarm queue, and the pender that pends. -/
def start {nHandles nAlarms : ℕ} {A : MinHeap AlarmItem AlarmItem.key nAlarms} {C : Type}
    (e : InterruptExecutor H) (alarms : AlarmQueue nHandles A C) (ctx : C) :
    Option (AlarmQueue nHandles A C × Pender) :=
  (e.inner.registerAlarmCallback alarms ctx).map fun q => (q, e.inner.pender)

theorem spawn_eq_some {e e' : InterruptExecutor H} {task : TaskRef} (h : e.spawn task = some e') :
    e'.inner.runQueue.items = task :: e.inner.runQueue.items := by
  obtain ⟨b, hb, rfl⟩ := Option.map_eq_some_iff.mp h
  obtain ⟨-, q, hq, rfl⟩ := BaseExecutor.spawn_eq_some.mp hb
  exact hq

end InterruptExecutor

/-- The interrupt executors by their handles. -/
structure ExecutorList (H : TimerHeap) (N : ℕ) where
  executors : BoundedMap ExecutorHandle (InterruptExecutor H) N

namespace ExecutorList

variable {H : TimerHeap} {N nHandles nAlarms : ℕ} {A : MinHeap AlarmItem AlarmItem.key nAlarms}

/-- The map is empty. -/
def new : ExecutorList H N := ⟨.new⟩

/-- `allocate`, which never returns `None`. What `insert` returns is not looked at, as long as it
is an `Ok`. -/
def allocate (l : ExecutorList H N) (alarms : AlarmQueue nHandles A ExecutorId) (prio : UInt8) :
    Option (ExecutorHandle × ExecutorList H N × AlarmQueue nHandles A ExecutorId) :=
  if prio = 0 then none
  else
    let handle : ExecutorHandle := ⟨prio⟩
    alarms.tryAllocateHandle.bind fun r =>
      (l.executors.insert handle (.new prio (some r.1))).map fun x => (handle, ⟨x.2⟩, r.2)

/-- A spawn on the executor of a handle. It panics if there is none, or if its run queue is full. -/
def spawn (l : ExecutorList H N) (handle : ExecutorHandle) (task : TaskRef) :
    Option (ExecutorList H N) :=
  (l.executors.get? handle).bind fun e =>
    (e.spawn task).map fun e => ⟨l.executors.replace handle e⟩

/-- The executor of a handle. It panics if there is none. -/
def get (l : ExecutorList H N) (handle : ExecutorHandle) : Option (InterruptExecutor H) :=
  l.executors.get? handle

/-- `start_interrupt_executor`; the callback's context is the executor in the map. -/
def startInterruptExecutor (l : ExecutorList H N) (alarms : AlarmQueue nHandles A ExecutorId)
    (handle : ExecutorHandle) : Option (AlarmQueue nHandles A ExecutorId × Pender) :=
  (l.executors.get? handle).bind fun e => e.start alarms (.interrupt handle.prio)

variable {l l' : ExecutorList H N} {alarms alarms' : AlarmQueue nHandles A ExecutorId}
  {prio : UInt8} {handle handle' : ExecutorHandle} {task : TaskRef}

@[simp] theorem get_new : (new : ExecutorList H N).get handle = none := rfl

/-- **What `allocate` does to every executor**, allocated before or not. -/
theorem allocate_spec (h : l.allocate alarms prio = some (handle, l', alarms')) :
    handle = ⟨prio⟩ ∧ ∃ alarm, alarms.tryAllocateHandle = some (alarm, alarms') ∧
      ∀ handle', l'.get handle' =
        if handle' = handle then some (.new prio (some alarm)) else l.get handle' := by
  unfold allocate at h
  split_ifs at h
  obtain ⟨r, hr, hm⟩ := Option.bind_eq_some_iff.mp h
  obtain ⟨x, hins, he⟩ := Option.map_eq_some_iff.mp hm
  simp only [Prod.mk.injEq] at he
  obtain ⟨rfl, rfl, rfl⟩ := he
  exact ⟨rfl, r.1, hr, fun handle' => (BoundedMap.get?_insert hins).2⟩

theorem spawn_spec (h : l.spawn handle task = some l') :
    ∃ e e', l.get handle = some e ∧ e.spawn task = some e' ∧
      ∀ handle', l'.get handle' = if handle' = handle then some e' else l.get handle' := by
  obtain ⟨e, he, h⟩ := Option.bind_eq_some_iff.mp h
  obtain ⟨e', he', rfl⟩ := Option.map_eq_some_iff.mp h
  refine ⟨e, e', he, he', fun handle' => ?_⟩
  show (l.executors.replace handle e').get? handle' = _
  rw [BoundedMap.get?_replace]
  split_ifs with heq
  · rw [heq, he]
    rfl
  · rfl

end ExecutorList

/-- An executor list in use, with the alarm queue and the software interrupts of the core. -/
structure Allocations (H : TimerHeap) (N nHandles : ℕ) {nAlarms : ℕ}
    (A : MinHeap AlarmItem AlarmItem.key nAlarms) where
  list : ExecutorList H N
  alarms : AlarmQueue nHandles A ExecutorId
  pended : Pender → Bool
  /-- What `allocate` returned, in order. -/
  handles : List ExecutorHandle
  /-- The tasks spawned, each with the handle it was spawned on. -/
  spawned : List (TaskRef × ExecutorHandle)

namespace Allocations

variable {H : TimerHeap} {N nHandles nAlarms : ℕ} {A : MinHeap AlarmItem AlarmItem.key nAlarms}

/-- Nothing is allocated; other parts of the kernel may have alarm handles. -/
def new (alarms : AlarmQueue nHandles A ExecutorId) : Allocations H N nHandles A :=
  ⟨.new, alarms, fun _ => false, [], []⟩

/-- The calls of the list. -/
inductive Action
  | allocate (prio : UInt8)
  | spawn (handle : ExecutorHandle) (task : TaskRef)
  | startInterruptExecutor (handle : ExecutorHandle)
deriving DecidableEq

/-- `none` for a panic. -/
def step (w : Allocations H N nHandles A) : Action → Option (Allocations H N nHandles A)
  | .allocate prio =>
    (w.list.allocate w.alarms prio).map fun r =>
      { w with list := r.2.1, alarms := r.2.2, handles := w.handles ++ [r.1] }
  | .spawn handle task =>
    (w.list.spawn handle task).map fun l =>
      { w with list := l, spawned := w.spawned ++ [(task, handle)] }
  | .startInterruptExecutor handle =>
    (w.list.startInterruptExecutor w.alarms handle).map fun r =>
      { w with alarms := r.1, pended := Function.update w.pended r.2 true }

/-- A state with the step that led to it. An `allocate` returns a new handle and leaves the
executors of the old ones as they were, and a task is held by the executor it was spawned on. -/
structure Undisturbed
    (p : Allocations H N nHandles A × Option (Allocations H N nHandles A × Action)) : Prop where
  fresh : ∀ w prio, p.2 = some (w, .allocate prio) →
    ∃ handle, handle ∉ w.handles ∧ p.1.handles = w.handles ++ [handle]
  kept : ∀ w prio, p.2 = some (w, .allocate prio) →
    ∀ handle ∈ w.handles, p.1.list.get handle = w.list.get handle
  held : ∀ t ∈ p.1.spawned, ∃ e, p.1.list.get t.2 = some e ∧ t.1 ∈ e.inner.runQueue.items

/-- The handles returned are the keys of the map. -/
structure Inv (p : Allocations H N nHandles A × Option (Allocations H N nHandles A × Action)) :
    Prop where
  keys : ∀ handle, handle ∈ p.1.handles ↔ p.1.list.get handle ≠ none
  undisturbed : Undisturbed p

/-- The priority that is allocated. -/
def Action.allocated : Action → Option UInt8
  | .allocate prio => some prio
  | _ => none

/-- No executor was allocated at the priority before. -/
def Fresh (p : Allocations H N nHandles A × Option (Allocations H N nHandles A × Action))
    (a : Action) : Prop := ∀ prio, a.allocated = some prio → ⟨prio⟩ ∉ p.1.handles

variable {alarms : AlarmQueue nHandles A ExecutorId}
  {p p' : Allocations H N nHandles A × Option (Allocations H N nHandles A × Action)}

theorem inv_new : Inv ((new alarms : Allocations H N nHandles A), none) where
  keys handle := by simp [new]
  undisturbed :=
    { fresh := fun w prio h => absurd h (by simp)
      kept := fun w prio h => absurd h (by simp)
      held := fun t h => absurd h List.not_mem_nil }

/-! ### The actions -/

theorem Inv.allocate (h : Inv p) {prio : UInt8} (hs : p.1.step (.allocate prio) = some p'.1)
    (hl : p'.2 = some (p.1, .allocate prio)) (hf : Fresh p (.allocate prio)) : Inv p' := by
  obtain ⟨⟨handle, l', alarms'⟩, hr, he⟩ := Option.map_eq_some_iff.mp hs
  obtain ⟨rfl, alarm, -, hget⟩ := ExecutorList.allocate_spec hr
  have hnew : (⟨prio⟩ : ExecutorHandle) ∉ p.1.handles := hf prio rfl
  have hkept : ∀ handle ∈ p.1.handles, l'.get handle = p.1.list.get handle := by
    intro handle hm
    rw [hget, if_neg]
    rintro rfl
    exact hnew hm
  refine ⟨fun handle => ?_, ⟨fun w prio' hw => ?_, fun w prio' hw => ?_, fun t ht => ?_⟩⟩
  · rw [← he]
    show handle ∈ p.1.handles ++ [⟨prio⟩] ↔ l'.get handle ≠ none
    rw [List.mem_append, List.mem_singleton, h.keys, hget]
    split_ifs with heq
    · exact iff_of_true (Or.inr heq) (by simp)
    · exact or_iff_left heq
  · obtain ⟨rfl, -⟩ := Prod.mk.inj (Option.some.inj (hl.symm.trans hw))
    exact ⟨⟨prio⟩, hnew, by rw [← he]⟩
  · obtain ⟨rfl, -⟩ := Prod.mk.inj (Option.some.inj (hl.symm.trans hw))
    rw [← he]
    exact hkept
  · rw [← he] at ht ⊢
    obtain ⟨e, hge, hmem⟩ := h.undisturbed.held t ht
    refine ⟨e, ?_, hmem⟩
    rw [← hge]
    exact hkept t.2 ((h.keys t.2).mpr (by rw [hge]; simp))

theorem Inv.spawn (h : Inv p) {handle : ExecutorHandle} {task : TaskRef}
    (hs : p.1.step (.spawn handle task) = some p'.1)
    (hl : p'.2 = some (p.1, .spawn handle task)) : Inv p' := by
  obtain ⟨l', hr, he⟩ := Option.map_eq_some_iff.mp hs
  obtain ⟨e, e', hge, hspawn, hget⟩ := ExecutorList.spawn_spec hr
  have hitems := InterruptExecutor.spawn_eq_some hspawn
  refine ⟨fun handle' => ?_, ⟨fun w prio' hw => ?_, fun w prio' hw => ?_, fun t ht => ?_⟩⟩
  · rw [← he]
    show handle' ∈ p.1.handles ↔ l'.get handle' ≠ none
    rw [h.keys, hget]
    split_ifs with heq
    · rw [heq, hge]
      simp
    · rfl
  · exact absurd (hl.symm.trans hw) (by simp)
  · exact absurd (hl.symm.trans hw) (by simp)
  · rw [← he] at ht ⊢
    show ∃ e, l'.get t.2 = some e ∧ _
    rw [hget]
    rcases List.mem_append.mp ht with ht | ht
    · obtain ⟨b, hb, hmem⟩ := h.undisturbed.held t ht
      by_cases heq : t.2 = handle
      · -- the task spawned now is put in front of it
        obtain rfl : e = b := Option.some.inj (hge.symm.trans (heq ▸ hb))
        exact ⟨e', if_pos heq, hitems ▸ List.mem_cons_of_mem _ hmem⟩
      · exact ⟨b, (if_neg heq).trans hb, hmem⟩
    · obtain rfl := List.mem_singleton.mp ht
      exact ⟨e', if_pos rfl, hitems ▸ List.mem_cons_self⟩

theorem Inv.startInterruptExecutor (h : Inv p) {handle : ExecutorHandle}
    (hs : p.1.step (.startInterruptExecutor handle) = some p'.1)
    (hl : p'.2 = some (p.1, .startInterruptExecutor handle)) : Inv p' := by
  obtain ⟨r, -, he⟩ := Option.map_eq_some_iff.mp hs
  refine ⟨fun handle' => ?_, ⟨fun w prio' hw => ?_, fun w prio' hw => ?_, fun t ht => ?_⟩⟩
  · rw [← he]
    exact h.keys handle'
  · exact absurd (hl.symm.trans hw) (by simp)
  · exact absurd (hl.symm.trans hw) (by simp)
  · rw [← he] at ht ⊢
    exact h.undisturbed.held t ht

/-- A step keeps the invariant, unless it allocates a priority again. -/
theorem Inv.step (h : Inv p) {a : Action} (hs : remember Allocations.step p a = some p')
    (hf : Fresh p a) : Inv p' := by
  obtain ⟨hs, hl⟩ := remember_eq_some.mp hs
  cases a with
  | allocate prio => exact h.allocate hs hl hf
  | spawn handle task => exact h.spawn hs hl
  | startInterruptExecutor handle => exact h.startInterruptExecutor hs hl

theorem fresh_of_undisturbed {a : Action} (hs : remember Allocations.step p a = some p')
    (hu : Undisturbed p') : Fresh p a := by
  obtain ⟨hs, hl⟩ := remember_eq_some.mp hs
  intro prio ha
  cases a with
  | allocate prio' =>
    obtain rfl : prio' = prio := Option.some.inj ha
    obtain ⟨⟨handle, l', alarms'⟩, hr, he⟩ := Option.map_eq_some_iff.mp hs
    obtain ⟨rfl, -⟩ := ExecutorList.allocate_spec hr
    obtain ⟨handle, hnew, hhandles⟩ := hu.fresh p.1 prio' hl
    rw [← he] at hhandles
    obtain rfl := List.singleton_inj.mp (List.append_cancel_left hhandles)
    exact hnew
  | spawn handle task => exact absurd ha (by simp [Action.allocated])
  | startInterruptExecutor handle => exact absurd ha (by simp [Action.allocated])

/-- The priorities allocated by a list of actions. -/
def allocated (as : List Action) : List UInt8 := as.filterMap Action.allocated

variable {tr : List ((Allocations H N nHandles A × Option (Allocations H N nHandles A × Action)) ×
  Action)}

theorem allocated_concat (as : List Action) (a : Action) :
    allocated (as ++ [a]) = allocated as ++ a.allocated.toList := by
  rw [allocated, List.filterMap_append]
  cases a <;> rfl

theorem handles_of_step {w w' : Allocations H N nHandles A} {a : Action}
    (h : w.step a = some w') : w'.handles = w.handles ++ a.allocated.toList.map .mk := by
  cases a with
  | allocate prio =>
    obtain ⟨r, hr, rfl⟩ := Option.map_eq_some_iff.mp h
    obtain ⟨he, -⟩ := ExecutorList.allocate_spec hr
    show w.handles ++ [r.1] = w.handles ++ [⟨prio⟩]
    rw [he]
  | spawn handle task =>
    obtain ⟨l, -, rfl⟩ := Option.map_eq_some_iff.mp h
    exact (List.append_nil _).symm
  | startInterruptExecutor handle =>
    obtain ⟨r, -, rfl⟩ := Option.map_eq_some_iff.mp h
    exact (List.append_nil _).symm

theorem handles_of_run
    (hr : Run (remember step) ((new alarms : Allocations H N nHandles A), none) tr p) :
    p.1.handles = (allocated (tr.map Prod.snd)).map .mk := by
  induction hr with
  | nil => rfl
  | snoc hr hs ih =>
    obtain ⟨hs, -⟩ := remember_eq_some.mp hs
    rw [handles_of_step hs, ih, List.map_append, List.map_singleton, allocated_concat,
      List.map_append]

theorem allSteps_fresh_iff
    (hr : Run (remember step) ((new alarms : Allocations H N nHandles A), none) tr p) :
    AllSteps Fresh tr ↔ (allocated (tr.map Prod.snd)).Nodup := by
  induction hr with
  | nil => exact iff_of_true (fun q hq => absurd hq List.not_mem_nil) List.nodup_nil
  | @snoc tr q a q' hr hs ih =>
    rw [allSteps_snoc, ih, List.map_append, List.map_singleton, allocated_concat, Fresh,
      handles_of_run hr]
    cases a.allocated with
    | none => simp
    | some prio =>
      have hinj : Function.Injective ExecutorHandle.mk := fun x y h => ExecutorHandle.mk.inj h
      simp only [Option.some.injEq, forall_eq', List.mem_map_of_injective hinj, Option.toList_some]
      rw [← List.concat_eq_append, List.nodup_concat]
      exact and_comm

/-- **When `allocate` disturbs no executor**: in every state of a run, exactly if no two calls of
it have the same priority. -/
theorem undisturbed_along_iff
    (hr : Run (remember step) ((new alarms : Allocations H N nHandles A), none) tr p) :
    Along Undisturbed tr p ↔ (allocated (tr.map Prod.snd)).Nodup := by
  rw [← allSteps_fresh_iff hr]
  exact hr.exact (B := fun _ => True) inv_new (fun _ h => h.undisturbed) (fun _ _ _ _ _ => trivial)
    (fun _ _ _ h _ hs hf => h.step hs hf) (fun _ _ _ _ _ hs hu => fresh_of_undisturbed hs hu)
    trivial

/-- A task is spawned on the executor of priority 3, and another node of priority 3 is allocated. -/
def reallocateRun : List Action := [.allocate 3, .spawn ⟨3⟩ 7, .allocate 3]

/-- The handle is returned a second time, and the task is gone from the executor behind it. -/
theorem undisturbed_along_iff_reallocateRun : ∃ tr p,
    Run (remember step) ((new .new : Allocations TimerHeap.list 4 8 AlarmHeap.list), none) tr p ∧
      p.1.handles = [⟨3⟩, ⟨3⟩] ∧ p.1.spawned = [(7, ⟨3⟩)] ∧
      (p.1.list.get ⟨3⟩).map (·.inner.runQueue.items) = some [] ∧ ¬ Undisturbed p := by
  obtain ⟨p, hp, he⟩ := exists_of_map_runList (r := remember step) (l := reallocateRun)
    (s := ((new .new : Allocations TimerHeap.list 4 8 AlarmHeap.list), none))
    (f := fun p => (p.1.handles, p.1.spawned,
      (p.1.list.get ⟨3⟩).map (·.inner.runQueue.items)))
    (b := ([⟨3⟩, ⟨3⟩], [(7, ⟨3⟩)], some [])) (by decide)
  simp only [Prod.mk.injEq] at he
  obtain ⟨hh, hs, hq⟩ := he
  obtain ⟨tr, hr, -⟩ := exists_run_of_runList hp
  refine ⟨tr, p, hr, hh, hs, hq, fun hu => ?_⟩
  obtain ⟨e, hge, hmem⟩ := hu.held (7, ⟨3⟩) (hs ▸ List.mem_singleton_self _)
  rw [hge, Option.map_some, Option.some.injEq] at hq
  rw [hq] at hmem
  exact absurd hmem List.not_mem_nil

/-- Two priorities with a task each, and both executors started. -/
def allocateRun : List Action :=
  [.allocate 2, .spawn ⟨2⟩ 0, .allocate 3, .spawn ⟨3⟩ 1, .startInterruptExecutor ⟨2⟩,
    .startInterruptExecutor ⟨3⟩, .spawn ⟨2⟩ 2]

theorem undisturbed_along_iff_allocateRun : ∃ tr p,
    Run (remember step) ((new .new : Allocations TimerHeap.list 4 8 AlarmHeap.list), none) tr p ∧
      tr.map Prod.snd = allocateRun ∧ Along Undisturbed tr p := by
  obtain ⟨p, hp, -⟩ := exists_of_map_runList (r := remember step) (l := allocateRun)
    (s := ((new .new : Allocations TimerHeap.list 4 8 AlarmHeap.list), none))
    (f := fun p => p.1.handles) (b := [⟨2⟩, ⟨3⟩]) (by decide)
  obtain ⟨tr, hr, hacts⟩ := exists_run_of_runList hp
  refine ⟨tr, p, hr, hacts, (undisturbed_along_iff hr).mpr ?_⟩
  rw [hacts]
  decide

end Allocations

/-! ### The executors of the kernel -/

namespace Kernel

variable {H : TimerHeap} {A : AlarmHeap} {k k' : Kernel H A} {prio : UInt8}
  {l : ExecutorList H N_EXECUTORS}

/-- The list holds the interrupt executors of the kernel. -/
structure Represents (l : ExecutorList H N_EXECUTORS) (k : Kernel H A) : Prop where
  keys : (l.executors.entries.map Prod.fst).Perm (k.allocated.map .mk)
  get : ∀ prio ∈ k.allocated, l.get ⟨prio⟩ = some ⟨(k.execs (.interrupt prio)).base⟩

theorem Represents.mem_keys (hr : Represents l k) :
    ⟨prio⟩ ∈ l.executors.entries.map Prod.fst ↔ prio ∈ k.allocated :=
  hr.keys.mem_iff.trans
    (List.mem_map_of_injective fun _ _ h => ExecutorHandle.mk.inj h)

/-- An `allocate` of the kernel is one of the list. -/
theorem Represents.allocate (hr : Represents l k) (hp : PendersKept k)
    (h : k.step (.allocate prio) = some k') :
    ∃ l', l.allocate k.alarms prio = some (⟨prio⟩, l', k'.alarms) ∧ Represents l' k' := by
  obtain ⟨⟨hne, hroom⟩, alarm, q, hq, x, hx, rfl⟩ := step_allocate.mp h
  obtain rfl := Executor.step_overwrite.mp hx
  obtain ⟨⟨old, m'⟩, hins⟩ : ∃ r, l.executors.insert ⟨prio⟩ (.new prio (some alarm)) = some r := by
    apply Option.ne_none_iff_exists'.mp
    intro hn
    obtain ⟨hget, hfull⟩ := BoundedMap.insert_eq_none.mp hn
    have hlen := hr.keys.length_eq
    rw [List.length_map, List.length_map, hfull] at hlen
    rw [BoundedMap.get?_eq_none, hr.mem_keys] at hget
    rcases hroom with hm | hlt
    · exact hget hm
    · omega
  refine ⟨⟨m'⟩, ?_, ?_, fun prio' hm => ?_⟩
  · rw [ExecutorList.allocate, if_neg hne, hq]
    show (l.executors.insert ⟨prio⟩ (.new prio (some alarm))).map _ = _
    rw [hins]
    rfl
  · show (m'.entries.map Prod.fst).Perm ((k.allocated.insert prio).map .mk)
    rw [BoundedMap.keys_insert hins]
    split_ifs with hm
    · rw [List.insert_of_mem (hr.mem_keys.mp hm)]
      exact hr.keys
    · rw [List.insert_of_not_mem fun h => hm (hr.mem_keys.mpr h), List.map_cons]
      exact (hr.keys.append_right [⟨prio⟩]).trans (List.perm_append_singleton _ _)
  · show m'.get? ⟨prio'⟩ = some ⟨(Function.update k.execs (.interrupt prio) _ _).base⟩
    rw [(BoundedMap.get?_insert hins).2]
    by_cases he : prio' = prio
    · subst he
      rw [if_pos rfl, Function.update_self, hp (.interrupt prio')]
      rfl
    · rw [if_neg fun h => he (ExecutorHandle.mk.inj h),
        Function.update_of_ne fun h => he (ExecutorId.interrupt.inj h)]
      apply hr.get
      exact (List.mem_insert_iff.mp hm).resolve_left he

theorem Represents.spawn (hr : Represents l k) (h : k.step (.spawn (.interrupt prio)) = some k') :
    ∃ l', l.spawn ⟨prio⟩ k.owner.length = some l' ∧ Represents l' k' := by
  obtain ⟨ha, x, hx, rfl⟩ := step_spawn.mp h
  have hm : prio ∈ k.allocated := of_decide_eq_true ha
  simp only [Executor.step] at hx
  split_ifs at hx
  obtain ⟨b, hb, rfl⟩ := Option.map_eq_some_iff.mp hx
  refine ⟨⟨l.executors.replace ⟨prio⟩ ⟨b⟩⟩, ?_, ?_, fun prio' hm' => ?_⟩
  · rw [ExecutorList.spawn, show l.executors.get? ⟨prio⟩ = _ from hr.get prio hm]
    show ((BaseExecutor.spawn _ k.owner.length).map InterruptExecutor.mk).map _ = _
    rw [hb]
    rfl
  · show ((l.executors.replace ⟨prio⟩ ⟨b⟩).entries.map Prod.fst).Perm _
    rw [BoundedMap.keys_replace]
    exact hr.keys
  · show (l.executors.replace ⟨prio⟩ ⟨b⟩).get? ⟨prio'⟩ =
      some ⟨(Function.update k.execs (.interrupt prio) _ _).base⟩
    have hget : l.executors.get? ⟨prio'⟩ = _ := hr.get prio' hm'
    rw [BoundedMap.get?_replace, hget]
    by_cases he : prio' = prio
    · subst he
      rw [if_pos rfl, Function.update_self]
      rfl
    · rw [if_neg fun h => he (ExecutorHandle.mk.inj h),
        Function.update_of_ne fun h => he (ExecutorId.interrupt.inj h)]

theorem Represents.start (hr : Represents l k) (hp : PendersKept k)
    (h : k.step (.start (.interrupt prio)) = some k') :
    l.startInterruptExecutor k.alarms ⟨prio⟩ =
        some (k'.alarms, .interruptExecutorPender prio) ∧ Represents l k' := by
  obtain ⟨⟨ha, -⟩, q, hq, rfl⟩ := step_start.mp h
  have hm : prio ∈ k.allocated := of_decide_eq_true ha
  refine ⟨?_, hr.keys, hr.get⟩
  rw [ExecutorList.startInterruptExecutor, show l.executors.get? ⟨prio⟩ = _ from hr.get prio hm]
  show (BaseExecutor.registerAlarmCallback _ k.alarms (.interrupt prio)).map _ = _
  rw [show BaseExecutor.registerAlarmCallback (k.execs (.interrupt prio)).base k.alarms
    (.interrupt prio) = some q from hq]
  show some (q, (k.execs (.interrupt prio)).base.pender) = _
  rw [hp]
  rfl

/-- No priority is listed twice, and all have a place in the map. -/
def AllocatedFits (k : Kernel H A) : Prop :=
  k.allocated.Nodup ∧ k.allocated.length ≤ N_EXECUTORS

theorem AllocatedFits.step {a : Action} (hf : AllocatedFits k) (h : k.step a = some k') :
    AllocatedFits k' := by
  cases a with
  | allocate prio =>
    obtain ⟨⟨-, hroom⟩, alarm, q, -, x, -, rfl⟩ := step_allocate.mp h
    refine ⟨hf.1.insert, ?_⟩
    show (k.allocated.insert prio).length ≤ N_EXECUTORS
    by_cases hm : prio ∈ k.allocated
    · rw [List.insert_of_mem hm]
      exact hf.2
    · rw [List.insert_of_not_mem hm, List.length_cons]
      exact hroom.resolve_left hm
  | threadExecutor =>
    obtain ⟨-, handle, q, -, x, -, rfl⟩ := step_threadExecutor.mp h
    exact hf
  | spawn e =>
    obtain ⟨-, x, -, rfl⟩ := step_spawn.mp h
    exact hf
  | start e =>
    obtain ⟨-, q, -, rfl⟩ := step_start.mp h
    exact hf
  | wake task =>
    obtain ⟨e, -, x, -, rfl⟩ := step_wake.mp h
    exact hf
  | pend e =>
    obtain ⟨-, rfl⟩ := step_pend.mp h
    exact hf
  | exec e b =>
    obtain ⟨-, x, -, rfl⟩ := step_exec.mp h
    exact hf
  | defaultHandler prio =>
    obtain ⟨-, rfl⟩ := step_defaultHandler.mp h
    exact hf
  | timerInterrupt =>
    obtain ⟨cs, n, q, -, rfl⟩ := step_timerInterrupt.mp h
    exact hf

/-- The executors of the kernel, as a list. -/
theorem exists_represents (hf : AllocatedFits k) :
    ∃ l : ExecutorList H N_EXECUTORS, Represents l k := by
  have hkeys : (k.allocated.map fun prio =>
      ((⟨prio⟩ : ExecutorHandle), (⟨(k.execs (.interrupt prio)).base⟩ : InterruptExecutor H))).map
        Prod.fst = k.allocated.map .mk := List.map_map
  refine ⟨⟨⟨k.allocated.map fun prio => (⟨prio⟩, ⟨(k.execs (.interrupt prio)).base⟩), ?_, ?_⟩⟩,
    ?_, fun prio hm => ?_⟩
  · rw [hkeys]
    exact hf.1.map fun _ _ h => ExecutorHandle.mk.inj h
  · rw [List.length_map]
    exact hf.2
  · rw [hkeys]
  · exact BoundedMap.get?_of_mem (List.mem_map_of_mem hm)

/-- **The kernel uses the list**: the executors of a reachable kernel are held by a list, on which
its allocations, spawns and starts are the functions of the list. -/
theorem executorList_of_reachable (h : Reachable step (new : Kernel H A) k) :
    ∃ l : ExecutorList H N_EXECUTORS, Represents l k ∧
      (∀ prio k', k.step (.allocate prio) = some k' →
        ∃ l', l.allocate k.alarms prio = some (⟨prio⟩, l', k'.alarms) ∧ Represents l' k') ∧
      (∀ prio k', k.step (.spawn (.interrupt prio)) = some k' →
        ∃ l', l.spawn ⟨prio⟩ k.owner.length = some l' ∧ Represents l' k') ∧
      ∀ prio k', k.step (.start (.interrupt prio)) = some k' →
        l.startInterruptExecutor k.alarms ⟨prio⟩ =
            some (k'.alarms, .interruptExecutorPender prio) ∧ Represents l k' := by
  have hf : AllocatedFits k :=
    h.invariant ⟨List.nodup_nil, Nat.zero_le _⟩ fun _ _ _ hi hs => hi.step hs
  have hp := pendersKept_of_reachable h
  obtain ⟨l, hr⟩ := exists_represents hf
  exact ⟨l, hr, fun _ _ hs => hr.allocate hp hs, fun _ _ hs => hr.spawn hs,
    fun _ _ hs => hr.start hp hs⟩

end Kernel

end AurixAsync
