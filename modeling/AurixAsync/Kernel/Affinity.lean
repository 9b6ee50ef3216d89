import AurixAsync.Executor.Queues
import AurixAsync.Kernel.Step
import Mathlib.Data.List.Infix

/-!
# Task affinity

A task header keeps a raw pointer to the executor it was spawned on, and a wake follows it. The
map of interrupt executors appends a new key behind its entries and replaces the value of an old
one in place.

* `SpawnedOn`: the task is the one that a spawn of the run created.
* `Affine`: the queues of an executor hold tasks spawned on it, and it polls no other.
* `OwnerInv`: the pointer in a header is to the executor that counts the task among its own.
* `slotOf`, `slotOf_of_spawn`: the place in the map that a header points to stays the same entry.
* `affinity_of_run`: every run keeps tasks on the executor they were spawned on.
-/

namespace AurixAsync

open Transition

theorem Executor.tasks_eq_of_step {H : TimerHeap} {x x' : Executor H} {a : Executor.Action}
    (ha : ∀ t, a ≠ .spawn t) (h : x.step a = some x') : x'.tasks = x.tasks := by
  cases a with
  | spawn task => exact absurd rfl (ha task)
  | wake task => obtain ⟨-, rfl⟩ := step_wake.mp h; rfl
  | overwrite handle => obtain rfl := step_overwrite.mp h; rfl
  | registerAlarm handle => obtain rfl := step_registerAlarm.mp h; rfl
  | enter => obtain ⟨-, rfl⟩ := step_enter.mp h; rfl
  | readNow now => obtain ⟨-, rfl⟩ := step_readNow.mp h; rfl
  | dequeueExpired =>
    obtain ⟨-, -, ⟨r, b, -, rfl⟩ | ⟨-, rfl⟩⟩ := step_dequeueExpired.mp h <;> rfl
  | enqueueReady => obtain ⟨-, -, ⟨b, -, rfl⟩ | ⟨-, rfl⟩⟩ := step_enqueueReady.mp h <;> rfl
  | popFront => obtain ⟨-, ⟨t, q, -, rfl⟩ | ⟨-, rfl⟩⟩ := step_popFront.mp h <;> rfl
  | pollTimer now n => obtain ⟨t, -, rfl⟩ := step_pollTimer.mp h; rfl
  | endPoll => obtain ⟨t, -, rfl⟩ := step_endPoll.mp h; rfl
  | nextExpiration => obtain ⟨-, ⟨n, -, rfl⟩ | ⟨-, rfl⟩⟩ := step_nextExpiration.mp h <;> rfl
  | setAlarm => obtain ⟨n, -, ⟨k, -, rfl⟩ | ⟨-, rfl⟩⟩ := step_setAlarm.mp h <;> rfl

namespace Kernel

variable {H : TimerHeap} {A : AlarmHeap} {k k' : Kernel H A} {tr : List (Kernel H A × Action)}
  {t : TaskRef} {e e' : ExecutorId}

/-- The task is the one created by a `spawn` of the run on this executor. -/
def SpawnedOn (tr : List (Kernel H A × Action)) (t : TaskRef) (e : ExecutorId) : Prop :=
  ∃ k₀, (k₀, Action.spawn e) ∈ tr ∧ k₀.owner.length = t

/-- Whatever an executor holds or polls was spawned on it: in the run queue, in the timer queue, in
the ready vector of `check_timer_queue`, and under poll. -/
structure Affine (tr : List (Kernel H A × Action)) (k : Kernel H A) : Prop where
  runQueue : ∀ e, ∀ t ∈ (k.execs e).base.runQueue.items, SpawnedOn tr t e
  timerQueue : ∀ e, ∀ i ∈ (k.execs e).base.timerQueue.items, SpawnedOn tr i.getTaskRef e
  ready : ∀ e ready, (k.execs e).phase = .enqueueReady ready → ∀ t ∈ ready, SpawnedOn tr t e
  polled : ∀ e t, (k.execs e).phase = .polling t → SpawnedOn tr t e

/-- The place of an interrupt executor in the map; a new key takes the next one. -/
def slotOf (k : Kernel H A) (prio : UInt8) : Option ℕ := k.allocated.reverse.idxOf? prio

/-- The entry at a place of the map. -/
def atSlot (k : Kernel H A) (i : ℕ) : Option UInt8 := k.allocated.reverse[i]?

/-! ### Owners -/

/-- A task is one of the executor that its header points to, and of no other. -/
def OwnerInv (k : Kernel H A) : Prop :=
  ∀ t e, t ∈ (k.execs e).tasks ↔ k.owner[t]? = some e

theorem ownerInv_new : OwnerInv (new : Kernel H A) := by
  intro t e
  show t ∈ [] ↔ ([] : List ExecutorId)[t]? = some e
  simp

theorem tasks_update {x : Executor H} (hx : x.tasks = (k.execs e').tasks) (e : ExecutorId) :
    (Function.update k.execs e' x e).tasks = (k.execs e).tasks := by
  by_cases he : e = e'
  · subst he
    rw [Function.update_self, hx]
  · rw [Function.update_of_ne he]

/-- The actions other than `spawn` create no task. -/
theorem tasks_of_step {a : Action} (ha : ∀ e, a ≠ .spawn e) (h : k.step a = some k') :
    k'.owner = k.owner ∧ ∀ e, (k'.execs e).tasks = (k.execs e).tasks := by
  cases a with
  | threadExecutor =>
    obtain ⟨-, handle, q, -, x, hx, rfl⟩ := step_threadExecutor.mp h
    exact ⟨rfl, tasks_update (Executor.tasks_eq_of_step (by simp) hx)⟩
  | allocate prio =>
    obtain ⟨-, handle, q, -, x, hx, rfl⟩ := step_allocate.mp h
    exact ⟨rfl, tasks_update (Executor.tasks_eq_of_step (by simp) hx)⟩
  | spawn e => exact absurd rfl (ha e)
  | start e => obtain ⟨-, q, -, rfl⟩ := step_start.mp h; exact ⟨rfl, fun _ => rfl⟩
  | wake task =>
    obtain ⟨e, -, x, hx, rfl⟩ := step_wake.mp h
    exact ⟨rfl, tasks_update (Executor.tasks_eq_of_step (by simp) hx)⟩
  | pend e => obtain ⟨-, rfl⟩ := step_pend.mp h; exact ⟨rfl, fun _ => rfl⟩
  | exec e b =>
    obtain ⟨hp, x, hx, rfl⟩ := step_exec.mp h
    refine ⟨rfl, tasks_update (Executor.tasks_eq_of_step (fun t hb => ?_) hx)⟩
    subst hb
    exact absurd (own_of_permits hp) Bool.false_ne_true
  | defaultHandler prio => obtain ⟨-, rfl⟩ := step_defaultHandler.mp h; exact ⟨rfl, fun _ => rfl⟩
  | timerInterrupt =>
    obtain ⟨cs, n, q, -, rfl⟩ := step_timerInterrupt.mp h
    exact ⟨rfl, fun _ => rfl⟩

theorem OwnerInv.step {a : Action} (hi : OwnerInv k) (h : k.step a = some k') : OwnerInv k' := by
  by_cases ha : ∀ e, a ≠ .spawn e
  · obtain ⟨ho, ht⟩ := tasks_of_step ha h
    intro t e
    rw [ho, ht]
    exact hi t e
  · obtain ⟨e₀, rfl⟩ : ∃ e, a = .spawn e := by
      by_contra hne
      exact ha fun e he => hne ⟨e, he⟩
    obtain ⟨-, x, hx, rfl⟩ := step_spawn.mp h
    obtain ⟨hnot, q, -, rfl⟩ := Executor.step_spawn.mp hx
    intro t e
    show t ∈ (Function.update k.execs e₀ _ e).tasks ↔ (k.owner ++ [e₀])[t]? = some e
    -- the new task is the next one, and the others are below
    rcases Nat.lt_trichotomy t k.owner.length with hlt | rfl | hgt
    · rw [List.getElem?_append_left hlt, ← hi t e]
      by_cases he : e = e₀
      · subst he
        rw [Function.update_self]
        exact ⟨fun hm => (List.mem_cons.mp hm).resolve_left (Nat.ne_of_lt hlt),
          fun hm => List.mem_cons_of_mem _ hm⟩
      · rw [Function.update_of_ne he]
    · rw [List.getElem?_append_right (Nat.le_refl _), Nat.sub_self]
      by_cases he : e = e₀
      · subst he
        rw [Function.update_self]
        exact ⟨fun _ => rfl, fun _ => List.mem_cons_self⟩
      · rw [Function.update_of_ne he, hi _ e, List.getElem?_eq_none (Nat.le_refl _)]
        exact ⟨fun hn => absurd hn (by simp), fun hs => absurd (Option.some.inj hs).symm he⟩
    · rw [List.getElem?_eq_none (l := k.owner ++ [e₀]) (by
        rw [List.length_append, List.length_singleton]
        omega)]
      have hold : ∀ e, t ∉ (k.execs e).tasks := by
        intro e hm
        rw [hi t e, List.getElem?_eq_none (by omega)] at hm
        exact absurd hm (by simp)
      refine ⟨fun hm => ?_, fun hn => absurd hn (by simp)⟩
      by_cases he : e = e₀
      · subst he
        rw [Function.update_self] at hm
        rcases List.mem_cons.mp hm with hm | hm
        · exact absurd hm (Nat.ne_of_gt hgt)
        · exact absurd hm (hold _)
      · rw [Function.update_of_ne he] at hm
        exact absurd hm (hold _)

theorem ownerInv_of_reachable (h : Reachable step (new : Kernel H A) k) : OwnerInv k :=
  h.invariant ownerInv_new fun _ _ _ hi hs => hi.step hs

/-- A header points to the executor of the spawn that created it. -/
theorem owner_iff_spawnedOn (hr : Run step (new : Kernel H A) tr k) :
    k.owner[t]? = some e ↔ SpawnedOn tr t e := by
  induction hr with
  | nil =>
    show ([] : List ExecutorId)[t]? = some e ↔ _
    exact ⟨fun h => absurd h (by simp), fun ⟨_, hm, _⟩ => absurd hm List.not_mem_nil⟩
  | snoc _ h ih =>
    rename_i tr k a k' _
    have hsnoc : SpawnedOn (tr ++ [(k, a)]) t e ↔
        SpawnedOn tr t e ∨ a = .spawn e ∧ k.owner.length = t := by
      constructor
      · rintro ⟨k₀, hm, ht⟩
        rcases List.mem_append.mp hm with hm | hm
        · exact Or.inl ⟨k₀, hm, ht⟩
        · obtain ⟨rfl, rfl⟩ := Prod.mk.inj (List.mem_singleton.mp hm)
          exact Or.inr ⟨rfl, ht⟩
      · rintro (⟨k₀, hm, ht⟩ | ⟨rfl, ht⟩)
        · exact ⟨k₀, List.mem_append_left _ hm, ht⟩
        · exact ⟨k, List.mem_append_right _ (List.mem_singleton_self _), ht⟩
    rw [hsnoc, ← ih]
    by_cases ha : ∀ e, a ≠ .spawn e
    · rw [(tasks_of_step ha h).1]
      exact ⟨Or.inl, fun hor => hor.resolve_right fun hs => ha e hs.1⟩
    · obtain ⟨e₀, rfl⟩ : ∃ e, a = .spawn e := by
        by_contra hne
        exact ha fun e he => hne ⟨e, he⟩
      obtain ⟨-, x, -, rfl⟩ := step_spawn.mp h
      show (k.owner ++ [e₀])[t]? = some e ↔ _
      rw [List.getElem?_append]
      split_ifs with hlt
      · exact ⟨Or.inl, fun hor => hor.resolve_right fun hs => by omega⟩
      · rw [List.getElem?_eq_none (l := k.owner) (by omega), List.getElem?_singleton]
        split_ifs with hz
        · rw [Option.some.injEq]
          constructor
          · rintro rfl
            exact Or.inr ⟨rfl, by omega⟩
          · rintro (hn | ⟨hs, -⟩)
            · exact absurd hn (by simp)
            · exact Action.spawn.inj hs
        · refine ⟨fun hn => absurd hn (by simp), ?_⟩
          rintro (hn | ⟨-, ht⟩)
          · exact absurd hn (by simp)
          · omega

/-! ### The map of executors -/

theorem allocated_prefix_of_step {a : Action} (h : k.step a = some k') :
    k.allocated.reverse <+: k'.allocated.reverse := by
  cases a with
  | allocate prio =>
    obtain ⟨-, handle, q, -, x, -, rfl⟩ := step_allocate.mp h
    show k.allocated.reverse <+: (k.allocated.insert prio).reverse
    by_cases hm : prio ∈ k.allocated
    · rw [List.insert_of_mem hm]
    · rw [List.insert_of_not_mem hm, List.reverse_cons]
      exact List.prefix_append _ _
  | threadExecutor =>
    obtain ⟨-, handle, q, -, x, -, rfl⟩ := step_threadExecutor.mp h
    exact List.prefix_refl _
  | spawn e => obtain ⟨-, x, -, rfl⟩ := step_spawn.mp h; exact List.prefix_refl _
  | start e => obtain ⟨-, q, -, rfl⟩ := step_start.mp h; exact List.prefix_refl _
  | wake task => obtain ⟨e, -, x, -, rfl⟩ := step_wake.mp h; exact List.prefix_refl _
  | pend e => obtain ⟨-, rfl⟩ := step_pend.mp h; exact List.prefix_refl _
  | exec e b => obtain ⟨-, x, -, rfl⟩ := step_exec.mp h; exact List.prefix_refl _
  | defaultHandler prio =>
    obtain ⟨-, rfl⟩ := step_defaultHandler.mp h
    exact List.prefix_refl _
  | timerInterrupt =>
    obtain ⟨cs, n, q, -, rfl⟩ := step_timerInterrupt.mp h
    exact List.prefix_refl _

theorem allocated_prefix_of_run (hr : Run step (new : Kernel H A) tr k) :
    ∀ p ∈ tr, p.1.allocated.reverse <+: k.allocated.reverse := by
  induction hr with
  | nil => exact fun _ hp => absurd hp List.not_mem_nil
  | snoc _ h ih =>
    intro p hp
    rcases List.mem_append.mp hp with hp | hp
    · exact (ih p hp).trans (allocated_prefix_of_step h)
    · obtain rfl := List.mem_singleton.mp hp
      exact allocated_prefix_of_step h

theorem atSlot_of_prefix (hp : k.allocated.reverse <+: k'.allocated.reverse) {prio : UInt8} {i : ℕ}
    (h : k.slotOf prio = some i) : k'.atSlot i = some prio := by
  obtain ⟨hlt, hget, -⟩ := List.idxOf?_eq_some_iff.mp h
  obtain ⟨later, hl⟩ := hp
  show k'.allocated.reverse[i]? = some prio
  rw [← hl, List.getElem?_append_left hlt, List.getElem?_eq_getElem hlt]
  exact congrArg some hget

/-! ### The result -/

theorem affine_of_reachable (hr : Reachable step (new : Kernel H A) k)
    (ho : ∀ t e, k.owner[t]? = some e → SpawnedOn tr t e) : Affine tr k := by
  have hi := ownerInv_of_reachable hr
  have hwf : ∀ e, (k.execs e).Wf := fun e => Executor.wf_of_reachable (reachable_exec hr e)
  have hspawned : ∀ t e, t ∈ (k.execs e).tasks → SpawnedOn tr t e :=
    fun t e ht => ho t e ((hi t e).mp ht)
  exact
    { runQueue := fun e t ht => hspawned t e ((hwf e).runQueue t ht)
      timerQueue := fun e i hmem => hspawned _ e ((hwf e).timerQueue i hmem)
      ready := fun e ready hp t ht => hspawned t e ((hwf e).ready ready hp t ht)
      polled := fun e t hp => hspawned t e ((hwf e).polling t hp) }

theorem SpawnedOn.append {tr' : List (Kernel H A × Action)} (h : SpawnedOn tr t e) :
    SpawnedOn (tr ++ tr') t e := by
  obtain ⟨k₀, hm, ht⟩ := h
  exact ⟨k₀, List.mem_append_left _ hm, ht⟩

theorem Affine.append {tr' : List (Kernel H A × Action)} (h : Affine tr k) :
    Affine (tr ++ tr') k where
  runQueue := fun e t ht => (h.runQueue e t ht).append
  timerQueue := fun e i hi => (h.timerQueue e i hi).append
  ready := fun e ready hp t ht => (h.ready e ready hp t ht).append
  polled := fun e t hp => (h.polled e t hp).append

theorem affine_along (hr : Run step (new : Kernel H A) tr k) : Along (Affine tr) tr k := by
  induction hr with
  | nil =>
    refine ⟨fun _ hp => absurd hp List.not_mem_nil, affine_of_reachable .refl fun t e h => ?_⟩
    exact (owner_iff_spawnedOn .nil).mp h
  | snoc hr h ih =>
    apply along_snoc.mpr
    refine ⟨⟨fun p hp => (ih.1 p hp).append, ih.2.append⟩, ?_⟩
    exact affine_of_reachable ⟨_, hr.snoc h⟩ fun t e ho => (owner_iff_spawnedOn (hr.snoc h)).mp ho

/-- **Task affinity.** In every state that a run passes through, the queues of an executor hold
tasks spawned on it and it polls no other; a task is spawned on one executor; and the place in the
map that the header of a task of an interrupt executor points to holds the executor of this
priority ever after. -/
theorem affinity_of_run (tr : List (Kernel H A × Action)) (k : Kernel H A)
    (hr : Run step (new : Kernel H A) tr k) :
    Along (Affine tr) tr k ∧
      (∀ t e e', SpawnedOn tr t e → SpawnedOn tr t e' → e = e') ∧
      ∀ k₀ prio, (k₀, Action.spawn (.interrupt prio)) ∈ tr →
        ∃ i, k₀.slotOf prio = some i ∧ k.atSlot i = some prio := by
  refine ⟨affine_along hr, fun t e e' he he' => ?_, fun k₀ prio hm => ?_⟩
  · rw [← owner_iff_spawnedOn hr] at he he'
    exact Option.some.inj (he.symm.trans he')
  · have hin : prio ∈ k₀.allocated := by
      obtain ⟨k₁, hs⟩ := hr.exists_step hm
      exact of_decide_eq_true (step_spawn.mp hs).1
    obtain ⟨i, hslot⟩ : ∃ i, k₀.slotOf prio = some i := by
      apply Option.ne_none_iff_exists'.mp
      intro hn
      exact List.idxOf?_eq_none_iff.mp hn (List.mem_reverse.mpr hin)
    exact ⟨i, hslot, atSlot_of_prefix (allocated_prefix_of_run hr _ hm) hslot⟩

/-- A task of the thread executor is woken, and one of priority 3 is polled with a timer. -/
def twoExecutorsRun : List Action :=
  [.threadExecutor, .allocate 3, .spawn .thread, .spawn (.interrupt 3), .start (.interrupt 3),
    .wake 0] ++
    [Executor.Action.enter, .readNow 0, .dequeueExpired, .enqueueReady, .popFront, .pollTimer 0 5,
      .endPoll].map (.exec (.interrupt 3))

/-- The run above keeps both tasks where they were spawned. -/
theorem affinity_of_run_twoExecutors :
    ∃ (tr : List (Kernel TimerHeap.list AlarmHeap.list × Action)) (k : _), Run step new tr k ∧
      tr.map Prod.snd = twoExecutorsRun ∧ Along (Affine tr) tr k ∧
        (∀ t e e', SpawnedOn tr t e → SpawnedOn tr t e' → e = e') ∧
        ∀ k₀ prio, (k₀, Action.spawn (.interrupt prio)) ∈ tr →
          ∃ i, k₀.slotOf prio = some i ∧ k.atSlot i = some prio := by
  obtain ⟨k, hk, -⟩ := exists_of_map_runList (f := fun k => k.owner)
    (s := (new : Kernel TimerHeap.list AlarmHeap.list)) (l := twoExecutorsRun)
    (b := [.thread, .interrupt 3]) (r := step) (by decide)
  obtain ⟨tr, hr, ha⟩ := exists_run_of_runList hk
  exact ⟨tr, k, hr, ha, affinity_of_run tr k hr⟩

end Kernel

end AurixAsync
