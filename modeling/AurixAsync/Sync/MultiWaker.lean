import AurixAsync.Lib.Deque
import AurixAsync.Lib.Waiting
import AurixAsync.Time.TimerQueue

/-!
# Places for several wakers

`MultiWakerRegistration<N>`, with the heapless vector as a `Deque`. An operation returns the tasks
it wakes, in order; `none` is a panic.

* `register`, `wake`: the operations.
* `Guards`: the futures of a group are registered here, and wait only while a condition holds.
-/

namespace AurixAsync

/-- The wakers registered, the oldest first. -/
structure MultiWakerRegistration (N : ℕ) where
  wakers : Deque TaskRef N

namespace MultiWakerRegistration

variable {N : ℕ}

/-- No waker is registered. -/
def new : MultiWakerRegistration N := ⟨.new⟩

/-- `wake`: wake all and clear the places. -/
def wake (r : MultiWakerRegistration N) : MultiWakerRegistration N × List TaskRef :=
  (new, r.wakers.items)

/-- `register`: with all places taken, everybody is woken first. -/
def register (r : MultiWakerRegistration N) (w : TaskRef) :
    Option (MultiWakerRegistration N × List TaskRef) :=
  if w ∈ r.wakers.items then some (r, [])
  else
    let r' := if r.wakers.isFull then r.wake else (r, [])
    (r'.1.wakers.pushBack w).map fun wakers => (⟨wakers⟩, r'.2)

/-- `if let Some(cx) = cx { wakers.register(cx.waker()) }`. -/
def registerCx (r : MultiWakerRegistration N) :
    Option TaskRef → Option (MultiWakerRegistration N × List TaskRef)
  | some w => r.register w
  | none => some (r, [])

variable {r : MultiWakerRegistration N} {r' : MultiWakerRegistration N × List TaskRef}
  {w : TaskRef}

/-- The new waker has a place, and whoever lost its place is woken. -/
theorem register_spec (h : r.register w = some r') :
    w ∈ r'.1.wakers.items ∧ ∀ u ∈ r.wakers.items, u ∉ r'.2 → u ∈ r'.1.wakers.items := by
  unfold register at h
  by_cases hw : w ∈ r.wakers.items
  · rw [if_pos hw] at h
    obtain rfl := Option.some.inj h
    exact ⟨hw, fun u hu _ => hu⟩
  · rw [if_neg hw] at h
    obtain ⟨d, hd, rfl⟩ := Option.map_eq_some_iff.mp h
    have hitems := (Deque.pushBack_eq_some.mp hd).2
    by_cases hf : r.wakers.isFull
    · rw [if_pos hf] at hitems ⊢
      refine ⟨?_, fun u hu hnot => absurd hu hnot⟩
      show w ∈ d.items
      rw [hitems]
      exact List.mem_append_right _ (List.mem_singleton_self w)
    · rw [if_neg hf] at hitems ⊢
      show w ∈ d.items ∧ ∀ u ∈ r.wakers.items, u ∉ [] → u ∈ d.items
      rw [hitems]
      exact ⟨List.mem_append_right _ (List.mem_singleton_self w),
        fun u hu _ => List.mem_append_left _ hu⟩

theorem register_eq_none (h : r.register w = none) : N = 0 := by
  unfold register at h
  by_cases hw : w ∈ r.wakers.items
  · rw [if_pos hw] at h
    exact absurd h (by simp)
  · rw [if_neg hw, Option.map_eq_none_iff, Deque.pushBack_eq_none] at h
    by_cases hf : r.wakers.isFull
    · rw [if_pos hf] at h
      exact h.symm
    · rw [if_neg hf] at h
      exact absurd (Deque.isFull_iff.mpr h) hf

variable {F : Type} [DecidableEq F] {v : F → Option TaskRef} {P Q : Prop} {ts : List TaskRef}

/-- Every waiting future of the group is registered here, and waits only while `P` holds. -/
def Guards (r : MultiWakerRegistration N) (v : F → Option TaskRef) (P : Prop) : Prop :=
  Waiting.Guarded (fun t => t ∈ r.wakers.items) v P

omit [DecidableEq F] in
theorem guards_of_forall_none (h : ∀ f, v f = none) : r.Guards v P :=
  Waiting.guarded_of_forall_none h

omit [DecidableEq F] in
theorem Guards.mono (h : r.Guards v P) (hPQ : P → Q) : r.Guards (Waiting.wake v ts) Q :=
  Waiting.Guarded.mono h (fun _ ht _ => ht) hPQ

omit [DecidableEq F] in
theorem Guards.idle {r' : MultiWakerRegistration N} (h : r.Guards v P) (hP : ¬ P) :
    r'.Guards (Waiting.wake v ts) Q :=
  Waiting.Guarded.idle h hP

omit [DecidableEq F] in
theorem Guards.wake (h : r.Guards v P) : r.wake.1.Guards (Waiting.wake v r.wake.2) Q :=
  Waiting.Guarded.wakeAll h fun _ ht => ht

/-- A future that registers waits with the others; those that lost their place were woken. -/
theorem Guards.register {f : F} (h : r.Guards v P) (hP : P) (hr : r.register w = some r') :
    r'.1.Guards (Waiting.polled (Waiting.wake v r'.2) f w true) P :=
  Waiting.Guarded.register h (register_spec hr).2 (register_spec hr).1 hP

theorem Guards.dropped {f : F} (h : r.Guards v P) : r.Guards (Waiting.dropped v f) P :=
  Waiting.Guarded.dropped h

end MultiWakerRegistration

end AurixAsync
