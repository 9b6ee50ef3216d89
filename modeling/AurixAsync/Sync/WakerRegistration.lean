import AurixAsync.Lib.Waiting
import AurixAsync.Time.TimerQueue

/-!
# A place for one waker

Two wakers of the executors wake the same task exactly when they are the same task reference, so a
waker is a `TaskRef` here. An operation returns the tasks it wakes, in order.

* `WakerRegistration`, `register`, `wake`: the place and its operations.
* `Guards`: the futures of a group are registered here, and wait only while a condition holds.
* `Guards.register`, `Guards.wake`: registering evicts what it replaces, and waking leaves nobody.
-/

namespace AurixAsync

/-- The one waker registered. -/
structure WakerRegistration where
  waker : Option TaskRef
deriving DecidableEq, Repr

namespace WakerRegistration

/-- No waker is registered. -/
def new : WakerRegistration := ⟨none⟩

/-- `register`: a waker of another task is replaced and woken. -/
def register (r : WakerRegistration) (w : TaskRef) : WakerRegistration × List TaskRef :=
  match r.waker with
  | none => (⟨some w⟩, [])
  | some w2 => if w2 = w then (r, []) else (⟨some w⟩, [w2])

/-- `wake`: whoever is registered is woken. -/
def wake (r : WakerRegistration) : WakerRegistration × List TaskRef := (⟨none⟩, r.waker.toList)

/-- `if let Some(cx) = cx { waker.register(cx.waker()) }`. -/
def registerCx (r : WakerRegistration) : Option TaskRef → WakerRegistration × List TaskRef
  | some w => r.register w
  | none => (r, [])

/-- `if b { waker.wake() }`. -/
def wakeIf (r : WakerRegistration) (b : Bool) : WakerRegistration × List TaskRef :=
  if b then r.wake else (r, [])

variable {r : WakerRegistration} {w t : TaskRef}

@[simp] theorem waker_register : (r.register w).1.waker = some w := by
  unfold register
  cases h : r.waker with
  | none => rfl
  | some w2 =>
    by_cases hw : w2 = w
    · simp only [hw, if_true]
      rw [h, hw]
    · simp only [hw, if_false]

theorem mem_woken_register : t ∈ (r.register w).2 ↔ r.waker = some t ∧ t ≠ w := by
  unfold register
  cases h : r.waker with
  | none => simp
  | some w2 =>
    by_cases hw : w2 = w
    · simp only [hw, if_true]
      simp [eq_comm]
    · simp only [hw, if_false, List.mem_singleton, Option.some.injEq]
      constructor
      · rintro rfl
        exact ⟨rfl, hw⟩
      · exact fun h => h.1.symm

theorem mem_woken_wake : t ∈ r.wake.2 ↔ r.waker = some t := by
  rw [wake, Option.mem_toList]

variable {F : Type} [DecidableEq F] {v : F → Option TaskRef} {P Q : Prop} {ts : List TaskRef}

/-- Every waiting future of the group is registered here, and waits only while `P` holds. -/
def Guards (r : WakerRegistration) (v : F → Option TaskRef) (P : Prop) : Prop :=
  Waiting.Guarded (fun t => r.waker = some t) v P

omit [DecidableEq F] in
theorem guards_of_forall_none (h : ∀ f, v f = none) : r.Guards v P :=
  Waiting.guarded_of_forall_none h

omit [DecidableEq F] in
theorem Guards.mono (h : r.Guards v P) (hPQ : P → Q) : r.Guards (Waiting.wake v ts) Q :=
  Waiting.Guarded.mono h (fun _ ht _ => ht) hPQ

omit [DecidableEq F] in
theorem Guards.idle {r' : WakerRegistration} (h : r.Guards v P) (hP : ¬ P) :
    r'.Guards (Waiting.wake v ts) Q :=
  Waiting.Guarded.idle h hP

omit [DecidableEq F] in
theorem Guards.wake (h : r.Guards v P) : r.wake.1.Guards (Waiting.wake v r.wake.2) Q :=
  Waiting.Guarded.wakeAll h fun _ ht => mem_woken_wake.mpr ht

omit [DecidableEq F] in
theorem Guards.wakeIf [Decidable P] (h : r.Guards v P) :
    (r.wakeIf (decide P)).1.Guards (Waiting.wake v (r.wakeIf (decide P)).2) Q := by
  by_cases hP : P
  · rw [decide_eq_true hP]
    exact h.wake
  · exact h.idle hP

/-- A future that registers waits with the others of its own task; those of another one were
woken. -/
theorem Guards.register {f : F} (h : r.Guards v P) (hP : P) :
    (r.register w).1.Guards (Waiting.polled (Waiting.wake v (r.register w).2) f w true) P := by
  refine Waiting.Guarded.register h ?_ waker_register hP
  intro u hu hnot
  rw [waker_register]
  by_contra hne
  exact hnot (mem_woken_register.mpr ⟨hu, fun e => hne (e ▸ rfl)⟩)

theorem Guards.dropped {f : F} (h : r.Guards v P) : r.Guards (Waiting.dropped v f) P :=
  Waiting.Guarded.dropped h

end WakerRegistration

end AurixAsync
