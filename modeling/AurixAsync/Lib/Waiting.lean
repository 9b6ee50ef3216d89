import Mathlib.Logic.Function.Basic
import Mathlib.Data.Option.Basic

/-!
# Waiting futures

A future that is polled and returns pending waits for its task to be woken. `w : F → Option T`
gives for each future `f` that waits the task it was last polled by.

* `Waiting.wake`: the futures that still wait after some tasks were woken.
* `Waiting.polled`: the futures that wait after one of them was polled.
* `Waiting.Guarded`: every waiting future waits with a registered task, and only while a condition
  holds. `Guarded.mono`, `Guarded.wakeAll`, `Guarded.register`: what registers and wakes keep.
-/

namespace Waiting

variable {F T : Type*} [DecidableEq F] [DecidableEq T]

/-- The futures that still wait after these tasks were woken. -/
def wake (w : F → Option T) (ts : List T) : F → Option T :=
  fun f => (w f).filter fun t => t ∉ ts

/-- The futures that wait after the task `t` polled `f`. -/
def polled (w : F → Option T) (f : F) (t : T) (pending : Bool) : F → Option T :=
  Function.update w f (if pending then some t else none)

/-- The futures that wait after `f` was dropped. -/
def dropped (w : F → Option T) (f : F) : F → Option T := Function.update w f none

variable {w : F → Option T} {f g : F} {t u : T} {ts us : List T}

omit [DecidableEq F] in
@[simp] theorem wake_eq_some : wake w ts f = some t ↔ w f = some t ∧ t ∉ ts := by
  rw [wake, Option.filter_eq_some_iff, decide_eq_true_eq]

omit [DecidableEq F] in
@[simp] theorem wake_nil : wake w [] = w := by
  funext f
  exact Option.ext fun t => by simp

omit [DecidableEq T] in
theorem polled_eq_some {pending : Bool} : polled w f t pending g = some u ↔
    g = f ∧ pending = true ∧ u = t ∨ g ≠ f ∧ w g = some u := by
  rw [polled]
  by_cases hg : g = f
  · subst hg
    rw [Function.update_self]
    cases pending <;> simp [eq_comm]
  · rw [Function.update_of_ne hg]
    simp [hg]

omit [DecidableEq T] in
theorem polled_false : polled w f t false = dropped w f := rfl

omit [DecidableEq T] in
theorem dropped_eq_some : dropped w f g = some u ↔ g ≠ f ∧ w g = some u := by
  rw [dropped]
  by_cases hg : g = f
  · subst hg
    simp
  · rw [Function.update_of_ne hg]
    simp [hg]

theorem wake_polled (w : F → Option T) (f : F) (ts : List T) (h : t ∉ us) :
    wake (polled (wake w ts) f t true) us = polled (wake w (ts ++ us)) f t true := by
  funext g
  refine Option.ext fun u => ?_
  rw [wake_eq_some, polled_eq_some, polled_eq_some, wake_eq_some, wake_eq_some, List.mem_append,
    not_or]
  constructor
  · rintro ⟨⟨rfl, -, rfl⟩ | ⟨hg, hw, hts⟩, hus⟩
    · exact Or.inl ⟨rfl, rfl, rfl⟩
    · exact Or.inr ⟨hg, hw, hts, hus⟩
  · rintro (⟨rfl, -, rfl⟩ | ⟨hg, hw, hts, hus⟩)
    · exact ⟨Or.inl ⟨rfl, rfl, rfl⟩, h⟩
    · exact ⟨Or.inr ⟨hg, hw, hts⟩, hus⟩

omit [DecidableEq F] in
theorem wake_eq_none (h : ∀ g, w g = none) (g : F) : wake w ts g = none := by
  rw [wake, h g]
  rfl

omit [DecidableEq T] in
theorem polled_false_eq_none (h : ∀ g, w g = none) (g : F) : polled w f t false g = none := by
  rw [polled_false, dropped]
  by_cases hg : g = f
  · rw [hg, Function.update_self]
  · rw [Function.update_of_ne hg, h g]

/-! ### Guarded waiting -/

/-- Every waiting future waits with a task of `R`, and only while `P` holds. -/
structure Guarded (R : T → Prop) (w : F → Option T) (P : Prop) : Prop where
  registered : ∀ f t, w f = some t → R t
  waits : ∀ f t, w f = some t → P

variable {R R' : T → Prop} {P Q : Prop}

omit [DecidableEq F] [DecidableEq T] in
theorem guarded_of_forall_none (h : ∀ f, w f = none) : Guarded R w P where
  registered := fun f t hf => absurd ((h f).symm.trans hf) (by simp)
  waits := fun f t hf => absurd ((h f).symm.trans hf) (by simp)

omit [DecidableEq F] [DecidableEq T] in
theorem Guarded.eq_none (h : Guarded R w P) (hP : ¬ P) (f : F) : w f = none := by
  by_contra hne
  obtain ⟨t, ht⟩ := Option.ne_none_iff_exists'.mp hne
  exact hP (h.waits f t ht)

omit [DecidableEq F] in
theorem Guarded.mono (h : Guarded R w P) (hR : ∀ t, R t → t ∉ ts → R' t) (hPQ : P → Q) :
    Guarded R' (wake w ts) Q where
  registered := fun f t hf =>
    hR t (h.registered f t (wake_eq_some.mp hf).1) (wake_eq_some.mp hf).2
  waits := fun f t hf => hPQ (h.waits f t (wake_eq_some.mp hf).1)

omit [DecidableEq F] in
/-- Where the condition does not hold, whatever happens to the registrations is harmless. -/
theorem Guarded.idle (h : Guarded R w P) (hP : ¬ P) : Guarded R' (wake w ts) Q :=
  guarded_of_forall_none (wake_eq_none (h.eq_none hP))

omit [DecidableEq F] in
theorem Guarded.wakeAll (h : Guarded R w P) (hall : ∀ t, R t → t ∈ ts) :
    Guarded R' (wake w ts) Q := by
  refine guarded_of_forall_none fun f => ?_
  by_contra hne
  obtain ⟨t, ht⟩ := Option.ne_none_iff_exists'.mp hne
  obtain ⟨hw, hnot⟩ := wake_eq_some.mp ht
  exact hnot (hall t (h.registered f t hw))

/-- A future that registers its task waits with the others, as long as every task that loses its
registration is woken. -/
theorem Guarded.register (h : Guarded R w P) (hR : ∀ u, R u → u ∉ ts → R' u) (ht : R' t)
    (hP : P) : Guarded R' (polled (wake w ts) f t true) P where
  registered := by
    intro g u hg
    rcases polled_eq_some.mp hg with ⟨-, -, rfl⟩ | ⟨-, hg⟩
    · exact ht
    · exact (h.mono (Q := P) hR id).registered g u hg
  waits := fun _ _ _ => hP

omit [DecidableEq T] in
theorem Guarded.dropped (h : Guarded R w P) : Guarded R (dropped w f) P where
  registered := fun g t hg => h.registered g t (dropped_eq_some.mp hg).2
  waits := fun g t hg => h.waits g t (dropped_eq_some.mp hg).2

end Waiting
