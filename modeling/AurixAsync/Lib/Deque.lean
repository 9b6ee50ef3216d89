import Mathlib.Data.List.Basic

/-!
# Bounded double-ended queues

`Deque α N` is a sequence of at most `N` entries, the bound being a field. A push into a full
queue is refused, the pops take the front.

* `Deque.pushBack`, `pushFront`, `popFront`: the operations, `none` for refused and for empty.
* `pushBack_eq_some`, `pushFront_eq_some`, `popFront_eq_some`: what each does to the entries.
* `withItems`: change entries in place.
* `pushAll`: push a list, refused as a whole when one push is refused.
-/

/-- A sequence of at most `N` entries. -/
structure Deque (α : Type*) (N : ℕ) where
  items : List α
  length_le : items.length ≤ N

namespace Deque

variable {α : Type*} {N : ℕ} {d d' : Deque α N} {x : α}

@[ext] theorem ext (h : d.items = d'.items) : d = d' := by
  cases d; cases d'; subst h; rfl

/-- The empty queue. -/
def new : Deque α N := ⟨[], Nat.zero_le N⟩

/-- All places are taken. -/
def isFull (d : Deque α N) : Bool := d.items.length == N

/-- `push_back`; `none` if the deque is full. -/
def pushBack (d : Deque α N) (x : α) : Option (Deque α N) :=
  if h : d.items.length < N then
    some ⟨d.items ++ [x], by rw [List.length_append, List.length_singleton]; omega⟩
  else none

/-- `push_front`; `none` if the deque is full. -/
def pushFront (d : Deque α N) (x : α) : Option (Deque α N) :=
  if h : d.items.length < N then some ⟨x :: d.items, by rw [List.length_cons]; omega⟩ else none

/-- `pop_front`; `none` if the deque is empty. -/
def popFront (d : Deque α N) : Option (α × Deque α N) :=
  match h : d.items with
  | [] => none
  | x :: xs => some (x, ⟨xs, by have := d.length_le; rw [h, List.length_cons] at this; omega⟩)

/-- The entries are changed in place, and some may be taken out. -/
def withItems (d : Deque α N) (l : List α) (h : l.length ≤ d.items.length) : Deque α N :=
  ⟨l, Nat.le_trans h d.length_le⟩

@[simp] theorem items_withItems {l : List α} (h : l.length ≤ d.items.length) :
    (d.withItems l h).items = l := rfl

@[simp] theorem items_new : (new : Deque α N).items = [] := rfl

theorem isFull_iff : d.isFull = true ↔ d.items.length = N := by
  rw [isFull, beq_iff_eq]

theorem pushBack_eq_some :
    d.pushBack x = some d' ↔ d.items.length < N ∧ d'.items = d.items ++ [x] := by
  unfold pushBack
  split_ifs with h
  · rw [Option.some.injEq]
    exact ⟨fun e => ⟨h, e ▸ rfl⟩, fun ⟨_, e⟩ => ext e.symm⟩
  · exact ⟨fun e => absurd e (by simp), fun e => absurd e.1 h⟩

theorem pushBack_eq_none : d.pushBack x = none ↔ d.items.length = N := by
  have := d.length_le
  unfold pushBack
  split_ifs with h
  · exact ⟨fun e => absurd e (by simp), fun e => absurd e (by omega)⟩
  · exact ⟨fun _ => by omega, fun _ => rfl⟩

theorem pushFront_eq_some :
    d.pushFront x = some d' ↔ d.items.length < N ∧ d'.items = x :: d.items := by
  unfold pushFront
  split_ifs with h
  · rw [Option.some.injEq]
    exact ⟨fun e => ⟨h, e ▸ rfl⟩, fun ⟨_, e⟩ => ext e.symm⟩
  · exact ⟨fun e => absurd e (by simp), fun e => absurd e.1 h⟩

theorem popFront_eq_some : d.popFront = some (x, d') ↔ d.items = x :: d'.items := by
  obtain ⟨items, hl⟩ := d
  cases items with
  | nil => exact ⟨fun e => absurd e (by simp [popFront]), fun e => absurd e (by simp)⟩
  | cons y ys =>
    simp only [popFront, Option.some.injEq, Prod.mk.injEq, List.cons.injEq]
    refine and_congr Iff.rfl ⟨fun e => e ▸ rfl, fun e => ext e⟩

theorem popFront_eq_none : d.popFront = none ↔ d.items = [] := by
  obtain ⟨items, hl⟩ := d
  cases items with
  | nil => exact ⟨fun _ => rfl, fun _ => rfl⟩
  | cons y ys => simp [popFront]

/-- Push the entries of a list in order. -/
def pushAll (d : Deque α N) : List α → Option (Deque α N)
  | [] => some d
  | x :: xs => (d.pushBack x).bind fun d' => pushAll d' xs

theorem pushAll_eq_some {xs : List α} :
    d.pushAll xs = some d' ↔ d.items.length + xs.length ≤ N ∧ d'.items = d.items ++ xs := by
  induction xs generalizing d with
  | nil =>
    have := d.length_le
    simp only [pushAll, Option.some.injEq, List.length_nil, List.append_nil]
    exact ⟨fun e => ⟨by omega, e ▸ rfl⟩, fun ⟨_, e⟩ => ext e.symm⟩
  | cons x xs ih =>
    rw [pushAll, Option.bind_eq_some_iff, List.length_cons]
    constructor
    · rintro ⟨e, he, hr⟩
      obtain ⟨hlt, hi⟩ := pushBack_eq_some.mp he
      obtain ⟨hle, hi'⟩ := ih.mp hr
      rw [hi, List.length_append, List.length_singleton] at hle
      exact ⟨by omega, by rw [hi', hi, List.append_assoc]; rfl⟩
    · rintro ⟨hle, hi⟩
      have hlt : d.items.length < N := by omega
      refine ⟨⟨d.items ++ [x], by rw [List.length_append, List.length_singleton]; omega⟩,
        pushBack_eq_some.mpr ⟨hlt, rfl⟩, ih.mpr ⟨?_, ?_⟩⟩
      · rw [List.length_append, List.length_singleton]; omega
      · rw [hi, List.append_assoc]; rfl

theorem pushAll_eq_none {xs : List α} :
    d.pushAll xs = none ↔ N < d.items.length + xs.length := by
  rw [← not_iff_not, ← ne_eq, Option.ne_none_iff_exists', Nat.not_lt]
  constructor
  · rintro ⟨d', h⟩
    exact (pushAll_eq_some.mp h).1
  · intro h
    exact ⟨⟨d.items ++ xs, by rw [List.length_append]; exact h⟩, pushAll_eq_some.mpr ⟨h, rfl⟩⟩

end Deque
