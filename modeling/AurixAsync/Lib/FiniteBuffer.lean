import Mathlib.Algebra.BigOperators.Intervals

/-!
# A finite buffer that is served turn by turn

A buffer has `cap` places. Each turn takes one entry out, and then `w n` entries arrive, of which
those are kept that find a place.

* `level cap w l n`: the number of entries before turn `n`, from `l` at the start.
* `arrivals w k n`: what arrives in the `n` turns from turn `k` on.
* `empties_iff`: when the buffer is ever empty, in terms of the arrivals alone.
* `EmptiesAt cap w l n`: turn `n` is the first that finds the buffer empty.
* `store cap s l`: a buffer that nothing is taken out of, with the entries it keeps.
-/

namespace FiniteBuffer

variable {cap l k m n : ℕ} {w : ℕ → ℕ}

/-- The number of entries before turn `n`. -/
def level (cap : ℕ) (w : ℕ → ℕ) (l : ℕ) : ℕ → ℕ
  | 0 => l
  | n + 1 => min cap (level cap w l n - 1 + w n)

/-- The entries that arrive in the `n` turns from turn `k` on, kept or not. -/
def arrivals (w : ℕ → ℕ) (k n : ℕ) : ℕ := ∑ i ∈ Finset.range n, w (k + i)

@[simp] theorem arrivals_zero : arrivals w k 0 = 0 := Finset.sum_range_zero _

theorem arrivals_succ : arrivals w k (n + 1) = arrivals w k n + w (k + n) :=
  Finset.sum_range_succ _ n

theorem level_le (hl : l ≤ cap) : level cap w l n ≤ cap := by
  cases n with
  | zero => exact hl
  | succ n => exact min_le_left _ _

theorem level_succ_start :
    level cap w l (n + 1) = level cap (fun i => w (i + 1)) (min cap (l - 1 + w 0)) n := by
  induction n with
  | zero => rfl
  | succ n ih => rw [level, ih, level]

theorem level_add_le (h : ∀ i < n, level cap w l i ≠ 0) :
    level cap w l n + n ≤ l + arrivals w 0 n := by
  induction n with
  | zero => exact Nat.le_refl l
  | succ n ih =>
    have hle := ih fun i hi => h i (by omega)
    have hne := h n (by omega)
    have hmin : level cap w l (n + 1) ≤ level cap w l n - 1 + w n := min_le_right _ _
    rw [arrivals_succ, Nat.zero_add]
    omega

/-- At no time it holds more than `cap`, so that a full buffer bounds what comes later. -/
theorem level_add_le_cap (hl : l ≤ cap) (h : ∀ i < k + n, level cap w l i ≠ 0) :
    level cap w l (k + n) + n ≤ cap + arrivals w k n := by
  induction n with
  | zero => exact level_le hl
  | succ n ih =>
    have hle := ih fun i hi => h i (by omega)
    have hne := h (k + n) (by omega)
    have hmin : level cap w l (k + n + 1) ≤ level cap w l (k + n) - 1 + w (k + n) :=
      min_le_right _ _
    rw [arrivals_succ, ← Nat.add_assoc k n 1]
    omega

/-- One of these bounds is met: the last time the buffer was full counts, or else its start. -/
theorem level_add_eq (h : ∀ i < n, level cap w l i ≠ 0) :
    level cap w l n + n = l + arrivals w 0 n ∨
      ∃ k m, k + m = n ∧ level cap w l n + m = cap + arrivals w k m := by
  induction n with
  | zero => exact Or.inl rfl
  | succ n ih =>
    have hne := h n (by omega)
    by_cases hfull : cap ≤ level cap w l n - 1 + w n
    · refine Or.inr ⟨n + 1, 0, rfl, ?_⟩
      rw [arrivals_zero]
      exact min_eq_left hfull
    · have hlevel : level cap w l (n + 1) = level cap w l n - 1 + w n :=
        min_eq_right (by omega)
      rcases ih fun i hi => h i (by omega) with heq | ⟨k, m, rfl, heq⟩
      · rw [hlevel, arrivals_succ, Nat.zero_add]
        omega
      · refine Or.inr ⟨k, m + 1, rfl, ?_⟩
        rw [hlevel, arrivals_succ]
        omega

/-- **When the buffer is ever empty.** Either some number of turns is enough for the entries at the
start and all that arrive in these turns, or some stretch of turns is enough for a full buffer and
all that arrive in the stretch. -/
theorem empties_iff (hl : l ≤ cap) : (∃ n, level cap w l n = 0) ↔
    (∃ n, l + arrivals w 0 n ≤ n) ∨ ∃ k n, cap + arrivals w k n ≤ n := by
  constructor
  · intro hex
    have hfirst : ∀ i < Nat.find hex, level cap w l i ≠ 0 := fun i hi => Nat.find_min hex hi
    have hz := Nat.find_spec hex
    rcases level_add_eq hfirst with heq | ⟨k, m, -, heq⟩
    · exact Or.inl ⟨Nat.find hex, by omega⟩
    · exact Or.inr ⟨k, m, by omega⟩
  · intro h
    by_contra hne
    have hall : ∀ n, level cap w l n ≠ 0 := fun n hn => hne ⟨n, hn⟩
    rcases h with ⟨n, hn⟩ | ⟨k, n, hn⟩
    · have := level_add_le (n := n) fun i _ => hall i
      exact hall n (by omega)
    · have := level_add_le_cap (k := k) (n := n) hl fun i _ => hall i
      exact hall (k + n) (by omega)

/-! ### The first time it is empty -/

/-- The buffer is empty before turn `n`, and before no turn earlier. -/
def EmptiesAt (cap : ℕ) (w : ℕ → ℕ) (l n : ℕ) : Prop :=
  level cap w l n = 0 ∧ ∀ i < n, level cap w l i ≠ 0

theorem EmptiesAt.unique (h : EmptiesAt cap w l m) (h' : EmptiesAt cap w l n) : m = n := by
  rcases lt_trichotomy m n with hlt | rfl | hlt
  · exact absurd h.1 (h'.2 m hlt)
  · rfl
  · exact absurd h'.1 (h.2 n hlt)

theorem exists_emptiesAt : (∃ n, EmptiesAt cap w l n) ↔ ∃ n, level cap w l n = 0 := by
  constructor
  · exact fun ⟨n, h⟩ => ⟨n, h.1⟩
  · exact fun hex => ⟨Nat.find hex, Nat.find_spec hex, fun i hi => Nat.find_min hex hi⟩

theorem emptiesAt_zero : EmptiesAt cap w 0 0 := ⟨rfl, fun _ hi => absurd hi (Nat.not_lt_zero _)⟩

theorem EmptiesAt.succ (hl : l ≠ 0)
    (h : EmptiesAt cap (fun i => w (i + 1)) (min cap (l - 1 + w 0)) n) :
    EmptiesAt cap w l (n + 1) := by
  refine ⟨level_succ_start.trans h.1, fun i hi => ?_⟩
  cases i with
  | zero => exact hl
  | succ i =>
    rw [level_succ_start]
    exact h.2 i (by omega)

/-! ### A buffer that is not served -/

variable {α : Type*} {a : α} {s : Multiset α} {t : List α}

/-- The entries kept by a buffer that starts with `s` when those of `t` arrive in their order. -/
def store (cap : ℕ) (s : Multiset α) (t : List α) : Multiset α :=
  s + (t.take (cap - s.card) : List α)

@[simp] theorem store_nil : store cap s [] = s := by
  rw [store, List.take_nil, Multiset.coe_nil, add_zero]

theorem store_cons (hs : s.card ≤ cap) :
    store cap s (a :: t) = store cap (if s.card = cap then s else a ::ₘ s) t := by
  by_cases hfull : s.card = cap
  · rw [if_pos hfull, store, store, hfull, Nat.sub_self, List.take_zero, List.take_zero]
  · obtain ⟨k, hk⟩ : ∃ k, cap - s.card = k + 1 := ⟨cap - s.card - 1, by omega⟩
    have hk' : cap - (a ::ₘ s).card = k := by
      rw [Multiset.card_cons]
      omega
    rw [if_neg hfull, store, store, hk, hk', List.take_succ_cons, ← Multiset.cons_coe,
      Multiset.add_cons, Multiset.cons_add]

end FiniteBuffer
