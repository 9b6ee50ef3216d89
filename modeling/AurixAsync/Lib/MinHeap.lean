import Mathlib.Data.Multiset.Filter
import Mathlib.Data.Multiset.Sort
import Mathlib.Order.Defs.LinearOrder

/-!
# Bounded min-heaps

`MinHeap α key N` is a container of at most `N` entries of which `peek` and `pop` give one with
the least key. Only the documented laws are known: which of several entries with the same key
comes first is left open, so what is proved of every `MinHeap` holds of every tie-breaking.

* `MinHeap`: the operations and their laws.
* `MinHeap.drain`: peek, and pop while the peeked entry satisfies `p`.
* `drain_induction`: the rule for a loop that peeks and pops.
* `drain_spec`: for `p` closed downwards in the key, the drained entries are exactly those with
  `p`, in the order of their keys, and the others stay.
* `MinHeap.ofList`: a heap on lists, to run examples on.
-/

/-- The operations of a bounded min-heap, with the laws its users rely on. -/
structure MinHeap (α : Type) {κ : Type} [LinearOrder κ] (key : α → κ) (N : ℕ) where
  Carrier : Type
  items : Carrier → Multiset α
  new : Carrier
  push : Carrier → α → Option Carrier
  peek : Carrier → Option α
  pop : Carrier → Option (α × Carrier)
  card_le : ∀ h, (items h).card ≤ N
  items_new : items new = 0
  push_items : ∀ {h x h'}, push h x = some h' → items h' = x ::ₘ items h
  push_isSome : ∀ {h x}, (push h x).isSome ↔ (items h).card < N
  peek_isNone : ∀ {h}, peek h = none ↔ items h = 0
  peek_le : ∀ {h x}, peek h = some x → ∀ y ∈ items h, key x ≤ key y
  pop_peek : ∀ {h}, (pop h).map Prod.fst = peek h
  pop_items : ∀ {h x h'}, pop h = some (x, h') → items h = x ::ₘ items h'

namespace MinHeap

variable {α κ : Type} [LinearOrder κ] {key : α → κ} {N : ℕ} {H : MinHeap α key N}
  {h h' : H.Carrier} {x : α}

/-- All places are taken. -/
def Full (h : H.Carrier) : Prop := (H.items h).card = N

theorem push_eq_none : H.push h x = none ↔ Full h := by
  have h₁ := H.push_isSome (h := h) (x := x)
  have h₂ := H.card_le h
  rw [← Option.not_isSome_iff_eq_none, h₁, Full]
  omega

theorem exists_push (hf : ¬ Full h) (x : α) : ∃ h', H.push h x = some h' ∧
    H.items h' = x ::ₘ H.items h := by
  have := H.card_le h
  obtain ⟨h', e⟩ := Option.isSome_iff_exists.mp
    (H.push_isSome (h := h) (x := x) |>.mpr (by unfold Full at hf; omega))
  exact ⟨h', e, H.push_items e⟩

theorem exists_pop (hp : H.peek h = some x) : ∃ h', H.pop h = some (x, h') := by
  rw [← H.pop_peek, Option.map_eq_some_iff] at hp
  obtain ⟨⟨y, h'⟩, hpop, rfl⟩ := hp
  exact ⟨h', hpop⟩

theorem mem_of_peek (hp : H.peek h = some x) : x ∈ H.items h := by
  obtain ⟨h', hpop⟩ := exists_pop hp
  rw [H.pop_items hpop]
  exact Multiset.mem_cons_self _ _

/-! ### Draining -/

/-- Pop while the peeked entry satisfies `p`. A fuel of one more than the number of entries lets
the loop end by itself. -/
def drainLoop (H : MinHeap α key N) (p : α → Bool) : ℕ → H.Carrier → List α × H.Carrier
  | 0, h => ([], h)
  | fuel + 1, h =>
    match H.peek h with
    | none => ([], h)
    | some x =>
      if p x then
        match H.pop h with
        | none => ([], h)
        | some (y, h') => (y :: (drainLoop H p fuel h').1, (drainLoop H p fuel h').2)
      else ([], h)

/-- Pop while the peeked entry satisfies `p`. -/
def drain (H : MinHeap α key N) (p : α → Bool) (h : H.Carrier) : List α × H.Carrier :=
  drainLoop H p (N + 1) h

theorem card_of_pop (hpop : H.pop h = some (x, h')) : (H.items h').card < (H.items h).card := by
  rw [H.pop_items hpop, Multiset.card_cons]
  exact Nat.lt_succ_self _

/-- More fuel than entries is enough, and how much more does not matter. -/
theorem drainLoop_fuel {p : α → Bool} {m n : ℕ} (hm : (H.items h).card < m)
    (hn : (H.items h).card < n) : drainLoop H p m h = drainLoop H p n h := by
  induction m generalizing n h with
  | zero => exact absurd hm (Nat.not_lt_zero _)
  | succ m ih =>
    cases n with
    | zero => exact absurd hn (Nat.not_lt_zero _)
    | succ n =>
      rw [drainLoop, drainLoop]
      cases hpk : H.peek h with
      | none => rfl
      | some x =>
        obtain ⟨h', hpop⟩ := exists_pop hpk
        have hcard := card_of_pop hpop
        dsimp only
        rw [hpop]
        dsimp only
        rw [ih (n := n) (by omega) (by omega)]

theorem drain_of_not {p : α → Bool} (hx : ∀ x, H.peek h = some x → ¬ p x) :
    H.drain p h = ([], h) := by
  rw [drain, drainLoop]
  cases hpk : H.peek h with
  | none => rfl
  | some x =>
    dsimp only
    rw [if_neg (hx x hpk)]

theorem drain_of_pop {p : α → Bool} (hpk : H.peek h = some x) (hx : p x)
    (hpop : H.pop h = some (x, h')) :
    H.drain p h = (x :: (H.drain p h').1, (H.drain p h').2) := by
  have hcard := card_of_pop hpop
  have hle := H.card_le h
  have hloop : drainLoop H p N h' = H.drain p h' := drainLoop_fuel (by omega) (by omega)
  rw [drain, drainLoop, hpk]
  dsimp only
  rw [if_pos hx, hpop]
  dsimp only
  rw [hloop]

/-- **Draining, turn by turn.** What holds when the loop ends, and of a turn and the turns after
it, holds of the entries drained and the heap left. -/
theorem drain_induction {p : α → Bool} {motive : H.Carrier → List α → H.Carrier → Prop}
    (stop : ∀ h, (∀ x, H.peek h = some x → ¬ p x) → motive h [] h)
    (turn : ∀ h x h', H.peek h = some x → p x → H.pop h = some (x, h') →
      motive h' (H.drain p h').1 (H.drain p h').2 →
      motive h (x :: (H.drain p h').1) (H.drain p h').2)
    (h : H.Carrier) : motive h (H.drain p h).1 (H.drain p h).2 := by
  -- by the number of entries
  induction hn : (H.items h).card using Nat.strong_induction_on generalizing h with
  | _ n ih =>
    by_cases hx : ∀ x, H.peek h = some x → ¬ p x
    · rw [drain_of_not hx]
      exact stop h hx
    · push Not at hx
      obtain ⟨x, hpk, hpx⟩ := hx
      obtain ⟨h', hpop⟩ := exists_pop hpk
      rw [drain_of_pop hpk hpx hpop]
      exact turn h x h' hpk hpx hpop (ih _ (hn ▸ card_of_pop hpop) h' rfl)

/-- **Draining is exact**: the entries with `p` come out in the order of their keys, the others
stay. -/
theorem drain_spec {p : α → Bool} (hp : ∀ x y, key x ≤ key y → p y → p x) (h : H.Carrier) :
    ((H.drain p h).1 : Multiset α) = (H.items h).filter (fun x => p x) ∧
      H.items (H.drain p h).2 = (H.items h).filter (fun x => ¬ p x) ∧
      (H.drain p h).1.Pairwise (key · ≤ key ·) := by
  refine drain_induction (p := p)
    (motive := fun h l h' => (l : Multiset α) = (H.items h).filter (fun x => p x) ∧
      H.items h' = (H.items h).filter (fun x => ¬ p x) ∧ l.Pairwise (key · ≤ key ·)) ?_ ?_ h
  · intro h hstop
    -- the least entry fails `p`, so every entry does
    have hall : ∀ y ∈ H.items h, ¬ p y := by
      intro y hy hpy
      cases hpk : H.peek h with
      | none =>
        rw [H.peek_isNone.mp hpk] at hy
        exact Multiset.notMem_zero y hy
      | some x => exact hstop x hpk (hp x y (H.peek_le hpk y hy) hpy)
    exact ⟨(Multiset.filter_eq_nil.mpr hall).symm,
      (Multiset.filter_eq_self.mpr hall).symm, .nil⟩
  · rintro h x h' hpk hx hpop ⟨ih₁, ih₂, ih₃⟩
    have hi := H.pop_items hpop
    have hmin := H.peek_le hpk
    refine ⟨?_, ?_, List.pairwise_cons.mpr ⟨fun y hy => ?_, ih₃⟩⟩
    · rw [hi, Multiset.filter_cons_of_pos (p := fun x => p x) _ hx, ← Multiset.cons_coe, ih₁]
    · rw [ih₂, hi, Multiset.filter_cons_of_neg (p := fun x => ¬ p x) _ (not_not.mpr hx)]
    · rw [← Multiset.mem_coe, ih₁] at hy
      exact hmin y (hi ▸ Multiset.mem_cons_of_mem (Multiset.mem_of_mem_filter hy))

/-! ### A heap on lists -/

section OfList

variable (key)

/-- Take out an entry with the least key, the first one among equals. -/
def extractMin : List α → Option (α × List α)
  | [] => none
  | x :: xs =>
    match extractMin xs with
    | none => some (x, [])
    | some (y, ys) => if key x ≤ key y then some (x, xs) else some (y, x :: ys)

variable {key}

theorem extractMin_eq_none {l : List α} : extractMin key l = none ↔ l = [] := by
  cases l with
  | nil => exact ⟨fun _ => rfl, fun _ => rfl⟩
  | cons x xs =>
    refine ⟨fun h => ?_, fun h => absurd h (by simp)⟩
    rw [extractMin] at h
    cases he : extractMin key xs with
    | none => rw [he] at h; exact absurd h (by simp)
    | some r =>
      rw [he] at h
      dsimp only at h
      split_ifs at h

theorem extractMin_spec {l l' : List α} (h : extractMin key l = some (x, l')) :
    (l : Multiset α) = x ::ₘ (l' : Multiset α) ∧ ∀ y ∈ l, key x ≤ key y := by
  induction l generalizing x l' with
  | nil => exact absurd h (by simp [extractMin])
  | cons a l ih =>
    rw [extractMin] at h
    cases he : extractMin key l with
    | none =>
      rw [he] at h
      obtain ⟨rfl, rfl⟩ := Prod.mk.inj (Option.some.inj h)
      obtain rfl := extractMin_eq_none.mp he
      exact ⟨rfl, fun y hy => by rw [List.mem_singleton.mp hy]⟩
    | some r =>
      obtain ⟨b, bs⟩ := r
      obtain ⟨hl, hmin⟩ := ih he
      rw [he] at h
      dsimp only at h
      split_ifs at h with hab
      · obtain ⟨rfl, rfl⟩ := Prod.mk.inj (Option.some.inj h)
        refine ⟨rfl, fun y hy => ?_⟩
        rcases List.mem_cons.mp hy with rfl | hy
        · exact le_rfl
        · exact hab.trans (hmin y hy)
      · obtain ⟨rfl, rfl⟩ := Prod.mk.inj (Option.some.inj h)
        refine ⟨?_, fun y hy => ?_⟩
        · rw [← Multiset.cons_coe, hl, ← Multiset.cons_coe, Multiset.cons_swap]
        · rcases List.mem_cons.mp hy with rfl | hy
          · exact (not_le.mp hab).le
          · exact hmin y hy

variable (key N)

/-- A min-heap on lists of at most `N` entries. -/
def ofList : MinHeap α key N where
  Carrier := {l : List α // l.length ≤ N}
  items h := (h.1 : Multiset α)
  new := ⟨[], Nat.zero_le N⟩
  push h x := if hlt : h.1.length < N then some ⟨x :: h.1, hlt⟩ else none
  peek h := (extractMin key h.1).map Prod.fst
  pop h :=
    match he : extractMin key h.1 with
    | none => none
    | some (x, l) => some (x, ⟨l, by
        have := (Multiset.card_cons x (l : Multiset α)).symm.trans
          (congrArg Multiset.card (extractMin_spec he).1).symm
        rw [Multiset.coe_card, Multiset.coe_card] at this
        have := h.2
        omega⟩)
  card_le h := h.2
  items_new := rfl
  push_items {h x h'} e := by
    split_ifs at e
    obtain rfl := Option.some.inj e
    rfl
  push_isSome {h x} := by
    rw [Multiset.coe_card]
    split_ifs with hlt
    · exact ⟨fun _ => hlt, fun _ => rfl⟩
    · exact ⟨fun e => absurd e (by simp), fun e => absurd e hlt⟩
  peek_isNone {h} := by
    rw [Option.map_eq_none_iff, extractMin_eq_none, Multiset.coe_eq_zero]
  peek_le {h x} e := by
    obtain ⟨⟨y, l⟩, he, rfl⟩ := Option.map_eq_some_iff.mp e
    exact (extractMin_spec he).2
  pop_peek {h} := by
    split
    · rename_i he
      rw [he]
      rfl
    · rename_i y l he
      rw [show (extractMin key h.1).map Prod.fst = some y by rw [he]; rfl]
      rfl
  pop_items {h x h'} e := by
    split at e
    · exact absurd e (by simp)
    · rename_i y l he
      obtain ⟨rfl, rfl⟩ := Prod.mk.inj (Option.some.inj e)
      exact (extractMin_spec he).1

end OfList

end MinHeap
