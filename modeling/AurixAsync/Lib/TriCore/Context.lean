import AurixAsync.Lib.TriCore.Memory
import Mathlib.Data.Nat.Bitwise

/-!
# Context save areas

The core saves its context in areas of 64 bytes. A link word names an area by the segment of its
address, four bits, and by its number in the segment, sixteen bits. The free areas are a list: each
has the link of the next in its first word.

* `csaOf`: the address that a link word names. `toNat_csaOf`: the same as a number.
* `InArea`: the bytes of an area. `InArea.unique`: two areas are the same or have none in common.
* `freeList`, `linkAfter`: the first areas of a list, and the link behind them.
* `Free`: so many areas of a list can be taken, before it ends or is at its limit.
-/

namespace TriCore

/-- The segment in a link word. -/
def segmentMask : Word := 0x000F <<< 16

/-- The number in a link word. -/
def offsetMask : Word := 0xFFFF

/-- The bits of a link word. -/
def linkMask : Word := 0xFFFFF

/-- The address of the area that a link word names. -/
def csaOf (link : Word) : Word := (link &&& segmentMask) <<< 12 ||| (link &&& offsetMask) <<< 6

/-- A byte of the area at `c`. -/
def InArea (c x : Word) : Prop := (x - c).toNat < 64

/-- The first `k` areas of the list that begins with a link. -/
def freeList (m : Memory) : ℕ → Word → List Word
  | 0, _ => []
  | k + 1, link => csaOf link :: freeList m k (loadWord m (csaOf link))

/-- The link behind the first `k` areas. -/
def linkAfter (m : Memory) : ℕ → Word → Word
  | 0, link => link
  | k + 1, link => linkAfter m k (loadWord m (csaOf link))

/-- The next `k` areas of the list are there, and none is the one at the limit. -/
def Free (m : Memory) (limit : Word) : ℕ → Word → Prop
  | 0, _ => True
  | k + 1, link => link &&& linkMask ≠ 0 ∧ link &&& linkMask ≠ limit &&& linkMask ∧
    Free m limit k (loadWord m (csaOf link))

instance (c x : Word) : Decidable (InArea c x) := inferInstanceAs (Decidable (_ < _))

instance decidableFree (m : Memory) (limit : Word) :
    ∀ k link, Decidable (Free m limit k link)
  | 0, _ => inferInstanceAs (Decidable True)
  | k + 1, link =>
    have := decidableFree m limit k (loadWord m (csaOf link))
    inferInstanceAs (Decidable (_ ∧ _ ∧ _))

variable {c c' x link link' limit : Word} {m m' : Memory} {k : ℕ}

/-! ### Link words -/

theorem toNat_and_offset (w : Word) : (w &&& offsetMask).toNat = w.toNat % 2 ^ 16 := by
  rw [BitVec.toNat_and]
  exact Nat.and_two_pow_sub_one_eq_mod w.toNat 16

theorem toNat_and_link (w : Word) : (w &&& linkMask).toNat = w.toNat % 2 ^ 20 := by
  rw [BitVec.toNat_and]
  exact Nat.and_two_pow_sub_one_eq_mod w.toNat 20

theorem toNat_and_segment (w : Word) :
    (w &&& segmentMask).toNat = 2 ^ 16 * (w.toNat / 2 ^ 16 % 16) := by
  have hmask : w.toNat &&& 15 <<< 16 = (w.toNat >>> 16 &&& 15) <<< 16 := by
    rw [Nat.shiftLeft_and_distrib]
    refine Nat.eq_of_testBit_eq fun j => ?_
    rw [Nat.testBit_and, Nat.testBit_and, Nat.testBit_shiftLeft, Nat.testBit_shiftLeft,
      Nat.testBit_shiftRight]
    by_cases hj : 16 ≤ j
    · rw [Nat.add_sub_cancel' hj]
      simp [hj]
    · simp [hj]
  rw [BitVec.toNat_and]
  change w.toNat &&& 15 <<< 16 = _
  rw [hmask, Nat.and_two_pow_sub_one_eq_mod _ 4, Nat.shiftLeft_eq, Nat.shiftRight_eq_div_pow,
    Nat.mul_comm]

theorem toNat_or {u v : Word} {s r : ℕ} (hu : u.toNat = 2 ^ k * s) (hv : v.toNat = r)
    (hr : r < 2 ^ k) : (u ||| v).toNat = 2 ^ k * s + r := by
  rw [BitVec.toNat_or, hu, hv, Nat.two_pow_add_eq_or_of_lt hr]

theorem toNat_csaOf (link : Word) : (csaOf link).toNat =
    2 ^ 28 * (link.toNat / 2 ^ 16 % 16) + 64 * (link.toNat % 2 ^ 16) := by
  refine toNat_or ?_ ?_ (by omega)
  · rw [BitVec.toNat_shiftLeft, toNat_and_segment, Nat.shiftLeft_eq]
    omega
  · rw [BitVec.toNat_shiftLeft, toNat_and_offset, Nat.shiftLeft_eq]
    omega

theorem csaOf_and_linkMask (link : Word) : csaOf (link &&& linkMask) = csaOf link := by
  rw [csaOf, BitVec.and_assoc, BitVec.and_assoc]
  rfl

theorem csaOf_congr (h : link &&& linkMask = link' &&& linkMask) : csaOf link = csaOf link' := by
  rw [← csaOf_and_linkMask, h, csaOf_and_linkMask]

theorem and_linkMask_and_linkMask (w : Word) : w &&& linkMask &&& linkMask = w &&& linkMask := by
  rw [BitVec.and_assoc]
  rfl

/-! ### Areas -/

theorem inArea_csaOf_iff : InArea (csaOf link) x ↔ x.toNat / 64 = (csaOf link).toNat / 64 := by
  have h := toNat_csaOf link
  have hx := x.isLt
  have hc := (csaOf link).isLt
  rw [InArea, BitVec.toNat_sub]
  omega

theorem InArea.unique (h : InArea (csaOf link) x) (h' : InArea (csaOf link') x) :
    csaOf link = csaOf link' := by
  have h₁ := inArea_csaOf_iff.mp h
  have h₂ := inArea_csaOf_iff.mp h'
  have h₃ := toNat_csaOf link
  have h₄ := toNat_csaOf link'
  apply BitVec.eq_of_toNat_eq
  omega

theorem inArea_add {j : ℕ} (hj : j < 64) : InArea c (c + BitVec.ofNat 32 j) := by
  rw [InArea, toNat_add_sub c (by omega)]
  exact hj

/-! ### Lists -/

theorem Free.congr (h : link &&& linkMask = link' &&& linkMask) :
    Free m limit k link ↔ Free m limit k link' := by
  cases k with
  | zero => exact Iff.rfl
  | succ k =>
    unfold Free
    rw [h, csaOf_congr h]

theorem free_one : Free m limit 1 link ↔
    link &&& linkMask ≠ 0 ∧ link &&& linkMask ≠ limit &&& linkMask :=
  ⟨fun h => ⟨h.1, h.2.1⟩, fun h => ⟨h.1, h.2, trivial⟩⟩

end TriCore
