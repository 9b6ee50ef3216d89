import AurixAsync.Lib.Segments
import AurixAsync.Memory.Bump
import Mathlib.Data.Nat.Prime.Basic

/-!
# The list of holes

`HoleList` keeps the free memory of a heap as a list of holes, in order of their addresses. The
list lives in the holes themselves; here it is a list. Addresses and sizes have 32 bits. A hole
takes 8 bytes, a size and a pointer, at an address that is a multiple of 4. The functions that
round addresses and sizes are not in the source, and are a parameter.

* `HoleList`, `splitCurrent`, `allocateFirstFit`, `deallocate`, `extend`: the code, `none` for a
  panic.
* `Region`: the memory a heap may have. It is such that no sum of the code wraps.
* `ValidHoles`, `free`: the holes a list may have, and their bytes.
-/

namespace AurixAsync

open Segments

/-- Addition of addresses. -/
def wrappingAdd (a b : ℕ) : ℕ := (a + b) % 2 ^ 32

/-- `align_up`, `align_up_size` and `align_down_size`: to multiples of a power of two. -/
structure Rounding where
  alignUp : ℕ → ℕ → ℕ
  alignUpSize : ℕ → ℕ → ℕ
  alignDownSize : ℕ → ℕ → ℕ
  alignUp_eq : ∀ a k, roundUp a (2 ^ k) < 2 ^ 32 → alignUp a (2 ^ k) = roundUp a (2 ^ k)
  alignUpSize_eq : ∀ n k, roundUp n (2 ^ k) < 2 ^ 32 → alignUpSize n (2 ^ k) = roundUp n (2 ^ k)
  alignDownSize_eq : ∀ n k, alignDownSize n (2 ^ k) = n - n % 2 ^ k

/-- A hole, and `HoleInfo`. -/
structure Hole where
  addr : ℕ
  size : ℕ
deriving DecidableEq, Repr

/-- The bytes of a hole. -/
def Hole.seg (h : Hole) : Seg ℕ := ⟨h.addr, h.addr + h.size⟩

theorem Hole.seg_injective : Function.Injective Hole.seg := by
  rintro ⟨a, n⟩ ⟨b, m⟩ h
  obtain ⟨ha, hn⟩ := Seg.mk.inj h
  dsimp only at ha hn
  rw [ha] at hn
  rw [ha, Nat.add_left_cancel hn]

/-- `size_of::<Hole>()`. -/
def sizeOfHole : ℕ := 8

/-- `align_of::<Hole>()`. -/
def alignOfHole : ℕ := 4

/-- `holes` are those from `first.next` on. -/
structure HoleList where
  holes : List Hole
  bottom : ℕ
  top : ℕ
  pendingExtend : ℕ
deriving DecidableEq, Repr

namespace HoleList

/-- `HoleList::min_size`. -/
def minSize : ℕ := 4 * 2

section Code

variable (R : Rounding)

/-- `Cursor::split_current`: the address, and the paddings that take the place of the hole. -/
def splitCurrent (hole : Hole) (requiredLayout : Layout) : Option (ℕ × List Hole) :=
  if hole.size < requiredLayout.size then none
  else
    let p : List Hole × ℕ :=
      if hole.addr = R.alignUp hole.addr requiredLayout.align then ([], hole.addr)
      else
        let newStart := wrappingAdd hole.addr minSize
        let alignedAddr := R.alignUp newStart requiredLayout.align
        ([⟨hole.addr, alignedAddr - hole.addr⟩], alignedAddr)
    let allocationEnd := wrappingAdd p.2 requiredLayout.size
    let holeEnd := wrappingAdd hole.addr hole.size
    if holeEnd < allocationEnd then none
    else
      let backPaddingSize := holeEnd - allocationEnd
      if backPaddingSize = 0 then some (p.2, p.1)
      else
        let backPaddingStart := R.alignUp allocationEnd alignOfHole
        let backPaddingEnd := wrappingAdd backPaddingStart sizeOfHole
        if backPaddingEnd ≤ holeEnd then
          some (p.2, p.1 ++ [⟨backPaddingStart, backPaddingSize⟩])
        else none

/-- `check_merge_top`. -/
def checkMergeTop (node : Hole) (top : ℕ) : Hole :=
  let e := wrappingAdd node.addr node.size
  if e < top then
    let nextHoleEnd := wrappingAdd (R.alignUp e alignOfHole) sizeOfHole
    if top < nextHoleEnd then { node with size := node.size + (top - e) } else node
  else node

/-- `make_hole`, with its assertion. -/
def makeHole (addr size : ℕ) : Option Hole :=
  if addr % alignOfHole = 0 then some ⟨addr, size⟩ else none

/-- `check_merge_bottom`. The subtraction panics below zero. -/
def checkMergeBottom (node : Hole) (bottom : ℕ) : Option Hole :=
  if node.addr < wrappingAdd bottom sizeOfHole then
    if bottom ≤ node.addr then makeHole bottom (node.size + (node.addr - bottom)) else none
  else some node

/-- `HoleList::new`, with its assertions. -/
def new (holeAddr holeSize : ℕ) : Option HoleList :=
  if sizeOfHole = minSize ∧ sizeOfHole ≤ holeSize then
    let alignedHoleAddr := R.alignUp holeAddr alignOfHole
    let requestedHoleSize := holeSize - (alignedHoleAddr - holeAddr)
    let alignedHoleSize := R.alignDownSize requestedHoleSize alignOfHole
    if sizeOfHole ≤ alignedHoleSize ∧
        wrappingAdd holeAddr holeSize = wrappingAdd alignedHoleAddr requestedHoleSize then
      some
        { holes := [⟨alignedHoleAddr, alignedHoleSize⟩]
          bottom := alignedHoleAddr
          top := wrappingAdd alignedHoleAddr alignedHoleSize
          pendingExtend := (requestedHoleSize - alignedHoleSize) % 2 ^ 8 }
    else none
  else none

/-- `align_layout`. A size over `isize::MAX`, rounded up to the alignment, is no layout. -/
def alignLayout (layout : Layout) : Option Layout :=
  let size := if layout.size < minSize then minSize else layout.size
  let size := R.alignUpSize size alignOfHole
  if size ≤ 2 ^ 31 - layout.align then some ⟨size, layout.align, layout.align_pow⟩ else none

/-- The loop of `allocate_first_fit`: the address, and the list after it. -/
def firstFit (layout : Layout) : List Hole → Option (ℕ × List Hole)
  | [] => none
  | hole :: holes =>
    match splitCurrent R hole layout with
    | some (ptr, pads) => some (ptr, pads ++ holes)
    | none => (firstFit layout holes).map fun r => (r.1, hole :: r.2)

/-- `allocate_first_fit`: the address and the aligned layout, or an error. -/
def allocateFirstFit (s : HoleList) (layout : Layout) :
    Option (Option (ℕ × Layout) × HoleList) :=
  (alignLayout R layout).map fun alignedLayout =>
    match firstFit R alignedLayout s.holes with
    | some (ptr, holes) =>
      (if ptr = 0 then none else some (ptr, alignedLayout), { s with holes := holes })
    | none => (none, s)

/-- `Cursor::try_merge_next_n`: the list from the cursor's hole on. -/
def tryMergeNextN (top : ℕ) : ℕ → Hole → List Hole → List Hole
  | 0, hole, holes => hole :: holes
  | _ + 1, hole, [] => [checkMergeTop R hole top]
  | n + 1, hole, next :: holes =>
    if wrappingAdd hole.addr hole.size = next.addr then
      tryMergeNextN top n ⟨hole.addr, hole.size + next.size⟩ holes
    else hole :: tryMergeNextN top n next holes

/-- The loop over `Cursor::try_insert_after`, and the merge with up to two next holes. -/
def insertAfter (top : ℕ) (node : Hole) : Hole → List Hole → List Hole
  | hole, [] => tryMergeNextN R top 2 hole [node]
  | hole, next :: holes =>
    if node.addr < next.addr then tryMergeNextN R top 2 hole (node :: next :: holes)
    else hole :: insertAfter top node next holes

/-- `deallocate`. The cursor of `Cursor::try_insert_back` stays at the node as it was before it was
merged with the bottom, which then is no hole of the list. -/
def deallocateHole (s : HoleList) (addr size : ℕ) : Option HoleList :=
  (makeHole addr size).bind fun hole =>
    match s.holes with
    | [] =>
      (checkMergeBottom hole s.bottom).map fun node =>
        { s with holes := [checkMergeTop R node s.top] }
    | h :: hs =>
      if addr < h.addr then
        (checkMergeBottom hole s.bottom).map fun node =>
          { s with
            holes := if node.addr = addr then tryMergeNextN R s.top 1 node (h :: hs)
              else node :: h :: hs }
      else some { s with holes := insertAfter R s.top hole h hs }

/-- `HoleList::deallocate`. -/
def deallocate (s : HoleList) (ptr : ℕ) (layout : Layout) : Option HoleList :=
  (alignLayout R layout).bind fun alignedLayout => s.deallocateHole R ptr alignedLayout.size

/-- `Layout::from_size_align(size, 1)`. -/
def bytesLayout (size : ℕ) : Option Layout :=
  if size ≤ 2 ^ 31 - 1 then some ⟨size, 1, 0, rfl⟩ else none

/-- `extend`, with its assertions. -/
def extend (s : HoleList) (n : ℕ) : Option HoleList :=
  if s.top ≠ 0 ∧ s.top % alignOfHole = 0 ∧ s.pendingExtend < minSize then
    let extendBy := s.pendingExtend + n
    if extendBy < minSize then some { s with pendingExtend := extendBy % 2 ^ 8 }
    else
      let newHoleSize := R.alignDownSize extendBy alignOfHole
      (bytesLayout newHoleSize).bind fun layout =>
        (s.deallocate R s.top layout).map fun s' =>
          { s' with
            top := s.top + newHoleSize
            pendingExtend := (extendBy - newHoleSize) % 2 ^ 8 }
  else none

end Code

/-! ### Rounding -/

theorem roundUp_eq_self {n m : ℕ} (h : m ∣ n) : roundUp n m = n := by
  unfold roundUp
  rw [if_pos (Nat.mod_eq_zero_of_dvd h)]

theorem wrappingAdd_eq {a b : ℕ} (h : a + b < 2 ^ 32) : wrappingAdd a b = a + b :=
  Nat.mod_eq_of_lt h

/-- The end of the address space that has memory. -/
def memoryEnd : ℕ := 3 * 2 ^ 30

/-- The memory that a heap may come to have. -/
structure Region where
  start : ℕ
  limit : ℕ
  start_pos : 0 < start
  limit_le : limit ≤ memoryEnd
  limit_lt : limit < start + 2 ^ 30

/-- A hole inside the region, aligned, with place for itself. -/
structure ValidHole (reg : Region) (h : Hole) : Prop where
  addr_dvd : 4 ∣ h.addr
  size_dvd : 4 ∣ h.size
  le_size : 8 ≤ h.size
  start_le : reg.start ≤ h.addr
  end_le : h.addr + h.size ≤ reg.limit

/-- A layout that `align_layout` returns. -/
structure AlignedLayout (l : Layout) : Prop where
  size_dvd : 4 ∣ l.size
  le_size : 8 ≤ l.size
  size_le : l.size + l.align ≤ 2 ^ 31

variable {R : Rounding} {reg : Region} {h : Hole} {l : Layout} {p q a : ℕ}

theorem ValidHole.end_le_memoryEnd (hh : ValidHole reg h) : h.addr + h.size ≤ memoryEnd :=
  hh.end_le.trans reg.limit_le

theorem ValidHole.size_lt (hh : ValidHole reg h) : h.size < 2 ^ 30 := by
  have h₁ := hh.start_le
  have h₂ := hh.end_le
  have h₃ := reg.limit_lt
  omega

theorem AlignedLayout.align_dvd (hl : AlignedLayout l) : l.align ∣ memoryEnd := by
  obtain ⟨k, hk⟩ := l.align_pow
  have hlt : 2 ^ k < 2 ^ 31 := by
    have h₁ := hl.le_size
    have h₂ := hl.size_le
    omega
  rw [hk]
  exact Dvd.dvd.mul_left (Nat.pow_dvd_pow 2 (Nat.lt_succ_iff.mp
    ((Nat.pow_lt_pow_iff_right Nat.one_lt_two).mp hlt))) 3

theorem alignUp_hole (ha : 4 ∣ a) (hlt : a < 2 ^ 32) : R.alignUp a alignOfHole = a := by
  have hup : roundUp a (2 ^ 2) = a := roundUp_eq_self ha
  have heq : R.alignUp a (2 ^ 2) = roundUp a (2 ^ 2) := R.alignUp_eq a 2 (by rwa [hup])
  exact heq.trans hup

theorem alignUp_align (hl : AlignedLayout l) (ha : a ≤ memoryEnd) :
    R.alignUp a l.align = roundUp a l.align := by
  have hle : roundUp a l.align ≤ memoryEnd := roundUp_le l.align_pos hl.align_dvd ha
  have hlt : roundUp a l.align < 2 ^ 32 := lt_of_le_of_lt hle (by decide)
  obtain ⟨k, hk⟩ := l.align_pow
  rw [hk] at hlt ⊢
  exact R.alignUp_eq a k hlt

/-- A power of two that does not divide a multiple of 4 is a multiple of 8. -/
theorem eight_dvd_align (h : 4 ∣ a) (hn : ¬ l.align ∣ a) : 8 ∣ l.align := by
  obtain ⟨k, hk⟩ := l.align_pow
  rw [hk] at hn ⊢
  have hlt : 2 < k := by
    by_contra hle
    exact hn ((Nat.pow_dvd_pow 2 (Nat.not_lt.mp hle)).trans h)
  exact Nat.pow_dvd_pow 2 hlt

theorem alignLayout_eq_some {l' : Layout} (hl : l.size + l.align ≤ 2 ^ 31)
    (h : alignLayout R l = some l') :
    l'.align = l.align ∧ l.size ≤ l'.size ∧ AlignedLayout l' := by
  have hpos := l.align_pos
  -- what is rounded up
  obtain ⟨n, hn⟩ : ∃ n, n = if l.size < minSize then minSize else l.size := ⟨_, rfl⟩
  have hmin : minSize = 8 := rfl
  have hle : l.size ≤ n ∧ 8 ≤ n ∧ n < 2 ^ 31 + 8 := by
    rw [hn]
    split_ifs <;> omega
  have hup : roundUp n (2 ^ 2) < n + 4 := roundUp_lt (Nat.two_pow_pos 2)
  have hR : R.alignUpSize n alignOfHole = roundUp n (2 ^ 2) := R.alignUpSize_eq n 2 (by omega)
  unfold alignLayout at h
  simp only [← hn, hR] at h
  obtain ⟨hfit, hl'⟩ := Option.ite_none_right_eq_some.mp h
  obtain rfl := Option.some.inj hl'
  have hge : n ≤ roundUp n (2 ^ 2) := le_roundUp (Nat.two_pow_pos 2)
  refine ⟨rfl, hle.1.trans hge, dvd_roundUp (Nat.two_pow_pos 2), hle.2.1.trans hge, ?_⟩
  show roundUp n (2 ^ 2) + l.align ≤ 2 ^ 31
  omega

/-! ### The free memory -/

/-- The free bytes. -/
def free (holes : List Hole) : Set ℕ := cover (holes.map Hole.seg)

/-- Valid holes, in order, that do not touch. -/
structure ValidHoles (reg : Region) (holes : List Hole) : Prop where
  valid : ∀ h ∈ holes, ValidHole reg h
  separated : Separated (holes.map Hole.seg)

variable {hs : List Hole} {x : ℕ}

theorem mem_free : x ∈ free hs ↔ ∃ h ∈ hs, h.addr ≤ x ∧ x < h.addr + h.size := by
  rw [free, mem_cover]
  exact ⟨fun ⟨s, hs, hx⟩ => by
    obtain ⟨h, hh, rfl⟩ := List.mem_map.mp hs
    exact ⟨h, hh, hx⟩, fun ⟨h, hh, hx⟩ => ⟨h.seg, List.mem_map_of_mem hh, hx⟩⟩

end HoleList

end AurixAsync
