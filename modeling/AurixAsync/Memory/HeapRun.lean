import AurixAsync.Memory.HeapFirstFit
import AurixAsync.Memory.HeapMerge
import Mathlib.Data.List.Perm.Basic
import Mathlib.Order.Bounds.Defs

/-!
# A heap and its blocks

A list of holes with the blocks it handed out. Its user allocates, gives back a block with the
layout it was allocated with, and extends the heap with the memory after it.

* `Heap`, `Action`, `step`: the heap and its user.
* `HeapSound`: the blocks are aligned, big enough, in the heap and apart; what is not in a block is
  in a hole; no byte is lost; and every block can be given back.
* `heapSound_of_reachable`: every reachable heap is sound.
-/

namespace AurixAsync

open Segments Transition

namespace HoleList

/-- A request: its size, rounded up to the alignment, is at most `isize::MAX`. -/
structure Request extends Layout where
  size_le : size + align ≤ 2 ^ 31

/-- A block handed out: its address, the layout asked for, and the layout returned. -/
structure Block where
  addr : ℕ
  request : Request
  layout : Layout

namespace Block

/-- The bytes of a block. -/
def bytes (b : Block) : Set ℕ := Set.Ico b.addr (b.addr + b.layout.size)

/-- The blocks do not overlap. -/
def Apart (b c : Block) : Prop :=
  b.addr + b.layout.size ≤ c.addr ∨ c.addr + c.layout.size ≤ b.addr

theorem Apart.symm {b c : Block} (h : b.Apart c) : c.Apart b := Or.symm h

end Block

/-- A heap, its blocks, and the number of bytes it was given. -/
structure Heap where
  list : HoleList
  blocks : List Block
  given : ℕ

/-- The calls of the heap. -/
inductive Action
  | allocate (request : Request)
  /-- The `i`-th block is given back, with the layout asked for. -/
  | deallocate (i : ℕ)
  /-- The heap gets the `n` bytes after it. -/
  | extend (n : ℕ)

namespace Heap

/-- The heap that `HoleList::new` makes of the first bytes of the region. -/
def init (R : Rounding) (reg : Region) (size : ℕ) : Option Heap :=
  if reg.start + size ≤ reg.limit then
    (HoleList.new R reg.start size).map fun list => ⟨list, [], size⟩
  else none

/-- One call. `none` if it panics, or if its caller has no such block or bytes to give. -/
def step (R : Rounding) (reg : Region) (s : Heap) : Action → Option Heap
  | .allocate request =>
    (s.list.allocateFirstFit R request.toLayout).map fun r =>
      match r.1 with
      | some (addr, layout) =>
        { s with list := r.2, blocks := s.blocks ++ [⟨addr, request, layout⟩] }
      | none => { s with list := r.2 }
  | .deallocate i =>
    (s.blocks[i]?).bind fun b =>
      (s.list.deallocate R b.addr b.request.toLayout).map fun list =>
        { s with list := list, blocks := s.blocks.eraseIdx i }
  | .extend n =>
    if reg.start + s.given + n ≤ reg.limit then
      (s.list.extend R n).map fun list => { s with list := list, given := s.given + n }
    else none

/-- The bytes of the blocks. -/
def live (blocks : List Block) : Set ℕ := {x | ∃ b ∈ blocks, x ∈ b.bytes}

/-- The bytes of the heap that are in a block or in a hole. -/
def memory (s : Heap) : Set ℕ := Set.Ico s.list.bottom s.list.top

/-- A block has the layout that was asked for, and lies in the heap. -/
structure ValidBlock (R : Rounding) (s : Heap) (b : Block) : Prop where
  alignLayout_eq : alignLayout R b.request.toLayout = some b.layout
  align_dvd : b.request.align ∣ b.addr
  addr_dvd : 4 ∣ b.addr
  bottom_le : s.list.bottom ≤ b.addr
  le_top : b.addr + b.layout.size ≤ s.list.top

/-- The holes and the blocks in use make up the heap. Its ends are at multiples of 4, and no more
than 7 bytes are kept for the next extension. -/
structure HeapInv (R : Rounding) (reg : Region) (s : Heap) : Prop where
  bottom_dvd : 4 ∣ s.list.bottom
  top_dvd : 4 ∣ s.list.top
  bottom_eq : s.list.bottom = roundUp reg.start 4
  bottom_le : s.list.bottom + 8 ≤ s.list.top
  pending_lt : s.list.pendingExtend < 8
  given : s.list.top + s.list.pendingExtend = reg.start + s.given
  le_limit : reg.start + s.given ≤ reg.limit
  holes : ValidHoles reg s.list.holes
  blocks : ∀ b ∈ s.blocks, s.ValidBlock R b
  apart : s.blocks.Pairwise Block.Apart
  free_eq : free s.list.holes = s.memory \ live s.blocks

variable {R : Rounding} {reg : Region} {s s' : Heap} {b c : Block} {bs : List Block} {x : ℕ}

theorem mem_live : x ∈ live bs ↔ ∃ b ∈ bs, b.addr ≤ x ∧ x < b.addr + b.layout.size := Iff.rfl

theorem ValidBlock.aligned (h : s.ValidBlock R b) :
    b.layout.align = b.request.align ∧ b.request.size ≤ b.layout.size ∧ AlignedLayout b.layout :=
  alignLayout_eq_some b.request.size_le h.alignLayout_eq

/-! ### The heap at the start -/

theorem new_eq_some {start size : ℕ} {l : HoleList} (hlt : start + size < 2 ^ 32)
    (h : HoleList.new R start size = some l) :
    ∃ n, l = ⟨[⟨roundUp start 4, n⟩], roundUp start 4, roundUp start 4 + n,
        start + size - (roundUp start 4 + n)⟩ ∧
      4 ∣ n ∧ 8 ≤ n ∧ roundUp start 4 + n ≤ start + size ∧
      start + size < roundUp start 4 + n + 4 := by
  have hup : roundUp start 4 < start + 4 := roundUp_lt (by decide)
  have hge : start ≤ roundUp start 4 := le_roundUp (by decide)
  unfold HoleList.new at h
  obtain ⟨⟨-, hsize⟩, h⟩ := Option.ite_none_right_eq_some.mp h
  have hsz : sizeOfHole = 8 := rfl
  have hR : R.alignUp start alignOfHole = roundUp start 4 :=
    R.alignUp_eq start 2 (show roundUp start 4 < 2 ^ 32 by omega)
  have hD : ∀ m, R.alignDownSize m alignOfHole = m - m % 4 := fun m => R.alignDownSize_eq m 2
  simp only [hR, hD, hsz] at h hsize
  obtain ⟨⟨hle, -⟩, h⟩ := Option.ite_none_right_eq_some.mp h
  -- what is left of the bytes after the start was rounded up
  obtain ⟨m, hm⟩ : ∃ m, m = size - (roundUp start 4 - start) := ⟨_, rfl⟩
  rw [← hm] at h hle
  have hwrap : wrappingAdd (roundUp start 4) (m - m % 4) = roundUp start 4 + (m - m % 4) :=
    wrappingAdd_eq (by omega)
  have hpend : (m - (m - m % 4)) % 2 ^ 8 = start + size - (roundUp start 4 + (m - m % 4)) := by
    omega
  rw [hwrap, hpend] at h
  exact ⟨m - m % 4, (Option.some.inj h).symm, Nat.dvd_sub_mod m, hle, by omega, by omega⟩

theorem heapInv_init {size : ℕ} (h : init R reg size = some s) : HeapInv R reg s := by
  unfold init at h
  obtain ⟨hlim, h⟩ := Option.ite_none_right_eq_some.mp h
  obtain ⟨l, hnew, rfl⟩ := Option.map_eq_some_iff.mp h
  have hmem : memoryEnd = 3 * 2 ^ 30 := rfl
  have hle := reg.limit_le
  obtain ⟨n, rfl, hn4, hn8, hle', hlt⟩ := new_eq_some (by omega) hnew
  have hge : reg.start ≤ roundUp reg.start 4 := le_roundUp (by decide)
  have hd : 4 ∣ roundUp reg.start 4 := dvd_roundUp (by decide)
  refine
    { bottom_dvd := hd
      top_dvd := Nat.dvd_add hd hn4
      bottom_eq := rfl
      bottom_le := Nat.add_le_add_left hn8 _
      pending_lt := by dsimp only; omega
      given := by dsimp only; omega
      le_limit := hlim
      holes := ⟨?_, ?_⟩
      blocks := fun b hb => absurd hb List.not_mem_nil
      apart := List.Pairwise.nil
      free_eq := ?_ }
  · intro g hg
    obtain rfl := List.mem_singleton.mp hg
    exact ⟨hd, hn4, hn8, hge, hle'.trans hlim⟩
  · refine separated_singleton ?_
    show roundUp reg.start 4 < roundUp reg.start 4 + n
    omega
  · ext x
    rw [mem_free, memory, Set.mem_sdiff]
    constructor
    · rintro ⟨g, hg, hx⟩
      obtain rfl := List.mem_singleton.mp hg
      exact ⟨hx, fun ⟨b, hb, _⟩ => absurd hb List.not_mem_nil⟩
    · rintro ⟨hx, -⟩
      exact ⟨_, List.mem_singleton_self _, hx⟩

/-! ### Allocating -/

theorem HeapInv.start_le (hi : HeapInv R reg s) : reg.start ≤ s.list.bottom := by
  rw [hi.bottom_eq]
  exact le_roundUp (by decide)

theorem HeapInv.end_le (hi : HeapInv R reg s) : s.list.top ≤ reg.limit := by
  have h₁ := hi.given
  have h₂ := hi.le_limit
  omega

theorem HeapInv.mem_memory (hi : HeapInv R reg s) (hx : x ∈ free s.list.holes) :
    s.list.bottom ≤ x ∧ x < s.list.top := by
  rw [hi.free_eq] at hx
  exact hx.1

/-- **What an allocation does**: nothing, or it takes a new block out of the free bytes. -/
theorem allocate_cases (hi : HeapInv R reg s) {request : Request}
    (h : s.step R reg (.allocate request) = some s') :
    ∃ layout, alignLayout R request.toLayout = some layout ∧
      (firstFit R layout s.list.holes = none ∧ s' = s ∨
        ∃ p hs, firstFit R layout s.list.holes = some (p, hs) ∧
          s' = { s with
            list := { s.list with holes := hs }
            blocks := s.blocks ++ [⟨p, request, layout⟩] }) := by
  obtain ⟨r, hr, rfl⟩ := Option.map_eq_some_iff.mp h
  obtain ⟨layout, hl, rfl⟩ := Option.map_eq_some_iff.mp hr
  refine ⟨layout, hl, ?_⟩
  have hal := (alignLayout_eq_some request.size_le hl).2.2
  cases hf : firstFit R layout s.list.holes with
  | none => exact Or.inl ⟨rfl, rfl⟩
  | some r =>
    obtain ⟨p, hs⟩ := r
    refine Or.inr ⟨p, hs, rfl, ?_⟩
    -- the address is not null
    have hp : p ≠ 0 := by
      obtain ⟨-, -, -, hsub, -⟩ := firstFit_spec hi.holes hal hf
      have hsize := hal.le_size
      have hmem := hi.mem_memory (hsub ⟨le_rfl, show p < p + layout.size by omega⟩)
      have h₁ := hi.start_le
      have h₂ := reg.start_pos
      omega
    simp only [if_neg hp]

@[simp] theorem live_nil : live [] = ∅ := by
  ext x
  simp [mem_live]

theorem live_append : live (bs ++ [b]) = live bs ∪ b.bytes := by
  ext x
  simp only [live, List.mem_append, List.mem_singleton, Set.mem_union, Set.mem_ofPred_eq]
  constructor
  · rintro ⟨c, hc | rfl, hx⟩
    · exact Or.inl ⟨c, hc, hx⟩
    · exact Or.inr hx
  · rintro (⟨c, hc, hx⟩ | hx)
    · exact ⟨c, Or.inl hc, hx⟩
    · exact ⟨b, Or.inr rfl, hx⟩

theorem apart_of_disjoint (hb : 0 < b.layout.size) (hc : 0 < c.layout.size)
    (hd : ∀ x ∈ c.bytes, x ∉ b.bytes) : b.Apart c := by
  have h := le_or_le (s := ⟨c.addr, c.addr + c.layout.size⟩)
    (t := ⟨b.addr, b.addr + b.layout.size⟩) (Nat.lt_add_of_pos_right hc)
    (Nat.lt_add_of_pos_right hb) hd
  exact h.symm

theorem HeapInv.allocate (hi : HeapInv R reg s) {request : Request}
    (h : s.step R reg (.allocate request) = some s') : HeapInv R reg s' := by
  obtain ⟨layout, hl, ⟨-, rfl⟩ | ⟨p, hs, hf, rfl⟩⟩ := allocate_cases hi h
  · exact hi
  · obtain ⟨halign, -, hal⟩ := alignLayout_eq_some request.size_le hl
    obtain ⟨hdvd, hp4, hvalid, hsub, hfree⟩ := firstFit_spec hi.holes hal hf
    have hsize := hal.le_size
    have hfirst := hi.mem_memory (hsub ⟨le_rfl, show p < p + layout.size by omega⟩)
    have hlast := hi.mem_memory (x := p + layout.size - 1) (hsub ⟨by omega, by omega⟩)
    refine
      { hi with
        holes := hvalid
        blocks := ?_
        apart := ?_
        free_eq := ?_ }
    · intro b hb
      rcases List.mem_append.mp hb with hb | hb
      · exact { hi.blocks b hb with }
      · obtain rfl := List.mem_singleton.mp hb
        exact ⟨hl, halign ▸ hdvd, hp4, hfirst.1, show p + layout.size ≤ s.list.top by omega⟩
    · refine List.pairwise_append.mpr ⟨hi.apart, List.pairwise_singleton _ _, ?_⟩
      intro b hb c hc
      obtain rfl := List.mem_singleton.mp hc
      have hbsize := (hi.blocks b hb).aligned.2.2.le_size
      refine apart_of_disjoint (by omega) (show 0 < layout.size by omega) fun x hx hxb => ?_
      have hxf := hsub hx
      rw [hi.free_eq] at hxf
      exact hxf.2 ⟨b, hb, hxb⟩
    · show free hs = s.memory \ live (s.blocks ++ [⟨p, request, layout⟩])
      rw [hfree, hi.free_eq, live_append, Set.sdiff_sdiff]
      rfl

/-! ### Giving back -/

/-- A hole or a block of the heap. -/
def Tile (s : Heap) (a n : ℕ) : Prop :=
  (∃ g ∈ s.list.holes, g.addr = a ∧ g.size = n) ∨ ∃ b ∈ s.blocks, b.addr = a ∧ b.layout.size = n

/-- Each byte of the heap is in a hole or a block. -/
theorem HeapInv.exists_tile (hi : HeapInv R reg s) (hx : x ∈ s.memory) :
    ∃ a n, s.Tile a n ∧ a ≤ x ∧ x < a + n := by
  by_cases hl : x ∈ live s.blocks
  · obtain ⟨b, hb, hxb⟩ := hl
    exact ⟨b.addr, b.layout.size, Or.inr ⟨b, hb, rfl, rfl⟩, hxb⟩
  · have hf : x ∈ free s.list.holes := by
      rw [hi.free_eq]
      exact ⟨hx, hl⟩
    obtain ⟨g, hg, hxg⟩ := mem_free.mp hf
    exact ⟨g.addr, g.size, Or.inl ⟨g, hg, rfl, rfl⟩, hxg⟩

theorem HeapInv.tile_inside (hi : HeapInv R reg s) {a n : ℕ} (h : s.Tile a n) :
    8 ≤ n ∧ s.list.bottom ≤ a ∧ a + n ≤ s.list.top := by
  rcases h with ⟨g, hg, rfl, rfl⟩ | ⟨b, hb, rfl, rfl⟩
  · have hsize := (hi.holes.valid g hg).le_size
    have hfirst := hi.mem_memory (mem_free.mpr ⟨g, hg, le_rfl, by omega⟩)
    have hlast := hi.mem_memory (x := g.addr + g.size - 1)
      (mem_free.mpr ⟨g, hg, by omega, by omega⟩)
    exact ⟨hsize, hfirst.1, by omega⟩
  · have hvalid := hi.blocks b hb
    exact ⟨hvalid.aligned.2.2.le_size, hvalid.bottom_le, hvalid.le_top⟩

theorem HeapInv.tile_apart (hi : HeapInv R reg s) {a n : ℕ} (h : s.Tile a n)
    (hs : s.blocks.Perm (b :: bs)) :
    a = b.addr ∧ n = b.layout.size ∨ a + n ≤ b.addr ∨ b.addr + b.layout.size ≤ a := by
  have hb : b ∈ s.blocks := hs.mem_iff.mpr List.mem_cons_self
  have hbsize := (hi.blocks b hb).aligned.2.2.le_size
  have hap := (hs.pairwise_iff Block.Apart.symm).mp hi.apart
  rcases h with ⟨g, hg, rfl, rfl⟩ | ⟨c, hc, rfl, rfl⟩
  · have hgsize := (hi.holes.valid g hg).le_size
    refine Or.inr (le_or_le (s := g.seg) (t := ⟨b.addr, b.addr + b.layout.size⟩)
      (show g.addr < g.addr + g.size by omega)
      (show b.addr < b.addr + b.layout.size by omega) fun x hx hxb => ?_)
    have hxf := mem_free.mpr ⟨g, hg, hx⟩
    rw [hi.free_eq] at hxf
    exact hxf.2 ⟨b, hb, hxb⟩
  · rcases List.mem_cons.mp (hs.mem_iff.mp hc) with rfl | hc
    · exact Or.inl ⟨rfl, rfl⟩
    · exact Or.inr ((List.pairwise_cons.mp hap).1 c hc).symm

theorem HeapInv.deallocate_eq (hi : HeapInv R reg s) (hs : s.blocks.Perm (b :: bs)) :
    ∃ hs', s.list.deallocate R b.addr b.request.toLayout = some { s.list with holes := hs' } ∧
      ValidHoles reg hs' ∧ free hs' = b.bytes ∪ free s.list.holes := by
  have hb : b ∈ s.blocks := hs.mem_iff.mpr List.mem_cons_self
  have hvalid := hi.blocks b hb
  have hal := hvalid.aligned.2.2
  have hsize := hal.le_size
  have hbot := hvalid.bottom_le
  have htop := hvalid.le_top
  have hnode : ValidHole reg ⟨b.addr, b.layout.size⟩ :=
    ⟨hvalid.addr_dvd, hal.size_dvd, hsize, hi.start_le.trans hbot, htop.trans hi.end_le⟩
  obtain ⟨hs', heq, hspec⟩ := deallocateHole_spec (R := R) hi.holes hnode
    (by
      -- what lies at the bottom
      obtain ⟨a, n, ht, hle, hlt⟩ := hi.exists_tile (x := s.list.bottom) ⟨le_rfl, by omega⟩
      have hin := hi.tile_inside ht
      rcases hi.tile_apart ht hs with ⟨rfl, rfl⟩ | hap | hap <;> omega)
    (by
      -- what lies after the block
      intro hlt
      obtain ⟨a, n, ht, hle, hlt⟩ := hi.exists_tile (x := b.addr + b.layout.size)
        ⟨by omega, hlt⟩
      have hin := hi.tile_inside ht
      rcases hi.tile_apart ht hs with ⟨rfl, rfl⟩ | hap | hap <;> omega)
    (fun x hx hxf => by
      rw [hi.free_eq] at hxf
      exact hxf.2 ⟨b, hb, hx⟩)
  refine ⟨hs', ?_, hspec⟩
  rw [HoleList.deallocate, hvalid.alignLayout_eq]
  exact heq

theorem perm_eraseIdx {i : ℕ} (h : s.blocks[i]? = some b) :
    s.blocks.Perm (b :: s.blocks.eraseIdx i) := by
  obtain ⟨hlt, rfl⟩ := List.getElem?_eq_some_iff.mp h
  exact (List.getElem_cons_eraseIdx_perm hlt).symm

theorem live_perm (h : bs.Perm (b :: s.blocks)) : live bs = b.bytes ∪ live s.blocks := by
  ext x
  simp only [live, h.mem_iff, List.mem_cons, Set.mem_union, Set.mem_ofPred_eq]
  constructor
  · rintro ⟨c, rfl | hc, hx⟩
    · exact Or.inl hx
    · exact Or.inr ⟨c, hc, hx⟩
  · rintro (hx | ⟨c, hc, hx⟩)
    · exact ⟨b, Or.inl rfl, hx⟩
    · exact ⟨c, Or.inr hc, hx⟩

theorem HeapInv.deallocate (hi : HeapInv R reg s) {i : ℕ}
    (h : s.step R reg (.deallocate i) = some s') : HeapInv R reg s' := by
  obtain ⟨b, hb, h⟩ := Option.bind_eq_some_iff.mp h
  have hperm := perm_eraseIdx hb
  obtain ⟨hs', heq, hvalid, hfree⟩ := hi.deallocate_eq hperm
  rw [heq] at h
  obtain rfl := Option.some.inj h
  have hmem : b ∈ s.blocks := hperm.mem_iff.mpr List.mem_cons_self
  have hap := (hperm.pairwise_iff Block.Apart.symm).mp hi.apart
  refine
    { hi with
      holes := hvalid
      blocks := fun c hc => { hi.blocks c (hperm.mem_iff.mpr (List.mem_cons_of_mem b hc)) with }
      apart := (List.pairwise_cons.mp hap).2
      free_eq := ?_ }
  show free hs' = s.memory \ live (s.blocks.eraseIdx i)
  have hbot := (hi.blocks b hmem).bottom_le
  have htop := (hi.blocks b hmem).le_top
  rw [hfree, hi.free_eq,
    live_perm (s := { s with blocks := s.blocks.eraseIdx i }) hperm]
  ext x
  simp only [Set.mem_union, Set.mem_sdiff]
  constructor
  · rintro (hx | ⟨hx, hn⟩)
    · refine ⟨⟨hbot.trans hx.1, hx.2.trans_le htop⟩, ?_⟩
      rintro ⟨c, hc, hxc⟩
      have hx₁ := hx.1
      have hx₂ := hx.2
      have hx₃ := hxc.1
      have hx₄ := hxc.2
      rcases (List.pairwise_cons.mp hap).1 c hc with hbc | hcb <;> omega
    · exact ⟨hx, fun hl => hn (Or.inr hl)⟩
  · rintro ⟨hx, hn⟩
    by_cases hxb : x ∈ b.bytes
    · exact Or.inl hxb
    · exact Or.inr ⟨hx, fun hl => hl.elim hxb hn⟩

/-! ### Extending -/

theorem alignLayout_words {m : ℕ} (h4 : 4 ∣ m) (h8 : 8 ≤ m) (hlt : m < 2 ^ 31) :
    alignLayout R ⟨m, 1, 0, rfl⟩ = some ⟨m, 1, 0, rfl⟩ := by
  have hup : roundUp m (2 ^ 2) = m := roundUp_eq_self h4
  have hR : R.alignUpSize m alignOfHole = m :=
    (R.alignUpSize_eq m 2 (by rw [hup]; omega)).trans hup
  unfold alignLayout
  simp only [if_neg (show ¬ m < minSize from not_lt.mpr h8), hR]
  exact if_pos (by omega)

/-- **What an extension does**: few bytes are kept for later, and more become free. -/
theorem HeapInv.extend_eq (hi : HeapInv R reg s) {n : ℕ}
    (hlim : reg.start + s.given + n ≤ reg.limit) :
    s.list.pendingExtend + n < 8 ∧
        s.list.extend R n = some { s.list with pendingExtend := s.list.pendingExtend + n } ∨
      ∃ hs m k, s.list.extend R n = some ⟨hs, s.list.bottom, s.list.top + m, k⟩ ∧
        4 ∣ m ∧ k < 4 ∧ m + k = s.list.pendingExtend + n ∧ ValidHoles reg hs ∧
          free hs = Set.Ico s.list.top (s.list.top + m) ∪ free s.list.holes := by
  have hgiven := hi.given
  have hpend := hi.pending_lt
  have hstart := hi.start_le
  have hbot := hi.bottom_le
  have hreg := reg.limit_lt
  have hmin : minSize = 8 := rfl
  have hmod : s.list.top % alignOfHole = 0 := Nat.mod_eq_zero_of_dvd hi.top_dvd
  obtain ⟨e, he⟩ : ∃ e, e = s.list.pendingExtend + n := ⟨_, rfl⟩
  unfold HoleList.extend
  rw [if_pos ⟨by omega, hmod, hpend⟩]
  simp only [← he, hmin]
  by_cases hsmall : e < 8
  · have hcast : e % 2 ^ 8 = e := Nat.mod_eq_of_lt (by omega)
    rw [if_pos hsmall, hcast]
    exact Or.inl ⟨hsmall, rfl⟩
  · rw [if_neg hsmall]
    have hD : R.alignDownSize e alignOfHole = e - e % 4 := R.alignDownSize_eq e 2
    obtain ⟨m, hm⟩ : ∃ m, m = e - e % 4 := ⟨_, rfl⟩
    have h4 : 4 ∣ m := hm ▸ Nat.dvd_sub_mod e
    rw [hD, ← hm]
    have hlt : m < 2 ^ 31 := by omega
    have hcast : (e - m) % 2 ^ 8 = e - m := Nat.mod_eq_of_lt (by omega)
    have hlayout : bytesLayout m = some ⟨m, 1, 0, rfl⟩ := if_pos (by omega)
    have hnode : ValidHole reg ⟨s.list.top, m⟩ :=
      ⟨hi.top_dvd, h4, by dsimp only; omega, by dsimp only; omega, by dsimp only; omega⟩
    obtain ⟨hs, heq, hvalid, hfree⟩ := deallocateHole_spec (R := R) hi.holes hnode
      (Or.inr hbot) (fun h => by omega)
      (fun x hx hxf => absurd (hi.mem_memory hxf).2 (not_lt.mpr hx.1))
    refine Or.inr ⟨hs, m, e - m, ?_, h4, by omega, by omega, hvalid, hfree⟩
    rw [hlayout, Option.bind_some, HoleList.deallocate, alignLayout_words h4 (by omega) hlt,
      Option.bind_some, heq, hcast]
    rfl

theorem HeapInv.extend (hi : HeapInv R reg s) {n : ℕ}
    (h : s.step R reg (.extend n) = some s') : HeapInv R reg s' := by
  obtain ⟨hlim, h⟩ := Option.ite_none_right_eq_some.mp h
  have hgiven := hi.given
  rcases hi.extend_eq hlim with ⟨hsmall, heq⟩ | ⟨hs, m, k, heq, h4, hk, hsum, hvalid, hfree⟩
  · rw [heq] at h
    obtain rfl := Option.some.inj h
    exact
      { hi with
        pending_lt := hsmall
        given := by dsimp only; omega
        le_limit := by dsimp only; omega
        blocks := fun b hb => { hi.blocks b hb with } }
  · rw [heq] at h
    obtain rfl := Option.some.inj h
    have hbot := hi.bottom_le
    refine
      { bottom_dvd := hi.bottom_dvd
        top_dvd := Nat.dvd_add hi.top_dvd h4
        bottom_eq := hi.bottom_eq
        bottom_le := hbot.trans (Nat.le_add_right _ m)
        pending_lt := by dsimp only; omega
        given := by dsimp only; omega
        le_limit := by dsimp only; omega
        holes := hvalid
        blocks := fun b hb =>
          { hi.blocks b hb with le_top := (hi.blocks b hb).le_top.trans (Nat.le_add_right _ m) }
        apart := hi.apart
        free_eq := ?_ }
    show free hs = Set.Ico s.list.bottom (s.list.top + m) \ live s.blocks
    rw [hfree, hi.free_eq]
    ext x
    simp only [memory, Set.mem_union, Set.mem_sdiff, Set.mem_Ico]
    constructor
    · rintro (hx | ⟨hx, hn⟩)
      · refine ⟨by omega, ?_⟩
        rintro ⟨b, hb, hxb⟩
        exact absurd (hxb.2.trans_le (hi.blocks b hb).le_top) (not_lt.mpr hx.1)
      · exact ⟨by omega, hn⟩
    · rintro ⟨hx, hn⟩
      by_cases hlt : x < s.list.top
      · exact Or.inr ⟨by omega, hn⟩
      · exact Or.inl (by omega)

theorem HeapInv.step (hi : HeapInv R reg s) {a : Action} (h : s.step R reg a = some s') :
    HeapInv R reg s' := by
  cases a with
  | allocate request => exact hi.allocate h
  | deallocate i => exact hi.deallocate h
  | extend n => exact hi.extend h

theorem heapInv_of_reachable {size : ℕ} {s₀ : Heap} (h₀ : init R reg size = some s₀)
    (h : Reachable (step R reg) s₀ s) : HeapInv R reg s :=
  h.invariant (heapInv_init h₀) fun _ _ _ hi hs => hi.step hs

/-! ### The heap is sound -/

/-- Every block is aligned and as big as was asked for, lies in the heap, and is apart from the
others. The holes are in order and do not touch, and are what the blocks leave. All bytes given are
in the heap, or less than 8 of them wait before or after it. And each block can be given back. -/
structure HeapSound (R : Rounding) (reg : Region) (s : Heap) : Prop where
  aligned : ∀ b ∈ s.blocks, b.request.align ∣ b.addr
  big : ∀ b ∈ s.blocks, b.request.size ≤ b.layout.size
  inside : ∀ b ∈ s.blocks, b.bytes ⊆ s.memory
  apart : s.blocks.Pairwise Block.Apart
  ordered : s.list.holes.Pairwise fun g h => g.addr + g.size < h.addr
  free_eq : free s.list.holes = s.memory \ live s.blocks
  bytes : s.list.bottom < reg.start + 4 ∧
    s.list.top + s.list.pendingExtend = reg.start + s.given ∧ s.list.pendingExtend < 8
  freed : ∀ i < s.blocks.length, (s.step R reg (.deallocate i)).isSome

theorem HeapInv.sound (hi : HeapInv R reg s) : HeapSound R reg s where
  aligned := fun b hb => (hi.blocks b hb).align_dvd
  big := fun b hb => (hi.blocks b hb).aligned.2.1
  inside := fun b hb x hx =>
    ⟨(hi.blocks b hb).bottom_le.trans hx.1, hx.2.trans_le (hi.blocks b hb).le_top⟩
  apart := hi.apart
  ordered := List.pairwise_map.mp hi.holes.separated.apart
  free_eq := hi.free_eq
  bytes := ⟨hi.bottom_eq ▸ roundUp_lt (by decide), hi.given, hi.pending_lt⟩
  freed := by
    intro i hlt
    have hb : s.blocks[i]? = some s.blocks[i] := List.getElem?_eq_getElem hlt
    obtain ⟨hs, heq, -⟩ := hi.deallocate_eq (perm_eraseIdx hb)
    rw [Heap.step, hb, Option.bind_some, heq]
    rfl

/-- **The heap is sound** after every run of allocations, blocks given back in any order, and
extensions. -/
theorem heapSound_of_reachable {size : ℕ} {s₀ : Heap} (h₀ : init R reg size = some s₀)
    (h : Reachable (step R reg) s₀ s) : HeapSound R reg s :=
  (heapInv_of_reachable h₀ h).sound

/-! ### Which allocations succeed -/

/-- A block of the layout has a place at `p` in some hole. -/
def HasPlace (s : Heap) (l : Layout) (p : ℕ) : Prop := ∃ h ∈ s.list.holes, Fits h l p

/-- **An allocation is refused only where no hole has a place for it**, and else it gets the least
address of a place. -/
theorem allocate_isLeast_of_reachable {size : ℕ} {s₀ : Heap} (h₀ : init R reg size = some s₀)
    (h : Reachable (step R reg) s₀ s) {request : Request} {layout : Layout}
    (hl : alignLayout R request.toLayout = some layout) :
    ∃ s', s.step R reg (.allocate request) = some s' ∧
      ((∀ p, ¬ s.HasPlace layout p) ∧ s' = s ∨
        ∃ p, IsLeast {q | s.HasPlace layout q} p ∧
          s'.blocks = s.blocks ++ [⟨p, request, layout⟩]) := by
  have hi := heapInv_of_reachable h₀ h
  have hal := (alignLayout_eq_some request.size_le hl).2.2
  obtain ⟨s', hs'⟩ : ∃ s', s.step R reg (.allocate request) = some s' := by
    rw [Heap.step, HoleList.allocateFirstFit, hl]
    exact ⟨_, rfl⟩
  refine ⟨s', hs', ?_⟩
  obtain ⟨layout', hl', hcase⟩ := allocate_cases hi hs'
  obtain rfl := Option.some.inj (hl.symm.trans hl')
  rcases hcase with ⟨hnone, rfl⟩ | ⟨p, hs, hsome, rfl⟩
  · rw [firstFit_eq_none hi.holes.valid hal] at hnone
    exact Or.inl ⟨fun p ⟨g, hg, hf⟩ => hnone g hg p hf, rfl⟩
  · obtain ⟨pre, g, post, hsplit, hpre, hp, hfit, -⟩ :=
      firstFit_eq_some hi.holes.valid hal hsome
    refine Or.inr ⟨p, ⟨⟨g, hsplit ▸ List.mem_append_right pre List.mem_cons_self, hfit⟩, ?_⟩, rfl⟩
    rintro q ⟨k, hk, hq⟩
    rw [hsplit] at hk
    rcases List.mem_append.mp hk with hk | hk
    · exact absurd hq (hpre k hk q)
    · rcases List.mem_cons.mp hk with rfl | hk
      · exact hp ▸ hq.place_le
      · -- the later holes are at higher addresses
        have hord := hi.sound.ordered
        rw [hsplit] at hord
        have hlt := (List.pairwise_cons.mp (List.pairwise_append.mp hord).2.1).1 k hk
        have h₁ := hfit.front
        have h₂ := hfit.back
        have h₃ := hq.front
        omega

/-! ### The holes do not depend on the history -/

/-- **The holes are determined by the bytes in use.** Two heaps of the same region, after whatever
runs, have the same holes once they end at the same address and the same bytes are in blocks; and
with no block left there is one hole, with all the memory. -/
theorem holes_eq_of_live_eq {size size' : ℕ} {s₀ s₀' : Heap} (h₀ : init R reg size = some s₀)
    (h₀' : init R reg size' = some s₀') (h : Reachable (step R reg) s₀ s)
    (h' : Reachable (step R reg) s₀' s') (htop : s.list.top = s'.list.top)
    (hlive : live s.blocks = live s'.blocks) :
    s.list.holes = s'.list.holes ∧
      (s.blocks = [] → s.list.holes = [⟨s.list.bottom, s.list.top - s.list.bottom⟩]) := by
  have hi := heapInv_of_reachable h₀ h
  have hi' := heapInv_of_reachable h₀' h'
  have hinj := List.map_injective_iff.mpr Hole.seg_injective
  constructor
  · refine hinj (hi.holes.separated.eq_of_cover_eq hi'.holes.separated ?_)
    have hfree := hi.free_eq
    rw [memory, hi.bottom_eq, htop, hlive, ← hi'.bottom_eq] at hfree
    exact hfree.trans hi'.free_eq.symm
  · intro hnil
    have hbot := hi.bottom_le
    have hsum : s.list.bottom + (s.list.top - s.list.bottom) = s.list.top := by omega
    have hone : Separated ([⟨s.list.bottom, s.list.top - s.list.bottom⟩].map Hole.seg) := by
      refine separated_singleton ?_
      show s.list.bottom < s.list.bottom + (s.list.top - s.list.bottom)
      omega
    refine hinj (hi.holes.separated.eq_of_cover_eq hone (hi.free_eq.trans ?_))
    rw [hnil, live_nil, Set.sdiff_empty]
    ext x
    refine Iff.trans ?_ mem_free.symm
    simp only [List.mem_singleton, exists_eq_left, hsum]
    rfl

/-! ### A run -/

/-- The rounding functions as they are usually written. -/
def standard : Rounding where
  alignUp := roundUp
  alignUpSize := roundUp
  alignDownSize := fun n m => n - n % m
  alignUp_eq := fun _ _ _ => rfl
  alignUpSize_eq := fun _ _ _ => rfl
  alignDownSize_eq := fun _ _ => rfl

/-- 128 bytes of memory, from an odd address on. -/
def oddRegion : Region where
  start := 0x70000001
  limit := 0x70000081
  start_pos := by decide
  limit_le := by decide
  limit_lt := by decide

/-- A layout with an alignment of `2 ^ k`. -/
def request (size : ℕ) (k : ℕ) (h : size + 2 ^ k ≤ 2 ^ 31) : Request := ⟨⟨size, 2 ^ k, k, rfl⟩, h⟩

/-- Three blocks, of which the last takes a padding; the first two are given back, and the heap is
extended. -/
def churnRun : List Action :=
  [.allocate (request 10 2 (by decide)), .allocate (request 1 0 (by decide)),
    .allocate (request 8 4 (by decide)), .deallocate 0, .deallocate 0, .extend 7]

/-- One block alone, at the same place. -/
def aloneRun : List Action := [.extend 5, .allocate (request 8 5 (by decide))]

/-- The holes, the top, and the blocks with their sizes. -/
def view (s : Heap) : List Hole × ℕ × List (ℕ × ℕ) :=
  (s.list.holes, s.list.top, s.blocks.map fun b => (b.addr, b.layout.size))

theorem exists_run {as : List Action} {v : List Hole × ℕ × List (ℕ × ℕ)}
    (h : ((init standard oddRegion 70).bind fun s =>
      runList (Heap.step standard oddRegion) s as).map view = some v) :
    ∃ s₀ s, init standard oddRegion 70 = some s₀ ∧
      runList (Heap.step standard oddRegion) s₀ as = some s ∧ view s = v := by
  obtain ⟨s, hs, hv⟩ := Option.map_eq_some_iff.mp h
  obtain ⟨s₀, h₀, hs⟩ := Option.bind_eq_some_iff.mp hs
  exact ⟨s₀, s, h₀, hs, hv⟩

theorem exists_churn : ∃ s₀ s, init standard oddRegion 70 = some s₀ ∧
    runList (Heap.step standard oddRegion) s₀ churnRun = some s ∧
      view s = ([⟨0x70000004, 28⟩, ⟨0x70000028, 36⟩], 0x7000004c, [(0x70000020, 8)]) :=
  exists_run (by decide)

theorem exists_alone : ∃ s₀ s, init standard oddRegion 70 = some s₀ ∧
    runList (Heap.step standard oddRegion) s₀ aloneRun = some s ∧
      view s = ([⟨0x70000004, 28⟩, ⟨0x70000028, 36⟩], 0x7000004c, [(0x70000020, 8)]) :=
  exists_run (by decide)

theorem heapSound_churn : ∃ s₀ s, init standard oddRegion 70 = some s₀ ∧
    runList (Heap.step standard oddRegion) s₀ churnRun = some s ∧
      HeapSound standard oddRegion s := by
  obtain ⟨s₀, s, h₀, hs, -⟩ := exists_churn
  exact ⟨s₀, s, h₀, hs, heapSound_of_reachable h₀ (reachable_of_runList hs)⟩

/-- 16 bytes at a multiple of 16 fill the first hole to its end. -/
theorem allocate_isLeast_churn : ∃ s₀ s layout s', init standard oddRegion 70 = some s₀ ∧
    runList (Heap.step standard oddRegion) s₀ churnRun = some s ∧
      s.step standard oddRegion (.allocate (request 16 4 (by decide))) = some s' ∧
        ((∀ p, ¬ s.HasPlace layout p) ∧ s' = s ∨
          ∃ p, IsLeast {q | s.HasPlace layout q} p ∧
            s'.blocks = s.blocks ++ [⟨p, request 16 4 (by decide), layout⟩]) := by
  obtain ⟨s₀, s, h₀, hs, -⟩ := exists_churn
  obtain ⟨s', hs', hcase⟩ := allocate_isLeast_of_reachable h₀ (reachable_of_runList hs)
    (show alignLayout standard (request 16 4 (by decide)).toLayout = some ⟨16, 2 ^ 4, 4, rfl⟩ from
      rfl)
  exact ⟨s₀, s, _, s', h₀, hs, hs', hcase⟩

theorem live_eq_of_map_eq {cs : List Block}
    (h : (bs.map fun b => (b.addr, b.layout.size)) = cs.map fun b => (b.addr, b.layout.size)) :
    live bs = live cs := by
  have hview : ∀ ds : List Block, live ds =
      {x | ∃ q ∈ ds.map fun b => (b.addr, b.layout.size), q.1 ≤ x ∧ x < q.1 + q.2} := by
    intro ds
    ext x
    simp [mem_live]
  rw [hview, hview, h]

/-- After both runs the holes are the same. -/
theorem holes_eq_churn_alone : ∃ s₀ s s₀' s', init standard oddRegion 70 = some s₀ ∧
    runList (Heap.step standard oddRegion) s₀ churnRun = some s ∧
      init standard oddRegion 70 = some s₀' ∧
        runList (Heap.step standard oddRegion) s₀' aloneRun = some s' ∧
          s.list.holes = s'.list.holes := by
  obtain ⟨s₀, s, h₀, hs, hv⟩ := exists_churn
  obtain ⟨s₀', s', h₀', hs', hv'⟩ := exists_alone
  obtain ⟨-, hv⟩ := Prod.mk.inj (hv.trans hv'.symm)
  obtain ⟨htop, hblocks⟩ := Prod.mk.inj hv
  exact ⟨s₀, s, s₀', s', h₀, hs, h₀', hs', (holes_eq_of_live_eq h₀ h₀' (reachable_of_runList hs)
    (reachable_of_runList hs') htop (live_eq_of_map_eq hblocks)).1⟩

end Heap

end HoleList

end AurixAsync
