import AurixAsync.Memory.Heap

/-!
# Giving a block back

What `deallocate` does to valid holes.

* `checkMergeTop_eq_self`, `checkMergeBottom_eq_self`: with nothing, or enough for a hole, on both
  sides of a hole there is nothing to add to it.
* `insertAfter_eq`, `deallocateHole_eq`: a block goes back as `Segments.insert` puts a segment in.
* `deallocateHole_spec`: the free bytes get those of the block.
-/

namespace AurixAsync

open Segments

namespace HoleList

variable {R : Rounding} {reg : Region} {h : Hole} {hs : List Hole}

theorem checkMergeTop_eq_self {top : ℕ} (hh : ValidHole reg h)
    (htop : h.addr + h.size < top → h.addr + h.size + 8 ≤ top) :
    checkMergeTop R h top = h := by
  have hend := hh.end_le_memoryEnd
  have hmem : memoryEnd = 3 * 2 ^ 30 := rfl
  have hpad : wrappingAdd (h.addr + h.size) sizeOfHole = h.addr + h.size + 8 :=
    wrappingAdd_eq (show h.addr + h.size + 8 < 2 ^ 32 by omega)
  unfold checkMergeTop
  simp only [wrappingAdd_eq (show h.addr + h.size < 2 ^ 32 by omega),
    alignUp_hole (R := R) (Nat.dvd_add hh.addr_dvd hh.size_dvd)
      (show h.addr + h.size < 2 ^ 32 by omega), hpad]
  by_cases hlt : h.addr + h.size < top
  · rw [if_pos hlt, if_neg (not_lt.mpr (htop hlt))]
  · rw [if_neg hlt]

theorem checkMergeBottom_eq_self {bottom : ℕ} (hh : ValidHole reg h)
    (hbot : h.addr = bottom ∨ bottom + 8 ≤ h.addr) : checkMergeBottom h bottom = some h := by
  have hend := hh.end_le_memoryEnd
  have hle := hh.le_size
  have hmem : memoryEnd = 3 * 2 ^ 30 := rfl
  have hpad : wrappingAdd bottom sizeOfHole = bottom + 8 :=
    wrappingAdd_eq (show bottom + 8 < 2 ^ 32 by omega)
  have hmod : h.addr % alignOfHole = 0 := Nat.mod_eq_zero_of_dvd hh.addr_dvd
  unfold checkMergeBottom
  rw [hpad]
  by_cases hlt : h.addr < bottom + 8
  · obtain rfl : h.addr = bottom := hbot.resolve_right (not_le.mpr hlt)
    rw [if_pos hlt, if_pos le_rfl, Nat.sub_self, makeHole, if_pos hmod]
    rfl
  · rw [if_neg hlt]

theorem seg_merge {g : Hole} (ht : h.addr + h.size = g.addr) :
    Hole.seg ⟨h.addr, h.size + g.size⟩ = ⟨h.seg.lo, g.seg.hi⟩ := by
  refine Seg.ext rfl ?_
  show h.addr + (h.size + g.size) = g.addr + g.size
  omega

theorem validHole_merge {g : Hole} (hh : ValidHole reg h) (hg : ValidHole reg g)
    (ht : h.addr + h.size = g.addr) : ValidHole reg ⟨h.addr, h.size + g.size⟩ where
  addr_dvd := hh.addr_dvd
  size_dvd := Nat.dvd_add hh.size_dvd hg.size_dvd
  le_size := hh.le_size.trans (Nat.le_add_right _ _)
  start_le := hh.start_le
  end_le := by
    have := hg.end_le
    dsimp only
    omega

/-- With the last hole as it is, merging up to one hole after the cursor is `join`. -/
theorem tryMergeNextN_one {top : ℕ} (hh : ValidHole reg h)
    (htop : hs = [] → h.addr + h.size < top → h.addr + h.size + 8 ≤ top) :
    (tryMergeNextN R top 1 h hs).map Hole.seg = join h.seg (hs.map Hole.seg) := by
  have hend := hh.end_le_memoryEnd
  have hmem : memoryEnd = 3 * 2 ^ 30 := rfl
  cases hs with
  | nil =>
    rw [tryMergeNextN, checkMergeTop_eq_self hh (htop rfl)]
    rfl
  | cons g gs =>
    rw [tryMergeNextN, wrappingAdd_eq (by omega), List.map_cons, join]
    by_cases ht : h.addr + h.size = g.addr
    · rw [if_pos ht, if_pos (show h.seg.hi = g.seg.lo from ht), tryMergeNextN, List.map_cons,
        seg_merge ht]
    · rw [if_neg ht, if_neg (show ¬ h.seg.hi = g.seg.lo from ht), tryMergeNextN]
      rfl

theorem tryMergeNextN_two {top : ℕ} {node : Hole} (hh : ValidHole reg h)
    (hn : ValidHole reg node)
    (htop : node.addr + node.size < top → node.addr + node.size + 8 ≤ top) :
    (tryMergeNextN R top 2 h (node :: hs)).map Hole.seg =
      join h.seg (join node.seg (hs.map Hole.seg)) := by
  have hend := hh.end_le_memoryEnd
  have hmem : memoryEnd = 3 * 2 ^ 30 := rfl
  rw [tryMergeNextN, wrappingAdd_eq (by omega), join_join]
  by_cases ht : h.addr + h.size = node.addr
  · have hsum : h.addr + (h.size + node.size) = node.addr + node.size := by omega
    rw [if_pos ht, if_pos (show h.seg.hi = node.seg.lo from ht),
      tryMergeNextN_one (validHole_merge hh hn ht) fun _ => hsum ▸ htop, seg_merge ht]
  · rw [if_neg ht, if_neg (show ¬ h.seg.hi = node.seg.lo from ht), List.map_cons,
      tryMergeNextN_one hn fun _ => htop]

/-- The loop puts the new hole in at its place. -/
theorem insertAfter_eq {top : ℕ} {node : Hole} (hv : ValidHoles reg (h :: hs))
    (hn : ValidHole reg node) (hle : ¬ node.addr < h.addr)
    (htop : node.addr + node.size < top → node.addr + node.size + 8 ≤ top) :
    (insertAfter R top node h hs).map Hole.seg =
      Segments.insert node.seg ((h :: hs).map Hole.seg) := by
  induction hs generalizing h with
  | nil =>
    have hh := hv.valid h List.mem_cons_self
    rw [insertAfter, tryMergeNextN_two hh hn htop, List.map_cons, Segments.insert,
      if_neg (show ¬ node.seg.lo < h.seg.lo from hle)]
    rfl
  | cons g gs ih =>
    obtain ⟨hh, hgs⟩ := List.forall_mem_cons.mp hv.valid
    have htail : ValidHoles reg (g :: gs) := ⟨hgs, hv.separated.tail⟩
    rw [insertAfter, List.map_cons, Segments.insert,
      if_neg (show ¬ node.seg.lo < h.seg.lo from hle)]
    by_cases hlt : node.addr < g.addr
    · rw [if_pos hlt, tryMergeNextN_two hh hn htop, List.map_cons, Segments.insert,
        if_pos (show node.seg.lo < g.seg.lo from hlt)]
    · rw [if_neg hlt, List.map_cons, ih htail hlt]
      -- the next hole stays the first after this one
      have hne : ¬ h.seg.hi = g.seg.lo :=
        ((separated_cons.mp hv.separated).2.1 _ List.mem_cons_self).ne
      rw [List.map_cons, Segments.insert, if_neg (show ¬ node.seg.lo < g.seg.lo from hlt),
        join_join, if_neg hne]

/-- **A block goes back**: it is put in, and merged with the holes it touches. -/
theorem deallocateHole_eq {s : HoleList} {addr size : ℕ} (hv : ValidHoles reg s.holes)
    (hn : ValidHole reg ⟨addr, size⟩)
    (hbot : addr = s.bottom ∨ s.bottom + 8 ≤ addr)
    (htop : addr + size < s.top → addr + size + 8 ≤ s.top) :
    ∃ hs, s.deallocateHole R addr size = some { s with holes := hs } ∧
      hs.map Hole.seg = Segments.insert (Hole.seg ⟨addr, size⟩) (s.holes.map Hole.seg) := by
  have hmk : makeHole addr size = some ⟨addr, size⟩ :=
    if_pos (Nat.mod_eq_zero_of_dvd hn.addr_dvd)
  unfold deallocateHole
  rw [hmk, Option.bind_some, checkMergeBottom_eq_self hn hbot]
  cases hholes : s.holes with
  | nil =>
    refine ⟨_, rfl, ?_⟩
    rw [checkMergeTop_eq_self hn htop]
    rfl
  | cons h hs =>
    rw [hholes] at hv
    dsimp only
    by_cases hlt : addr < h.addr
    · rw [if_pos hlt]
      refine ⟨_, rfl, ?_⟩
      rw [if_pos rfl, tryMergeNextN_one hn fun he => absurd he (List.cons_ne_nil h hs),
        List.map_cons, Segments.insert,
        if_pos (show (Hole.seg ⟨addr, size⟩).lo < h.seg.lo from hlt)]
    · rw [if_neg hlt]
      exact ⟨_, rfl, insertAfter_eq hv hn hlt htop⟩

/-- The free bytes get those of the block. -/
theorem deallocateHole_spec {s : HoleList} {addr size : ℕ} (hv : ValidHoles reg s.holes)
    (hn : ValidHole reg ⟨addr, size⟩)
    (hbot : addr = s.bottom ∨ s.bottom + 8 ≤ addr)
    (htop : addr + size < s.top → addr + size + 8 ≤ s.top)
    (hd : ∀ x ∈ Set.Ico addr (addr + size), x ∉ free s.holes) :
    ∃ hs, s.deallocateHole R addr size = some { s with holes := hs } ∧ ValidHoles reg hs ∧
      free hs = Set.Ico addr (addr + size) ∪ free s.holes := by
  obtain ⟨hs, heq, hins⟩ := deallocateHole_eq (R := R) hv hn hbot htop
  have hlt : (Hole.seg ⟨addr, size⟩).lo < (Hole.seg ⟨addr, size⟩).hi := by
    have := hn.le_size
    show addr < addr + size
    dsimp only at this
    omega
  obtain ⟨hsep, hcov⟩ := separated_insert hlt hv.separated hd
  refine ⟨hs, heq, ⟨fun g hg => ?_, hins ▸ hsep⟩, ?_⟩
  · -- it starts with a valid hole and ends with one
    have hg' : g.seg ∈ Segments.insert (Hole.seg ⟨addr, size⟩) (s.holes.map Hole.seg) :=
      hins ▸ List.mem_map_of_mem hg
    obtain ⟨u, hu, v, hv', hlo, hhi, hend⟩ := spans_insert hlt hv.separated hd hg'
    have hvalid : ∀ t ∈ Hole.seg ⟨addr, size⟩ :: s.holes.map Hole.seg,
        ∃ k, ValidHole reg k ∧ k.seg = t := by
      intro t ht
      rcases List.mem_cons.mp ht with rfl | ht
      · exact ⟨_, hn, rfl⟩
      · obtain ⟨k, hk, rfl⟩ := List.mem_map.mp ht
        exact ⟨k, hv.valid k hk, rfl⟩
    obtain ⟨j, hj, rfl⟩ := hvalid u hu
    obtain ⟨k, hk, rfl⟩ := hvalid v hv'
    have hlo' : g.addr = j.addr := hlo
    have hhi' : j.addr + j.size ≤ g.addr + g.size := hhi
    have hend' : g.addr + g.size = k.addr + k.size := hend
    have h₁ := hj.addr_dvd
    have h₂ := hj.le_size
    have h₃ := hk.addr_dvd
    have h₄ := hk.size_dvd
    have h₅ := hk.end_le
    exact ⟨hlo' ▸ h₁, by omega, by omega, hlo' ▸ hj.start_le, by omega⟩
  · rw [free, hins, hcov]
    rfl

end HoleList

end AurixAsync
