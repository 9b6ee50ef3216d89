import AurixAsync.Memory.Heap

/-!
# First fit

What `allocate_first_fit` does to valid holes.

* `Fits`: a place for a block in a hole. `splitCurrent_eq_some`, `splitCurrent_eq_none`: a hole is
  split at its first place, and is refused only where it has none.
* `firstFit_eq_some`, `firstFit_eq_none`: the first hole with a place is split.
* `firstFit_spec`: the free bytes lose those of the block.
-/

namespace AurixAsync

open Segments

namespace HoleList

variable {R : Rounding} {reg : Region} {h : Hole} {l : Layout} {p : ℕ} {hs hs' : List Hole}

/-! ### Splitting a hole -/

/-- A block of these bytes has its place at `p`: on each side of it there is nothing left of the
hole, or enough for a hole. -/
structure Fits (h : Hole) (l : Layout) (p : ℕ) : Prop where
  align_dvd : l.align ∣ p
  front : p = h.addr ∨ h.addr + 8 ≤ p
  back : p + l.size = h.addr + h.size ∨ p + l.size + 8 ≤ h.addr + h.size

instance (h : Hole) (l : Layout) (p : ℕ) : Decidable (Fits h l p) :=
  decidable_of_iff (l.align ∣ p ∧ (p = h.addr ∨ h.addr + 8 ≤ p) ∧
      (p + l.size = h.addr + h.size ∨ p + l.size + 8 ≤ h.addr + h.size))
    ⟨fun ⟨ha, hf, hb⟩ => ⟨ha, hf, hb⟩, fun hf => ⟨hf.align_dvd, hf.front, hf.back⟩⟩

/-- What is left of a hole on both sides of a block. -/
def paddings (h : Hole) (p size : ℕ) : List Hole :=
  (if p = h.addr then [] else [⟨h.addr, p - h.addr⟩]) ++
    (if p + size = h.addr + h.size then []
      else [⟨p + size, h.addr + h.size - (p + size)⟩])

/-- The first aligned address with nothing, or enough for a hole, before it. -/
def place (h : Hole) (l : Layout) : ℕ :=
  if l.align ∣ h.addr then h.addr else roundUp (h.addr + 8) l.align

theorem place_cases (h : Hole) (l : Layout) :
    l.align ∣ h.addr ∧ place h l = h.addr ∨
      ¬ l.align ∣ h.addr ∧ place h l = roundUp (h.addr + 8) l.align := by
  unfold place
  split_ifs with hd
  · exact Or.inl ⟨hd, rfl⟩
  · exact Or.inr ⟨hd, rfl⟩

theorem align_dvd_place : l.align ∣ place h l := by
  rcases place_cases h l with ⟨hd, hp⟩ | ⟨-, hp⟩
  · rwa [hp]
  · rw [hp]
    exact dvd_roundUp l.align_pos

theorem Fits.place_le (hf : Fits h l p) : place h l ≤ p := by
  rcases place_cases h l with ⟨hd, hp⟩ | ⟨hd, hp⟩
  · rw [hp]
    rcases hf.front with rfl | hle
    · exact le_rfl
    · omega
  · rw [hp]
    rcases hf.front with rfl | hle
    · exact absurd hf.align_dvd hd
    · exact roundUp_le l.align_pos hf.align_dvd hle

theorem four_dvd_place (hh : ValidHole reg h) : 4 ∣ place h l := by
  rcases place_cases h l with ⟨-, hp⟩ | ⟨hd, hp⟩
  · rw [hp]
    exact hh.addr_dvd
  · have h8 := (eight_dvd_align hh.addr_dvd hd).trans (align_dvd_place (h := h))
    exact (Dvd.intro 2 rfl : 4 ∣ 8).trans h8

theorem place_le (hh : ValidHole reg h) (hl : AlignedLayout l) : place h l ≤ memoryEnd := by
  have h₁ := hh.end_le_memoryEnd
  have h₂ := hh.le_size
  rcases place_cases h l with ⟨-, hp⟩ | ⟨-, hp⟩
  · omega
  · rw [hp]
    exact roundUp_le l.align_pos hl.align_dvd (by omega)

theorem addr_le_place : h.addr ≤ place h l := by
  rcases place_cases h l with ⟨-, hp⟩ | ⟨-, hp⟩
  · exact hp.ge
  · rw [hp]
    exact (Nat.le_add_right _ 8).trans (le_roundUp l.align_pos)

theorem split_front (hh : ValidHole reg h) (hl : AlignedLayout l) :
    (if h.addr = R.alignUp h.addr l.align then (([] : List Hole), h.addr)
      else
        let newStart := wrappingAdd h.addr minSize
        let alignedAddr := R.alignUp newStart l.align
        ([⟨h.addr, alignedAddr - h.addr⟩], alignedAddr)) =
      (if place h l = h.addr then [] else [⟨h.addr, place h l - h.addr⟩], place h l) := by
  have hend := hh.end_le_memoryEnd
  have hsize := hh.le_size
  have hmem : memoryEnd = 3 * 2 ^ 30 := rfl
  have hnew : wrappingAdd h.addr minSize = h.addr + 8 :=
    wrappingAdd_eq (show h.addr + 8 < 2 ^ 32 by omega)
  rw [alignUp_align hl (by omega)]
  show (if _ then _ else ([_], R.alignUp (wrappingAdd h.addr minSize) l.align)) = _
  rw [hnew, alignUp_align hl (by omega)]
  rcases place_cases h l with ⟨hd, hp⟩ | ⟨hd, hp⟩
  · rw [if_pos (roundUp_eq_self hd).symm, hp, if_pos rfl]
  · have hne : h.addr ≠ roundUp h.addr l.align := fun he =>
      hd (he ▸ dvd_roundUp l.align_pos)
    have hne' : place h l ≠ h.addr := fun he => hd (he ▸ align_dvd_place)
    rw [if_neg hne, if_neg hne', hp]

/-- **Where a hole is split**: at its first place. -/
theorem splitCurrent_eq (hh : ValidHole reg h) (hl : AlignedLayout l) :
    splitCurrent R h l =
      if Fits h l (place h l) then some (place h l, paddings h (place h l) l.size) else none := by
  have hend := hh.end_le_memoryEnd
  have hlt := hh.size_lt
  have hmem : memoryEnd = 3 * 2 ^ 30 := rfl
  have hple := place_le hh hl
  have hge : h.addr ≤ place h l := addr_le_place
  have hd4 : 4 ∣ place h l + l.size := Nat.dvd_add (four_dvd_place hh) hl.size_dvd
  have hfront : place h l = h.addr ∨ h.addr + 8 ≤ place h l := by
    rcases place_cases h l with ⟨-, hp⟩ | ⟨-, hp⟩
    · exact Or.inl hp
    · exact Or.inr (hp ▸ le_roundUp l.align_pos)
  have hfits : Fits h l (place h l) ↔ place h l + l.size = h.addr + h.size ∨
      place h l + l.size + 8 ≤ h.addr + h.size :=
    ⟨Fits.back, fun hb => ⟨align_dvd_place, hfront, hb⟩⟩
  rw [splitCurrent]
  simp only [split_front hh hl, hfits]
  by_cases hsize : h.size < l.size
  · rw [if_pos hsize, if_neg (by omega)]
  · rw [if_neg hsize, wrappingAdd_eq (by omega), wrappingAdd_eq (by omega)]
    by_cases hover : h.addr + h.size < place h l + l.size
    · rw [if_pos hover, if_neg (by omega)]
    · rw [if_neg hover, alignUp_hole hd4 (by omega)]
      by_cases hback : place h l + l.size = h.addr + h.size
      · rw [if_pos (by omega), if_pos (Or.inl hback), paddings, if_pos hback, List.append_nil]
      · have hpad : wrappingAdd (place h l + l.size) sizeOfHole = place h l + l.size + 8 :=
          wrappingAdd_eq (show place h l + l.size + 8 < 2 ^ 32 by omega)
        have hiff : place h l + l.size + 8 ≤ h.addr + h.size ↔
            place h l + l.size = h.addr + h.size ∨
              place h l + l.size + 8 ≤ h.addr + h.size :=
          ⟨Or.inr, fun ho => ho.resolve_left hback⟩
        rw [if_neg (by omega), hpad, paddings, if_neg hback]
        exact if_congr hiff rfl rfl

theorem splitCurrent_eq_some (hh : ValidHole reg h) (hl : AlignedLayout l) {pads : List Hole} :
    splitCurrent R h l = some (p, pads) ↔
      p = place h l ∧ Fits h l p ∧ pads = paddings h p l.size := by
  rw [splitCurrent_eq hh hl]
  split_ifs with hf
  · rw [Option.some.injEq, Prod.mk.injEq]
    constructor
    · rintro ⟨rfl, rfl⟩
      exact ⟨rfl, hf, rfl⟩
    · rintro ⟨rfl, -, rfl⟩
      exact ⟨rfl, rfl⟩
  · refine ⟨fun h => absurd h (by simp), ?_⟩
    rintro ⟨rfl, hf', -⟩
    exact absurd hf' hf

/-- A hole is refused only where it has no place at all. -/
theorem splitCurrent_eq_none (hh : ValidHole reg h) (hl : AlignedLayout l) :
    splitCurrent R h l = none ↔ ∀ p, ¬ Fits h l p := by
  rw [splitCurrent_eq hh hl]
  split_ifs with hf
  · exact ⟨fun h => absurd h (by simp), fun h => absurd hf (h _)⟩
  · refine ⟨fun _ p hp => hf ?_, fun _ => rfl⟩
    have hle := hp.place_le
    have ha := hh.addr_dvd
    have hs := hh.size_dvd
    have hls := hl.size_dvd
    have hp4 := four_dvd_place (l := l) hh
    -- a block that fits later leaves at least 8 bytes behind one at the first place
    rcases place_cases h l with ⟨hd, heq⟩ | ⟨hd, heq⟩
    · refine ⟨align_dvd_place, Or.inl heq, ?_⟩
      rcases hp.front with rfl | hfr
      · rw [heq]
        exact hp.back
      · rcases hp.back with hb | hb <;> omega
    · refine ⟨align_dvd_place, Or.inr (heq ▸ le_roundUp l.align_pos), ?_⟩
      rcases Nat.eq_or_lt_of_le hle with he | hlt
      · rw [he]
        exact hp.back
      · -- the next aligned address is at least 8 bytes on
        have h8 : 8 ∣ p - place h l := (eight_dvd_align ha hd).trans
          (Nat.dvd_sub hp.align_dvd align_dvd_place)
        rcases hp.back with hb | hb <;> omega

/-! ### The paddings -/

theorem mem_paddings {g : Hole} (hg : g ∈ paddings h p l.size) :
    p ≠ h.addr ∧ g = ⟨h.addr, p - h.addr⟩ ∨
      p + l.size ≠ h.addr + h.size ∧
        g = ⟨p + l.size, h.addr + h.size - (p + l.size)⟩ := by
  unfold paddings at hg
  rcases List.mem_append.mp hg with hg | hg
  · split_ifs at hg with hp
    · exact absurd hg List.not_mem_nil
    · exact Or.inl ⟨hp, List.mem_singleton.mp hg⟩
  · split_ifs at hg with hp
    · exact absurd hg List.not_mem_nil
    · exact Or.inr ⟨hp, List.mem_singleton.mp hg⟩

theorem valid_paddings (hh : ValidHole reg h) (hl : AlignedLayout l) (hf : Fits h l p)
    (hp : 4 ∣ p) : ∀ g ∈ paddings h p l.size, ValidHole reg g := by
  intro g hg
  have h₁ := hh.addr_dvd
  have h₂ := hh.size_dvd
  have h₃ := hl.size_dvd
  have h₄ := hh.start_le
  have h₅ := hh.end_le
  rcases mem_paddings hg with ⟨hne, rfl⟩ | ⟨hne, rfl⟩
  · have hle := hf.front.resolve_left hne
    have hb : p ≤ h.addr + h.size := by
      rcases hf.back with hb | hb <;> omega
    exact ⟨h₁, by dsimp only; omega, by dsimp only; omega, h₄, by dsimp only; omega⟩
  · have hle := hf.back.resolve_left hne
    have hge : h.addr ≤ p := by
      rcases hf.front with hb | hb <;> omega
    exact ⟨Nat.dvd_add hp h₃, by dsimp only; omega, by dsimp only; omega, by dsimp only; omega,
      by dsimp only; omega⟩

theorem separated_paddings (hl : AlignedLayout l) (hf : Fits h l p) :
    Separated ((paddings h p l.size).map Hole.seg) := by
  have h₁ := hl.le_size
  have h₂ := hf.front
  have h₃ := hf.back
  unfold paddings
  split_ifs with hp hb hb
  · exact separated_nil
  · refine separated_singleton ?_
    show p + l.size < p + l.size + (h.addr + h.size - (p + l.size))
    omega
  · refine separated_singleton ?_
    show h.addr < h.addr + (p - h.addr)
    omega
  · refine separated_cons.mpr ⟨?_, ?_, separated_singleton ?_⟩
    · show h.addr < h.addr + (p - h.addr)
      omega
    · intro t ht
      obtain rfl := List.mem_singleton.mp ht
      show h.addr + (p - h.addr) < p + l.size
      omega
    · show p + l.size < p + l.size + (h.addr + h.size - (p + l.size))
      omega

theorem free_paddings (hf : Fits h l p) :
    free (paddings h p l.size) = Set.Ico h.addr (h.addr + h.size) \ Set.Ico p (p + l.size) := by
  have h₂ := hf.front
  have h₃ := hf.back
  ext x
  rw [mem_free, Set.mem_sdiff, Set.mem_Ico, Set.mem_Ico]
  constructor
  · rintro ⟨g, hg, hx⟩
    rcases mem_paddings hg with ⟨hne, rfl⟩ | ⟨hne, rfl⟩
    · dsimp only at hx
      omega
    · dsimp only at hx
      omega
  · rintro ⟨hx, hnot⟩
    unfold paddings
    by_cases hlt : x < p
    · rw [if_neg (by omega)]
      exact ⟨_, List.mem_cons_self, hx.1, by dsimp only; omega⟩
    · have hge : p + l.size ≤ x := by
        by_contra hcon
        exact hnot ⟨by omega, by omega⟩
      rw [if_neg (show ¬ p + l.size = h.addr + h.size by omega)]
      exact ⟨_, List.mem_append_right _ (List.mem_singleton_self _), hge, by dsimp only; omega⟩

theorem Fits.block_subset (hf : Fits h l p) :
    Set.Ico p (p + l.size) ⊆ Set.Ico h.addr (h.addr + h.size) := by
  have h₂ := hf.front
  have h₃ := hf.back
  rintro x ⟨hx₁, hx₂⟩
  exact ⟨by omega, by omega⟩

/-! ### First fit -/

/-- **First fit**: the first hole with a place is split there. -/
theorem firstFit_eq_some (hv : ∀ h ∈ hs, ValidHole reg h) (hl : AlignedLayout l)
    (hf : firstFit R l hs = some (p, hs')) :
    ∃ pre h post, hs = pre ++ h :: post ∧ (∀ g ∈ pre, ∀ q, ¬ Fits g l q) ∧
      p = place h l ∧ Fits h l p ∧ hs' = pre ++ paddings h p l.size ++ post := by
  induction hs generalizing hs' with
  | nil => exact absurd hf (by simp [firstFit])
  | cons g gs ih =>
    obtain ⟨hg, hgs⟩ := List.forall_mem_cons.mp hv
    rw [firstFit] at hf
    cases hsplit : splitCurrent R g l with
    | some r =>
      rw [hsplit] at hf
      obtain ⟨rfl, rfl⟩ := Prod.mk.inj (Option.some.inj hf)
      obtain ⟨hp, hfit, hpads⟩ := (splitCurrent_eq_some hg hl).mp hsplit
      exact ⟨[], g, gs, rfl, fun _ hn => absurd hn List.not_mem_nil, hp, hfit, by rw [hpads]; rfl⟩
    | none =>
      rw [hsplit] at hf
      obtain ⟨⟨q, gs'⟩, hrest, heq⟩ := Option.map_eq_some_iff.mp hf
      obtain ⟨rfl, rfl⟩ := Prod.mk.inj heq
      obtain ⟨pre, h, post, rfl, hpre, hp, hfit, hgs'⟩ := ih hgs hrest
      refine ⟨g :: pre, h, post, rfl, ?_, hp, hfit, by dsimp only at hgs'; rw [hgs']; rfl⟩
      exact List.forall_mem_cons.mpr ⟨(splitCurrent_eq_none hg hl).mp hsplit, hpre⟩

theorem firstFit_eq_none (hv : ∀ h ∈ hs, ValidHole reg h) (hl : AlignedLayout l) :
    firstFit R l hs = none ↔ ∀ h ∈ hs, ∀ p, ¬ Fits h l p := by
  induction hs with
  | nil => exact ⟨fun _ _ hn => absurd hn List.not_mem_nil, fun _ => rfl⟩
  | cons g gs ih =>
    obtain ⟨hg, hgs⟩ := List.forall_mem_cons.mp hv
    rw [firstFit, List.forall_mem_cons, ← splitCurrent_eq_none hg hl, ← ih hgs]
    cases splitCurrent R g l with
    | some r => simp
    | none => simp

/-- An allocation takes the block out of the free bytes. -/
theorem firstFit_spec (hv : ValidHoles reg hs) (hl : AlignedLayout l)
    (hf : firstFit R l hs = some (p, hs')) :
    l.align ∣ p ∧ 4 ∣ p ∧ ValidHoles reg hs' ∧ Set.Ico p (p + l.size) ⊆ free hs ∧
      free hs' = free hs \ Set.Ico p (p + l.size) := by
  obtain ⟨pre, h, post, rfl, -, hp, hfit, rfl⟩ := firstFit_eq_some hv.valid hl hf
  have hh := hv.valid h (List.mem_append_right pre List.mem_cons_self)
  have hp4 : 4 ∣ p := hp ▸ four_dvd_place hh
  have hsep := hv.separated
  rw [List.map_append, List.map_cons] at hsep
  have hin : ∀ t ∈ (paddings h p l.size).map Hole.seg,
      h.seg.lo ≤ t.lo ∧ t.hi ≤ h.seg.hi := by
    intro t ht
    obtain ⟨g, hg, rfl⟩ := List.mem_map.mp ht
    have h₂ := hfit.front
    have h₃ := hfit.back
    rcases mem_paddings hg with ⟨hne, rfl⟩ | ⟨hne, rfl⟩
    · refine ⟨le_rfl, ?_⟩
      show h.addr + (p - h.addr) ≤ h.addr + h.size
      omega
    · refine ⟨?_, ?_⟩
      · show h.addr ≤ p + l.size
        omega
      · show p + l.size + (h.addr + h.size - (p + l.size)) ≤ h.addr + h.size
        omega
  refine ⟨hfit.align_dvd, hp4, ⟨?_, ?_⟩, ?_, ?_⟩
  · intro g hg
    rcases List.mem_append.mp hg with hg | hg
    · rcases List.mem_append.mp hg with hg | hg
      · exact hv.valid g (List.mem_append_left _ hg)
      · exact valid_paddings hh hl hfit hp4 g hg
    · exact hv.valid g (List.mem_append_right pre (List.mem_cons_of_mem h hg))
  · rw [List.map_append, List.map_append]
    exact hsep.replace (separated_paddings hl hfit) hin
  · intro x hx
    exact mem_free.mpr ⟨h, List.mem_append_right pre List.mem_cons_self, hfit.block_subset hx⟩
  · rw [free, free, List.map_append, List.map_append, List.map_append, List.map_cons]
    exact hsep.cover_replace hfit.block_subset (free_paddings hfit)

end HoleList

end AurixAsync
