import AurixAsync.Runtime.Crt0

/-!
# The list of free context save areas

Start-up code makes the list of free context save areas of the area of the configuration, and it
clears the stack. The call of the routine that does this is the first to take an area.

* `linkOf`: the link word of an address, as start-up code computes it.
* `csaOf_linkOf_add`: the areas that these link words name.
* `links`: what the loop writes. `freeList_of_links`: the list that it makes.
* `exists_steps_preInit`: the core when it calls the first hook.
-/

-- for the lookup of the later lines of the text
set_option maxRecDepth 2048

namespace AurixAsync

namespace Runtime

open TriCore

/-- The link word of the context save area at `a`. -/
def linkOf (a : Word) : Word := a >>> 6 &&& offsetMask ||| a >>> 12 &&& segmentMask

/-- An area of `n` context save areas, which a segment can hold. -/
structure Area (a : Word) (n : ℕ) : Prop where
  aligned : a.toNat % 64 = 0
  fits : a.toNat % 2 ^ 28 + 64 * n ≤ 2 ^ 22

/-! ### Link words -/

variable {a x link limit : Word} {n i k : ℕ} {m : Memory}

theorem toNat_linkOf (ha : a.toNat % 2 ^ 28 < 2 ^ 22) :
    (linkOf a).toNat = 2 ^ 16 * (a.toNat / 2 ^ 28) + a.toNat % 2 ^ 28 / 64 := by
  have hlt := a.isLt
  rw [linkOf, BitVec.or_comm]
  refine toNat_or ?_ ?_ (by omega)
  · rw [toNat_and_segment, BitVec.toNat_ushiftRight, Nat.shiftRight_eq_div_pow]
    omega
  · rw [toNat_and_offset, BitVec.toNat_ushiftRight, Nat.shiftRight_eq_div_pow]
    omega

theorem toNat_linkOf_add (h : Area a n) (hn : 0 < n) (hi : i ≤ n) :
    (linkOf a + BitVec.ofNat 32 i).toNat =
      2 ^ 16 * (a.toNat / 2 ^ 28) + (a.toNat % 2 ^ 28 / 64 + i) := by
  have hlt := a.isLt
  have hfit := h.fits
  rw [BitVec.toNat_add, toNat_linkOf (by omega), BitVec.toNat_ofNat]
  omega

/-- **The link words of an area** name its context save areas, one after the other. -/
theorem csaOf_linkOf_add (h : Area a n) (hi : i < n) :
    csaOf (linkOf a + BitVec.ofNat 32 i) = a + BitVec.ofNat 32 (64 * i) := by
  have hlt := a.isLt
  have hal := h.aligned
  have hfit := h.fits
  apply BitVec.eq_of_toNat_eq
  rw [toNat_csaOf, toNat_linkOf_add h (by omega) (Nat.le_of_lt hi), BitVec.toNat_add,
    BitVec.toNat_ofNat]
  omega

theorem csaOf_linkOf (h : Area a n) (hn : 0 < n) : csaOf (linkOf a) = a := by
  have hzero := csaOf_linkOf_add h hn
  rwa [Nat.mul_zero, BitVec.add_zero, BitVec.add_zero] at hzero

theorem linkOf_add_ne (h : Area a n) (ha : a ≠ 0) (hi : i < n) :
    (linkOf a + BitVec.ofNat 32 i) &&& linkMask ≠ 0 ∧
      (linkOf a + BitVec.ofNat 32 i) &&& linkMask ≠
        (linkOf a + BitVec.ofNat 32 n) &&& linkMask := by
  have hpos : a.toNat ≠ 0 := fun h₀ => ha (BitVec.eq_of_toNat_eq h₀)
  have hlt := a.isLt
  have hal := h.aligned
  have hfit := h.fits
  have hi' := toNat_linkOf_add h (by omega) (Nat.le_of_lt hi)
  have hn' := toNat_linkOf_add h (by omega) (Nat.le_refl n)
  refine ⟨fun heq => ?_, fun heq => ?_⟩
  · have hnat := congrArg BitVec.toNat heq
    rw [toNat_and_link, hi', show (0 : Word).toNat = 0 from rfl] at hnat
    omega
  · have hnat := congrArg BitVec.toNat heq
    rw [toNat_and_link, toNat_and_link, hi', hn'] at hnat
    omega

/-! ### The list -/

/-- The memory has the link of each context save area of an area in the one before. -/
def Linked (m : Memory) (a : Word) (n : ℕ) : Prop := ∀ i < n,
  loadWord m (a + BitVec.ofNat 32 (64 * i)) &&& linkMask =
    (linkOf a + BitVec.ofNat 32 (i + 1)) &&& linkMask

theorem csaOf_of_link (h : Area a n) (hi : i < n)
    (hlink : link &&& linkMask = (linkOf a + BitVec.ofNat 32 i) &&& linkMask) :
    csaOf link = a + BitVec.ofNat 32 (64 * i) :=
  (csaOf_congr hlink).trans (csaOf_linkOf_add h hi)

/-- **The list of free areas** of a linked area, from the link of one of them on. -/
theorem freeList_of_links (h : Area a n) (hm : Linked m a n) (hik : i + k = n)
    (hlink : link &&& linkMask = (linkOf a + BitVec.ofNat 32 i) &&& linkMask) :
    freeList m k link = (List.range' i k).map fun j => a + BitVec.ofNat 32 (64 * j) := by
  induction k generalizing i link with
  | zero => rfl
  | succ k ih =>
    rw [freeList, csaOf_of_link h (by omega) hlink, ih (by omega) (hm i (by omega)),
      List.range'_succ, List.map_cons]

theorem linkAfter_of_links (h : Area a n) (hm : Linked m a n) (hik : i + k = n)
    (hlink : link &&& linkMask = (linkOf a + BitVec.ofNat 32 i) &&& linkMask) :
    linkAfter m k link &&& linkMask = (linkOf a + BitVec.ofNat 32 n) &&& linkMask := by
  induction k generalizing i link with
  | zero => rw [linkAfter, hlink, show i = n by omega]
  | succ k ih =>
    rw [linkAfter, csaOf_of_link h (by omega) hlink]
    exact ih (by omega) (hm i (by omega))

/-- All the areas can be taken. -/
theorem free_of_links (h : Area a n) (ha : a ≠ 0) (hm : Linked m a n) (hik : i + k = n)
    (hlink : link &&& linkMask = (linkOf a + BitVec.ofNat 32 i) &&& linkMask)
    (hlimit : limit &&& linkMask = (linkOf a + BitVec.ofNat 32 n) &&& linkMask) :
    Free m limit k link := by
  induction k generalizing i link with
  | zero => trivial
  | succ k ih =>
    obtain ⟨hne, hlast⟩ := linkOf_add_ne h ha (i := i) (by omega)
    unfold Free
    rw [csaOf_of_link h (by omega) hlink, hlink, hlimit]
    exact ⟨hne, hlast, ih (by omega) (hm i (by omega))⟩

/-- The memory after `k` turns of the loop. -/
def links (m : Memory) (a link : Word) : ℕ → Memory
  | 0 => m
  | k + 1 =>
    storeWord (links m a link k) (a + BitVec.ofNat 32 (64 * k)) (link + BitVec.ofNat 32 (k + 1))

theorem links_of_notMem (h : ∀ i < k, 4 ≤ (x - (a + BitVec.ofNat 32 (64 * i))).toNat) :
    links m a link k x = m x := by
  induction k with
  | zero => rfl
  | succ k ih =>
    rw [links, storeWord, overlay_of_le (h k (Nat.lt_succ_self k))]
    exact ih fun i hi => h i (Nat.lt_succ_of_lt hi)

theorem links_of_le (h : 64 * n ≤ (x - a).toNat) :
    links m a link n x = m x := by
  refine links_of_notMem fun i hi => ?_
  rw [toNat_sub_add _ _ (by omega)]
  split_ifs <;> omega

theorem le_toNat_sub {j : ℕ} (hn : 64 * n ≤ 2 ^ 32) (hi : i < n) (hk : k < n) (hne : i ≠ k)
    (hj : j < 4) :
    4 ≤ (a + BitVec.ofNat 32 (64 * i) + BitVec.ofNat 32 j -
      (a + BitVec.ofNat 32 (64 * k))).toNat := by
  rw [add_ofNat_add, toNat_sub_add _ _ (by omega), toNat_add_sub _ (by omega)]
  split_ifs <;> omega

theorem loadWord_links (hn : 64 * n ≤ 2 ^ 32) (hk : k ≤ n) (hi : i < k) :
    loadWord (links m a link k) (a + BitVec.ofNat 32 (64 * i)) =
      link + BitVec.ofNat 32 (i + 1) := by
  induction k with
  | zero => exact absurd hi (Nat.not_lt_zero i)
  | succ k ih =>
    rw [links]
    by_cases hik : i = k
    · rw [hik, loadWord_storeWord]
    · rw [storeWord, loadWord_overlay fun j hj => le_toNat_sub hn (by omega) hk hik hj]
      exact ih (by omega) (by omega)

/-! ### The loop -/

/-- What the turns of the loop keep. -/
structure CsaLoop (s₀ : Cpu) (k : ℕ) (s : Cpu) : Prop where
  mem : s.mem = links s₀.mem (s₀.a .r15) (s₀.d .r4) k
  link : s.d .r4 = s₀.d .r4 + BitVec.ofNat 32 k
  next : s.a .r15 = s₀.a .r15 + BitVec.ofNat 32 (64 * k)
  size : s.a .r3 = CSA_ENTRY_SIZE
  config : s.a .r14 = s₀.a .r14
  csfr : s.csfr = s₀.csfr

theorem CsaLoop.setA {s₀ s : Cpu} (h : CsaLoop s₀ k s) (pc : ℕ) (w : Word) :
    CsaLoop s₀ k { s.setA .r4 w with pc := pc } where
  mem := h.mem
  link := h.link
  next := h.next
  size := h.size
  config := h.config
  csfr := h.csfr

/-- One context save area. -/
theorem CsaLoop.turn {s₀ s : Cpu} (heven : (s₀.a .r15).toNat % 2 = 0)
    (hpc : s.pc = target crt0 .loop_csa) (h : CsaLoop s₀ k s) :
    ∃ s', Steps crt0 s s' ∧ s'.pc = target crt0 .loop_csa + 4 ∧ s'.a .r4 = s.a .r4 ∧
      CsaLoop s₀ (k + 1) s' := by
  have hlabel : Steps crt0 s _ := steps_label (l := .loop_csa) hpc rfl
  have hlink : s.d .r4 + 1 = s₀.d .r4 + BitVec.ofNat 32 (k + 1) := by
    rw [h.link, show (1 : Word) = BitVec.ofNat 32 1 from rfl, add_ofNat_add]
  have haligned : (s.a .r15).toNat % 2 = 0 := by
    rw [h.next]
    refine toNat_add_mod (by decide) heven ?_
    rw [BitVec.toNat_ofNat]
    omega
  refine ⟨_, hlabel.trans (steps_ops (k := target crt0 .loop_csa + 1)
    [.addk .r4 1, .stW .r15 .r4, .addA .r15 .r3] rfl rfl
    ⟨rfl, beq_iff_eq.mpr haligned, rfl, trivial⟩), rfl, rfl, ?_, hlink, ?_, h.size, h.config,
    h.csfr⟩
  · change storeWord s.mem (s.a .r15) (s.d .r4 + 1) = _
    rw [h.mem, h.next, hlink, links]
  · change s.a .r15 + s.a .r3 = _
    rw [h.next, h.size, show CSA_ENTRY_SIZE = BitVec.ofNat 32 64 from rfl, add_ofNat_add,
      Nat.mul_succ]

theorem shift_add_neg_one {size : Word} (hn : 0 < size.toNat / 64) :
    shift size LW_OFFSET_SHIFT + -1 = BitVec.ofNat 32 (size.toNat / 64 - 1) := by
  have hshift : (shift size LW_OFFSET_SHIFT).toNat = size.toNat / 64 := by
    rw [shift, if_pos (by decide), BitVec.toNat_ushiftRight, Nat.shiftRight_eq_div_pow]
    rfl
  rw [add_neg_one, hshift]
  intro hz
  rw [hz] at hshift
  exact Nat.ne_of_lt hn hshift

theorem aligned_config {config off : Word} (h : config.toNat % 4 = 0) (hoff : off.toNat % 4 = 0) :
    (config + off).toNat % 4 = 0 ∧ (config + off).toNat % 2 = 0 := by
  have h₄ : (config + off).toNat % 4 = 0 := toNat_add_mod (by decide) h hoff
  exact ⟨h₄, by omega⟩

/-- **The context save areas.** The loop makes the links of all of them. -/
theorem exists_steps_csaInit {s : Cpu} (hpc : s.pc = 0) (hconfig : (s.a .r14).toNat % 4 = 0)
    {size : Word} (hsize : loadWord s.mem (s.a .r14 + CSA_SIZE) = size) (hn : 0 < size.toNat / 64)
    (ha : loadWord s.mem (s.a .r14 + CSA) = a) (haligned : a.toNat % 64 = 0) :
    ∃ s', Steps crt0 s s' ∧ s'.pc = csaInit.length ∧ s'.a .r14 = s.a .r14 ∧
      s'.csfr .pcxi = 0 ∧ s'.csfr .fcx = linkOf a ∧
      s'.csfr .lcx = linkOf a + BitVec.ofNat 32 (size.toNat / 64) ∧
      s'.mem = links s.mem a (linkOf a) (size.toNat / 64) := by
  have hlt := size.isLt
  obtain ⟨s₁, hs₁, hpc₁, hcount, hbase, hlink, hsize₁, hconfig₁, hpcxi, hfcx, hmem⟩ :
      ∃ s₁, Steps crt0 s s₁ ∧ s₁.pc = target crt0 .loop_csa ∧
        s₁.a .r4 = shift size LW_OFFSET_SHIFT + -1 ∧ s₁.a .r15 = a ∧ s₁.d .r4 = linkOf a ∧
        s₁.a .r3 = CSA_ENTRY_SIZE ∧ s₁.a .r14 = s.a .r14 ∧
        s₁.csfr .pcxi = 0 ∧ s₁.csfr .fcx = linkOf a ∧ s₁.mem = s.mem := by
    rw [← hsize, ← ha]
    exact ⟨_, steps_ops (k := 0)
      [.mov .r4 0, .mtcr .pcxi .r4, .ldW .r4 .r14 CSA_SIZE, .sh .r4 .r4 LW_OFFSET_SHIFT,
        .movA .r4 .r4, .addAk .r4 (-1), .mov .r4 CSA_ENTRY_SIZE, .movA .r3 .r4,
        .ldA .r15 .r14 CSA, .movh .r5 0x000F, .movD .r15 .r15, .sh .r15 .r15 (-12),
        .and .r15 .r5, .mov .r5 0xFFFF, .movD .r4 .r15, .sh .r4 .r4 LW_OFFSET_SHIFT,
        .and .r4 .r5, .or .r4 .r15, .mtcr .fcx .r4] hpc rfl
      ⟨rfl, rfl, beq_iff_eq.mpr (aligned_config hconfig rfl).2, rfl, rfl, rfl, rfl, rfl,
        beq_iff_eq.mpr (aligned_config hconfig rfl).1, rfl, rfl, rfl, rfl, rfl, rfl, rfl, rfl, rfl,
        rfl, trivial⟩,
      by rw [pc_execAll, hpc]; rfl, rfl, rfl, rfl, rfl, rfl, rfl, rfl, rfl⟩
  have h₀ : CsaLoop s₁ 0 s₁ :=
    ⟨rfl, (BitVec.add_zero _).symm, (BitVec.add_zero _).symm, hsize₁, rfl, rfl⟩
  have hloop : crt0[target crt0 .loop_csa + 4]? = some (.loop .r4 .loop_csa) := rfl
  have heven : (s₁.a .r15).toNat % 2 = 0 := by
    rw [hbase]
    omega
  rw [shift_add_neg_one hn] at hcount
  obtain ⟨s₂, hs₂, hpc₂, h₂⟩ := steps_loop hloop (fun _ _ pc w h => h.setA pc w)
    (fun _ _ _ hpc h => h.turn heven hpc) hpc₁ hcount (by omega) h₀
  rw [show size.toNat / 64 - 1 + 1 = size.toNat / 64 by omega] at h₂
  have hlcx : Steps crt0 s₂ _ := steps_op (.mtcr .lcx .r4) hpc₂ rfl rfl
  refine ⟨_, (hs₁.trans hs₂).trans hlcx, rfl, h₂.config.trans hconfig₁, ?_, ?_, ?_, ?_⟩
  · change s₂.csfr .pcxi = 0
    rw [h₂.csfr, hpcxi]
  · change s₂.csfr .fcx = _
    rw [h₂.csfr, hfcx]
  · change s₂.d .r4 = _
    rw [h₂.link, hlink]
  · change s₂.mem = _
    rw [h₂.mem, hmem, hbase, hlink]

/-! ### The core before the first hook -/

/-- The address of the context save areas. -/
def csaBase (m : Memory) (config : Word) : Word := loadWord m (config + CSA)

/-- Their number. -/
def csaCount (m : Memory) (config : Word) : ℕ := (loadWord m (config + CSA_SIZE)).toNat / 64

/-- The address of the stack. -/
def stackBase (m : Memory) (config : Word) : Word := loadWord m (config + STACK)

/-- The size of the stack. -/
def stackSize (m : Memory) (config : Word) : Word := loadWord m (config + STACK_SIZE)

/-- A configuration with at least one context save area, none at address zero, in which the areas do
not meet the stack and the configuration itself. -/
structure Config (m : Memory) (config : Word) : Prop where
  aligned : config.toNat % 4 = 0
  pos : 0 < csaCount m config
  area : Area (csaBase m config) (csaCount m config)
  base : csaBase m config ≠ 0
  stack : stackSize m config ≠ 0 → (stackBase m config).toNat % 2 = 0
  fixed : ∀ i < 8, 64 * csaCount m config ≤ (config + BitVec.ofNat 32 i - csaBase m config).toNat
  disjoint : ∀ x, (x - stackBase m config).toNat < clearLength (stackSize m config) →
    64 * csaCount m config ≤ (x - csaBase m config).toNat

/-- A core that can call a function. -/
structure Started (m : Memory) (config : Word) (s : Cpu) : Prop where
  base : s.a .r14 = config
  sp : s.a .r10 = stackBase m config + stackSize m config
  isp : s.csfr .isp = stackBase m config + stackSize m config
  pcxi : s.csfr .pcxi = 0
  list : freeList s.mem (csaCount m config) (s.csfr .fcx) =
    (List.range (csaCount m config)).map fun j => csaBase m config + BitVec.ofNat 32 (64 * j)
  limit : linkAfter s.mem (csaCount m config) (s.csfr .fcx) &&& linkMask =
    s.csfr .lcx &&& linkMask
  free : Free s.mem (s.csfr .lcx) (csaCount m config) (s.csfr .fcx)
  stack : ∀ x, (x - stackBase m config).toNat < clearLength (stackSize m config) → s.mem x = 0
  other : ∀ x, clearLength (stackSize m config) ≤ (x - stackBase m config).toNat →
    64 * csaCount m config ≤ (x - csaBase m config).toNat → s.mem x = m x

namespace Config

variable {config : Word} (h : Config m config)

include h

theorem loadWord_links_config {j : ℕ} (hj : j + 4 ≤ 8) :
    loadWord (links m (csaBase m config) link (csaCount m config)) (config + BitVec.ofNat 32 j) =
      loadWord m (config + BitVec.ofNat 32 j) :=
  loadWord_congr fun i hi => by
    rw [add_ofNat_add]
    exact links_of_le (h.fixed _ (by omega))

theorem loadWord_overlay_stack (hi : i < csaCount m config) (f : ℕ → Byte) :
    loadWord (overlay (links m (csaBase m config) link (csaCount m config)) (stackBase m config)
      (clearLength (stackSize m config)) f) (csaBase m config + BitVec.ofNat 32 (64 * i)) =
        link + BitVec.ofNat 32 (i + 1) := by
  have hfit := h.area.fits
  rw [loadWord_overlay, loadWord_links (by omega) (Nat.le_refl _) hi]
  intro j hj
  by_contra hlt
  have hle := h.disjoint _ (Nat.lt_of_not_le hlt)
  rw [add_ofNat_add, toNat_add_sub _ (by omega)] at hle
  omega

theorem linked {m' : Memory} (hmem : EqOff (InArea (csaBase m config))
      (overlay (links m (csaBase m config) (linkOf (csaBase m config)) (csaCount m config))
        (stackBase m config) (clearLength (stackSize m config)) fun _ => 0) m')
    (hfirst : loadWord m' (csaBase m config) &&& linkMask =
      (linkOf (csaBase m config) + BitVec.ofNat 32 1) &&& linkMask) :
    Linked m' (csaBase m config) (csaCount m config) := by
  have hfit := h.area.fits
  intro i hi
  by_cases hzero : i = 0
  · subst hzero
    rw [Nat.mul_zero, BitVec.add_zero]
    exact hfirst
  · rw [hmem.loadWord, h.loadWord_overlay_stack hi]
    intro j hj
    rw [add_ofNat_add, InArea, toNat_add_sub _ (by omega)]
    omega

/-- **The first part of start-up.** The core gets to the first hook with the list of all its context
save areas, and with the stack cleared. -/
theorem exists_steps_preInit {s : Cpu} (hpc : s.pc = 0) (hmem : s.mem = m)
    (hconfig : s.a .r14 = config) :
    ∃ s', Steps crt0 s s' ∧ crt0[s'.pc]? = some (.call .Crt0PreInit) ∧ Started m config s' := by
  subst hmem hconfig
  have hfit := h.area.fits
  obtain ⟨s₁, hs₁, hpc₁, hc₁, hpcxi₁, hfcx₁, hlcx₁, hmem₁⟩ :=
    exists_steps_csaInit hpc h.aligned rfl h.pos rfl h.area.aligned
  have hstack : loadWord s₁.mem (s₁.a .r14 + STACK) = stackBase s.mem (s.a .r14) := by
    rw [hmem₁, hc₁]
    exact h.loadWord_links_config (j := 0) (by decide)
  have hsize : loadWord s₁.mem (s₁.a .r14 + STACK_SIZE) = stackSize s.mem (s.a .r14) := by
    rw [hmem₁, hc₁]
    exact h.loadWord_links_config (j := 4) (by decide)
  have hal : (s₁.a .r14).toNat % 4 = 0 := by
    rw [hc₁]
    exact h.aligned
  obtain ⟨s₂, hs₂, hpc₂, hmem₂, ha₂, hd₂, hsp₂, hisp₂, hcsfr₂, hc₂⟩ : ∃ s₂,
      Steps crt0 s₁ s₂ ∧ s₂.pc = csaInit.length + 7 ∧ s₂.mem = s₁.mem ∧
        s₂.a .r4 = stackBase s.mem (s.a .r14) ∧ s₂.d .r4 = stackSize s.mem (s.a .r14) ∧
        s₂.a .r10 = stackBase s.mem (s.a .r14) + stackSize s.mem (s.a .r14) ∧
        s₂.csfr .isp = stackBase s.mem (s.a .r14) + stackSize s.mem (s.a .r14) ∧
        (∀ r, r ≠ .isp → s₂.csfr r = s₁.csfr r) ∧ s₂.a .r14 = s₁.a .r14 := by
    rw [← hstack, ← hsize]
    exact ⟨_, steps_ops (k := csaInit.length)
      [.ldW .r4 .r14 STACK, .movA .r4 .r4, .ldW .r4 .r14 STACK_SIZE, .movD .r1 .r4,
        .add .r1 .r1 .r4, .movA .r10 .r1, .mtcr .isp .r1] hpc₁ rfl
      ⟨beq_iff_eq.mpr (aligned_config hal rfl).2, rfl, beq_iff_eq.mpr (aligned_config hal rfl).2,
        rfl, rfl, rfl, rfl, trivial⟩,
      by rw [pc_execAll, hpc₁]; rfl, rfl, rfl, rfl, rfl, rfl,
      fun r hr => Function.update_of_ne hr _ _, rfl⟩
  have hfcx₂ : s₂.csfr .fcx = linkOf (csaBase s.mem (s.a .r14)) :=
    (hcsfr₂ .fcx (by decide)).trans hfcx₁
  have hlcx₂ : s₂.csfr .lcx = linkOf (csaBase s.mem (s.a .r14)) +
      BitVec.ofNat 32 (csaCount s.mem (s.a .r14)) :=
    (hcsfr₂ .lcx (by decide)).trans hlcx₁
  -- the call takes the first area
  have harea : freeArea s₂ = csaBase s.mem (s.a .r14) := by
    rw [freeArea, hfcx₂, csaOf_linkOf h.area h.pos]
  have hfree : ¬ depleted s₂ := by
    obtain ⟨hne, hlast⟩ := linkOf_add_ne h.area h.base h.pos
    rw [BitVec.add_zero] at hne hlast
    rw [depleted, hfcx₂, hlcx₂]
    exact not_or.mpr ⟨hne, hlast⟩
  have hcleared : ∀ f, overlay f (s₂.a .r4) (clearLength (s₂.d .r4)) (fun _ => 0) =
      overlay f (stackBase s.mem (s.a .r14)) (clearLength (stackSize s.mem (s.a .r14)))
        fun _ => (0 : Byte) := by
    intro f
    rw [ha₂, hd₂]
  obtain ⟨t, hr, hcsfr, hmem⟩ := clear_exec_routine (s := entry s₂ (target crt0 .clear_exec)) rfl
    (by
      change s₂.d .r4 ≠ 0 → (s₂.a .r4).toNat % 2 = 0
      rw [ha₂, hd₂]
      exact h.stack)
  have hmem : t.mem = overlay (entry s₂ (target crt0 .clear_exec)).mem _ _ _ :=
    hmem.trans (hcleared _)
  obtain ⟨s', hs', hret⟩ : ∃ s', Steps crt0 s₂ s' ∧ Returns s₂ t s' := by
    refine ⟨_, steps_call hpc₂ rfl length_crt0_lt hfree hr fun x hx => ?_⟩
    rw [hmem]
    refine overlay_of_le (Nat.not_lt.mp fun hlt => ?_)
    have hle := h.disjoint x hlt
    have hpos := h.pos
    rw [harea, InArea] at hx
    omega
  have heq : EqOff (InArea (csaBase s.mem (s.a .r14)))
      (overlay (links s.mem (csaBase s.mem (s.a .r14)) (linkOf (csaBase s.mem (s.a .r14)))
        (csaCount s.mem (s.a .r14))) (stackBase s.mem (s.a .r14))
          (clearLength (stackSize s.mem (s.a .r14))) fun _ => 0) s'.mem := by
    have hentry := eqOff_entry s₂ (target crt0 .clear_exec)
    rw [hmem₂, hmem₁, harea] at hentry
    have hback := hret.mem
    rw [hmem, harea] at hback
    exact (hentry.overlay fun _ _ _ => rfl).trans hback
  have hfirst : loadWord s'.mem (csaBase s.mem (s.a .r14)) &&& linkMask =
      (linkOf (csaBase s.mem (s.a .r14)) + BitVec.ofNat 32 1) &&& linkMask := by
    have hlink := hret.link
    rw [harea, hmem₂, hmem₁] at hlink
    have hword : loadWord (links s.mem (csaBase s.mem (s.a .r14))
        (linkOf (csaBase s.mem (s.a .r14))) (csaCount s.mem (s.a .r14)))
          (csaBase s.mem (s.a .r14) + BitVec.ofNat 32 (64 * 0)) = _ :=
      loadWord_links (by omega) (Nat.le_refl _) h.pos
    rw [Nat.mul_zero, BitVec.add_zero] at hword
    exact hlink.trans (congrArg (· &&& linkMask) hword)
  have hlinked := h.linked heq hfirst
  have hfcx : s'.csfr .fcx &&& linkMask =
      (linkOf (csaBase s.mem (s.a .r14)) + BitVec.ofNat 32 0) &&& linkMask := by
    rw [hret.lists.fcx, hfcx₂, BitVec.add_zero]
  have hlcx : s'.csfr .lcx = _ := hret.lists.lcx.trans hlcx₂
  have hlimit := congrArg (· &&& linkMask) hlcx
  have hout : ∀ x, 64 * csaCount s.mem (s.a .r14) ≤ (x - csaBase s.mem (s.a .r14)).toNat →
      ¬ InArea (csaBase s.mem (s.a .r14)) x := by
    intro x hx
    have hpos := h.pos
    rw [InArea]
    omega
  refine ⟨s', (hs₁.trans hs₂).trans hs', ?_, ?_, ?_, ?_, ?_, ?_, ?_, ?_, fun x hx => ?_,
    fun x hx hx' => ?_⟩
  · rw [hret.pc, hpc₂]
    rfl
  · rw [hret.upperA .r14 rfl, hc₂, hc₁]
  · rw [hret.upperA .r10 rfl, hsp₂]
  · rw [hret.isp, hcsfr]
    exact hisp₂
  · rw [hret.lists.pcxi, hcsfr₂ .pcxi (by decide), hpcxi₁]
  · rw [freeList_of_links h.area hlinked (Nat.zero_add _) hfcx, List.range_eq_range']
  · rw [linkAfter_of_links h.area hlinked (Nat.zero_add _) hfcx]
    exact hlimit.symm
  · exact free_of_links h.area h.base hlinked (Nat.zero_add _) hfcx hlimit
  · rw [heq x (hout x (h.disjoint x hx)), overlay_of_lt hx]
  · rw [heq x (hout x hx'), overlay_of_le hx, links_of_le hx']

end Config

/-- A configuration at `0x100` with two context save areas and a stack of 20 bytes. -/
def twoAreas : Memory :=
  let m := storeWord (storeWord (fun _ => 0) 0x100 0x70001000) 0x104 20
  storeWord (storeWord m 0x108 0x70000000) 0x10C 130

theorem twoAreas_config : Config twoAreas 0x100 where
  aligned := by decide
  pos := by decide
  area := ⟨by decide, by decide⟩
  base := by decide
  stack := by decide
  fixed := by decide
  disjoint := by
    intro x hx
    change (x - 0x70001000).toNat < 24 at hx
    change 128 ≤ (x - 0x70000000).toNat
    have hlt := x.isLt
    rw [BitVec.toNat_sub] at hx ⊢
    change (4294967296 - 0x70001000 + x.toNat) % 4294967296 < 24 at hx
    change 128 ≤ (4294967296 - 0x70000000 + x.toNat) % 4294967296
    omega

theorem exists_steps_preInit_twoAreas : ∃ s', Steps crt0
    ⟨0, fun _ => 0x100, fun _ => 0, fun _ => 0, twoAreas, []⟩ s' ∧
      crt0[s'.pc]? = some (.call .Crt0PreInit) ∧ Started twoAreas 0x100 s' :=
  Config.exists_steps_preInit twoAreas_config rfl rfl rfl

end Runtime

end AurixAsync
