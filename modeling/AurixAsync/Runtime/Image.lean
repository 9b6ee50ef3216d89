import AurixAsync.Runtime.Sections
import Mathlib.Data.List.Induction

/-!
# The sections of the application

Start-up code gives the sections of the application the contents they are linked with: it clears
what the clear table says, and then copies what the copy table says.

* `image`: the memory as it is linked.
* `Layout`: two tables that start-up code does not write to, and neither to the initial bytes.
* `Spare`: two free context save areas, which nothing else uses.
* `Layout.exists_steps_image`: the memory that the constructors and `main` find.
-/

-- for the evaluation of the sample
set_option maxRecDepth 4096

namespace AurixAsync

namespace Runtime

open TriCore

/-- The memory with the sections as they are linked: the initial bytes of the last copy that has
the address, or else zero where it is cleared. -/
def image (m : Memory) (clears : List ClearRow) (copies : List CopyRow) : Memory := fun x =>
  match copies.reverse.find? (·.Writes x) with
  | some r => m (r.src + (x - r.dst))
  | none => if clears.any (·.Writes x) then 0 else m x

/-- What start-up code reads when it initializes the sections: the address of the copy table, the
two tables, and the initial bytes. -/
def Reads (m : Memory) (config : Word) (clears : List ClearRow) (copies : List CopyRow)
    (x : Word) : Prop :=
  (∃ i < 4, x = config + COPY_TABLE + BitVec.ofNat 32 i) ∨
  (∃ i < 8 * (clears.length + 1), x = loadWord m (config + CLEAR_TABLE) + BitVec.ofNat 32 i) ∨
  (∃ i < 12 * (copies.length + 1), x = loadWord m (config + COPY_TABLE) + BitVec.ofNat 32 i) ∨
  ∃ r ∈ copies, ∃ i < r.size.toNat, x = r.src + BitVec.ofNat 32 i

/-- The tables of a configuration, which lie where nothing is cleared and nothing copied to, as
the initial bytes do. -/
structure Layout (m : Memory) (config : Word) (clears : List ClearRow)
    (copies : List CopyRow) : Prop where
  aligned : config.toNat % 2 = 0
  clearTable_aligned : (loadWord m (config + CLEAR_TABLE)).toNat % 2 = 0
  copyTable_aligned : (loadWord m (config + COPY_TABLE)).toNat % 2 = 0
  clears_aligned : ∀ r ∈ clears, r.size ≠ 0 → r.dst.toNat % 2 = 0
  clearTable : TableAt clearRow (·.dst = -1) 8 m (loadWord m (config + CLEAR_TABLE)) clears
  copyTable : TableAt copyRow (·.dst = -1) 12 m (loadWord m (config + COPY_TABLE)) copies
  clears_notWrites : ∀ r ∈ clears, ∀ x, Reads m config clears copies x → ¬ r.Writes x
  copies_notWrites : ∀ r ∈ copies, ∀ x, Reads m config clears copies x → ¬ r.Writes x

/-- The area that a call in a call takes. -/
def nextArea (s : Cpu) : Word := csaOf (loadWord s.mem (freeArea s))

/-- A byte of the context save areas that two nested calls take. -/
def Used (s : Cpu) (x : Word) : Prop := ∃ c ∈ freeList s.mem 2 (s.csfr .fcx), InArea c x

/-- Two context save areas are free, which no row writes to, and which have nothing that start-up
code reads. -/
structure Spare (s : Cpu) (clears : List ClearRow) (copies : List CopyRow) : Prop where
  free : Free s.mem (s.csfr .lcx) 2 (s.csfr .fcx)
  nodup : (freeList s.mem 2 (s.csfr .fcx)).Nodup
  clears_notUsed : ∀ r ∈ clears, ∀ x, r.Writes x → ¬ Used s x
  copies_notUsed : ∀ r ∈ copies, ∀ x, r.Writes x → ¬ Used s x
  reads_notUsed : ∀ x, Reads s.mem (s.a .r14) clears copies x → ¬ Used s x
  ctors_notUsed : ∀ i < 4, ¬ Used s (s.a .r14 + CTOR_TABLE + BitVec.ofNat 32 i)

variable {m : Memory} {config x : Word} {clears : List ClearRow} {copies : List CopyRow}

theorem CopyRow.init_of_writes {r : CopyRow} (h : r.Writes x) :
    r.init m x = m (r.src + (x - r.dst)) := by
  rw [CopyRow.init, overlay_of_lt h, BitVec.ofNat_toNat, BitVec.setWidth_eq]

theorem foldl_clear (m : Memory) (clears : List ClearRow) (x : Word) :
    clears.foldl (fun m r => r.init m) m x = if clears.any (·.Writes x) then 0 else m x := by
  induction clears generalizing m with
  | nil => rfl
  | cons r rs ih =>
    rw [List.foldl_cons, ih, List.any_cons]
    by_cases hr : r.Writes x
    · have h₀ : r.init m x = 0 := if_pos hr
      simp [hr, h₀]
    · simp [hr, ClearRow.init_of_notWrites hr]

theorem foldl_clear_of_notWrites (h : ∀ r ∈ clears, ¬ r.Writes x) :
    clears.foldl (fun m r => r.init m) m x = m x := by
  rw [foldl_clear, if_neg]
  simpa using h

theorem foldl_copy_of_notWrites (h : ∀ r ∈ copies, ¬ r.Writes x) :
    copies.foldl (fun m r => r.init m) m x = m x := by
  induction copies generalizing m with
  | nil => rfl
  | cons r rs ih =>
    rw [List.foldl_cons, ih fun r' hr' => h r' (List.mem_cons_of_mem _ hr'),
      CopyRow.init_of_notWrites (h r List.mem_cons_self)]

theorem foldl_copy (h : ∀ r ∈ copies, ∀ r' ∈ copies, ∀ i < r.size.toNat,
      ¬ r'.Writes (r.src + BitVec.ofNat 32 i)) :
    copies.foldl (fun m r => r.init m) m x =
      match copies.reverse.find? (·.Writes x) with
      | some r => m (r.src + (x - r.dst))
      | none => m x := by
  induction copies using List.reverseRecOn with
  | nil => rfl
  | append_singleton rs r ih =>
    have hmem : ∀ r' ∈ rs, r' ∈ rs ++ [r] := fun _ => List.mem_append_left _
    have hr : r ∈ rs ++ [r] := List.mem_append_right _ List.mem_cons_self
    rw [List.foldl_append, List.foldl_cons, List.foldl_nil, List.reverse_append,
      List.reverse_singleton, List.singleton_append, List.find?_cons]
    by_cases hw : r.Writes x
    · rw [decide_eq_true hw, CopyRow.init_of_writes hw]
      refine foldl_copy_of_notWrites fun r' hr' => ?_
      have hsrc := h r hr r' (hmem r' hr') _ hw
      rwa [BitVec.ofNat_toNat, BitVec.setWidth_eq] at hsrc
    · rw [decide_eq_false hw, CopyRow.init_of_notWrites hw]
      exact ih fun r₁ hr₁ r₂ hr₂ => h r₁ (hmem r₁ hr₁) r₂ (hmem r₂ hr₂)

namespace Layout

theorem reads_clearTable {i : ℕ} (hi : i < 8 * (clears.length + 1)) :
    Reads m config clears copies (loadWord m (config + CLEAR_TABLE) + BitVec.ofNat 32 i) :=
  Or.inr (Or.inl ⟨i, hi, rfl⟩)

theorem reads_copyTable {i : ℕ} (hi : i < 12 * (copies.length + 1)) :
    Reads m config clears copies (loadWord m (config + COPY_TABLE) + BitVec.ofNat 32 i) :=
  Or.inr (Or.inr (Or.inl ⟨i, hi, rfl⟩))

theorem reads_src {r : CopyRow} {i : ℕ} (hr : r ∈ copies) (hi : i < r.size.toNat) :
    Reads m config clears copies (r.src + BitVec.ofNat 32 i) :=
  Or.inr (Or.inr (Or.inr ⟨r, hr, i, hi, rfl⟩))

variable (h : Layout m config clears copies)

include h

theorem copyable {r : CopyRow} (hr : r ∈ copies) : Copyable r.dst r.src r.size.toNat := by
  by_cases hn : r.size.toNat ≤ (r.dst - r.src).toNat
  · exact Or.inr hn
  · -- the destination would begin inside of the source
    exfalso
    have hsrc : r.src + BitVec.ofNat 32 (r.dst - r.src).toNat = r.dst := by
      rw [BitVec.ofNat_toNat, BitVec.setWidth_eq, BitVec.add_comm, BitVec.sub_add_cancel]
    have hw := h.copies_notWrites r hr _ (reads_src hr (Nat.lt_of_not_le hn))
    rw [hsrc] at hw
    refine hw ?_
    change (r.dst - r.dst).toNat < r.size.toNat
    rw [BitVec.sub_self]
    exact Nat.lt_of_le_of_lt (Nat.zero_le _) (Nat.lt_of_not_le hn)

/-- Both loops leave the linked contents. -/
theorem foldl_eq_image :
    copies.foldl (fun m r => r.init m) (clears.foldl (fun m r => r.init m) m) =
      image m clears copies := by
  funext x
  rw [foldl_copy fun r hr r' hr' i hi => h.copies_notWrites r' hr' _ (reads_src hr hi), image]
  cases hf : copies.reverse.find? (·.Writes x) with
  | none => exact foldl_clear m clears x
  | some r =>
    have hr : r ∈ copies := List.mem_reverse.mp (List.mem_of_find?_eq_some hf)
    have hfound := List.find?_some hf
    have hw : r.Writes x := of_decide_eq_true hfound
    refine foldl_clear_of_notWrites fun r' hr' => ?_
    have hsrc := h.clears_notWrites r' hr' _ (reads_src hr hw)
    rwa [BitVec.ofNat_toNat, BitVec.setWidth_eq] at hsrc

end Layout

/-! ### The run -/

/-- Two nested calls take the areas `c₁` and `c₂`. -/
structure Nested (c₁ c₂ : Word) (s : Cpu) : Prop where
  calls : Calls c₁ s
  next : Free s.mem (s.csfr .lcx) 1 (loadWord s.mem c₁)
  area : csaOf (loadWord s.mem c₁) = c₂

variable {s t s' : Cpu} {c₁ c₂ : Word}

theorem nested_of_free (h : Free s.mem (s.csfr .lcx) 2 (s.csfr .fcx)) :
    Nested (freeArea s) (nextArea s) s where
  calls := ⟨not_or.mpr ⟨h.1, h.2.1⟩, rfl⟩
  next := h.2.2
  area := rfl

/-- A routine that is called takes the second area for its calls. -/
theorem Nested.entry (h : Nested c₁ c₂ s) (q : ℕ) : Calls c₂ (entry s q) := by
  have hlink : (TriCore.entry s q).csfr .fcx = loadWord s.mem c₁ &&& linkMask := by
    rw [← h.calls.area]
    rfl
  obtain ⟨hne, hlast⟩ := free_one.mp h.next
  refine ⟨?_, ?_⟩
  · unfold depleted
    rw [hlink, and_linkMask_and_linkMask]
    exact not_or.mpr ⟨hne, hlast⟩
  · rw [freeArea, hlink, csaOf_and_linkMask]
    exact h.area

theorem Nested.returns (h : Nested c₁ c₂ s) (hret : Returns s t s') : Nested c₁ c₂ s' := by
  have hlink := hret.link
  rw [h.calls.area] at hlink
  refine ⟨h.calls.of_lists hret.lists, ?_, (csaOf_congr hlink).trans h.area⟩
  rw [hret.lists.lcx]
  refine (Free.congr hlink).mpr ?_
  obtain ⟨hne, hlast⟩ := free_one.mp h.next
  exact free_one.mpr ⟨hne, hlast⟩

/-- The line behind the call of the hook. -/
def sectionStart : ℕ := (csaInit ++ stackInit).length + 1

/-- The call of a routine for a table of the configuration. The routine does `F` to the memory,
which does not write to the two areas and does not read from them. -/
theorem steps_config_call {p : List (Line Label)} {k : ℕ} {off : Word} {l : Label}
    {D : Word → Prop} {F : Memory → Memory} (hpc : s.pc = k) (hlt : p.length < 2 ^ 32)
    (htext : (p.drop k).take 3 = [.op (.ldW .r4 .r14 off), .op (.movA .r4 .r4), .call l])
    (haligned : (s.a .r14 + off).toNat % 2 = 0) (hs : Nested c₁ c₂ s)
    (hD : ∀ x, InArea c₁ x ∨ InArea c₂ x → D x) (hne : ∀ x, InArea c₁ x → ¬ InArea c₂ x)
    (hF : ∀ m m', EqOff D m m' → EqOff D (F m) (F m')) (hkept : ∀ m x, D x → F m x = m x)
    (hroutine : ∀ e, e.pc = target p l → Calls c₂ e → EqOff (InArea c₁) s.mem e.mem →
      e.a .r4 = loadWord s.mem (s.a .r14 + off) →
      ∃ t, Routine p e t ∧ EqOff (InArea c₂) (F e.mem) t.mem) :
    ∃ s', Steps p s s' ∧ s'.pc = k + 3 ∧ s'.a .r14 = s.a .r14 ∧ SameLists s s' ∧
      Nested c₁ c₂ s' ∧ EqOff D (F s.mem) s'.mem := by
  have hat : ∀ i < 3, p[k + i]? = _ := fun i => getElem?_of_text htext
  have hload : Steps p s _ :=
    steps_op (.ldW .r4 .r14 off) hpc (hat 0 (by decide)) (beq_iff_eq.mpr haligned)
  obtain ⟨s₁, hs₁, hpc₁, hmem₁, harg, ha₁, hlists₁⟩ : ∃ s₁, Steps p s s₁ ∧ s₁.pc = k + 2 ∧
      s₁.mem = s.mem ∧ s₁.a .r4 = loadWord s.mem (s.a .r14 + off) ∧ s₁.a .r14 = s.a .r14 ∧
      SameLists s s₁ :=
    ⟨_, hload.trans (steps_op (.movA .r4 .r4) rfl (hat 1 (by decide)) rfl), rfl, rfl, rfl, rfl,
      .of_eq rfl⟩
  have hn₁ : Nested c₁ c₂ s₁ := by
    refine ⟨hs.calls.of_lists hlists₁, ?_, ?_⟩
    · rw [hlists₁.lcx, hmem₁]
      exact hs.next
    · rw [hmem₁]
      exact hs.area
  have hentry := eqOff_entry s₁ (target p l)
  rw [hn₁.calls.area, hmem₁] at hentry
  obtain ⟨t, hr, hmem⟩ := hroutine (entry s₁ (target p l)) rfl (hn₁.entry _) hentry harg
  obtain ⟨s', hs', hret⟩ : ∃ s', Steps p s₁ s' ∧ Returns s₁ t s' := by
    refine ⟨_, steps_call hpc₁ (hat 2 (by decide)) hlt hn₁.calls.free hr fun x hx => ?_⟩
    rw [hn₁.calls.area] at hx
    rw [hmem x (hne x hx), hkept _ x (hD x (Or.inl hx))]
  have hback := hret.mem
  rw [hn₁.calls.area] at hback
  refine ⟨s', hs₁.trans hs', ?_, (hret.upperA .r14 rfl).trans ha₁, hlists₁.trans hret.lists,
    hn₁.returns hret, ?_⟩
  · rw [hret.pc, hpc₁]
  · exact ((hF _ _ (hentry.mono fun x hx => hD x (Or.inl hx))).trans
      (hmem.mono fun x hx => hD x (Or.inr hx))).trans (hback.mono fun x hx => hD x (Or.inl hx))

theorem used_iff : Used s x ↔ InArea (freeArea s) x ∨ InArea (nextArea s) x := by
  have hlist : freeList s.mem 2 (s.csfr .fcx) = [freeArea s, nextArea s] := rfl
  rw [Used, hlist]
  simp

theorem Spare.disjoint (h : Spare s clears copies) (hx : InArea (freeArea s) x) :
    ¬ InArea (nextArea s) x := by
  intro hx'
  have hnodup := h.nodup
  change [freeArea s, nextArea s].Nodup at hnodup
  rw [List.nodup_cons, List.mem_singleton] at hnodup
  exact hnodup.1 (hx.unique hx')

namespace Layout

variable (h : Layout s.mem (s.a .r14) clears copies) (hspare : Spare s clears copies)

include h

theorem aligned_add {a off : Word} (ha : a = s.a .r14) (hoff : off.toNat % 2 = 0) :
    (a + off).toNat % 2 = 0 := by
  rw [ha]
  exact toNat_add_mod (by decide) h.aligned hoff

include hspare

theorem reads_of_eqOff {m : Memory}
    (hm : EqOff (Used s) (clears.foldl (fun m r => r.init m) s.mem) m)
    (hx : Reads s.mem (s.a .r14) clears copies x) : m x = s.mem x := by
  rw [hm x (hspare.reads_notUsed x hx)]
  exact foldl_clear_of_notWrites fun r hr => h.clears_notWrites r hr x hx

theorem exists_steps_clears (hpc : s.pc = sectionStart) :
    ∃ s', Steps crt0 s s' ∧ s'.pc = sectionStart + 3 ∧ s'.a .r14 = s.a .r14 ∧ SameLists s s' ∧
      Nested (freeArea s) (nextArea s) s' ∧
      EqOff (Used s) (clears.foldl (fun m r => r.init m) s.mem) s'.mem := by
  refine steps_config_call (l := .Crt0BssInit) hpc length_crt0_lt rfl (h.aligned_add rfl rfl)
    (nested_of_free hspare.free) (fun _ => used_iff.mpr) (fun _ => hspare.disjoint)
    (fun _ _ => eqOff_foldl fun r _ _ _ hm => r.eqOff_init hm)
    (fun _ x hx => foldl_clear_of_notWrites fun r hr hw => hspare.clears_notUsed r hr x hw hx)
    fun e hpce hcalls hmem harg => ?_
  refine Crt0BssInit_routine hcalls hpce ?_ ?_ ?_ ?_ ?_
  · rw [harg]
    exact h.clearTable_aligned
  · rw [harg]
    refine h.clearTable.congr clearRow_local fun i hi => hmem _ fun hx => ?_
    exact hspare.reads_notUsed _ (reads_clearTable hi) (used_iff.mpr (Or.inl hx))
  · exact fun r hr => ⟨h.clears_aligned r hr,
      fun x hw hx => hspare.clears_notUsed r hr x hw (used_iff.mpr (Or.inr hx))⟩
  · intro i hi hx
    rw [harg] at hx
    exact hspare.reads_notUsed _ (reads_clearTable hi) (used_iff.mpr (Or.inr hx))
  · intro r hr m i hi
    rw [harg]
    exact ClearRow.init_of_notWrites (h.clears_notWrites r hr _ (reads_clearTable hi))

theorem good {r : CopyRow} (hr : r ∈ copies) : r.Good (Used s) :=
  ⟨h.copyable hr, hspare.copies_notUsed r hr,
    fun _ hi => hspare.reads_notUsed _ (reads_src hr hi)⟩

theorem exists_steps_copies {s₁ : Cpu} (hpc : s₁.pc = sectionStart + 3)
    (ha : s₁.a .r14 = s.a .r14) (hn : Nested (freeArea s) (nextArea s) s₁)
    (hm : EqOff (Used s) (clears.foldl (fun m r => r.init m) s.mem) s₁.mem) :
    ∃ s', Steps crt0 s₁ s' ∧ s'.pc = sectionStart + 6 ∧ s'.a .r14 = s₁.a .r14 ∧
      SameLists s₁ s' ∧ Nested (freeArea s) (nextArea s) s' ∧
      EqOff (Used s) (image s.mem clears copies) s'.mem := by
  have hread : ∀ x, Reads s.mem (s.a .r14) clears copies x → s₁.mem x = s.mem x :=
    fun _ => h.reads_of_eqOff hspare hm
  have hconfig : loadWord s₁.mem (s₁.a .r14 + COPY_TABLE) =
      loadWord s.mem (s.a .r14 + COPY_TABLE) := by
    rw [ha]
    exact loadWord_congr fun i hi => hread _ (Or.inl ⟨i, hi, rfl⟩)
  have hlocal : ∀ m m', EqOff (Used s) m m' → EqOff (Used s)
      (copies.foldl (fun m r => r.init m) m) (copies.foldl (fun m r => r.init m) m') :=
    fun _ _ => eqOff_foldl fun r hr _ _ hm => (h.good hspare hr).eqOff_init hm
  obtain ⟨s', hs', hpc', ha', hlists', hn', hm'⟩ := steps_config_call (l := .Crt0DataInit) hpc
    length_crt0_lt rfl (h.aligned_add ha rfl) hn (fun _ => used_iff.mpr)
    (fun _ => hspare.disjoint) hlocal
    (fun _ x hx => foldl_copy_of_notWrites fun r hr hw => hspare.copies_notUsed r hr x hw hx)
    fun e hpce hcalls hmem harg => by
      rw [hconfig] at harg
      refine Crt0DataInit_routine hcalls hpce ?_ ?_ ?_ ?_ ?_
      · rw [harg]
        exact h.copyTable_aligned
      · rw [harg]
        refine h.copyTable.congr copyRow_local fun i hi => ?_
        have hr : Reads s.mem (s.a .r14) clears copies _ := reads_copyTable hi
        rw [hmem _ fun hx => hspare.reads_notUsed _ hr (used_iff.mpr (Or.inl hx))]
        exact hread _ hr
      · intro r hr
        have hgood := h.good hspare hr
        exact ⟨hgood.copyable, fun x hw hx => hgood.dst x hw (used_iff.mpr (Or.inr hx)),
          fun i hi hx => hgood.src i hi (used_iff.mpr (Or.inr hx))⟩
      · intro i hi hx
        rw [harg] at hx
        exact hspare.reads_notUsed _ (reads_copyTable hi) (used_iff.mpr (Or.inr hx))
      · intro r hr m i hi
        rw [harg]
        exact CopyRow.init_of_notWrites (h.copies_notWrites r hr _ (reads_copyTable hi))
  refine ⟨s', hs', hpc', ha', hlists', hn', ?_⟩
  rw [← h.foldl_eq_image]
  exact (hlocal _ _ hm).trans hm'

/-- **The sections of the application.** Start-up code gets from the first hook to the call for the
constructors, with the memory as it is linked, but for the two context save areas that it uses. -/
theorem exists_steps_image (hpc : s.pc = sectionStart) :
    ∃ s', Steps crt0 s s' ∧ crt0[s'.pc]? = some (.call .Crt0CtorInit) ∧
      s'.a .r14 = s.a .r14 ∧ SameLists s s' ∧
      freeList s'.mem 2 (s'.csfr .fcx) = freeList s.mem 2 (s.csfr .fcx) ∧
      EqOff (Used s) (image s.mem clears copies) s'.mem ∧
      s'.a .r4 = loadWord (image s.mem clears copies) (s.a .r14 + CTOR_TABLE) := by
  obtain ⟨s₁, hs₁, hpc₁, ha₁, hlists₁, hn₁, hm₁⟩ := h.exists_steps_clears hspare hpc
  obtain ⟨s₂, hs₂, hpc₂, ha₂, hlists₂, hn₂, hm₂⟩ := h.exists_steps_copies hspare hpc₁ ha₁ hn₁ hm₁
  have hargs : Steps crt0 s₂ _ := steps_ops [.ldW .r4 .r14 CTOR_TABLE, .movA .r4 .r4] hpc₂ rfl
    ⟨beq_iff_eq.mpr (h.aligned_add (ha₂.trans ha₁) rfl), rfl, trivial⟩
  refine ⟨_, (hs₁.trans hs₂).trans hargs, ?_, ha₂.trans ha₁,
    (hlists₁.trans hlists₂).trans (.of_eq rfl), ?_, hm₂, ?_⟩
  · rw [pc_execAll, hpc₂]
    rfl
  · change [freeArea s₂, csaOf (loadWord s₂.mem (freeArea s₂))] = _
    rw [hn₂.calls.area, hn₂.area]
    rfl
  · change loadWord s₂.mem (s₂.a .r14 + CTOR_TABLE) = _
    rw [ha₂, ha₁]
    exact hm₂.loadWord hspare.ctors_notUsed

end Layout

/-- A configuration at `0x100`, with a section of 12 bytes to clear and one of a word to copy, and
the link of a context save area at `0x2000`. -/
def sampleMemory : Memory :=
  let m := storeWord (storeWord (fun _ => 0) 0x120 0x200) 0x124 0x300
  let m := storeWord (storeWord (storeWord m 0x200 0x1000) 0x204 12) 0x208 (-1)
  let m := storeWord (storeWord (storeWord m 0x300 0x400) 0x304 0x1010) 0x308 4
  storeWord (storeWord (storeWord m 0x310 (-1)) 0x400 0xCAFE) 0x2000 0x81

/-- One section to clear. -/
def sampleClears : List ClearRow := [⟨0x1000, 12⟩]

/-- One section to copy. -/
def sampleCopies : List CopyRow := [⟨0x400, 0x1010, 4⟩]

/-- A core with two areas in its list, at `0x2000` and `0x2040`. -/
def sampleCpu : Cpu where
  pc := sectionStart
  a := fun _ => 0x100
  d := fun _ => 0
  csfr := fun
    | .fcx => 0x80
    | _ => 0
  mem := sampleMemory
  calls := []

theorem toNat_sample {x start : Word} {n : ℕ} (h : (x - start).toNat < n)
    (hn : start.toNat + n ≤ 2 ^ 32) : start.toNat ≤ x.toNat ∧ x.toNat < start.toNat + n := by
  have hx := x.isLt
  rw [BitVec.toNat_sub] at h
  omega

theorem sample_reads {x : Word} (h : Reads sampleMemory 0x100 sampleClears sampleCopies x) :
    x.toNat < 0x1000 := by
  have hclear : loadWord sampleMemory (0x100 + CLEAR_TABLE) = 0x200 := by decide
  have hcopy : loadWord sampleMemory (0x100 + COPY_TABLE) = 0x300 := by decide
  rcases h with ⟨i, hi, rfl⟩ | ⟨i, hi, rfl⟩ | ⟨i, hi, rfl⟩ | ⟨r, hr, i, hi, rfl⟩
  · revert i
    decide
  · rw [hclear]
    revert i
    decide
  · rw [hcopy]
    revert i
    decide
  · cases List.mem_singleton.mp hr
    revert i
    decide

theorem sample_clears {r : ClearRow} (hr : r ∈ sampleClears) {x : Word} (hw : r.Writes x) :
    0x1000 ≤ x.toNat ∧ x.toNat < 0x1010 := by
  cases List.mem_singleton.mp hr
  exact toNat_sample (n := 16) hw (by decide)

theorem sample_copies {r : CopyRow} (hr : r ∈ sampleCopies) {x : Word} (hw : r.Writes x) :
    0x1010 ≤ x.toNat ∧ x.toNat < 0x1014 := by
  cases List.mem_singleton.mp hr
  exact toNat_sample (n := 4) hw (by decide)

theorem sample_used {x : Word} (h : Used sampleCpu x) : 0x2000 ≤ x.toNat := by
  have hfree : freeArea sampleCpu = 0x2000 := by decide
  have hnext : nextArea sampleCpu = 0x2040 := by decide
  rcases used_iff.mp h with hx | hx
  · rw [hfree] at hx
    exact (toNat_sample (n := 64) hx (by decide)).1
  · rw [hnext] at hx
    have hle := (toNat_sample (n := 64) hx (by decide)).1
    exact Nat.le_trans (by decide) hle

theorem sampleMemory_layout : Layout sampleMemory 0x100 sampleClears sampleCopies where
  aligned := by decide
  clearTable_aligned := by decide
  copyTable_aligned := by decide
  clears_aligned := by decide
  clearTable := by
    rw [show loadWord sampleMemory (0x100 + CLEAR_TABLE) = 0x200 by decide]
    refine ⟨by decide, by decide, ?_⟩
    change (clearRow sampleMemory (0x200 + BitVec.ofNat 32 8)).dst = -1
    decide
  copyTable := by
    rw [show loadWord sampleMemory (0x100 + COPY_TABLE) = 0x300 by decide]
    refine ⟨by decide, by decide, ?_⟩
    change (copyRow sampleMemory (0x300 + BitVec.ofNat 32 12)).dst = -1
    decide
  clears_notWrites := fun r hr x hx hw => by
    have h₁ := sample_reads hx
    have h₂ := sample_clears hr hw
    omega
  copies_notWrites := fun r hr x hx hw => by
    have h₁ := sample_reads hx
    have h₂ := sample_copies hr hw
    omega

theorem sampleCpu_spare : Spare sampleCpu sampleClears sampleCopies where
  free := by decide
  nodup := by decide
  clears_notUsed := fun r hr x hw hx => by
    have h₁ := sample_clears hr hw
    have h₂ := sample_used hx
    omega
  copies_notUsed := fun r hr x hw hx => by
    have h₁ := sample_copies hr hw
    have h₂ := sample_used hx
    omega
  reads_notUsed := fun x hr hx => by
    have h₁ := sample_reads hr
    have h₂ := sample_used hx
    omega
  ctors_notUsed := fun i hi hx => by
    have h₁ : ∀ i < 4, ((0x100 : Word) + CTOR_TABLE + BitVec.ofNat 32 i).toNat < 0x2000 := by decide
    exact absurd (sample_used hx) (Nat.not_le.mpr (h₁ i hi))

theorem exists_steps_image_sample : ∃ s', Steps crt0 sampleCpu s' ∧
    crt0[s'.pc]? = some (.call .Crt0CtorInit) ∧ s'.a .r14 = 0x100 ∧ SameLists sampleCpu s' ∧
      freeList s'.mem 2 (s'.csfr .fcx) = freeList sampleMemory 2 0x80 ∧
      EqOff (Used sampleCpu) (image sampleMemory sampleClears sampleCopies) s'.mem ∧
      s'.a .r4 = loadWord (image sampleMemory sampleClears sampleCopies) (0x100 + CTOR_TABLE) :=
  Layout.exists_steps_image sampleMemory_layout sampleCpu_spare rfl

end Runtime

end AurixAsync
