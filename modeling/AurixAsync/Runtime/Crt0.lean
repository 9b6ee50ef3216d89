import AurixAsync.Lib.TriCore.Machine

/-!
# The start-up code

The assembly of `runtime.rs` that a core runs before `main`, from the point at which `A14` holds the
core's entry of the configuration. The code of the application that it calls has no line here, so
the program ends at such a call.

* `crt0`: the text, the code from the context save areas to `main` and then the routines.
* `clear_exec_routine`, `copy_exec_routine`: what the two routines do to the memory.
-/

-- for the lookup of the later lines of the text
set_option maxRecDepth 2048

namespace AurixAsync

namespace Runtime

open TriCore

/-- The labels of the text. -/
inductive Label
  | loop_csa
  | Crt0PreInit
  | Crt0BssInit
  | table_bss_clear_loop
  | table_bss_clear_loop_end
  | Crt0DataInit
  | table_data_copy_loop
  | table_data_copy_loop_end
  | Crt0CtorInit
  | ctor_exec_loop
  | ctor_exec_end
  | Crt0PostInit
  | main
  | exit
  | clear_exec
  | clear_exec_loop
  | clear_exec_end
  | copy_exec
  | copy_exec_loop
  | copy_exec_end
deriving DecidableEq, Repr

/-! ### The offsets of the configuration and of the tables -/

/-- The offset of the address of the stack in the configuration. -/
def STACK : Word := 0x00
/-- The offset of the size of the stack. -/
def STACK_SIZE : Word := 0x04
/-- The offset of the address of the context save areas. -/
def CSA : Word := 0x08
/-- The offset of the size of all context save areas. -/
def CSA_SIZE : Word := 0x0C
/-- The offset of the address of the clear table. -/
def CLEAR_TABLE : Word := 0x20
/-- The offset of the address of the copy table. -/
def COPY_TABLE : Word := 0x24
/-- The offset of the address of the table of constructors. -/
def CTOR_TABLE : Word := 0x28

/-- The size of a context save area. -/
def CSA_ENTRY_SIZE : Word := 64
/-- The shift that makes the offset of a link word from an address. -/
def LW_OFFSET_SHIFT : ℤ := -6

/-- The offset of the address to clear in a row. -/
def CLEAR_TABLE_DST : Word := 0x00
/-- The offset of the number of bytes to clear. -/
def CLEAR_TABLE_SIZE : Word := 0x04
/-- The size of a row of the clear table. -/
def CLEAR_TABLE_OFFSET : Word := 0x08

/-- The offset of the address to copy from in a row. -/
def COPY_TABLE_SRC : Word := 0x00
/-- The offset of the address to copy to. -/
def COPY_TABLE_DST : Word := 0x04
/-- The offset of the number of bytes to copy. -/
def COPY_TABLE_SIZE : Word := 0x08
/-- The size of a row of the copy table. -/
def COPY_TABLE_OFFSET : Word := 0x0C

/-! ### The text -/

/-- The initialization of the context save areas. -/
def csaInit : List (Line Label) :=
  [.op (.mov .r4 0),
   .op (.mtcr .pcxi .r4),
   .op (.ldW .r4 .r14 CSA_SIZE),
   .op (.sh .r4 .r4 LW_OFFSET_SHIFT),
   .op (.movA .r4 .r4),
   .op (.addAk .r4 (-1)),
   .op (.mov .r4 CSA_ENTRY_SIZE),
   .op (.movA .r3 .r4),
   .op (.ldA .r15 .r14 CSA),
   .op (.movh .r5 0x000F),
   .op (.movD .r15 .r15),
   .op (.sh .r15 .r15 (-12)),
   .op (.and .r15 .r5),
   .op (.mov .r5 0xFFFF),
   .op (.movD .r4 .r15),
   .op (.sh .r4 .r4 LW_OFFSET_SHIFT),
   .op (.and .r4 .r5),
   .op (.or .r4 .r15),
   .op (.mtcr .fcx .r4),
   .label .loop_csa,
   .op (.addk .r4 1),
   .op (.stW .r15 .r4),
   .op (.addA .r15 .r3),
   .loop .r4 .loop_csa,
   .op (.mtcr .lcx .r4)]

/-- The stack, which is cleared, and its two pointers. -/
def stackInit : List (Line Label) :=
  [.op (.ldW .r4 .r14 STACK),
   .op (.movA .r4 .r4),
   .op (.ldW .r4 .r14 STACK_SIZE),
   .op (.movD .r1 .r4),
   .op (.add .r1 .r1 .r4),
   .op (.movA .r10 .r1),
   .op (.mtcr .isp .r1),
   .call .clear_exec]

/-- The sections and the constructors of the application, between its hooks. -/
def sectionInit : List (Line Label) :=
  [.call .Crt0PreInit,
   .op (.ldW .r4 .r14 CLEAR_TABLE),
   .op (.movA .r4 .r4),
   .call .Crt0BssInit,
   .op (.ldW .r4 .r14 COPY_TABLE),
   .op (.movA .r4 .r4),
   .call .Crt0DataInit,
   .op (.ldW .r4 .r14 CTOR_TABLE),
   .op (.movA .r4 .r4),
   .call .Crt0CtorInit,
   .call .Crt0PostInit,
   .call .main,
   .j .exit]

/-- Clear the sections of the clear table at `A4`. -/
def Crt0BssInit : List (Line Label) :=
  [.label .Crt0BssInit,
   .op (.movAA .r13 .r4),
   .op (.movAk .r12 CLEAR_TABLE_OFFSET),
   .label .table_bss_clear_loop,
   .op (.ldW .r15 .r13 CLEAR_TABLE_DST),
   .jeq .r15 (-1) .table_bss_clear_loop_end,
   .op (.movA .r4 .r15),
   .op (.ldW .r4 .r13 CLEAR_TABLE_SIZE),
   .call .clear_exec,
   .op (.addA .r13 .r12),
   .j .table_bss_clear_loop,
   .label .table_bss_clear_loop_end,
   .ret]

/-- Copy the sections of the copy table at `A4`. -/
def Crt0DataInit : List (Line Label) :=
  [.label .Crt0DataInit,
   .op (.movAA .r13 .r4),
   .op (.movAk .r12 COPY_TABLE_OFFSET),
   .label .table_data_copy_loop,
   .op (.ldW .r15 .r13 COPY_TABLE_DST),
   .jeq .r15 (-1) .table_data_copy_loop_end,
   .op (.movA .r4 .r15),
   .op (.ldW .r4 .r13 COPY_TABLE_SRC),
   .op (.movA .r5 .r4),
   .op (.ldW .r4 .r13 COPY_TABLE_SIZE),
   .call .copy_exec,
   .op (.addA .r13 .r12),
   .j .table_data_copy_loop,
   .label .table_data_copy_loop_end,
   .ret]

/-- Call the functions of the table at `A4`. -/
def Crt0CtorInit : List (Line Label) :=
  [.label .Crt0CtorInit,
   .jzA .r4 .ctor_exec_end,
   .op (.ldWInc .r4 .r4),
   .op (.movA .r15 .r4),
   .jzA .r15 .ctor_exec_end,
   .op (.addAk .r15 (-1)),
   .label .ctor_exec_loop,
   .op (.ldWInc .r4 .r4),
   .op (.movA .r13 .r4),
   .calli .r13,
   .loop .r15 .ctor_exec_loop,
   .label .ctor_exec_end,
   .ret]

/-- Clear `D4` bytes at `A4`, in doublewords. -/
def clear_exec : List (Line Label) :=
  [.label .clear_exec,
   .jz .r4 .clear_exec_end,
   .op (.addk .r4 (-1)),
   .op (.sh .r4 .r4 (-3)),
   .op (.movA .r15 .r4),
   .op (.movE .r14 .r15 0),
   .label .clear_exec_loop,
   .op (.stDInc .r4 .r14 .r15),
   .loop .r15 .clear_exec_loop,
   .label .clear_exec_end,
   .ret]

/-- Copy `D4` bytes at `A5` to `A4`. -/
def copy_exec : List (Line Label) :=
  [.label .copy_exec,
   .op (.movDD .r15 .r4),
   .jz .r15 .copy_exec_end,
   .op (.addk .r15 (-1)),
   .op (.movA .r15 .r15),
   .label .copy_exec_loop,
   .op (.ldBInc .r15 .r5),
   .op (.stBInc .r4 .r15),
   .loop .r15 .copy_exec_loop,
   .label .copy_exec_end,
   .ret]

/-- The text that is modelled. -/
def crt0 : List (Line Label) :=
  csaInit ++ stackInit ++ sectionInit ++ Crt0BssInit ++ Crt0DataInit ++ Crt0CtorInit ++
    clear_exec ++ copy_exec

theorem length_crt0_lt : crt0.length < 2 ^ 32 := by
  decide

/-! ### The clear routine -/

/-- The bytes that `clear_exec` writes for a size: it writes doublewords. -/
def clearLength (size : Word) : ℕ := 8 * ((size.toNat + 7) / 8)

theorem shift_pred {size : Word} (h : size ≠ 0) :
    shift (size + -1) (-3) = BitVec.ofNat 32 ((size.toNat - 1) / 8) := by
  have hpos : size.toNat ≠ 0 := fun h₀ => h (BitVec.eq_of_toNat_eq h₀)
  have hlt := size.isLt
  apply BitVec.eq_of_toNat_eq
  have hneg : (-1 : Word).toNat = 2 ^ 32 - 1 := rfl
  have hpred : (size + -1).toNat = size.toNat - 1 := by
    rw [BitVec.toNat_add, hneg]
    omega
  rw [shift, if_pos (by decide), BitVec.toNat_ushiftRight, hpred, BitVec.toNat_ofNat,
    Nat.shiftRight_eq_div_pow]
  change (size.toNat - 1) / 2 ^ 3 = _
  omega

/-- What the turns of the clear loop keep. -/
structure ClearLoop (s₀ : Cpu) (k : ℕ) (s : Cpu) : Prop where
  mem : s.mem = overlay s₀.mem (s₀.a .r4) (8 * k) fun _ => 0
  next : s.a .r4 = s₀.a .r4 + BitVec.ofNat 32 (8 * k)
  lo : s.d .r14 = 0
  hi : s.d .r15 = 0
  ra : s.a .r11 = s₀.a .r11
  csfr : s.csfr = s₀.csfr

theorem ClearLoop.setA {s₀ s : Cpu} {k : ℕ} (h : ClearLoop s₀ k s) (pc : ℕ) (w : Word) :
    ClearLoop s₀ k { s.setA .r15 w with pc := pc } where
  mem := h.mem
  next := h.next
  lo := h.lo
  hi := h.hi
  ra := h.ra
  csfr := h.csfr

/-- One doubleword. -/
theorem ClearLoop.turn {s₀ s : Cpu} {k : ℕ} (hk : 8 * (k + 1) ≤ 2 ^ 32)
    (heven : (s₀.a .r4).toNat % 2 = 0) (hpc : s.pc = target crt0 .clear_exec_loop)
    (h : ClearLoop s₀ k s) :
    ∃ s', Steps crt0 s s' ∧ s'.pc = target crt0 .clear_exec_loop + 2 ∧ s'.a .r15 = s.a .r15 ∧
      ClearLoop s₀ (k + 1) s' := by
  have hlabel : Steps crt0 s _ := steps_label (l := .clear_exec_loop) hpc rfl
  have haligned : (s.a .r4).toNat % 2 = 0 := by
    rw [h.next]
    refine toNat_add_mod (by decide) heven ?_
    rw [BitVec.toNat_ofNat]
    omega
  refine ⟨_, hlabel.trans (steps_op (.stDInc .r4 .r14 .r15) rfl rfl (beq_iff_eq.mpr haligned)), rfl,
    rfl, ?_, ?_, h.lo, h.hi, h.ra, h.csfr⟩
  · change storeDouble s.mem (s.a .r4) (s.d .r14) (s.d .r15) = _
    rw [h.mem, h.next, h.lo, h.hi, storeDouble_zero, overlay_append_const _ (by omega)]
    rfl
  · change s.a .r4 + 8 = _
    rw [h.next, BitVec.add_assoc]
    congr 1
    rw [show (8 : Word) = BitVec.ofNat 32 8 from rfl, ← BitVec.ofNat_add]
    rfl

/-- **The clear routine** zeroes the doublewords that begin in the area, and nothing else. -/
theorem clear_exec_routine {s : Cpu} (hpc : s.pc = target crt0 .clear_exec)
    (heven : s.d .r4 ≠ 0 → (s.a .r4).toNat % 2 = 0) :
    ∃ s', Routine crt0 s s' ∧ s'.csfr = s.csfr ∧
      s'.mem = overlay s.mem (s.a .r4) (clearLength (s.d .r4)) fun _ => 0 := by
  have hlt := (s.d .r4).isLt
  have hentry : Steps crt0 s _ := steps_label (l := .clear_exec) hpc rfl
  by_cases hz : s.d .r4 = 0
  · -- nothing to clear
    have htest := hentry.trans (steps_jz_of_eq (l := .clear_exec_end) rfl rfl hz)
    refine ⟨_, ⟨htest.trans (steps_label (l := .clear_exec_end) rfl rfl), rfl, rfl, .of_eq rfl⟩,
      rfl, ?_⟩
    rw [hz]
    exact overlay_zero.symm
  · have htest := hentry.trans (steps_jz_of_ne (l := .clear_exec_end) rfl rfl hz)
    obtain ⟨s₁, hs₁, hpc₁, hb₁, h₁⟩ : ∃ s₁, Steps crt0 s s₁ ∧
        s₁.pc = target crt0 .clear_exec_loop ∧
        s₁.a .r15 = BitVec.ofNat 32 (((s.d .r4).toNat - 1) / 8) ∧ ClearLoop s 0 s₁ :=
      ⟨_, htest.trans (steps_ops (k := target crt0 .clear_exec + 2)
          [.addk .r4 (-1), .sh .r4 .r4 (-3), .movA .r15 .r4, .movE .r14 .r15 0] rfl rfl
          ⟨rfl, rfl, rfl, rfl, trivial⟩),
        rfl, shift_pred hz,
        ⟨overlay_zero.symm, (BitVec.add_zero _).symm, rfl, rfl, rfl, rfl⟩⟩
    have hloop : crt0[target crt0 .clear_exec_loop + 2]? = some (.loop .r15 .clear_exec_loop) := rfl
    obtain ⟨s₂, hs₂, hpc₂, h₂⟩ := steps_loop hloop (fun _ _ pc w h => h.setA pc w)
      (fun k _ hk hpc h => h.turn (by omega) (heven hz) hpc) hpc₁ hb₁ (by omega) h₁
    have hend : Steps crt0 s₂ _ := steps_label (l := .clear_exec_end) hpc₂ rfl
    refine ⟨_, ⟨(hs₁.trans hs₂).trans hend, rfl, h₂.ra, .of_eq h₂.csfr⟩, h₂.csfr, ?_⟩
    have hpos : (s.d .r4).toNat ≠ 0 := fun h₀ => hz (BitVec.eq_of_toNat_eq h₀)
    rw [show clearLength (s.d .r4) = 8 * (((s.d .r4).toNat - 1) / 8 + 1) by
      unfold clearLength
      omega]
    exact h₂.mem

/-! ### The copy routine -/

/-- What the turns of the copy loop keep. -/
structure CopyLoop (s₀ : Cpu) (k : ℕ) (s : Cpu) : Prop where
  mem : s.mem = overlay s₀.mem (s₀.a .r4) k fun i => s₀.mem (s₀.a .r5 + BitVec.ofNat 32 i)
  next : s.a .r4 = s₀.a .r4 + BitVec.ofNat 32 k
  src : s.a .r5 = s₀.a .r5 + BitVec.ofNat 32 k
  ra : s.a .r11 = s₀.a .r11
  csfr : s.csfr = s₀.csfr

theorem CopyLoop.setA {s₀ s : Cpu} {k : ℕ} (h : CopyLoop s₀ k s) (pc : ℕ) (w : Word) :
    CopyLoop s₀ k { s.setA .r15 w with pc := pc } where
  mem := h.mem
  next := h.next
  src := h.src
  ra := h.ra
  csfr := h.csfr

/-- An area can be copied from its first byte on if the destination does not begin behind the first
byte of the source and inside of it. -/
def Copyable (dst src : Word) (n : ℕ) : Prop := dst = src ∨ n ≤ (dst - src).toNat

/-- The byte that is read next has not been written. -/
theorem Copyable.le {dst src : Word} {n k : ℕ} (h : Copyable dst src n) (hk : k < n)
    (hn : n ≤ 2 ^ 32) : k ≤ (src + BitVec.ofNat 32 k - dst).toNat := by
  rcases h with rfl | h
  · exact Nat.le_of_eq (toNat_add_sub dst (show k < 2 ^ 32 by omega)).symm
  · have hd := dst.isLt
    have hs := src.isLt
    simp only [BitVec.toNat_sub, BitVec.toNat_add, BitVec.toNat_ofNat] at h ⊢
    omega

theorem setWidth_signExtend : ∀ b : Byte, (b.signExtend 32).setWidth 8 = b := by
  decide

/-- One byte. -/
theorem CopyLoop.turn {s₀ s : Cpu} {k n : ℕ} (hc : Copyable (s₀.a .r4) (s₀.a .r5) n) (hk : k < n)
    (hn : n ≤ 2 ^ 32) (hpc : s.pc = target crt0 .copy_exec_loop) (h : CopyLoop s₀ k s) :
    ∃ s', Steps crt0 s s' ∧ s'.pc = target crt0 .copy_exec_loop + 3 ∧ s'.a .r15 = s.a .r15 ∧
      CopyLoop s₀ (k + 1) s' := by
  have hlabel : Steps crt0 s _ := steps_label (l := .copy_exec_loop) hpc rfl
  have hbyte : s.mem (s.a .r5) = s₀.mem (s₀.a .r5 + BitVec.ofNat 32 k) := by
    rw [h.mem, h.src, overlay_of_le (hc.le hk hn)]
  refine ⟨_, hlabel.trans (steps_ops (k := target crt0 .copy_exec_loop + 1)
    [.ldBInc .r15 .r5, .stBInc .r4 .r15] rfl rfl ⟨rfl, rfl, trivial⟩), rfl, rfl, ?_, ?_, ?_, h.ra,
    h.csfr⟩
  · change storeByte s.mem (s.a .r4) (((s.mem (s.a .r5)).signExtend 32).setWidth 8) = _
    rw [setWidth_signExtend, hbyte, h.mem, h.next, storeByte, overlay_append (by omega)]
    refine overlay_congr fun i hi => ?_
    by_cases hik : i < k
    · rw [if_pos hik]
    · rw [if_neg hik, show i = k by omega]
  · change s.a .r4 + 1 = _
    rw [h.next, BitVec.add_assoc, show (1 : Word) = BitVec.ofNat 32 1 from rfl, ← BitVec.ofNat_add]
  · change s.a .r5 + 1 = _
    rw [h.src, BitVec.add_assoc, show (1 : Word) = BitVec.ofNat 32 1 from rfl, ← BitVec.ofNat_add]

theorem add_neg_one {size : Word} (h : size ≠ 0) :
    size + -1 = BitVec.ofNat 32 (size.toNat - 1) := by
  have hpos : size.toNat ≠ 0 := fun h₀ => h (BitVec.eq_of_toNat_eq h₀)
  have hlt := size.isLt
  apply BitVec.eq_of_toNat_eq
  rw [BitVec.toNat_add, BitVec.toNat_ofNat, show (-1 : Word).toNat = 2 ^ 32 - 1 from rfl]
  omega

/-- **The copy routine** writes the bytes that the source had, and nothing else. -/
theorem copy_exec_routine {s : Cpu} (hpc : s.pc = target crt0 .copy_exec)
    (hc : Copyable (s.a .r4) (s.a .r5) (s.d .r4).toNat) :
    ∃ s', Routine crt0 s s' ∧ s'.csfr = s.csfr ∧
      s'.mem = overlay s.mem (s.a .r4) (s.d .r4).toNat
        fun i => s.mem (s.a .r5 + BitVec.ofNat 32 i) := by
  have hlt := (s.d .r4).isLt
  have hentry : Steps crt0 s _ := steps_label (l := .copy_exec) hpc rfl
  have hmove := hentry.trans (steps_op (.movDD .r15 .r4) rfl rfl rfl)
  by_cases hz : s.d .r4 = 0
  · -- nothing to copy
    have htest := hmove.trans (steps_jz_of_eq (c := .r15) (l := .copy_exec_end) rfl rfl hz)
    refine ⟨_, ⟨htest.trans (steps_label (l := .copy_exec_end) rfl rfl), rfl, rfl, .of_eq rfl⟩, rfl,
      ?_⟩
    rw [hz]
    exact overlay_zero.symm
  · have hpos : (s.d .r4).toNat ≠ 0 := fun h₀ => hz (BitVec.eq_of_toNat_eq h₀)
    have htest := hmove.trans (steps_jz_of_ne (c := .r15) (l := .copy_exec_end) rfl rfl hz)
    obtain ⟨s₁, hs₁, hpc₁, hb₁, h₁⟩ : ∃ s₁, Steps crt0 s s₁ ∧
        s₁.pc = target crt0 .copy_exec_loop ∧
        s₁.a .r15 = BitVec.ofNat 32 ((s.d .r4).toNat - 1) ∧ CopyLoop s 0 s₁ :=
      ⟨_, htest.trans (steps_ops (k := target crt0 .copy_exec + 3)
          [.addk .r15 (-1), .movA .r15 .r15] rfl rfl ⟨rfl, rfl, trivial⟩),
        rfl, add_neg_one hz,
        ⟨overlay_zero.symm, (BitVec.add_zero _).symm, (BitVec.add_zero _).symm, rfl, rfl⟩⟩
    have hloop : crt0[target crt0 .copy_exec_loop + 3]? = some (.loop .r15 .copy_exec_loop) := rfl
    obtain ⟨s₂, hs₂, hpc₂, h₂⟩ := steps_loop hloop (fun _ _ pc w h => h.setA pc w)
      (fun k _ hk hpc h => h.turn hc (by omega) (by omega) hpc) hpc₁ hb₁ (by omega) h₁
    have hend : Steps crt0 s₂ _ := steps_label (l := .copy_exec_end) hpc₂ rfl
    refine ⟨_, ⟨(hs₁.trans hs₂).trans hend, rfl, h₂.ra, .of_eq h₂.csfr⟩, h₂.csfr, ?_⟩
    rw [show (s.d .r4).toNat = (s.d .r4).toNat - 1 + 1 by omega]
    exact h₂.mem

end Runtime

end AurixAsync
