import AurixAsync.Lib.TriCore.Context
import Mathlib.Data.Int.Notation
import Mathlib.Logic.Function.Basic
import Mathlib.Logic.Relation

/-!
# A fragment of the TriCore

The instructions that start-up code is made of. The address of an instruction is its line in the
program, in which a label is a line of its own that does nothing. A call takes an area of the list
of free context save areas and saves the upper context there: `PCXI`, `PSW`, `A10` to `A15` and `D8`
to `D15`. The return restores it and gives the area back.

The call depth is not counted, and the status flags in `PSW` are left out.

* `Cpu`, `Op`, `Line`, `step`: the machine.
* `Steps`: what a program gets to from a state.
* `steps_ops`: a block of instructions without jumps, as a function of the state.
* `steps_loop`: the rule of the `loop` instruction, which goes on for one turn more than its
  counter says.
* `Routine`, `Returns`, `steps_call`: the rule of a call, which needs a free area, and a routine
  that does not write to it.
-/

namespace TriCore

/-- The number of an address or a data register. -/
inductive Reg
  | r0 | r1 | r2 | r3 | r4 | r5 | r6 | r7 | r8 | r9 | r10 | r11 | r12 | r13 | r14 | r15
deriving DecidableEq, Repr

/-- The core special function registers. -/
inductive Csfr
  | pcxi | fcx | lcx | isp | psw | icr
deriving DecidableEq, Repr

/-- The registers, the memory, and the calls so far, with their line and their target; these belong
to no hardware. -/
structure Cpu where
  pc : ℕ
  a : Reg → Word
  d : Reg → Word
  csfr : Csfr → Word
  mem : Memory
  calls : List (ℕ × ℕ)

/-- The instructions without a jump. -/
inductive Op
  /-- `mov`, `mov.u` of a constant. -/
  | mov (c : Reg) (k : Word)
  /-- `mov` of a register. -/
  | movDD (c b : Reg)
  /-- `mov` of a constant to an extended register. -/
  | movE (lo hi : Reg) (k : BitVec 64)
  | movh (c : Reg) (k : Word)
  /-- `mov.a` of a constant. -/
  | movAk (c : Reg) (k : Word)
  | movA (c b : Reg)
  | movAA (c b : Reg)
  | movD (c b : Reg)
  /-- `add` of a constant. -/
  | addk (c : Reg) (k : Word)
  | add (c x y : Reg)
  /-- `add.a` of a constant. -/
  | addAk (c : Reg) (k : Word)
  | addA (c b : Reg)
  | and (c b : Reg)
  | or (c b : Reg)
  /-- `sh` by a constant, to the right if it is negative. -/
  | sh (c b : Reg) (k : ℤ)
  | ldW (c b : Reg) (off : Word)
  | ldA (c b : Reg) (off : Word)
  /-- `ld.w [b+]4`. -/
  | ldWInc (c b : Reg)
  | stW (b c : Reg)
  /-- `ld.b [b+]1`. -/
  | ldBInc (c b : Reg)
  /-- `st.b [b+]1`. -/
  | stBInc (b c : Reg)
  /-- `st.d [b+]8` of an extended register. -/
  | stDInc (b lo hi : Reg)
  | mtcr (r : Csfr) (c : Reg)
deriving DecidableEq

/-- A line of a program with labels `L`. -/
inductive Line (L : Type)
  | label (l : L)
  | op (o : Op)
  | jz (c : Reg) (l : L)
  | jzA (b : Reg) (l : L)
  | jeq (c : Reg) (k : Word) (l : L)
  | j (l : L)
  | loop (b : Reg) (l : L)
  | call (l : L)
  | calli (b : Reg)
  | ret
deriving DecidableEq

namespace Cpu

/-- Write an address register. -/
def setA (s : Cpu) (c : Reg) (w : Word) : Cpu := { s with a := Function.update s.a c w }

/-- Write a data register. -/
def setD (s : Cpu) (c : Reg) (w : Word) : Cpu := { s with d := Function.update s.d c w }

end Cpu

/-- Whether the address of an access is aligned: to four bytes for an address register, and to two
for a word or a doubleword of the data registers. -/
def Op.aligned (s : Cpu) : Op → Bool
  | .ldW _ b off => (s.a b + off).toNat % 2 == 0
  | .ldA _ b off => (s.a b + off).toNat % 4 == 0
  | .ldWInc _ b => (s.a b).toNat % 2 == 0
  | .stW b _ => (s.a b).toNat % 2 == 0
  | .stDInc b _ _ => (s.a b).toNat % 2 == 0
  | _ => true

/-- `sh`: a logical shift. -/
def shift (w : Word) (k : ℤ) : Word := if k < 0 then w >>> (-k).toNat else w <<< k.toNat

/-- What an instruction does to the core. -/
def Op.exec (s : Cpu) : Op → Cpu
  | .mov c k => s.setD c k
  | .movDD c b => s.setD c (s.d b)
  | .movE lo hi k => (s.setD lo (k.setWidth 32)).setD hi ((k >>> 32).setWidth 32)
  | .movh c k => s.setD c (k <<< 16)
  | .movAk c k => s.setA c k
  | .movA c b => s.setA c (s.d b)
  | .movAA c b => s.setA c (s.a b)
  | .movD c b => s.setD c (s.a b)
  | .addk c k => s.setD c (s.d c + k)
  | .add c x y => s.setD c (s.d x + s.d y)
  | .addAk c k => s.setA c (s.a c + k)
  | .addA c b => s.setA c (s.a c + s.a b)
  | .and c b => s.setD c (s.d c &&& s.d b)
  | .or c b => s.setD c (s.d c ||| s.d b)
  | .sh c b k => s.setD c (shift (s.d b) k)
  | .ldW c b off => s.setD c (loadWord s.mem (s.a b + off))
  | .ldA c b off => s.setA c (loadWord s.mem (s.a b + off))
  | .ldWInc c b => (s.setD c (loadWord s.mem (s.a b))).setA b (s.a b + 4)
  | .stW b c => { s with mem := storeWord s.mem (s.a b) (s.d c) }
  | .ldBInc c b => (s.setD c ((s.mem (s.a b)).signExtend 32)).setA b (s.a b + 1)
  | .stBInc b c =>
    ({ s with mem := storeByte s.mem (s.a b) ((s.d c).setWidth 8) }).setA b (s.a b + 1)
  | .stDInc b lo hi =>
    ({ s with mem := storeDouble s.mem (s.a b) (s.d lo) (s.d hi) }).setA b (s.a b + 8)
  | .mtcr r c => { s with csfr := Function.update s.csfr r (s.d c) }

/-! ### The upper context -/

/-- The word of an address register in a saved context. -/
def Reg.slotA : Reg → Option ℕ
  | .r10 => some 2
  | .r11 => some 3
  | .r12 => some 8
  | .r13 => some 9
  | .r14 => some 10
  | .r15 => some 11
  | _ => none

/-- The word of a data register in a saved context. -/
def Reg.slotD : Reg → Option ℕ
  | .r8 => some 4
  | .r9 => some 5
  | .r10 => some 6
  | .r11 => some 7
  | .r12 => some 12
  | .r13 => some 13
  | .r14 => some 14
  | .r15 => some 15
  | _ => none

/-- The words of the upper context. -/
def upperContext (s : Cpu) : List Word :=
  [s.csfr .pcxi, s.csfr .psw, s.a .r10, s.a .r11, s.d .r8, s.d .r9, s.d .r10, s.d .r11,
    s.a .r12, s.a .r13, s.a .r14, s.a .r15, s.d .r12, s.d .r13, s.d .r14, s.d .r15]

/-- The link to an area of an upper context, with the priority and the interrupt enable. -/
def pcxiOf (s : Cpu) : Word :=
  ((s.csfr .icr &&& 0xFF) <<< 22 ||| (s.csfr .icr >>> 15 &&& 1) <<< 21 ||| 0x100000) |||
    s.csfr .fcx &&& linkMask

/-- No area is free, or the last one is taken. -/
def depleted (s : Cpu) : Prop :=
  s.csfr .fcx &&& linkMask = 0 ∨ s.csfr .fcx &&& linkMask = s.csfr .lcx &&& linkMask

instance (s : Cpu) : Decidable (depleted s) := inferInstanceAs (Decidable (_ ∨ _))

/-- The state in which a routine starts that is called. -/
def entry (s : Cpu) (k : ℕ) : Cpu where
  pc := k
  a := Function.update s.a .r11 (BitVec.ofNat 32 (s.pc + 1))
  d := s.d
  csfr := Function.update (Function.update s.csfr .pcxi (pcxiOf s)) .fcx
    (loadWord s.mem (csaOf (s.csfr .fcx)) &&& linkMask)
  mem := storeWords s.mem (csaOf (s.csfr .fcx)) (upperContext s)
  calls := s.calls ++ [(s.pc, k)]

/-- `PSW` keeps these two bits when it is restored. -/
def pswMask : Word := 0x3000000

/-- The state behind a return. -/
def back (s : Cpu) : Cpu :=
  let ea := csaOf (s.csfr .pcxi)
  let w := fun i => loadWord s.mem (ea + BitVec.ofNat 32 (4 * i))
  { pc := (s.a .r11).toNat
    a := fun r => r.slotA.elim (s.a r) w
    d := fun r => r.slotD.elim (s.d r) w
    csfr := Function.update (Function.update (Function.update s.csfr
      .psw (w 1 &&& ~~~pswMask ||| s.csfr .psw &&& pswMask)) .fcx (s.csfr .pcxi &&& linkMask))
      .pcxi (w 0)
    mem := storeWord s.mem ea (s.csfr .fcx)
    calls := s.calls }

section

variable {L : Type} [DecidableEq L]

/-- The line of a label. -/
def target (p : List (Line L)) (l : L) : ℕ := p.idxOf (.label l)

/-- One line. `none` is the end of the program, or a trap: an access that is not aligned, a call
without a free area, a return without a context or with a lower one. -/
def step (p : List (Line L)) (s : Cpu) : Option Cpu :=
  (p[s.pc]?).bind fun
    | .label _ => some { s with pc := s.pc + 1 }
    | .op o => if o.aligned s then some { o.exec s with pc := s.pc + 1 } else none
    | .jz c l => some { s with pc := if s.d c = 0 then target p l else s.pc + 1 }
    | .jzA b l => some { s with pc := if s.a b = 0 then target p l else s.pc + 1 }
    | .jeq c k l => some { s with pc := if s.d c = k then target p l else s.pc + 1 }
    | .j l => some { s with pc := target p l }
    | .loop b l =>
      some { s.setA b (s.a b - 1) with pc := if s.a b = 0 then s.pc + 1 else target p l }
    | .call l => if depleted s then none else some (entry s (target p l))
    | .calli b => if depleted s then none else some (entry s (s.a b).toNat)
    | .ret =>
      if s.csfr .pcxi &&& linkMask = 0 ∨ (s.csfr .pcxi).getLsbD 20 = false then none
      else some (back s)

/-- What a program gets to. -/
def Steps (p : List (Line L)) : Cpu → Cpu → Prop :=
  Relation.ReflTransGen fun s s' => step p s = some s'

variable {p : List (Line L)} {s s' s'' : Cpu} {l : L} {k : ℕ}

theorem Steps.refl : Steps p s s := Relation.ReflTransGen.refl

theorem Steps.trans (h : Steps p s s') (h' : Steps p s' s'') : Steps p s s'' :=
  Relation.ReflTransGen.trans h h'

theorem Steps.head (h : step p s = some s') (h' : Steps p s' s'') : Steps p s s'' :=
  Relation.ReflTransGen.head h h'

theorem Steps.single (h : step p s = some s') : Steps p s s' := Relation.ReflTransGen.single h

/-! ### Lines -/

theorem steps_label (hpc : s.pc = k) (h : p[k]? = some (.label l)) :
    Steps p s { s with pc := k + 1 } := by
  subst hpc
  exact .single (by rw [step, h]; rfl)

theorem steps_op (o : Op) (hpc : s.pc = k) (h : p[k]? = some (.op o)) (hal : o.aligned s = true) :
    Steps p s { o.exec s with pc := k + 1 } := by
  subst hpc
  exact .single (by rw [step, h]; exact if_pos hal)

theorem steps_jz_of_eq {c : Reg} (hpc : s.pc = k) (h : p[k]? = some (.jz c l)) (hc : s.d c = 0) :
    Steps p s { s with pc := target p l } := by
  subst hpc
  refine .single ?_
  rw [step, h]
  change some { s with pc := if s.d c = 0 then target p l else s.pc + 1 } = _
  rw [if_pos hc]

theorem steps_jz_of_ne {c : Reg} (hpc : s.pc = k) (h : p[k]? = some (.jz c l)) (hc : s.d c ≠ 0) :
    Steps p s { s with pc := k + 1 } := by
  subst hpc
  refine .single ?_
  rw [step, h]
  change some { s with pc := if s.d c = 0 then target p l else s.pc + 1 } = _
  rw [if_neg hc]

theorem steps_jzA_of_eq {b : Reg} (hpc : s.pc = k) (h : p[k]? = some (.jzA b l)) (hb : s.a b = 0) :
    Steps p s { s with pc := target p l } := by
  subst hpc
  refine .single ?_
  rw [step, h]
  change some { s with pc := if s.a b = 0 then target p l else s.pc + 1 } = _
  rw [if_pos hb]

theorem steps_jzA_of_ne {b : Reg} (hpc : s.pc = k) (h : p[k]? = some (.jzA b l)) (hb : s.a b ≠ 0) :
    Steps p s { s with pc := k + 1 } := by
  subst hpc
  refine .single ?_
  rw [step, h]
  change some { s with pc := if s.a b = 0 then target p l else s.pc + 1 } = _
  rw [if_neg hb]

theorem steps_jeq_of_eq {c : Reg} {w : Word} (hpc : s.pc = k) (h : p[k]? = some (.jeq c w l))
    (hc : s.d c = w) : Steps p s { s with pc := target p l } := by
  subst hpc
  refine .single ?_
  rw [step, h]
  change some { s with pc := if s.d c = w then target p l else s.pc + 1 } = _
  rw [if_pos hc]

theorem steps_jeq_of_ne {c : Reg} {w : Word} (hpc : s.pc = k) (h : p[k]? = some (.jeq c w l))
    (hc : s.d c ≠ w) : Steps p s { s with pc := k + 1 } := by
  subst hpc
  refine .single ?_
  rw [step, h]
  change some { s with pc := if s.d c = w then target p l else s.pc + 1 } = _
  rw [if_neg hc]

theorem steps_j (hpc : s.pc = k) (h : p[k]? = some (.j l)) :
    Steps p s { s with pc := target p l } := by
  subst hpc
  exact .single (by rw [step, h]; rfl)

omit [DecidableEq L] in
theorem getElem?_of_text {q : List (Line L)} {n i : ℕ} (h : (p.drop k).take n = q) (hi : i < n) :
    p[k + i]? = q[i]? := by
  rw [← h, List.getElem?_take_of_lt hi, List.getElem?_drop]

/-- A block of instructions without jumps. -/
def execAll (s : Cpu) (os : List Op) : Cpu :=
  os.foldl (fun s o => { o.exec s with pc := s.pc + 1 }) s

/-- Every access of a block is aligned. -/
def alignedAll (s : Cpu) : List Op → Prop
  | [] => True
  | o :: os => o.aligned s = true ∧ alignedAll { o.exec s with pc := s.pc + 1 } os

theorem pc_execAll (s : Cpu) (os : List Op) : (execAll s os).pc = s.pc + os.length := by
  induction os generalizing s with
  | nil => rfl
  | cons o os ih =>
    show (execAll { o.exec s with pc := s.pc + 1 } os).pc = _
    rw [ih, List.length_cons]
    show s.pc + 1 + os.length = _
    omega

/-- **The rule of blocks.** A block that stands at a line of the program is executed from there. -/
theorem steps_ops (os : List Op) (hpc : s.pc = k) (h : (p.drop k).take os.length = os.map .op)
    (hal : alignedAll s os) : Steps p s (execAll s os) := by
  induction os generalizing s k with
  | nil => exact .refl
  | cons o os ih =>
    have hat : p[k]? = some (.op o) := getElem?_of_text h (Nat.succ_pos _)
    have hrest : (p.drop (k + 1)).take os.length = os.map .op := by
      have h₁ := congrArg (List.drop 1) h
      simpa [List.drop_take] using h₁
    subst hpc
    exact (steps_op o rfl hat hal.1).trans
      (ih (s := { o.exec s with pc := s.pc + 1 }) rfl hrest hal.2)

/-! ### Loops -/

/-- **The rule of `loop`.** `I k` is what holds after `k` turns, whatever the counter is and
wherever the program stands. A counter of `n` makes for `n + 1` turns. -/
theorem steps_loop {b : Reg} {stop : ℕ} {I : ℕ → Cpu → Prop} {n : ℕ}
    (hstop : p[stop]? = some (.loop b l))
    (hI : ∀ k s pc w, I k s → I k { s.setA b w with pc := pc })
    (hbody : ∀ k s, k ≤ n → s.pc = target p l → I k s →
      ∃ s', Steps p s s' ∧ s'.pc = stop ∧ s'.a b = s.a b ∧ I (k + 1) s')
    (hpc : s.pc = target p l) (hb : s.a b = BitVec.ofNat 32 n) (hn : n < 2 ^ 32) (h₀ : I 0 s) :
    ∃ s', Steps p s s' ∧ s'.pc = stop + 1 ∧ I (n + 1) s' := by
  -- by induction on the turns that are left
  suffices h : ∀ j k s, k + j = n → s.pc = target p l → s.a b = BitVec.ofNat 32 j → I k s →
      ∃ s', Steps p s s' ∧ s'.pc = stop + 1 ∧ I (n + 1) s' from h n 0 s (by omega) hpc hb h₀
  intro j
  induction j with
  | zero =>
    intro k s hk hpc hb hIk
    obtain ⟨s₁, hs₁, hpc₁, hb₁, hI₁⟩ := hbody k s (by omega) hpc hIk
    have hstep : step p s₁ = some { s₁.setA b (s₁.a b - 1) with pc := stop + 1 } := by
      rw [step, hpc₁, hstop]
      show some _ = _
      rw [if_pos (show s₁.a b = 0 from hb₁.trans hb)]
    refine ⟨_, hs₁.trans (.single hstep), rfl, ?_⟩
    rw [show n + 1 = k + 1 by omega]
    exact hI _ _ _ _ hI₁
  | succ j ih =>
    intro k s hk hpc hb hIk
    obtain ⟨s₁, hs₁, hpc₁, hb₁, hI₁⟩ := hbody k s (by omega) hpc hIk
    have hne : ¬ s₁.a b = 0 := by
      rw [hb₁, hb]
      intro hz
      have := congrArg BitVec.toNat hz
      rw [BitVec.toNat_ofNat, Nat.mod_eq_of_lt (by omega)] at this
      exact Nat.succ_ne_zero j this
    have hstep : step p s₁ = some { s₁.setA b (s₁.a b - 1) with pc := target p l } := by
      rw [step, hpc₁, hstop]
      show some _ = _
      rw [if_neg hne]
    have hdec : (s₁.setA b (s₁.a b - 1)).a b = BitVec.ofNat 32 j := by
      show Function.update s₁.a b (s₁.a b - 1) b = _
      rw [Function.update_self, hb₁, hb]
      apply BitVec.eq_of_toNat_eq
      rw [BitVec.toNat_sub, BitVec.toNat_ofNat, BitVec.toNat_ofNat,
        show (1 : Word).toNat = 1 from rfl]
      omega
    obtain ⟨s', hs', hres⟩ := ih (k + 1) { s₁.setA b (s₁.a b - 1) with pc := target p l }
      (by omega) rfl hdec (hI _ _ _ _ hI₁)
    exact ⟨s', (hs₁.trans (.single hstep)).trans hs', hres⟩

/-! ### Calls -/

/-- The registers of the lists of contexts are what they were. -/
structure SameLists (s s' : Cpu) : Prop where
  pcxi : s'.csfr .pcxi = s.csfr .pcxi
  fcx : s'.csfr .fcx &&& linkMask = s.csfr .fcx &&& linkMask
  lcx : s'.csfr .lcx = s.csfr .lcx

theorem SameLists.of_eq (h : s'.csfr = s.csfr) : SameLists s s' := by
  constructor <;> rw [h]

theorem SameLists.trans (h : SameLists s s') (h' : SameLists s' s'') : SameLists s s'' :=
  ⟨h'.pcxi.trans h.pcxi, h'.fcx.trans h.fcx, h'.lcx.trans h.lcx⟩

/-- The area that a call takes. -/
def freeArea (s : Cpu) : Word := csaOf (s.csfr .fcx)

/-- A routine leads from its entry to a return, with the lists of contexts and the return address as
they were. -/
structure Routine (p : List (Line L)) (s s' : Cpu) : Prop where
  steps : Steps p s s'
  ret : p[s'.pc]? = some .ret
  ra : s'.a .r11 = s.a .r11
  lists : SameLists s s'

/-- The state `s'` behind a call in the state `s`, where the routine came to its return in the state
`t`. -/
structure Returns (s t s' : Cpu) : Prop where
  pc : s'.pc = s.pc + 1
  upperA : ∀ r, r.slotA.isSome = true → s'.a r = s.a r
  upperD : ∀ r, r.slotD.isSome = true → s'.d r = s.d r
  lowerA : ∀ r, r.slotA.isSome = false → s'.a r = t.a r
  lowerD : ∀ r, r.slotD.isSome = false → s'.d r = t.d r
  lists : SameLists s s'
  isp : s'.csfr .isp = t.csfr .isp
  mem : EqOff (InArea (freeArea s)) t.mem s'.mem
  /-- The area is in the list as before. -/
  link : loadWord s'.mem (freeArea s) &&& linkMask = loadWord s.mem (freeArea s) &&& linkMask
  calls : s'.calls = t.calls

/-! #### The saved context -/

omit [DecidableEq L] in
theorem pcxiOf_and_linkMask (s : Cpu) : pcxiOf s &&& linkMask = s.csfr .fcx &&& linkMask := by
  apply BitVec.eq_of_toNat_eq
  have h₁ : ((s.csfr .icr &&& 0xFF) <<< 22).toNat % 2 ^ 20 = 0 := by
    rw [BitVec.toNat_shiftLeft, Nat.shiftLeft_eq]
    omega
  have h₂ : ((s.csfr .icr >>> 15 &&& 1) <<< 21).toNat % 2 ^ 20 = 0 := by
    rw [BitVec.toNat_shiftLeft, Nat.shiftLeft_eq]
    omega
  rw [toNat_and_link, pcxiOf, BitVec.toNat_or, BitVec.toNat_or, BitVec.toNat_or,
    Nat.or_mod_two_pow, Nat.or_mod_two_pow, Nat.or_mod_two_pow, h₁, h₂,
    ← toNat_and_link (s.csfr .fcx &&& linkMask), and_linkMask_and_linkMask]
  exact Nat.zero_or _

theorem getLsbD_pcxiOf (s : Cpu) : (pcxiOf s).getLsbD 20 = true := by
  simp [pcxiOf]

/-- A context is stored in its area only. -/
theorem eqOff_entry (s : Cpu) (q : ℕ) : EqOff (InArea (freeArea s)) s.mem (entry s q).mem := by
  intro x hx
  simp only [entry, storeWords]
  exact overlay_of_le (Nat.not_lt.mp hx)

theorem loadWord_upperContext (s : Cpu) (q : ℕ) {i : ℕ} {w : Word}
    (h : (upperContext s)[i]? = some w) :
    loadWord (entry s q).mem (freeArea s + BitVec.ofNat 32 (4 * i)) = w := by
  have hlen : (upperContext s).length = 16 := rfl
  exact loadWord_storeWords s.mem _ (by rw [hlen]; decide) h

theorem slotA_spec {r : Reg} {i : ℕ} (h : r.slotA = some i) :
    (upperContext s)[i]? = some (s.a r) := by
  cases r <;> cases h <;> rfl

theorem slotD_spec {r : Reg} {i : ℕ} (h : r.slotD = some i) :
    (upperContext s)[i]? = some (s.d r) := by
  cases r <;> cases h <;> rfl

/-- **A return from a call.** A routine that leaves the saved context alone returns behind the call,
with the upper context of the caller, and gives the area back. -/
theorem Routine.returns {t : Cpu} {q : ℕ} (hfree : ¬ depleted s) (hlt : s.pc + 1 < 2 ^ 32)
    (hr : Routine p (entry s q) t)
    (hkept : ∀ x, InArea (freeArea s) x → t.mem x = (entry s q).mem x) :
    step p t = some (back t) ∧ Returns s t (back t) := by
  have hpcxi : t.csfr .pcxi = pcxiOf s := hr.lists.pcxi
  have harea : csaOf (t.csfr .pcxi) = freeArea s := by
    rw [hpcxi]
    exact csaOf_congr (pcxiOf_and_linkMask s)
  have hra : t.a .r11 = BitVec.ofNat 32 (s.pc + 1) := by
    rw [hr.ra]
    exact Function.update_self (f := s.a) Reg.r11 _
  -- the words of the context
  have hword : ∀ {i : ℕ} {w : Word}, (upperContext s)[i]? = some w →
      loadWord t.mem (csaOf (t.csfr .pcxi) + BitVec.ofNat 32 (4 * i)) = w := by
    intro i w hi
    have hi16 : i < 16 := (List.getElem?_eq_some_iff.mp hi).1
    rw [harea, ← loadWord_upperContext s q hi]
    refine loadWord_congr fun j hj => hkept _ ?_
    rw [add_ofNat_add]
    exact inArea_add (by omega)
  have hlink : t.csfr .fcx &&& linkMask = loadWord s.mem (freeArea s) &&& linkMask := by
    rw [hr.lists.fcx]
    exact and_linkMask_and_linkMask _
  refine ⟨?_, ⟨?_, ?_, ?_, ?_, ?_, ⟨hword rfl, ?_, hr.lists.lcx⟩, rfl, ?_, ?_, rfl⟩⟩
  · rw [step, hr.ret]
    refine if_neg ?_
    rintro (h | h)
    · rw [hpcxi, pcxiOf_and_linkMask] at h
      exact hfree (Or.inl h)
    · rw [hpcxi, getLsbD_pcxiOf] at h
      exact Bool.false_ne_true h.symm
  · change (t.a .r11).toNat = s.pc + 1
    rw [hra, BitVec.toNat_ofNat, Nat.mod_eq_of_lt hlt]
  · intro r hslot
    obtain ⟨i, hi⟩ := Option.isSome_iff_exists.mp hslot
    change r.slotA.elim (t.a r) _ = s.a r
    rw [hi]
    exact hword (slotA_spec hi)
  · intro r hslot
    obtain ⟨i, hi⟩ := Option.isSome_iff_exists.mp hslot
    change r.slotD.elim (t.d r) _ = s.d r
    rw [hi]
    exact hword (slotD_spec hi)
  · intro r hslot
    change r.slotA.elim (t.a r) _ = t.a r
    rw [Option.isSome_eq_false_iff.mp hslot |> Option.isNone_iff_eq_none.mp]
    rfl
  · intro r hslot
    change r.slotD.elim (t.d r) _ = t.d r
    rw [Option.isSome_eq_false_iff.mp hslot |> Option.isNone_iff_eq_none.mp]
    rfl
  · change t.csfr .pcxi &&& linkMask &&& linkMask = _
    rw [and_linkMask_and_linkMask, hpcxi, pcxiOf_and_linkMask]
  · intro x hx
    change storeWord t.mem (csaOf (t.csfr .pcxi)) (t.csfr .fcx) x = t.mem x
    rw [harea]
    exact overlay_of_le (Nat.le_trans (by decide) (Nat.not_lt.mp hx))
  · change loadWord (storeWord t.mem (csaOf (t.csfr .pcxi)) (t.csfr .fcx)) _ &&& linkMask = _
    rw [harea, loadWord_storeWord, hlink]

/-- **The rule of calls.** With a free area, and a routine that leaves the saved context alone, a
call leads behind it. -/
theorem steps_call {t : Cpu} (hpc : s.pc = k) (h : p[k]? = some (.call l))
    (hlt : p.length < 2 ^ 32) (hfree : ¬ depleted s) (hr : Routine p (entry s (target p l)) t)
    (hkept : ∀ x, InArea (freeArea s) x → t.mem x = (entry s (target p l)).mem x) :
    Steps p s (back t) ∧ Returns s t (back t) := by
  subst hpc
  have hk : s.pc < p.length := (List.getElem?_eq_some_iff.mp h).1
  obtain ⟨hret, hreturns⟩ := hr.returns hfree (by omega) hkept
  have hcall : step p s = some (entry s (target p l)) := by
    rw [step, h]
    exact if_neg hfree
  exact ⟨(Steps.head hcall hr.steps).trans (.single hret), hreturns⟩

theorem steps_calli {t : Cpu} {b : Reg} (hpc : s.pc = k) (h : p[k]? = some (.calli b))
    (hlt : p.length < 2 ^ 32) (hfree : ¬ depleted s) (hr : Routine p (entry s (s.a b).toNat) t)
    (hkept : ∀ x, InArea (freeArea s) x → t.mem x = (entry s (s.a b).toNat).mem x) :
    Steps p s (back t) ∧ Returns s t (back t) := by
  subst hpc
  have hk : s.pc < p.length := (List.getElem?_eq_some_iff.mp h).1
  obtain ⟨hret, hreturns⟩ := hr.returns hfree (by omega) hkept
  have hcall : step p s = some (entry s (s.a b).toNat) := by
    rw [step, h]
    exact if_neg hfree
  exact ⟨(Steps.head hcall hr.steps).trans (.single hret), hreturns⟩

end

end TriCore
