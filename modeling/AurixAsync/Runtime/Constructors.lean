import AurixAsync.Runtime.Crt0
import Mathlib.Data.List.Basic

/-!
# The constructors

`Crt0CtorInit` calls the functions of a table, which begins with their number. It has its place in
the table in `A4`, which a call does not save: the next function is the one that `A4` points to when
the last one has returned.

* `ctors`: the functions of a table.
* `Called`: the states that calls of functions lead through, each with what it does.
* `IsCtor`: what the routine needs of a function, whatever else this does.
* `CtorLoop.turn`: one function.
* `Crt0CtorInit_routine`: the functions are called in order, each once.
-/

-- for the lookup of the later lines of the text
set_option maxRecDepth 4096

namespace AurixAsync

namespace Runtime

open TriCore

/-- The functions of a table. The address zero is no table. -/
def ctors (m : Memory) (a : Word) : List Word :=
  if a = 0 then []
  else (List.range (loadWord m a).toNat).map fun i => loadWord m (a + BitVec.ofNat 32 (4 * (i + 1)))

/-- The line of the call in the routine. -/
def callLine (p : List (Line Label)) : ℕ := target p .Crt0CtorInit + 9

/-- What the routine changes between two calls: the registers that it uses. -/
structure Between (u v : Cpu) : Prop where
  a : ∀ r, r ≠ .r4 → r ≠ .r13 → r ≠ .r15 → v.a r = u.a r
  d : ∀ r, r ≠ .r4 → v.d r = u.d r
  csfr : v.csfr = u.csfr
  mem : v.mem = u.mem
  calls : v.calls = u.calls

theorem Between.refl (u : Cpu) : Between u u :=
  ⟨fun _ _ _ _ => rfl, fun _ _ => rfl, rfl, rfl, rfl⟩

theorem Between.trans {u v w : Cpu} (h : Between u v) (h' : Between v w) : Between u w where
  a := fun r h₄ h₁₃ h₁₅ => (h'.a r h₄ h₁₃ h₁₅).trans (h.a r h₄ h₁₃ h₁₅)
  d := fun r h₄ => (h'.d r h₄).trans (h.d r h₄)
  csfr := h'.csfr.trans h.csfr
  mem := h'.mem.trans h.mem
  calls := h'.calls.trans h.calls

/-- The state after the functions of a list, of which `E f` relates the state at the call of `f` and
the one behind it. -/
inductive Called (E : Word → Cpu → Cpu → Prop) (s : Cpu) : List Word → Cpu → Prop
  | nil : Called E s [] s
  | snoc {fs : List Word} {f : Word} {u v w : Cpu} :
    Called E s fs u → Between u v → E f v w → Called E s (fs ++ [f]) w

/-- The function `f` can be called in the state `v`: it does `E` and returns, makes no call from the
line of the routine, and leaves `A4`, the bytes of `K` and its saved context as they were. -/
def IsCtor (p : List (Line Label)) (E : Word → Cpu → Cpu → Prop) (K : Word → Prop) (f : Word)
    (v : Cpu) : Prop :=
  ∃ t, Routine p (entry v f.toNat) t ∧ E f v (back t) ∧ t.a .r4 = v.a .r4 ∧
    (∀ x, InArea (freeArea v) x → t.mem x = (entry v f.toNat).mem x) ∧
    (∀ x, K x → t.mem x = v.mem x) ∧
    t.calls.filter (·.1 = callLine p) = (entry v f.toNat).calls.filter (·.1 = callLine p)

/-- The bytes that the functions have to leave: the table, and the context of the caller. -/
def Keeps (s : Cpu) (x : Word) : Prop :=
  (∃ i < 4 * ((ctors s.mem (s.a .r4)).length + 1), x = s.a .r4 + BitVec.ofNat 32 i) ∨
    InArea (csaOf (s.csfr .pcxi)) x

/-- Each function of the table can be called after those before it. -/
def CtorsOk (p : List (Line Label)) (E : Word → Cpu → Cpu → Prop) (s : Cpu) : Prop :=
  ∀ fs f rest u v, ctors s.mem (s.a .r4) = fs ++ f :: rest → Called E s fs u → Between u v →
    v.pc = callLine p → IsCtor p E (Keeps s) f v

/-- A free context save area for the calls, which has none of these bytes. -/
structure CanCall (s : Cpu) : Prop where
  free : ¬ depleted s
  off : ∀ x, Keeps s x → ¬ InArea (freeArea s) x

/-- What the turns of the loop keep: `k` functions have been called. -/
structure CtorLoop (p : List (Line Label)) (E : Word → Cpu → Cpu → Prop) (s₀ : Cpu) (k : ℕ)
    (s : Cpu) : Prop where
  called : ∃ u, Called E s₀ ((ctors s₀.mem (s₀.a .r4)).take k) u ∧ Between u s
  next : s.a .r4 = s₀.a .r4 + BitVec.ofNat 32 (4 * (k + 1))
  kept : ∀ x, Keeps s₀ x → s.mem x = s₀.mem x
  ra : s.a .r11 = s₀.a .r11
  lists : SameLists s₀ s
  log : s.calls.filter (·.1 = callLine p) = s₀.calls.filter (·.1 = callLine p) ++
    ((ctors s₀.mem (s₀.a .r4)).take k).map fun f => (callLine p, f.toNat)

variable {p : List (Line Label)} {E : Word → Cpu → Cpu → Prop} {fs : List Word} {a : Word}
  {s₀ s : Cpu} {k : ℕ}

theorem CtorLoop.setA (h : CtorLoop p E s₀ k s) (pc : ℕ) (w : Word) :
    CtorLoop p E s₀ k { s.setA .r15 w with pc := pc } where
  called := by
    obtain ⟨u, hu, hb⟩ := h.called
    exact ⟨u, hu, fun r h₄ h₁₃ h₁₅ => (Function.update_of_ne h₁₅ ..).trans (hb.a r h₄ h₁₃ h₁₅),
      hb.d, hb.csfr, hb.mem, hb.calls⟩
  next := h.next
  kept := h.kept
  ra := h.ra
  lists := h.lists.trans (.of_eq rfl)
  log := h.log

theorem length_ctors {m : Memory} (ha : a ≠ 0) :
    (ctors m a).length = (loadWord m a).toNat := by
  rw [ctors, if_neg ha, List.length_map, List.length_range]

theorem getElem_ctors {m : Memory} (ha : a ≠ 0) (hk : k < (ctors m a).length) :
    (ctors m a)[k] = loadWord m (a + BitVec.ofNat 32 (4 * (k + 1))) := by
  have hne : ¬ a = 0#32 := ha
  simp [ctors, hne]

/-- One function. -/
theorem CtorLoop.turn (hlt : p.length < 2 ^ 32)
    (htext : (p.drop (target p .Crt0CtorInit)).take 13 = Crt0CtorInit) (ha : s₀.a .r4 ≠ 0)
    (heven : (s₀.a .r4).toNat % 2 = 0) (hcan : CanCall s₀)
    (hctor : CtorsOk p E s₀)
    (hk : k < (ctors s₀.mem (s₀.a .r4)).length) (hpc : s.pc = target p .Crt0CtorInit + 6)
    (h : CtorLoop p E s₀ k s) :
    ∃ s', Steps p s s' ∧ s'.pc = target p .Crt0CtorInit + 10 ∧ s'.a .r15 = s.a .r15 ∧
      CtorLoop p E s₀ (k + 1) s' := by
  have hat : ∀ i < 13, p[target p .Crt0CtorInit + i]? = _ := fun i => getElem?_of_text htext
  -- the pointer in the table is the one that was there at first
  have hload : loadWord s.mem (s.a .r4) = (ctors s₀.mem (s₀.a .r4))[k] := by
    rw [getElem_ctors ha hk, h.next]
    refine loadWord_congr fun i hi => h.kept _ (Or.inl ⟨4 * (k + 1) + i, by omega, ?_⟩)
    rw [add_ofNat_add]
  have haligned : (s.a .r4).toNat % 2 = 0 := by
    rw [h.next]
    refine toNat_add_mod (by decide) heven ?_
    rw [BitVec.toNat_ofNat]
    omega
  obtain ⟨u, hcalled, hbetween⟩ := h.called
  have hlabel : Steps p s _ := steps_label (l := Label.ctor_exec_loop) hpc (hat 6 (by decide))
  have hptr := hlabel.trans
    (steps_op (.ldWInc .r4 .r4) rfl (hat 7 (by decide)) (beq_iff_eq.mpr haligned))
  obtain ⟨v, hv, hpcv, hfv, hnextv, hcountv, hrav, hmemv, hlistsv, hcallsv, hbv⟩ :
      ∃ v, Steps p s v ∧ v.pc = callLine p ∧ v.a .r13 = loadWord s.mem (s.a .r4) ∧
        v.a .r4 = s.a .r4 + 4 ∧ v.a .r15 = s.a .r15 ∧ v.a .r11 = s.a .r11 ∧ v.mem = s.mem ∧
        SameLists s v ∧ v.calls = s.calls ∧ Between s v := by
    refine ⟨_, hptr.trans (steps_op (.movA .r13 .r4) rfl (hat 8 (by decide)) rfl), rfl, rfl, rfl,
      rfl, rfl, rfl, .of_eq rfl, rfl, ⟨fun r h₄ h₁₃ _ => ?_, fun r h₄ => ?_, rfl, rfl, rfl⟩⟩
    · exact (Function.update_of_ne h₁₃ ..).trans (Function.update_of_ne h₄ ..)
    · exact Function.update_of_ne h₄ ..
  have hlists := h.lists.trans hlistsv
  have harea : freeArea v = freeArea s₀ := csaOf_congr hlists.fcx
  have hfree : ¬ depleted v := by
    unfold depleted
    rw [hlists.fcx, hlists.lcx]
    exact hcan.free
  have hsplit : ctors s₀.mem (s₀.a .r4) = (ctors s₀.mem (s₀.a .r4)).take k ++
      (ctors s₀.mem (s₀.a .r4))[k] :: (ctors s₀.mem (s₀.a .r4)).drop (k + 1) := by
    rw [← List.drop_eq_getElem_cons hk, List.take_append_drop]
  obtain ⟨t, hr, hE, h4, hsaved, hkeep, hlog⟩ :=
    hctor _ _ _ u v hsplit hcalled (hbetween.trans hbv) hpcv
  rw [← hload, ← hfv] at hr hsaved hlog
  obtain ⟨hs', hret⟩ := steps_calli hpcv (hat 9 (by decide)) hlt hfree hr hsaved
  refine ⟨back t, hv.trans hs', ?_, (hret.upperA .r15 rfl).trans hcountv,
    ⟨⟨back t, ?_, Between.refl _⟩, ?_, fun x hx => ?_, ?_, hlists.trans hret.lists, ?_⟩⟩
  · rw [hret.pc, hpcv]
    rfl
  · rw [List.take_succ_eq_append_getElem hk]
    exact hcalled.snoc (hbetween.trans hbv) hE
  · rw [hret.lowerA .r4 rfl, h4, hnextv, h.next, show (4 : Word) = BitVec.ofNat 32 4 from rfl,
      add_ofNat_add]
    rfl
  · rw [hret.mem x (harea ▸ hcan.off x hx), hkeep x hx, hmemv, h.kept x hx]
  · rw [hret.upperA .r11 rfl, hrav, h.ra]
  · rw [hret.calls, hlog]
    change (v.calls ++ [(v.pc, (v.a .r13).toNat)]).filter _ = _
    rw [List.filter_append, hcallsv, h.log, hpcv, hfv, hload, List.take_succ_eq_append_getElem hk,
      List.map_append, ← List.append_assoc]
    simp

/-- **The constructors** are called one after the other, each once, whatever they do, if each leaves
`A4`, the table and the saved contexts alone. -/
theorem Crt0CtorInit_routine (hlt : p.length < 2 ^ 32)
    (htext : (p.drop (target p .Crt0CtorInit)).take 13 = Crt0CtorInit)
    (hloop : target p .ctor_exec_loop = target p .Crt0CtorInit + 6)
    (hend : target p .ctor_exec_end = target p .Crt0CtorInit + 11)
    (hpc : s.pc = target p .Crt0CtorInit) (heven : (s.a .r4).toNat % 2 = 0)
    (hcan : ctors s.mem (s.a .r4) ≠ [] → CanCall s) (hctor : CtorsOk p E s) :
    ∃ u s', Called E s (ctors s.mem (s.a .r4)) u ∧ Between u s' ∧ Routine p s s' ∧
      (∀ x, Keeps s x → s'.mem x = s.mem x) ∧
      s'.calls.filter (·.1 = callLine p) = s.calls.filter (·.1 = callLine p) ++
        (ctors s.mem (s.a .r4)).map fun f => (callLine p, f.toNat) := by
  generalize hc : target p .Crt0CtorInit = c at htext hloop hend hpc
  have hat : ∀ i < 13, p[c + i]? = _ := fun i => getElem?_of_text htext
  -- from `ctor_exec_end` on there is only the return
  have hfinish : ∀ s₁, s₁.pc = c + 11 → Steps p s₁ { s₁ with pc := c + 12 } := fun s₁ hpc₁ =>
    steps_label (l := Label.ctor_exec_end) hpc₁ (hat 11 (by decide))
  have hlabel : Steps p s _ := steps_label (l := Label.Crt0CtorInit) hpc (hat 0 (by decide))
  by_cases ha : s.a .r4 = 0
  · -- no table
    have hnone := hlabel.trans (steps_jzA_of_eq rfl (hat 1 (by decide)) ha)
    have hempty : ctors s.mem (s.a .r4) = [] := by
      rw [ctors, if_pos ha]
    rw [hempty]
    exact ⟨s, { s with pc := c + 12 }, .nil, ⟨fun _ _ _ _ => rfl, fun _ _ => rfl, rfl, rfl, rfl⟩,
      ⟨hnone.trans (hfinish _ hend), hat 12 (by decide), rfl, .of_eq rfl⟩, fun _ _ => rfl,
      (List.append_nil _).symm⟩
  have htable := hlabel.trans (steps_jzA_of_ne rfl (hat 1 (by decide)) ha)
  have hload := htable.trans
    (steps_op (.ldWInc .r4 .r4) rfl (hat 2 (by decide)) (beq_iff_eq.mpr heven))
  obtain ⟨s₁, hs₁, hpc₁, hcount₁, hnext₁, hmem₁, hra₁, hlists₁, hcalls₁, hb₁⟩ : ∃ s₁, Steps p s s₁ ∧
      s₁.pc = c + 4 ∧ s₁.a .r15 = loadWord s.mem (s.a .r4) ∧ s₁.a .r4 = s.a .r4 + 4 ∧
      s₁.mem = s.mem ∧ s₁.a .r11 = s.a .r11 ∧ SameLists s s₁ ∧ s₁.calls = s.calls ∧
      Between s s₁ := by
    refine ⟨_, hload.trans (steps_op (.movA .r15 .r4) rfl (hat 3 (by decide)) rfl), rfl, rfl, rfl,
      rfl, rfl, .of_eq rfl, rfl, ⟨fun r h₄ _ h₁₅ => ?_, fun r h₄ => ?_, rfl, rfl, rfl⟩⟩
    · exact (Function.update_of_ne h₁₅ ..).trans (Function.update_of_ne h₄ ..)
    · exact Function.update_of_ne h₄ ..
  by_cases hn : loadWord s.mem (s.a .r4) = 0
  · -- an empty table
    have hnone := hs₁.trans (steps_jzA_of_eq hpc₁ (hat 4 (by decide)) (hcount₁.trans hn))
    have hempty : ctors s.mem (s.a .r4) = [] :=
      List.eq_nil_of_length_eq_zero (by rw [length_ctors ha, hn]; rfl)
    rw [hempty]
    refine ⟨s, { s₁ with pc := c + 12 }, .nil, ?_,
      ⟨hnone.trans (hfinish _ hend), hat 12 (by decide), hra₁,
      hlists₁.trans (.of_eq rfl)⟩, fun x _ => congrFun hmem₁ x, ?_⟩
    · exact ⟨hb₁.a, hb₁.d, hb₁.csfr, hb₁.mem, hb₁.calls⟩
    · rw [List.map_nil, List.append_nil]
      exact congrArg _ hcalls₁
  have hpos : (loadWord s.mem (s.a .r4)).toNat ≠ 0 := fun h₀ => hn (BitVec.eq_of_toNat_eq h₀)
  have hlen := length_ctors (m := s.mem) ha
  have hcan := hcan fun hnil => hpos (by rw [← hlen, hnil]; rfl)
  have hsome := hs₁.trans (steps_jzA_of_ne hpc₁ (hat 4 (by decide)) (by rw [hcount₁]; exact hn))
  have h₁ : CtorLoop p E s 0 s₁ :=
    ⟨⟨s, .nil, hb₁⟩, hnext₁, fun x _ => congrFun hmem₁ x, hra₁, hlists₁,
      by rw [hcalls₁]; exact (List.append_nil _).symm⟩
  obtain ⟨s₂, hs₂, hpc₂, hcount₂, h₂⟩ : ∃ s₂, Steps p s s₂ ∧ s₂.pc = target p .ctor_exec_loop ∧
      s₂.a .r15 = s₁.a .r15 + -1 ∧ CtorLoop p E s 0 s₂ :=
    ⟨_, hsome.trans (steps_op (.addAk .r15 (-1)) rfl (hat 5 (by decide)) rfl), hloop.symm, rfl,
      h₁.setA _ _⟩
  rw [hcount₁, add_neg_one hn, ← hlen] at hcount₂
  subst hc
  obtain ⟨s₃, hs₃, hpc₃, h₃⟩ := steps_loop (hat 10 (by decide)) (fun _ _ pc w h => h.setA pc w)
    (fun k _ hk hpc h => h.turn hlt htext ha heven hcan hctor (by omega) (hpc.trans hloop))
    hpc₂ hcount₂ (by have := (loadWord s.mem (s.a .r4)).isLt; omega) h₂
  rw [show (ctors s.mem (s.a .r4)).length - 1 + 1 = (ctors s.mem (s.a .r4)).length by omega] at h₃
  obtain ⟨u, hu, hb⟩ := h₃.called
  have hlog := h₃.log
  rw [List.take_length] at hu hlog
  exact ⟨u, { s₃ with pc := target p .Crt0CtorInit + 12 }, hu,
    ⟨hb.a, hb.d, hb.csfr, hb.mem, hb.calls⟩,
    ⟨(hs₂.trans hs₃).trans (hfinish _ hpc₃), hat 12 (by decide), h₃.ra,
      h₃.lists.trans (.of_eq rfl)⟩, h₃.kept, hlog⟩

/-- A function with a stack frame, which stores a number there and at `0x500`. -/
def frameCtor (k : Word) : List (Line Label) :=
  [.op (.addAk .r10 (-8)), .op (.mov .r2 k), .op (.stW .r10 .r2), .op (.movAk .r2 0x500),
    .op (.stW .r2 .r2), .ret]

/-- The program with two constructors behind it. -/
def twoCtors : List (Line Label) := crt0 ++ frameCtor 7 ++ frameCtor 8

/-- The address of the first one. -/
def firstCtor : Word := BitVec.ofNat 32 crt0.length

/-- The address of the second one. -/
def secondCtor : Word := BitVec.ofNat 32 (crt0.length + 6)

/-- A core with a table of the two functions at `0x200`, its stack at `0x800`, its context at
`0x2100` and a free area at `0x2000`. -/
def ctorCpu : Cpu where
  pc := target crt0 .Crt0CtorInit
  a := fun
    | .r10 => 0x800
    | _ => 0x200
  d := fun _ => 0
  csfr := fun
    | .pcxi => 0x100084
    | .fcx => 0x80
    | .lcx => 0x90
    | _ => 0
  mem := storeWord (storeWord (storeWord (fun _ => 0) 0x200 2) 0x204 firstCtor) 0x208 secondCtor
  calls := []

/-- A function leaves the stack pointer, the lists of contexts, and its number at `0x500`. -/
def Stores (f : Word) (v w : Cpu) : Prop :=
  w.a .r10 = v.a .r10 ∧ SameLists v w ∧ loadWord w.mem 0x500 = if f = firstCtor then 7 else 8

theorem ctors_ctorCpu : ctors ctorCpu.mem (ctorCpu.a .r4) = [firstCtor, secondCtor] := by
  decide

theorem Called.stores {s u : Cpu} {fs : List Word} (h : Called Stores s fs u) :
    u.a .r10 = s.a .r10 ∧ SameLists s u := by
  induction h with
  | nil => exact ⟨rfl, .of_eq rfl⟩
  | snoc _ hb hE ih =>
    obtain ⟨hsp, hlists, -⟩ := hE
    refine ⟨hsp.trans ((hb.a .r10 (by decide) (by decide) (by decide)).trans ih.1), ?_⟩
    exact (ih.2.trans (.of_eq hb.csfr)).trans hlists

theorem le_toNat_sub_of {x ea : Word} (h : x.toNat < ea.toNat ∨ ea.toNat + 4 ≤ x.toNat)
    (hea : ea.toNat + 4 ≤ 2 ^ 32) : 4 ≤ (x - ea).toNat := by
  have hx := x.isLt
  rw [BitVec.toNat_sub]
  omega

theorem ctorCpu_keeps {x : Word} (h : Keeps ctorCpu x) : x.toNat < 0x20C ∨ 0x2100 ≤ x.toNat := by
  rcases h with ⟨i, hi, rfl⟩ | h
  · rw [ctors_ctorCpu] at hi
    refine Or.inl ?_
    revert i
    decide
  · refine Or.inr ?_
    rw [show csaOf (ctorCpu.csfr .pcxi) = 0x2100 by decide, InArea, BitVec.toNat_sub] at h
    change (4294967296 - 0x2100 + x.toNat) % 4294967296 < 64 at h
    have hx := x.isLt
    omega

theorem ctorCpu_area {v : Cpu} (h : SameLists ctorCpu v) {x : Word}
    (hx : InArea (freeArea v) x) : 0x2000 ≤ x.toNat ∧ x.toNat < 0x2040 := by
  rw [show freeArea v = freeArea ctorCpu from csaOf_congr h.fcx,
    show freeArea ctorCpu = 0x2000 by decide, InArea, BitVec.toNat_sub] at hx
  change (4294967296 - 0x2000 + x.toNat) % 4294967296 < 64 at hx
  have hlt := x.isLt
  omega

theorem isCtor_frameCtor {q : ℕ} {w : Word} {v : Cpu} (hq : q < 2 ^ 32)
    (htext : (twoCtors.drop q).take 6 = frameCtor w)
    (hw : w = if BitVec.ofNat 32 q = firstCtor then 7 else 8) (hsp : v.a .r10 = 0x800)
    (hlists : SameLists ctorCpu v) (hpc : v.pc = callLine twoCtors) :
    IsCtor twoCtors Stores (Keeps ctorCpu) (BitVec.ofNat 32 q) v := by
  have hq' : (BitVec.ofNat 32 q).toNat = q := by
    rw [BitVec.toNat_ofNat, Nat.mod_eq_of_lt hq]
  have hat : ∀ i < 6, twoCtors[q + i]? = _ := fun i => getElem?_of_text htext
  obtain ⟨t, hsteps, hpct, hmem, hra, h4, hcsfr, hcalls⟩ : ∃ t, Steps twoCtors (entry v q) t ∧
      t.pc = q + 5 ∧ t.mem = storeWord (storeWord (entry v q).mem (v.a .r10 + -8) w) 0x500 w ∧
      t.a .r11 = (entry v q).a .r11 ∧ t.a .r4 = v.a .r4 ∧ t.csfr = (entry v q).csfr ∧
      t.calls = (entry v q).calls := by
    have hblock := congrArg (List.take 5) htext
    rw [List.take_take] at hblock
    refine ⟨_, steps_ops (k := q)
      [.addAk .r10 (-8), .mov .r2 w, .stW .r10 .r2, .movAk .r2 0x500, .stW .r2 .r2] rfl hblock
      ⟨rfl, rfl, ?_, rfl, (show ((0x500 : Word).toNat % 2 == 0) = true by decide), trivial⟩, rfl,
      rfl, rfl, rfl, rfl, rfl⟩
    change ((v.a .r10 + -8).toNat % 2 == 0) = true
    rw [hsp]
    decide
  have hr : Routine twoCtors (entry v q) t := by
    refine ⟨hsteps, ?_, hra, .of_eq hcsfr⟩
    rw [hpct]
    exact hat 5 (by decide)
  -- the two words lie below the context save areas and above the table
  have hout : ∀ x : Word, x.toNat < 0x500 ∨ 0x800 ≤ x.toNat → t.mem x = (entry v q).mem x := by
    intro x hx
    rw [hmem, hsp, storeWord, overlay_of_le, storeWord, overlay_of_le]
    · refine le_toNat_sub_of ?_ (by decide)
      change x.toNat < 0x7F8 ∨ 0x7F8 + 4 ≤ x.toNat
      omega
    · refine le_toNat_sub_of ?_ (by decide)
      change x.toNat < 0x500 ∨ 0x500 + 4 ≤ x.toNat
      omega
  have hsaved : ∀ x, InArea (freeArea v) x → t.mem x = (entry v q).mem x := fun x hx =>
    hout x (Or.inr (Nat.le_trans (by decide) (ctorCpu_area hlists hx).1))
  have hfree : ¬ depleted v := by
    unfold depleted
    rw [hlists.fcx, hlists.lcx]
    decide
  obtain ⟨-, hret⟩ := hr.returns hfree (by rw [hpc]; decide) hsaved
  refine ⟨t, hq'.symm ▸ hr, ⟨hret.upperA .r10 rfl, hret.lists, ?_⟩, h4, hq'.symm ▸ hsaved,
    fun x hx => ?_, by rw [hq', hcalls]⟩
  · rw [hret.mem.loadWord, hmem, loadWord_storeWord, hw]
    intro i hi hx
    have hlt : ∀ i < 4, ((0x500 : Word) + BitVec.ofNat 32 i).toNat < 0x2000 := by decide
    exact absurd (ctorCpu_area hlists hx).1 (Nat.not_le.mpr (hlt i hi))
  · have hkeeps := ctorCpu_keeps hx
    rw [hout x (by omega)]
    refine eqOff_entry v q x fun harea => ?_
    have hin := ctorCpu_area hlists harea
    omega

theorem ctorsOk_ctorCpu : CtorsOk twoCtors Stores ctorCpu := by
  intro fs f rest u v hsplit hu hb hpc
  obtain ⟨hsp, hlists⟩ := hu.stores
  have hsp' : v.a .r10 = 0x800 := (hb.a .r10 (by decide) (by decide) (by decide)).trans hsp
  have hlists' : SameLists ctorCpu v := hlists.trans (.of_eq hb.csfr)
  have hf : f ∈ [firstCtor, secondCtor] := by
    rw [← ctors_ctorCpu, hsplit]
    exact List.mem_append_right _ List.mem_cons_self
  rcases List.mem_pair.mp hf with rfl | rfl
  · exact isCtor_frameCtor (w := 7) (by decide) rfl (by decide) hsp' hlists' hpc
  · exact isCtor_frameCtor (w := 8) (by decide) rfl (by decide) hsp' hlists' hpc

theorem ctorCpu_canCall : CanCall ctorCpu where
  free := by decide
  off := fun x hx harea => by
    have h₁ := ctorCpu_keeps hx
    have h₂ := ctorCpu_area (.of_eq rfl) harea
    omega

theorem Crt0CtorInit_routine_twoCtors : ∃ u s', Called Stores ctorCpu [firstCtor, secondCtor] u ∧
    Between u s' ∧ Routine twoCtors ctorCpu s' ∧
      (∀ x, Keeps ctorCpu x → s'.mem x = ctorCpu.mem x) ∧
      s'.calls.filter (·.1 = callLine twoCtors) =
        [(callLine twoCtors, firstCtor.toNat), (callLine twoCtors, secondCtor.toNat)] :=
  Crt0CtorInit_routine (by decide) rfl rfl rfl rfl (by decide) (fun _ => ctorCpu_canCall)
    ctorsOk_ctorCpu

end Runtime

end AurixAsync
