import AurixAsync.Lib.Run
import Mathlib.Algebra.Group.Nat.Defs
import Mathlib.Data.UInt

/-!
# Critical sections

`Section::acquire` and `Section::release`, one instruction per step, in a core whose interrupts
come whenever they are enabled. `CriticalSectionRawMutex::lock` is an acquire, its closure and a
release.

* `Context`, `Core`: an interrupt handler or the thread with the sections it has open; the core.
* `Action`, `step`: the instructions of the two functions, and the interrupts.
* `Transparent`: a section keeps the interrupts disabled, the counter counts the open sections, and
  after an outermost release the interrupts are as they were before its acquire.
* `atomic_of_reachable`: the first two hold in every run that nests fewer than `2 ^ 32` sections.
* `Restores`: the steps that keep all three.
* `transparent_along_iff`: a run keeps `Transparent` if and only if each of its steps is one of
  these.
-/

namespace AurixAsync

namespace CriticalSection

open Transition

/-- A section that is open. -/
structure Section where
  /-- What `acquire` returned. -/
  wasActive : Bool
  /-- Whether interrupts were enabled before its `acquire`. -/
  before : Bool
deriving DecidableEq, Repr

/-- Where a context stands. -/
inductive Stage
  | code
  /-- In `acquire`, after `disable`. -/
  | disabled (before : Bool)
  /-- In `release` of a section, after `fetch_sub` returned `old`. -/
  | released (old : UInt32) (released : Section)
deriving DecidableEq

/-- An interrupt handler, or the thread: the interrupt-enable state that its return restores, and
its open sections, the innermost first. -/
structure Context where
  saved : Bool
  sections : List Section
  stage : Stage
deriving DecidableEq

/-- A context that just begins. -/
def Context.entry (saved : Bool) : Context := ⟨saved, [], .code⟩

/-- The core. `restored` belongs to no code: when the last step was the end of an outermost
release, it tells whether interrupts were enabled before the matching acquire. -/
structure Core where
  /-- `ICR.IE`. -/
  ie : Bool
  /-- `NESTED_INTERRUPT_NR`. -/
  nested : UInt32
  running : Context
  interrupted : List Context
  restored : Option Bool
deriving DecidableEq

namespace Core

/-- After reset: the thread, with interrupts disabled. -/
def new : Core := ⟨false, 0, .entry false, [], none⟩

/-- All contexts. -/
def contexts (c : Core) : List Context := c.running :: c.interrupted

/-- The number of open sections. -/
def openSections (c : Core) : ℕ := (c.contexts.map fun x => x.sections.length).sum

/-- The instructions of `acquire` and `release`, and what the hardware does between two of them. -/
inductive Action
  /-- The `enable` of `Kernel::init`, in the thread. -/
  | init
  /-- The `disable` of `acquire`. -/
  | disable
  /-- The `fetch_add` of `acquire`. -/
  | fetchAdd
  /-- The `fetch_sub` of `release`. -/
  | fetchSub
  /-- The rest of `release`, with its `enable`. -/
  | enable
  | interrupt
  /-- The return from an interrupt. -/
  | ret
deriving DecidableEq

/-- Sections are well nested: a context releases what it acquired, the innermost first, and ends
with none open. -/
def step (c : Core) : Action → Option Core
  | .init =>
    if c.interrupted = [] ∧ c.running.sections = [] ∧ c.running.stage = .code then
      some { c with ie := true, restored := none }
    else none
  | .disable =>
    if c.running.stage = .code then
      some { c with
        ie := false, running := { c.running with stage := .disabled c.ie }, restored := none }
    else none
  | .fetchAdd =>
    match c.running.stage with
    | .disabled before =>
      some { c with
        nested := c.nested + 1
        running :=
          { c.running with
            sections := ⟨c.nested = 0, before⟩ :: c.running.sections, stage := .code }
        restored := none }
    | _ => none
  | .fetchSub =>
    match c.running.stage, c.running.sections with
    | .code, x :: xs =>
      some { c with
        nested := c.nested - 1
        running := { c.running with sections := xs, stage := .released c.nested x }
        restored := none }
    | _, _ => none
  | .enable =>
    match c.running.stage with
    | .released old x =>
      -- `was_active` is not read
      some { c with
        ie := c.ie || decide (old ≤ 1)
        running := { c.running with stage := .code }
        restored := if c.running.sections = [] then some x.before else none }
    | _ => none
  | .interrupt =>
    if c.ie then
      some { c with
        ie := false, running := .entry c.ie, interrupted := c.running :: c.interrupted,
        restored := none }
    else none
  | .ret =>
    match c.interrupted with
    | x :: xs =>
      if c.running.sections = [] ∧ c.running.stage = .code then
        some { c with ie := c.running.saved, running := x, interrupted := xs, restored := none }
      else none
    | [] => none

/-- A section keeps the interrupts disabled, and the counter counts the open sections. -/
structure Atomic (c : Core) : Prop where
  disabled : ∀ x ∈ c.contexts, x.sections ≠ [] → c.ie = false
  counted : c.nested.toNat = c.openSections

/-- Critical sections are atomic, and an outermost release leaves the interrupts as its acquire
found them. -/
structure Transparent (c : Core) : Prop where
  atomic : Atomic c
  restored : ∀ before, c.restored = some before → c.ie = before

/-- An acquire does not nest `2 ^ 32` sections. -/
def NestsBelow (c : Core) : Action → Prop
  | .fetchAdd => c.openSections + 1 < 2 ^ 32
  | _ => True

/-- The condition on a step: the number of open sections stays below `2 ^ 32`, and an outermost
section that is released was acquired with interrupts enabled. -/
def Restores (c : Core) : Action → Prop
  | .fetchAdd => c.openSections + 1 < 2 ^ 32
  | .enable => ∀ old x, c.running.stage = .released old x → c.running.sections = [] →
    x.before = true
  | _ => True

variable {c c' : Core}

/-! ### What each action does -/

theorem step_init : c.step .init = some c' ↔
    (c.interrupted = [] ∧ c.running.sections = [] ∧ c.running.stage = .code) ∧
      { c with ie := true, restored := none } = c' := by
  rw [step]
  split_ifs with h
  · rw [Option.some.injEq]
    exact (and_iff_right h).symm
  · exact ⟨fun e => absurd e (by simp), fun e => absurd e.1 h⟩

theorem step_disable : c.step .disable = some c' ↔ c.running.stage = .code ∧
    { c with
      ie := false, running := { c.running with stage := .disabled c.ie },
      restored := none } = c' := by
  rw [step]
  split_ifs with h <;> simp [h]

theorem step_fetchAdd : c.step .fetchAdd = some c' ↔
    ∃ before, c.running.stage = .disabled before ∧
      { c with
        nested := c.nested + 1
        running :=
          { c.running with
            sections := ⟨c.nested = 0, before⟩ :: c.running.sections, stage := .code }
        restored := none } = c' := by
  rw [step]
  cases h : c.running.stage <;> simp

theorem step_fetchSub : c.step .fetchSub = some c' ↔
    c.running.stage = .code ∧ ∃ x xs, c.running.sections = x :: xs ∧
      { c with
        nested := c.nested - 1
        running := { c.running with sections := xs, stage := .released c.nested x }
        restored := none } = c' := by
  rw [step]
  cases h : c.running.stage <;> cases hs : c.running.sections <;> simp

theorem step_enable : c.step .enable = some c' ↔
    ∃ old x, c.running.stage = .released old x ∧
      { c with
        ie := c.ie || decide (old ≤ 1)
        running := { c.running with stage := .code }
        restored := if c.running.sections = [] then some x.before else none } = c' := by
  rw [step]
  cases h : c.running.stage <;> simp

theorem step_interrupt : c.step .interrupt = some c' ↔ c.ie = true ∧
    { c with
      ie := false, running := .entry c.ie, interrupted := c.running :: c.interrupted,
      restored := none } = c' := by
  rw [step]
  split_ifs with h <;> simp [h]

theorem step_ret : c.step .ret = some c' ↔
    (c.running.sections = [] ∧ c.running.stage = .code) ∧ ∃ x xs, c.interrupted = x :: xs ∧
      { c with ie := c.running.saved, running := x, interrupted := xs, restored := none } = c' := by
  rw [step]
  cases h : c.interrupted with
  | nil => simp
  | cons x xs =>
    show (if c.running.sections = [] ∧ c.running.stage = .code then _ else none) = some c' ↔ _
    split_ifs with hr
    · simp [hr]
    · simp [hr]

/-! ### The invariant -/

/-- What the running context is in while a section is open or a function is under way: interrupts
are disabled, and what `fetch_sub` returned is the number of sections before it. -/
structure SectionInv (c : Core) : Prop where
  /-- Only code without open sections is interrupted. -/
  interrupted : ∀ x ∈ c.interrupted, x.sections = [] ∧ x.stage = .code
  sections : c.running.sections ≠ [] → c.ie = false
  stage : c.running.stage ≠ .code → c.ie = false
  counted : c.nested.toNat = c.running.sections.length
  released : ∀ old x, c.running.stage = .released old x →
    old.toNat = c.running.sections.length + 1

theorem sectionInv_new : SectionInv new where
  interrupted := fun _ hx => absurd hx List.not_mem_nil
  sections := fun h => absurd rfl h
  stage := fun h => absurd rfl h
  counted := rfl
  released := fun _ _ h => absurd h (by simp [new, Context.entry])

theorem SectionInv.openSections_eq (hi : SectionInv c) :
    c.openSections = c.running.sections.length := by
  have hzero : ∀ l : List Context, (∀ x ∈ l, x.sections = [] ∧ x.stage = .code) →
      (l.map fun x => x.sections.length).sum = 0 := by
    intro l
    induction l with
    | nil => exact fun _ => rfl
    | cons x xs ih =>
      intro h
      rw [List.map_cons, List.sum_cons, ih fun y hy => h y (List.mem_cons_of_mem _ hy),
        (h x List.mem_cons_self).1]
      rfl
  rw [openSections, contexts, List.map_cons, List.sum_cons, hzero _ hi.interrupted, Nat.add_zero]

theorem SectionInv.atomic (hi : SectionInv c) : Atomic c where
  disabled := by
    intro x hx hne
    rcases List.mem_cons.mp hx with rfl | hx
    · exact hi.sections hne
    · exact absurd (hi.interrupted x hx).1 hne
  counted := by rw [hi.openSections_eq, hi.counted]

theorem toNat_le_one (n : UInt32) : n ≤ 1 ↔ n.toNat ≤ 1 := by
  rw [UInt32.le_iff_toNat_le]
  rfl

theorem toNat_add_one {n : UInt32} (h : n.toNat + 1 < 2 ^ 32) : (n + 1).toNat = n.toNat + 1 := by
  rw [UInt32.toNat_add]
  exact Nat.mod_eq_of_lt h

theorem toNat_sub_one {n : UInt32} (h : n.toNat ≠ 0) : (n - 1).toNat = n.toNat - 1 := by
  apply UInt32.toNat_sub_of_le
  rw [UInt32.le_iff_toNat_le]
  exact Nat.one_le_iff_ne_zero.mpr h

theorem SectionInv.step (hi : SectionInv c) {a : Action} (h : c.step a = some c')
    (hn : NestsBelow c a) : SectionInv c' := by
  cases a with
  | init =>
    obtain ⟨⟨hint, hsec, hst⟩, rfl⟩ := step_init.mp h
    exact ⟨hi.interrupted, fun hne => absurd hsec hne, fun hne => absurd hst hne, hi.counted,
      hi.released⟩
  | disable =>
    obtain ⟨hst, rfl⟩ := step_disable.mp h
    exact ⟨hi.interrupted, fun _ => rfl, fun _ => rfl, hi.counted,
      fun _ _ he => absurd he (by simp)⟩
  | fetchAdd =>
    obtain ⟨before, hst, rfl⟩ := step_fetchAdd.mp h
    have hie : c.ie = false := hi.stage (by rw [hst]; simp)
    refine ⟨hi.interrupted, fun _ => hie, fun _ => hie, ?_, fun _ _ he => absurd he (by simp)⟩
    have hlt : c.nested.toNat + 1 < 2 ^ 32 := by
      rw [hi.counted, ← hi.openSections_eq]
      exact hn
    show (c.nested + 1).toNat = c.running.sections.length + 1
    rw [toNat_add_one hlt, hi.counted]
  | fetchSub =>
    obtain ⟨hst, x, xs, hsec, rfl⟩ := step_fetchSub.mp h
    have hie : c.ie = false := hi.sections (by rw [hsec]; simp)
    have hlen : c.nested.toNat = xs.length + 1 := by
      rw [hi.counted, hsec, List.length_cons]
    refine ⟨hi.interrupted, fun _ => hie, fun _ => hie, ?_, ?_⟩
    · show (c.nested - 1).toNat = xs.length
      rw [toNat_sub_one (by omega), hlen]
      rfl
    · intro old y he
      obtain ⟨rfl, -⟩ := Stage.released.inj he
      exact hlen
  | enable =>
    obtain ⟨old, x, hst, rfl⟩ := step_enable.mp h
    have hie : c.ie = false := hi.stage (by rw [hst]; simp)
    have hold := hi.released old x hst
    refine ⟨hi.interrupted, fun hne => ?_, fun hne => absurd rfl hne, hi.counted,
      fun _ _ he => absurd he (by simp)⟩
    -- another section is open, so it is not the last one
    have hpos : 0 < c.running.sections.length := List.length_pos_iff.mpr hne
    have hgt : ¬ old ≤ 1 := by
      rw [toNat_le_one]
      omega
    show (c.ie || decide (old ≤ 1)) = false
    rw [hie, decide_eq_false hgt]
    rfl
  | interrupt =>
    obtain ⟨hie, rfl⟩ := step_interrupt.mp h
    have hsec : c.running.sections = [] := by
      by_contra hne
      rw [hi.sections hne] at hie
      exact absurd hie Bool.false_ne_true
    have hst : c.running.stage = .code := by
      by_contra hne
      rw [hi.stage hne] at hie
      exact absurd hie Bool.false_ne_true
    refine ⟨fun x hx => ?_, fun _ => rfl, fun _ => rfl, ?_,
      fun _ _ he => absurd he (by simp [Context.entry])⟩
    · rcases List.mem_cons.mp hx with rfl | hx
      · exact ⟨hsec, hst⟩
      · exact hi.interrupted x hx
    · show c.nested.toNat = 0
      rw [hi.counted, hsec]
      rfl
  | ret =>
    obtain ⟨⟨hsec, hst⟩, x, xs, hint, rfl⟩ := step_ret.mp h
    have hx := hi.interrupted x (by rw [hint]; exact List.mem_cons_self)
    refine ⟨fun y hy => hi.interrupted y (by rw [hint]; exact List.mem_cons_of_mem _ hy),
      fun hne => absurd hx.1 hne, fun hne => absurd hx.2 hne, ?_,
      fun _ _ he => absurd (hx.2.symm.trans he) (by simp)⟩
    show c.nested.toNat = x.sections.length
    rw [hi.counted, hsec, hx.1]

theorem nestsBelow_of_restores {a : Action} (h : Restores c a) : NestsBelow c a := by
  cases a <;> first | exact h | trivial

/-- **Critical sections are atomic**: in every run that nests fewer than `2 ^ 32` of them, in
handlers and in the thread. -/
theorem atomic_of_reachable {tr : List (Core × Action)} (hr : Run step new tr c)
    (hn : AllSteps NestsBelow tr) : Along Atomic tr c := by
  suffices h : Along SectionInv tr c from ⟨fun p hp => (h.1 p hp).atomic, h.2.atomic⟩
  induction hr with
  | nil => exact ⟨fun _ hp => absurd hp List.not_mem_nil, sectionInv_new⟩
  | snoc _ hst ih =>
    obtain ⟨hn, ha⟩ := allSteps_snoc.mp hn
    have hal := ih hn
    exact along_snoc.mpr ⟨hal, hal.2.step hst ha⟩

/-! ### The outermost release -/

/-- The invariant, with what the last release restored. -/
structure RestoreInv (c : Core) : Prop where
  inv : SectionInv c
  restored : ∀ before, c.restored = some before → c.ie = before

theorem RestoreInv.transparent (hi : RestoreInv c) : Transparent c :=
  ⟨hi.inv.atomic, hi.restored⟩

theorem SectionInv.enable (hi : SectionInv c) {old : UInt32} {x : Section}
    (hst : c.running.stage = .released old x) (hsec : c.running.sections = []) : old ≤ 1 := by
  have hold := hi.released old x hst
  rw [hsec] at hold
  rw [toNat_le_one, hold]
  exact Nat.le_refl 1

theorem RestoreInv.step (hi : RestoreInv c) {a : Action} (h : c.step a = some c')
    (hc : Restores c a) : RestoreInv c' := by
  refine ⟨hi.inv.step h (nestsBelow_of_restores hc), ?_⟩
  cases a with
  | init => obtain ⟨-, rfl⟩ := step_init.mp h; exact fun _ he => absurd he (by simp)
  | disable => obtain ⟨-, rfl⟩ := step_disable.mp h; exact fun _ he => absurd he (by simp)
  | fetchAdd => obtain ⟨-, -, rfl⟩ := step_fetchAdd.mp h; exact fun _ he => absurd he (by simp)
  | fetchSub =>
    obtain ⟨-, -, -, -, rfl⟩ := step_fetchSub.mp h
    exact fun _ he => absurd he (by simp)
  | enable =>
    obtain ⟨old, x, hst, rfl⟩ := step_enable.mp h
    intro before he
    change (if c.running.sections = [] then some x.before else none) = some before at he
    show (c.ie || decide (old ≤ 1)) = before
    split_ifs at he with hsec
    · rw [← Option.some.inj he, hc old x hst hsec, decide_eq_true (hi.inv.enable hst hsec),
        Bool.or_true]
  | interrupt => obtain ⟨-, rfl⟩ := step_interrupt.mp h; exact fun _ he => absurd he (by simp)
  | ret => obtain ⟨-, -, -, -, rfl⟩ := step_ret.mp h; exact fun _ he => absurd he (by simp)

theorem restores_of_transparent (hi : RestoreInv c) {a : Action} (h : c.step a = some c')
    (hg : Transparent c') : Restores c a := by
  cases a with
  | fetchAdd =>
    obtain ⟨before, hst, rfl⟩ := step_fetchAdd.mp h
    have hcount := hg.atomic.counted
    have hlt := (c.nested + 1).toNat_lt
    have hsum : openSections { c with
        nested := c.nested + 1
        running :=
          { c.running with
            sections := ⟨c.nested = 0, before⟩ :: c.running.sections, stage := .code }
        restored := none } = c.openSections + 1 := by
      simp only [openSections, contexts, List.map_cons, List.sum_cons, List.length_cons]
      omega
    rw [hsum] at hcount
    change (c.nested + 1).toNat = _ at hcount
    show c.openSections + 1 < 2 ^ 32
    rw [← hcount]
    exact hlt
  | enable =>
    obtain ⟨old, x, hst, rfl⟩ := step_enable.mp h
    intro old' x' hst' hsec
    obtain ⟨rfl, rfl⟩ := Stage.released.inj (hst.symm.trans hst')
    have hr := hg.restored x.before (if_pos hsec)
    change (c.ie || decide (old ≤ 1)) = x.before at hr
    rw [← hr, decide_eq_true (hi.inv.enable hst hsec), Bool.or_true]
  | _ => trivial

/-- **Critical sections are transparent exactly when they are entered with interrupts enabled.** In
every run of the thread and of handlers that preempt it and each other: `Transparent` holds in
every state if and only if every outermost section that is released was acquired with interrupts
enabled, and fewer than `2 ^ 32` sections are open at a time. -/
theorem transparent_along_iff (tr : List (Core × Action)) (c : Core) (hr : Run step new tr c) :
    Along Transparent tr c ↔ AllSteps Restores tr := by
  refine Run.exact (I := RestoreInv) (B := fun _ => True)
    ⟨sectionInv_new, fun _ h => absurd h (by simp [new])⟩
    (fun _ h => h.transparent) (fun _ _ _ _ h => h) ?_ ?_ hr trivial
  · exact fun c a c' hi _ h hc => hi.step h hc
  · exact fun c a c' hi _ h hg => restores_of_transparent hi h hg

/-- A handler locks a mutex. -/
def handlerRun : List Action := [.init, .interrupt, .disable, .fetchAdd, .fetchSub, .enable]

/-- After `handlerRun` the handler runs on with interrupts enabled. -/
theorem not_transparent_handlerRun :
    ∃ c, runList step new handlerRun = some c ∧ ¬ Transparent c := by
  refine ⟨_, rfl, fun hg => ?_⟩
  exact absurd (hg.restored false rfl) (by decide)

/-- The thread locks a mutex with interrupts enabled. -/
theorem transparent_along_iff_thread :
    ∃ tr c, Run step new tr c ∧
      tr.map Prod.snd = [.init, .disable, .fetchAdd, .fetchSub, .enable, .interrupt, .ret] ∧
        (Along Transparent tr c ↔ AllSteps Restores tr) := by
  obtain ⟨c, hc⟩ : ∃ c, runList step new
      [.init, .disable, .fetchAdd, .fetchSub, .enable, .interrupt, .ret] = some c := ⟨_, rfl⟩
  obtain ⟨tr, hr, ha⟩ := exists_run_of_runList hc
  exact ⟨tr, c, hr, ha, transparent_along_iff tr c hr⟩

end Core

end CriticalSection

end AurixAsync
