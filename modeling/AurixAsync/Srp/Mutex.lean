import AurixAsync.Lib.Run
import Mathlib.Data.List.Nodup
import Mathlib.Order.Lattice

/-!
# SRP mutexes

The configuration of an `SrpMutex` and `do_srp`, in a core with priority-based preemption. The
priorities are numbers; the code compares them and takes their maximum, and no more.

* `State`, `registerAccess`, `Config`: a mutex from `new` through its `register_access` calls.
* `Frame`, `Context`, `Core`: a call of `lock`, an interrupt with the calls it is in, the core.
* `Action`, `step`: `do_srp` step by step, with the interrupts that may come in between.
* `register_spec`: what the state of a mutex says of the priorities registered with it.
-/

namespace AurixAsync

namespace Srp

open Transition

/-- Who was registered with a mutex: one priority once, one priority more than once, or several
priorities, with the ceiling. -/
inductive State
  | owned (p : ℕ)
  | coOwned (p : ℕ)
  | contended (p : ℕ)
deriving DecidableEq, Repr

/-- `register_access`: a priority is registered. -/
def registerAccess (prio : ℕ) : State → State
  | .owned p => if p = prio then .coOwned p else .contended (max p prio)
  | .coOwned p => if p ≠ prio then .contended (max p prio) else .coOwned p
  | .contended p => if p ≠ prio then .contended (max p prio) else .contended p

/-- For each mutex the priority given to `new` and those given to `register_access`, in order. -/
structure Config (ι : Type) where
  new : ι → ℕ
  accesses : ι → List ℕ

namespace Config

variable {ι : Type}

/-- The state of a mutex after the configuration. -/
def state (cfg : Config ι) (m : ι) : State :=
  (cfg.accesses m).foldl (fun x prio => registerAccess prio x) (.owned (cfg.new m))

/-- The priority was registered with the mutex. -/
def Registered (cfg : Config ι) (m : ι) (prio : ℕ) : Prop :=
  prio = cfg.new m ∨ prio ∈ cfg.accesses m

instance (cfg : Config ι) (m : ι) (prio : ℕ) : Decidable (cfg.Registered m prio) := by
  unfold Registered
  infer_instance

end Config

/-- Where a call of `do_srp` stands. A contended mutex carries its ceiling and, once it is read,
the previous one. -/
inductive Phase
  | readCeiling (p : ℕ)
  | raiseCeiling (p previous : ℕ)
  | body (ceiling : Option (ℕ × ℕ))
  | restoreCeiling (p previous : ℕ)
deriving DecidableEq

/-- A call of `lock` or `lock_mut`, with the CCPN it was made at. -/
structure Frame (ι : Type) where
  mutex : ι
  entry : ℕ
  phase : Phase
deriving DecidableEq

/-- `f` is being executed. -/
def Frame.active {ι : Type} (f : Frame ι) : Bool :=
  match f.phase with
  | .body _ => true
  | _ => false

/-- What an interrupt saves of ICR: the CCPN and the interrupt enable. -/
structure Icr where
  ccpn : ℕ
  ie : Bool
deriving DecidableEq

/-- An interrupt handler, or the thread at the bottom: its priority, the ICR it interrupted, and
the calls it is in, the innermost first. -/
structure Context (ι : Type) where
  prio : ℕ
  saved : Icr
  frames : List (Frame ι)

/-- The core, with its contexts from the running one down. -/
structure Core (ι : Type) where
  ccpn : ℕ
  ie : Bool
  stack : List (Context ι)

/-- The thread at priority 0, outside all calls. -/
def Context.thread (ι : Type) : Context ι := ⟨0, ⟨0, false⟩, []⟩

/-- The thread runs, with interrupts disabled. -/
def Core.init (ι : Type) : Core ι := ⟨0, false, [.thread ι]⟩

/-- What the running context does, and what the hardware does to it. -/
inductive Action (ι : Type)
  | lock (m : ι)
  | readCeiling
  | raiseCeiling
  | endBody
  | restoreCeiling
  | setIe (ie : Bool)
  | interrupt (q : ℕ)
  | iret
deriving DecidableEq

variable {ι : Type} [DecidableEq ι]

/-- The first phase of a call: only a contended mutex has a ceiling. -/
def State.enter : State → Phase
  | .contended p => .readCeiling p
  | _ => .body none

/-- The running context calls `lock`, in a body of its own or outside of any. Its priority is
registered with the mutex, and it does not hold it. -/
def Context.canLock (cfg : Config ι) (c : Context ι) (m : ι) : Prop :=
  cfg.Registered m c.prio ∧ m ∉ c.frames.map Frame.mutex ∧ ∀ f ∈ c.frames.head?, f.active

instance (cfg : Config ι) (c : Context ι) (m : ι) : Decidable (c.canLock cfg m) := by
  unfold Context.canLock
  infer_instance

/-- One action of the core. `none` if it is not possible. -/
def step (cfg : Config ι) (s : Core ι) : Action ι → Option (Core ι)
  | .lock m =>
    match s.stack with
    | c :: cs =>
      if c.canLock cfg m then
        some { s with
          stack := { c with frames := ⟨m, s.ccpn, (cfg.state m).enter⟩ :: c.frames } :: cs }
      else none
    | [] => none
  | .readCeiling =>
    match s.stack with
    | ⟨prio, saved, ⟨m, entry, .readCeiling p⟩ :: fs⟩ :: cs =>
      some { s with stack := ⟨prio, saved, ⟨m, entry, .raiseCeiling p s.ccpn⟩ :: fs⟩ :: cs }
    | _ => none
  | .raiseCeiling =>
    match s.stack with
    | ⟨prio, saved, ⟨m, entry, .raiseCeiling p previous⟩ :: fs⟩ :: cs =>
      some { s with
        ccpn := if previous < p then p else s.ccpn
        stack := ⟨prio, saved, ⟨m, entry, .body (some (p, previous))⟩ :: fs⟩ :: cs }
    | _ => none
  | .endBody =>
    match s.stack with
    | ⟨prio, saved, ⟨_, _, .body none⟩ :: fs⟩ :: cs =>
      some { s with stack := ⟨prio, saved, fs⟩ :: cs }
    | ⟨prio, saved, ⟨m, entry, .body (some (p, previous))⟩ :: fs⟩ :: cs =>
      some { s with stack := ⟨prio, saved, ⟨m, entry, .restoreCeiling p previous⟩ :: fs⟩ :: cs }
    | _ => none
  | .restoreCeiling =>
    match s.stack with
    | ⟨prio, saved, ⟨_, _, .restoreCeiling _ previous⟩ :: fs⟩ :: cs =>
      some { s with ccpn := previous, stack := ⟨prio, saved, fs⟩ :: cs }
    | _ => none
  | .setIe ie => some { s with ie := ie }
  | .interrupt q =>
    -- a handler begins with the interrupts disabled
    if s.ie ∧ s.ccpn < q then
      some { ccpn := q, ie := false, stack := ⟨q, ⟨s.ccpn, s.ie⟩, []⟩ :: s.stack }
    else none
  | .iret =>
    match s.stack with
    | ⟨_, saved, []⟩ :: c :: cs => some { ccpn := saved.ccpn, ie := saved.ie, stack := c :: cs }
    | _ => none

/-- The call that returns to its caller in this action. -/
def returning (s : Core ι) (a : Action ι) : Option (Frame ι) :=
  match s.stack with
  | ⟨_, _, f :: _⟩ :: _ =>
    match a, f.phase with
    | .endBody, .body none | .restoreCeiling, .restoreCeiling _ _ => some f
    | _, _ => none
  | _ => none

/-- The mutexes with an active body, once for each body. -/
def Core.bodies (s : Core ι) : List ι :=
  s.stack.flatMap fun c => (c.frames.filter Frame.active).map Frame.mutex

/-! ### What the state of a mutex says -/

/-- What a state says of the priorities registered so far. -/
def State.Sound (registered : ℕ → Prop) : State → Prop
  | .owned p | .coOwned p => ∀ q, registered q → q = p
  | .contended p => ∀ q, registered q → q ≤ p

theorem sound_contended {registered : ℕ → Prop} {p : ℕ} (prio : ℕ)
    (h : ∀ q, registered q → q ≤ p) :
    (State.contended (max p prio)).Sound fun q => registered q ∨ q = prio := by
  rintro q (hq | hq)
  · have hle := h q hq
    omega
  · omega

theorem sound_of_eq {registered : ℕ → Prop} {x : State} {p prio : ℕ} (hp : p = prio)
    (h : ∀ q, registered q → q = p) (hx : x = .coOwned p) :
    x.Sound fun q => registered q ∨ q = prio := by
  rw [hx]
  rintro q (hq | hq)
  · exact h q hq
  · rw [hq, hp]

theorem sound_registerAccess {registered : ℕ → Prop} {x : State} (prio : ℕ)
    (h : x.Sound registered) :
    (registerAccess prio x).Sound fun q => registered q ∨ q = prio := by
  cases x with
  | owned p =>
    rw [registerAccess]
    by_cases hp : p = prio
    · rw [if_pos hp]
      exact sound_of_eq hp h rfl
    · rw [if_neg hp]
      exact sound_contended prio fun q hq => (h q hq).le
  | coOwned p =>
    rw [registerAccess]
    by_cases hp : p = prio
    · rw [if_neg (not_not.mpr hp)]
      exact sound_of_eq hp h rfl
    · rw [if_pos hp]
      exact sound_contended prio fun q hq => (h q hq).le
  | contended p =>
    rw [registerAccess]
    by_cases hp : p = prio
    · rw [if_neg (not_not.mpr hp)]
      rintro q (hq | hq)
      · exact h q hq
      · rw [hq, hp]
    · rw [if_pos hp]
      exact sound_contended prio h

theorem sound_foldl {registered : ℕ → Prop} (prios : List ℕ) {x : State}
    (h : x.Sound registered) :
    (prios.foldl (fun x prio => registerAccess prio x) x).Sound
      fun q => registered q ∨ q ∈ prios := by
  induction prios generalizing x registered with
  | nil => simpa using h
  | cons prio prios ih =>
    have hs := ih (sound_registerAccess prio h)
    simpa only [List.foldl_cons, List.mem_cons, or_assoc] using hs

omit [DecidableEq ι] in
/-- **The configuration computes the ceiling**: a contended mutex holds a bound of all priorities
registered with it, in whatever order, and any other mutex has only one priority. -/
theorem register_spec (cfg : Config ι) (m : ι) : (cfg.state m).Sound (cfg.Registered m) := by
  have h₀ : (State.owned (cfg.new m)).Sound fun q => q = cfg.new m := fun q hq => hq
  exact sound_foldl (cfg.accesses m) h₀

end Srp

end AurixAsync
