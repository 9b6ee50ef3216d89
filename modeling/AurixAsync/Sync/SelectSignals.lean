import AurixAsync.Sync.SelectPoll
import AurixAsync.Sync.Signal
import Mathlib.Data.List.Perm.Basic

/-!
# Selects over signals

Any number of signals, with tasks that wait for the first of several of them. A plain `wait()` is a
select over one signal. The poll of a select is one critical section for each signal that it polls,
and everything else may come between two of them. What a select drops is the futures; it leaves its
task in the cells that it polled, and a value in the others.

* `pollSignal`, `pollSelect`: the poll of the future of a `wait()`, with the cells as the world, and
  that of a select.
* `Selected`, `Action`, `step`: the cells, the selects that wait and the polls under way, and for
  each signal the values sent, got, and overwritten or reset.
* `exists_runList_poll`: the critical sections of a poll, with nothing in between, are the poll.
* `Held`, `Accounted`: a select that waits has its task in all the cells that it polled; and a value
  that was sent is in the cell, or was got, or was overwritten or reset.
* `noLostSelect_along_iff`: a run keeps this if and only if no `reset` meets a signal that a select
  waits for.
-/

namespace AurixAsync

namespace Signal

open FirstReady Transition

variable {α : Type}

/-- The value in a cell. -/
def State.value : State α → Option α
  | .signaled val => some val
  | _ => Option.none

theorem State.value_eq_none {s : State α} (h : ∀ v, s ≠ .signaled v) : s.value = Option.none := by
  cases s with
  | signaled v => exact absurd rfl (h v)
  | none => rfl
  | waiting t => rfl

/-- The cells of the signals, and the tasks woken. -/
abbrev Cells (α : Type) := (ℕ → State α) × List TaskRef

/-- A poll of the future of `wait()` of the signal `i`. -/
def pollSignal (task : TaskRef) : PollFn ℕ (Cells α) α := fun i w =>
  let r := (w.1 i).pollWait task
  (r.1, i, Function.update w.1 i r.2.1, w.2 ++ r.2.2)

/-- A poll of the select over some signals. -/
def pollSelect (task : TaskRef) (is : List ℕ) (cells : ℕ → State α) :
    Option (α × ℕ) × SelectArray ℕ × Cells α :=
  SelectArray.poll (pollSignal task) ⟨is⟩ (cells, [])

/-! ### The system -/

/-- The signals; for each select that waits the task it was last polled by; and for each poll under
way its task, and the future whose turn it is. The rest belongs to no code: for each signal the
values that were sent, those that were got, and those that a later signal or a reset removed. -/
structure Selected (α : Type) where
  cells : ℕ → State α
  waiting : ℕ → Option TaskRef
  polling : ℕ → Option (TaskRef × ℕ)
  sent : ℕ → List α
  got : ℕ → List α
  removed : ℕ → List α

namespace Selected

/-- The cells are empty, and no select has been polled. -/
def new : Selected α :=
  ⟨fun _ => .none, fun _ => none, fun _ => none, fun _ => [], fun _ => [], fun _ => []⟩

/-- What the users of the signals do. -/
inductive Action (α : Type)
  | signal (i : ℕ) (val : α)
  | reset (i : ℕ)
  /-- The next critical section of a poll of the select `f`, the first if none is under way. -/
  | poll (f : ℕ) (task : TaskRef)
  /-- The select `f` is dropped, with its futures. -/
  | drop (f : ℕ)
  | tryTake (i : ℕ)
  | signaled (i : ℕ)
  /-- Something else wakes a task. -/
  | wake (task : TaskRef)
deriving DecidableEq

/-- The lists with the values of `o` added to the one of `i`. -/
def add (l : ℕ → List α) (i : ℕ) (o : Option α) : ℕ → List α :=
  Function.update l i (l i ++ o.toList)

variable (inner : ℕ → List ℕ)

/-- A poll begins. A wake from here on makes the task run once more. -/
def beginPoll (s : Selected α) (f : ℕ) (task : TaskRef) : Selected α :=
  { s with
    waiting := Function.update s.waiting f (some task)
    polling := Function.update s.polling f (some (task, 0)) }

/-- The poll of the future `k` of a select. The poll of the select ends if this is ready, or if
there is no other future. -/
def pollNext (s : Selected α) (f : ℕ) (task : TaskRef) (k : ℕ) : Selected α :=
  match (inner f)[k]? with
  | none => { s with polling := Function.update s.polling f none }
  | some i =>
    let r := (s.cells i).pollWait task
    { s with
      cells := Function.update s.cells i r.2.1
      waiting := Waiting.wake (if r.1.isSome then Waiting.dropped s.waiting f else s.waiting) r.2.2
      polling := Function.update s.polling f
        (if r.1.isNone ∧ k + 1 < (inner f).length then some (task, k + 1) else none)
      got := add s.got i r.1 }

/-- The select `f` is over the signals `inner f`. -/
def step (s : Selected α) : Action α → Option (Selected α)
  | .signal i val =>
    let r := (s.cells i).signal val
    some { s with
      cells := Function.update s.cells i r.1
      waiting := Waiting.wake s.waiting r.2
      sent := add s.sent i (some val)
      removed := add s.removed i (s.cells i).value }
  | .reset i =>
    some { s with
      cells := Function.update s.cells i (s.cells i).reset
      removed := add s.removed i (s.cells i).value }
  | .poll f task =>
    match s.polling f with
    | none => some ((s.beginPoll f task).pollNext inner f task 0)
    | some (t, k) => if t = task then some (s.pollNext inner f task k) else none
  | .drop f =>
    match s.polling f with
    | none => some { s with waiting := Waiting.dropped s.waiting f }
    | some _ => none
  | .tryTake i =>
    let r := (s.cells i).tryTake
    some { s with
      cells := Function.update s.cells i r.2
      got := add s.got i r.1 }
  | .signaled i =>
    some { s with cells := Function.update s.cells i (Signal.signaled (s.cells i)).2 }
  | .wake task => some { s with waiting := Waiting.wake s.waiting [task] }

/-- The future whose turn it is in the poll of a select. -/
def index (s : Selected α) (f : ℕ) : ℕ := (s.polling f).elim 0 Prod.snd

/-- The output of the next critical section of a poll. -/
def output (s : Selected α) (f : ℕ) (task : TaskRef) : Option α :=
  (inner f)[s.index f]?.bind fun i => ((s.cells i).pollWait task).1

/-- The signals that a select has polled: all, but while a poll of it is under way. -/
def polled (polling : ℕ → Option (TaskRef × ℕ)) (f : ℕ) : List ℕ :=
  match polling f with
  | none => inner f
  | some (_, k) => (inner f).take k

/-- A select that waits has its task in all the cells that it polled. -/
def Held (s : Selected α) : Prop :=
  ∀ f t, s.waiting f = some t → ∀ i ∈ polled inner s.polling f, s.cells i = .waiting t

/-- A value that was sent is in the cell, or was got, or was removed. -/
def Accounted (s : Selected α) : Prop :=
  ∀ i, (s.sent i).Perm (s.got i ++ s.removed i ++ (s.cells i).value.toList)

/-- The condition on `reset`: no select that polled the signal waits. -/
def ResetsIdle (s : Selected α) : Action α → Prop
  | .reset i => ∀ f t, s.waiting f = some t → i ∉ polled inner s.polling f
  | _ => True

/-- A select waits for no value that is there, and the next signal wakes it. No value is lost but by
a later signal or a reset. -/
structure NoLostSelect (s : Selected α) : Prop where
  held : Held inner s
  woken : ∀ f t, s.waiting f = some t → ∀ i ∈ polled inner s.polling f, ∀ val,
    t ∈ ((s.cells i).signal val).2
  accounted : Accounted s

/-- The tasks are in the cells, and a poll is under way for the task that waits. -/
structure SelectInv (s : Selected α) : Prop where
  held : Held inner s
  own : ∀ f t k u, s.polling f = some (t, k) → s.waiting f = some u → u = t

variable {inner} {s s' : Selected α} {task : TaskRef} {f i j k : ℕ} {x : α}

theorem selectInv_new : SelectInv inner (new : Selected α) where
  held := fun _ _ hf => absurd hf (by simp [new])
  own := fun _ _ _ _ hf => absurd hf (by simp [new])

/-! ### One poll -/

/-- What one critical section of a poll does. -/
theorem pollNext_cases (inner : ℕ → List ℕ) (s : Selected α) (f : ℕ) (task : TaskRef) (k : ℕ) :
    ((inner f)[k]? = none ∧
        s.pollNext inner f task k = { s with polling := Function.update s.polling f none }) ∨
      ∃ i, (inner f)[k]? = some i ∧
        ((∃ x, s.cells i = .signaled x ∧ s.pollNext inner f task k = { s with
            cells := Function.update s.cells i .none
            waiting := Waiting.dropped s.waiting f
            polling := Function.update s.polling f none
            got := add s.got i (some x) }) ∨
          (∀ v, s.cells i ≠ .signaled v) ∧ ∃ woken, task ∉ woken ∧
            (∀ t, s.cells i = .waiting t → t ∉ woken → t = task) ∧
            (pollSignal task i (s.cells, [])).2.2 =
              (Function.update s.cells i (.waiting task), woken) ∧
            s.pollNext inner f task k = { s with
              cells := Function.update s.cells i (.waiting task)
              waiting := Waiting.wake s.waiting woken
              polling := Function.update s.polling f
                (if k + 1 < (inner f).length then some (task, k + 1) else none) }) := by
  unfold pollNext
  cases hk : (inner f)[k]? with
  | none => exact Or.inl ⟨rfl, rfl⟩
  | some i =>
    refine Or.inr ⟨i, rfl, ?_⟩
    rcases State.pollWait_cases (s.cells i) task with ⟨x, hx, hr⟩ | ⟨hne, woken, hr, hnot, hother⟩
    · refine Or.inl ⟨x, hx, ?_⟩
      dsimp only
      rw [hr]
      simp
    · refine Or.inr ⟨hne, woken, hnot, hother, ?_, ?_⟩
      · rw [pollSignal, hr]
        rfl
      · dsimp only
        rw [hr]
        simp [add]

theorem polled_update {polling : ℕ → Option (TaskRef × ℕ)} {o : Option (TaskRef × ℕ)} {g : ℕ}
    (h : j ∈ polled inner (Function.update polling f o) g) :
    g ≠ f ∧ j ∈ polled inner polling g ∨
      g = f ∧ j ∈ o.elim (inner f) fun p => (inner f).take p.2 := by
  unfold polled at h
  by_cases hg : g = f
  · subst hg
    rw [Function.update_self] at h
    cases o with
    | none => exact Or.inr ⟨rfl, h⟩
    | some p => exact Or.inr ⟨rfl, h⟩
  · rw [Function.update_of_ne hg] at h
    exact Or.inl ⟨hg, h⟩

theorem SelectInv.beginPoll (h : SelectInv inner s) (f : ℕ) (task : TaskRef) :
    SelectInv inner (s.beginPoll f task) := by
  refine ⟨fun g t hg j hj => ?_, fun g t k u hp hw => ?_⟩
  · rcases polled_update hj with ⟨hne, hj⟩ | ⟨-, hj⟩
    · exact h.held g t ((Function.update_of_ne hne ..).symm.trans hg) j hj
    · exact absurd hj List.not_mem_nil
  · change Function.update s.polling f (some (task, 0)) g = _ at hp
    change Function.update s.waiting f (some task) g = _ at hw
    by_cases hg : g = f
    · subst hg
      rw [Function.update_self] at hp hw
      cases hp
      exact (Option.some.inj hw).symm
    · rw [Function.update_of_ne hg] at hp hw
      exact h.own g t k u hp hw

theorem SelectInv.pollNext (h : SelectInv inner s) (hp : s.polling f = some (task, k)) :
    SelectInv inner (s.pollNext inner f task k) := by
  have hpolled : polled inner s.polling f = (inner f).take k := by
    rw [polled, hp]
  rcases pollNext_cases inner s f task k with
    ⟨hk, heq⟩ | ⟨i, hk, ⟨x, hx, heq⟩ | ⟨-, woken, -, hother, -, heq⟩⟩
  · rw [heq]
    refine ⟨fun g t hg j hj => ?_, fun g t l u hl hu => ?_⟩
    · rcases polled_update hj with ⟨-, hj⟩ | ⟨rfl, hj⟩
      · exact h.held g t hg j hj
      · refine h.held g t hg j ?_
        rw [hpolled, List.take_of_length_le (List.getElem?_eq_none_iff.mp hk)]
        exact hj
    · by_cases hgf : g = f
      · subst hgf
        exact absurd ((Function.update_self ..).symm.trans hl) (by simp)
      · exact h.own g t l u ((Function.update_of_ne hgf ..).symm.trans hl) hu
  · rw [heq]
    refine ⟨fun g t hg j hj => ?_, fun g t l u hl hu => ?_⟩
    · obtain ⟨hgf, hg⟩ := Waiting.dropped_eq_some.mp hg
      rcases polled_update hj with ⟨-, hj⟩ | ⟨he, -⟩
      · have hold := h.held g t hg j hj
        have hne : j ≠ i := by
          rintro rfl
          exact absurd (hx.symm.trans hold) (by simp)
        exact (Function.update_of_ne hne ..).trans hold
      · exact absurd he hgf
    · obtain ⟨hgf, hu⟩ := Waiting.dropped_eq_some.mp hu
      exact h.own g t l u ((Function.update_of_ne hgf ..).symm.trans hl) hu
  · rw [heq]
    have hlt := (List.getElem?_eq_some_iff.mp hk).1
    refine ⟨fun g t hg j hj => ?_, fun g t l u hl hu => ?_⟩
    · obtain ⟨hw, hnot⟩ := Waiting.wake_eq_some.mp hg
      change Function.update s.cells i (State.waiting task) j = _
      -- the task has been in the cell, or is put there
      have hcell : j ∈ polled inner s.polling g → Function.update s.cells i (.waiting task) j =
          .waiting t := by
        intro hj
        have hold := h.held g t hw j hj
        by_cases hji : j = i
        · subst hji
          rw [Function.update_self, hother t hold hnot]
        · rw [Function.update_of_ne hji, hold]
      rcases polled_update hj with ⟨-, hj⟩ | ⟨rfl, hj⟩
      · exact hcell hj
      · obtain rfl := h.own g task k t hp hw
        have hj : j ∈ (inner g).take (k + 1) := by
          split_ifs at hj with hlast
          · exact hj
          · rw [List.take_of_length_le (by omega)]
            exact hj
        rw [List.take_add_one, hk] at hj
        rcases List.mem_append.mp hj with hj | hj
        · exact hcell (hpolled ▸ hj)
        · rw [List.mem_singleton.mp hj]
          exact Function.update_self ..
    · have hold := (Waiting.wake_eq_some.mp hu).1
      by_cases hgf : g = f
      · subst hgf
        have hl := (Function.update_self ..).symm.trans hl
        split_ifs at hl
        cases hl
        exact h.own g task k u hp hold
      · exact h.own g t l u ((Function.update_of_ne hgf ..).symm.trans hl) hold

theorem step_poll (h : step inner s (.poll f task) = some s') :
    ∃ t, (t = s ∨ t = s.beginPoll f task) ∧ t.polling f = some (task, s.index f) ∧
      s' = t.pollNext inner f task (s.index f) := by
  unfold step at h
  dsimp only at h
  unfold index
  split at h
  · next hp =>
    rw [hp]
    exact ⟨_, Or.inr rfl, Function.update_self .., (Option.some.inj h).symm⟩
  · next t k hp =>
    rw [hp]
    split_ifs at h with ht
    subst ht
    exact ⟨s, Or.inl rfl, hp, (Option.some.inj h).symm⟩

theorem exists_step_poll (inner : ℕ → List ℕ) (h : ∀ t k, s.polling f = some (t, k) → t = task) :
    ∃ s', step inner s (.poll f task) = some s' := by
  unfold step
  dsimp only
  cases hp : s.polling f with
  | none => exact ⟨_, rfl⟩
  | some p => exact ⟨_, if_pos (h p.1 p.2 hp)⟩

theorem SelectInv.poll (h : SelectInv inner s) (hs : step inner s (.poll f task) = some s') :
    SelectInv inner s' := by
  obtain ⟨t, rfl | rfl, hp, rfl⟩ := step_poll hs
  · exact h.pollNext hp
  · exact (h.beginPoll f task).pollNext hp

theorem value_poll (h : step inner s (.poll f task) = some s') :
    (s.output inner f task = none ∧ (∀ i, (s'.cells i).value = (s.cells i).value) ∨
      ∃ i x, s.output inner f task = some x ∧ (s.cells i).value = some x ∧
        (s'.cells i).value = none ∧ ∀ j ≠ i, (s'.cells j).value = (s.cells j).value) ∧
      ∀ t k, s'.polling f = some (t, k) → t = task := by
  obtain ⟨t, ht, -, rfl⟩ := step_poll h
  have hcells : t.cells = s.cells := by
    rcases ht with rfl | rfl <;> rfl
  unfold output
  rcases pollNext_cases inner t f task (s.index f) with
    ⟨hk, heq⟩ | ⟨i, hk, ⟨x, hx, heq⟩ | ⟨hne, woken, -, -, -, heq⟩⟩
  · rw [hk, heq, ← hcells]
    refine ⟨Or.inl ⟨rfl, fun _ => rfl⟩, fun u k hu => ?_⟩
    exact absurd ((Function.update_self ..).symm.trans hu) (by simp)
  · rw [hcells] at hx
    rw [hk, heq, Option.bind_some, hx]
    refine ⟨Or.inr ⟨i, x, rfl, by rw [hx]; rfl, ?_, fun j hj => ?_⟩, fun u k hu => ?_⟩
    · change (Function.update t.cells i State.none i).value = none
      rw [Function.update_self]
      rfl
    · change (Function.update t.cells i State.none j).value = _
      rw [Function.update_of_ne hj, hcells]
    · exact absurd ((Function.update_self ..).symm.trans hu) (by simp)
  · rw [hcells] at hne
    rw [hk, heq, Option.bind_some]
    refine ⟨Or.inl ⟨?_, fun j => ?_⟩, fun u k hu => ?_⟩
    · rcases State.pollWait_cases (s.cells i) task with ⟨x, hx, -⟩ | ⟨-, woken', hr, -⟩
      · exact absurd hx (hne x)
      · rw [hr]
    · change (Function.update t.cells i (State.waiting task) j).value = _
      rw [hcells]
      by_cases hj : j = i
      · subst hj
        rw [Function.update_self, State.value_eq_none hne]
        rfl
      · rw [Function.update_of_ne hj]
    · have hu := (Function.update_self ..).symm.trans hu
      split_ifs at hu
      exact congrArg Prod.fst (Option.some.inj hu).symm

theorem SelectInv.step {a : Action α} (h : SelectInv inner s) (hs : step inner s a = some s')
    (hc : ResetsIdle inner s a) : SelectInv inner s' := by
  cases a with
  | signal i val =>
    obtain rfl := Option.some.inj hs
    refine ⟨fun g t hg j hj => ?_, fun g t k u hp hu => ?_⟩
    · obtain ⟨hw, hnot⟩ := Waiting.wake_eq_some.mp hg
      have hold := h.held g t hw j hj
      have hne : j ≠ i := by
        rintro rfl
        exact hnot (State.mem_woken_signal.mpr hold)
      exact (Function.update_of_ne hne ..).trans hold
    · exact h.own g t k u hp (Waiting.wake_eq_some.mp hu).1
  | reset i =>
    obtain rfl := Option.some.inj hs
    refine ⟨fun g t hg j hj => ?_, h.own⟩
    have hne : j ≠ i := by
      rintro rfl
      exact hc g t hg hj
    exact (Function.update_of_ne hne ..).trans (h.held g t hg j hj)
  | poll f task => exact h.poll hs
  | drop f =>
    simp only [Selected.step] at hs
    split at hs
    · obtain rfl := Option.some.inj hs
      exact ⟨fun g t hg => h.held g t (Waiting.dropped_eq_some.mp hg).2,
        fun g t k u hp hu => h.own g t k u hp (Waiting.dropped_eq_some.mp hu).2⟩
    · exact absurd hs (by simp)
  | tryTake i =>
    obtain rfl := Option.some.inj hs
    refine ⟨fun g t hg j hj => ?_, h.own⟩
    have hold := h.held g t hg j hj
    by_cases hne : j = i
    · -- there is no value to take
      subst hne
      change Function.update s.cells j (s.cells j).tryTake.2 j = _
      rw [Function.update_self, hold]
      rfl
    · exact (Function.update_of_ne hne ..).trans hold
  | signaled i =>
    obtain rfl := Option.some.inj hs
    refine ⟨fun g t hg j hj => ?_, h.own⟩
    change Function.update s.cells i (Signal.signaled (s.cells i)).2 j = _
    rw [snd_signaled, Function.update_eq_self]
    exact h.held g t hg j hj
  | wake task =>
    obtain rfl := Option.some.inj hs
    exact ⟨fun g t hg => h.held g t (Waiting.wake_eq_some.mp hg).1,
      fun g t k u hp hu => h.own g t k u hp (Waiting.wake_eq_some.mp hu).1⟩

/-- A `reset` of a signal that a select waits for takes the task out of the cell. -/
theorem resetsIdle_of_held {a : Action α} (hs : Selected.step inner s a = some s')
    (h : Held inner s') : ResetsIdle inner s a := by
  cases a with
  | reset i =>
    obtain rfl := Option.some.inj hs
    intro f t hf hi
    have hnone : Function.update s.cells i (s.cells i).reset i = .waiting t := h f t hf i hi
    rw [Function.update_self] at hnone
    exact absurd hnone (by simp [State.reset])
  | _ => trivial

/-! ### The values -/

theorem add_self (l : ℕ → List α) (i : ℕ) (o : Option α) : add l i o i = l i ++ o.toList :=
  Function.update_self ..

theorem add_of_ne (l : ℕ → List α) (o : Option α) (h : j ≠ i) : add l i o j = l j :=
  Function.update_of_ne h ..

theorem perm_got {sent got removed : List α} (h : sent.Perm (got ++ removed ++ [x])) :
    sent.Perm (got ++ [x] ++ removed ++ []) := by
  refine h.trans ?_
  rw [List.append_nil, List.append_assoc, List.append_assoc]
  exact List.perm_append_comm.append_left got

theorem perm_removed {sent got removed : List α} {v : Option α}
    (h : sent.Perm (got ++ removed ++ v.toList)) : sent.Perm (got ++ (removed ++ v.toList)) := by
  rw [← List.append_assoc]
  exact h

theorem Accounted.pollNext (h : Accounted s) (f : ℕ) (task : TaskRef) (k : ℕ) :
    Accounted (s.pollNext inner f task k) := by
  intro j
  rcases pollNext_cases inner s f task k with
    ⟨-, heq⟩ | ⟨i, -, ⟨x, hx, heq⟩ | ⟨hne, woken, -, -, -, heq⟩⟩
  · rw [heq]
    exact h j
  · rw [heq]
    change (s.sent j).Perm (add s.got i (some x) j ++ s.removed j ++
      (Function.update s.cells i .none j).value.toList)
    have hj := h j
    by_cases he : j = i
    · subst he
      rw [hx] at hj
      rw [add_self, Function.update_self]
      exact perm_got hj
    · rw [add_of_ne _ _ he, Function.update_of_ne he]
      exact hj
  · rw [heq]
    change (s.sent j).Perm (s.got j ++ s.removed j ++
      (Function.update s.cells i (.waiting task) j).value.toList)
    have hj := h j
    by_cases he : j = i
    · subst he
      rw [State.value_eq_none hne] at hj
      rw [Function.update_self]
      exact hj
    · rw [Function.update_of_ne he]
      exact hj

theorem Accounted.step {a : Action α} (h : Accounted s)
    (hs : Selected.step inner s a = some s') : Accounted s' := by
  cases a with
  | signal i val =>
    obtain rfl := Option.some.inj hs
    intro j
    change (add s.sent i (some val) j).Perm (s.got j ++ add s.removed i (s.cells i).value j ++
      (Function.update s.cells i ((s.cells i).signal val).1 j).value.toList)
    have hj := h j
    by_cases he : j = i
    · subst he
      rw [add_self, add_self, Function.update_self, State.fst_signal]
      exact (perm_removed hj).append_right [val]
    · rw [add_of_ne _ _ he, add_of_ne _ _ he, Function.update_of_ne he]
      exact hj
  | reset i =>
    obtain rfl := Option.some.inj hs
    intro j
    change (s.sent j).Perm (s.got j ++ add s.removed i (s.cells i).value j ++
      (Function.update s.cells i (s.cells i).reset j).value.toList)
    have hj := h j
    by_cases he : j = i
    · subst he
      rw [add_self, Function.update_self]
      exact (perm_removed hj).trans (List.Perm.of_eq (List.append_nil _).symm)
    · rw [add_of_ne _ _ he, Function.update_of_ne he]
      exact hj
  | poll f task =>
    obtain ⟨t, rfl | rfl, -, rfl⟩ := step_poll hs
    · exact h.pollNext f task _
    · exact Accounted.pollNext (s := s.beginPoll f task) h f task _
  | drop f =>
    simp only [Selected.step] at hs
    split at hs
    · obtain rfl := Option.some.inj hs
      exact h
    · exact absurd hs (by simp)
  | tryTake i =>
    obtain rfl := Option.some.inj hs
    intro j
    change (s.sent j).Perm (add s.got i (s.cells i).tryTake.1 j ++ s.removed j ++
      (Function.update s.cells i (s.cells i).tryTake.2 j).value.toList)
    have hj := h j
    by_cases he : j = i
    · subst he
      rw [add_self, Function.update_self]
      rcases State.tryTake_cases (s.cells j) with ⟨res, hres, hr⟩ | ⟨-, hr⟩
      · rw [hr]
        rw [hres] at hj
        exact perm_got hj
      · rw [hr]
        change (s.sent j).Perm (s.got j ++ [] ++ _ ++ _)
        rw [List.append_nil]
        exact hj
    · rw [add_of_ne _ _ he, Function.update_of_ne he]
      exact hj
  | signaled i =>
    obtain rfl := Option.some.inj hs
    intro j
    change (s.sent j).Perm (s.got j ++ s.removed j ++
      (Function.update s.cells i (Signal.signaled (s.cells i)).2 j).value.toList)
    rw [snd_signaled, Function.update_eq_self]
    exact h j
  | wake task =>
    obtain rfl := Option.some.inj hs
    exact h

/-! ### A poll without interruption -/

/-- The lists after a select over the signals `is` had this output. -/
def addOutput (l : ℕ → List α) (is : List ℕ) : Option (α × ℕ) → ℕ → List α
  | none => l
  | some (x, j) =>
    match is[j]? with
    | none => l
    | some i => add l i (some x)

/-- The state after the poll of a select over the signals `is` with this result. -/
def pollDone (s : Selected α) (f : ℕ) (task : TaskRef) (is : List ℕ)
    (r : Option (α × ℕ) × SelectArray ℕ × Cells α) : Selected α :=
  { s with
    cells := r.2.2.1
    waiting := Waiting.polled (Waiting.wake s.waiting r.2.2.2) f task r.1.isNone
    polling := Function.update s.polling f none
    got := addOutput s.got is r.1 }

/-- The state in a poll before the future `k`, with the cells and the tasks woken so far. -/
def pollAt (s : Selected α) (f : ℕ) (task : TaskRef) (k : ℕ) (w : Cells α) : Selected α :=
  { s with
    cells := w.1
    waiting := Waiting.polled (Waiting.wake s.waiting w.2) f task true
    polling := Function.update s.polling f (some (task, k)) }

/-- One critical section of a poll is the poll of one future. -/
theorem pollNext_pollAt {w : Cells α} (hk : (inner f)[k]? = some i) :
    (s.pollAt f task k w).pollNext inner f task k =
      match (pollSignal task i w).1 with
      | some x => s.pollDone f task (inner f) (some (x, k), ⟨[]⟩, (pollSignal task i w).2.2)
      | none =>
        if k + 1 < (inner f).length then s.pollAt f task (k + 1) (pollSignal task i w).2.2
        else s.pollDone f task (inner f) (none, ⟨[]⟩, (pollSignal task i w).2.2) := by
  unfold pollNext
  rw [hk]
  rcases State.pollWait_cases (w.1 i) task with ⟨x, hx, hr⟩ | ⟨hne, woken, hr, hnot, hother⟩
  · simp only [pollAt, pollDone, pollSignal, hr, addOutput, hk]
    simp [Waiting.dropped, Waiting.polled]
  · have hwait := Waiting.wake_polled s.waiting f w.2 hnot
    simp only [pollAt, pollDone, pollSignal, hr, addOutput, add]
    by_cases hlast : k + 1 < (inner f).length
    · simp [hlast, hwait]
    · simp [hlast, hwait]

theorem step_pollAt (inner : ℕ → List ℕ) (s : Selected α) (f : ℕ) (task : TaskRef) (k : ℕ)
    (w : Cells α) : step inner (s.pollAt f task k w) (.poll f task) =
      some ((s.pollAt f task k w).pollNext inner f task k) := by
  have hp : (s.pollAt f task k w).polling f = some (task, k) := Function.update_self ..
  unfold step
  dsimp only
  rw [hp]
  exact if_pos rfl

theorem pollDone_cons {rest : List ℕ} {w : Cells α} (hp : (pollSignal task i w).1 = none) :
    s.pollDone f task (i :: rest) (SelectArray.poll (pollSignal task) ⟨i :: rest⟩ w) =
      s.pollDone f task rest
        (SelectArray.poll (pollSignal task) ⟨rest⟩ (pollSignal task i w).2.2) := by
  simp only [SelectArray.poll, pollFirst_cons_of_none hp, pollDone]
  cases (pollFirst (pollSignal task) rest (pollSignal task i w).2.2).1 <;> rfl

theorem exists_runList_pollAt (s : Selected α) (task : TaskRef) {rest : List ℕ}
    (hrest : (inner f).drop k = rest) (hne : rest ≠ []) (w : Cells α) :
    ∃ n, runList (step inner) (s.pollAt f task k w) (List.replicate n (.poll f task)) =
      some (s.pollDone f task rest (SelectArray.poll (pollSignal task) ⟨rest⟩ w)) := by
  induction rest generalizing k w with
  | nil => exact absurd rfl hne
  | cons i rest ih =>
    have hk : (inner f)[k]? = some i := by
      rw [← List.head?_drop, hrest, List.head?_cons]
    have htail : (inner f).drop (k + 1) = rest := by
      rw [← List.tail_drop, hrest, List.tail_cons]
    have hlen : rest.length = (inner f).length - (k + 1) := by
      rw [← htail, List.length_drop]
    have hone := step_pollAt inner s f task k w
    rw [pollNext_pollAt hk] at hone
    cases hp : (pollSignal task i w).1 with
    | some x =>
      refine ⟨1, ?_⟩
      rw [hp] at hone
      rw [List.replicate_one, runList, hone, Option.bind_some, runList, SelectArray.poll,
        pollFirst_cons_of_some hp]
      simp [pollDone, addOutput, hk]
    | none =>
      rw [hp] at hone
      rw [pollDone_cons hp]
      by_cases hlast : k + 1 < (inner f).length
      · have hrest' : rest ≠ [] := by
          rintro rfl
          rw [List.length_nil] at hlen
          omega
        obtain ⟨n, hn⟩ := ih htail hrest' (pollSignal task i w).2.2
        refine ⟨n + 1, ?_⟩
        rw [List.replicate_succ, runList, hone, Option.bind_some]
        simp only [if_pos hlast]
        exact hn
      · obtain rfl : rest = [] := List.length_eq_zero_iff.mp (by omega)
        refine ⟨1, ?_⟩
        rw [List.replicate_one, runList, hone, Option.bind_some, runList]
        simp only [if_neg hlast]
        rfl

/-- **The critical sections of a poll, with nothing in between, are the poll** of the select. -/
theorem exists_runList_poll (inner : ℕ → List ℕ) (task : TaskRef) (hp : s.polling f = none) :
    ∃ n, runList (step inner) s (List.replicate n (.poll f task)) =
      some (s.pollDone f task (inner f) (pollSelect task (inner f) s.cells)) := by
  have hbegin : step inner s (.poll f task) =
      some ((s.pollAt f task 0 (s.cells, [])).pollNext inner f task 0) := by
    unfold step
    dsimp only
    rw [hp]
    simp [beginPoll, pollAt, Waiting.polled]
  cases hin : inner f with
  | nil =>
    refine ⟨1, ?_⟩
    rw [List.replicate_one, runList, hbegin]
    simp [pollNext, hin, pollAt, pollDone, pollSelect, SelectArray.poll, pollFirst, addOutput,
      runList]
  | cons i rest =>
    obtain ⟨n, hn⟩ := exists_runList_pollAt s task (k := 0) hin (List.cons_ne_nil i rest)
      (s.cells, [])
    cases n with
    | zero =>
      -- a poll under way is not at its end
      have hpoll := congrArg (fun o => o.map fun s => s.polling f) hn
      exact absurd hpoll (by simp [runList, pollAt, pollDone])
    | succ n =>
      refine ⟨n + 1, ?_⟩
      rw [List.replicate_succ, runList, step_pollAt] at hn
      rw [List.replicate_succ, runList, hbegin]
      exact hn

/-- The same for the `select` of two `wait()`. -/
theorem exists_runList_select {i j : ℕ} (hp : s.polling f = none) (hin : inner f = [i, j]) :
    ∃ n t, runList (step inner) s (List.replicate n (.poll f task)) = some t ∧
      t.polling f = none ∧
      t.cells = (Select.poll (pollSignal task) (pollSignal task) ⟨i, j⟩ (s.cells, [])).2.2.1 ∧
      t.got = match (Select.poll (pollSignal task) (pollSignal task) ⟨i, j⟩ (s.cells, [])).1 with
        | some (.First x) => add s.got i (some x)
        | some (.Second x) => add s.got j (some x)
        | none => s.got := by
  obtain ⟨n, hn⟩ := exists_runList_poll inner task hp
  refine ⟨n, _, hn, Function.update_self .., ?_, ?_⟩
  · rw [hin, pollSelect, SelectArray.poll_pair]
    rfl
  · rw [hin, pollSelect, SelectArray.poll_pair]
    cases (Select.poll (pollSignal task) (pollSignal task) ⟨i, j⟩ (s.cells, [])).1 with
    | none => rfl
    | some r => cases r <;> rfl

/-! ### Runs -/

/-- **Selects over signals lose nothing exactly when no `reset` meets a signal that a select waits
for.** In every run, for any number of signals and of selects over any of them, `NoLostSelect` holds
in every state if and only if at every `reset` no select waits for the signal. -/
theorem noLostSelect_along_iff (tr : List (Selected α × Action α)) (s : Selected α)
    (hr : Run (Selected.step inner) new tr s) :
    Along (NoLostSelect inner) tr s ↔ AllSteps (ResetsIdle inner) tr := by
  refine Run.exact (I := fun s => SelectInv inner s ∧ Accounted s) (B := fun _ => True)
    ⟨selectInv_new, fun _ => .nil⟩ (fun s h => ⟨h.1.held, fun f t hf i hi _ => ?_, h.2⟩)
    (fun _ _ _ _ h => h) ?_ ?_ hr trivial
  · exact State.mem_woken_signal.mpr (h.1.held f t hf i hi)
  · exact fun s a s' hi _ hs hc => ⟨hi.1.step hs hc, hi.2.step hs⟩
  · exact fun s a s' _ _ hs hg => resetsIdle_of_held hs hg.held

/-- Signal 1 is sent between the two critical sections of a poll, and signal 0 after it; the poll
gets the value of signal 1, and the next select the other. -/
def bothRun : List (Action ℕ) :=
  [.reset 0, .poll 0 1, .signal 1 8, .signal 0 7, .poll 0 1, .poll 1 1]

theorem noLostSelect_along_iff_both :
    ∃ (tr : List (Selected ℕ × Action ℕ)) (s : Selected ℕ),
      Run (Selected.step fun _ => [0, 1]) new tr s ∧ tr.map Prod.snd = bothRun ∧
        s.got 0 = [7] ∧ s.got 1 = [8] ∧
        (Along (NoLostSelect fun _ => [0, 1]) tr s ↔ AllSteps (ResetsIdle fun _ => [0, 1]) tr) := by
  obtain ⟨s, hs, hv⟩ := exists_of_map_runList (f := fun s => (s.got 0, s.got 1))
    (s := (new : Selected ℕ)) (l := bothRun) (b := ([7], [8]))
    (r := Selected.step fun _ => [0, 1]) (by decide)
  obtain ⟨tr, hr, ha⟩ := exists_run_of_runList hs
  obtain ⟨h0, h1⟩ := Prod.mk.inj hv
  exact ⟨tr, s, hr, ha, h0, h1, noLostSelect_along_iff tr s hr⟩

end Selected

end Signal

end AurixAsync
