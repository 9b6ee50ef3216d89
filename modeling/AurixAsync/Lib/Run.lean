import Mathlib.Data.List.Basic

/-!
# Runs of a partial step function

A system is given by its partial step `step : S → A → Option S`: `none` means that the action is
not possible in the state. `Run step s₀ tr s` says that the steps `tr`, each listed as the state
before it and the action, lead from `s₀` to `s`.

* `Run`, `Reachable`, `runList`: runs, reachable states, and running a list of actions.
* `traceList`: running a list of actions, with the steps.
* `remember`: the system with its last step, for properties of a step.
* `Run.invariant`: what holds at the start and is kept by every step holds along every run.
* `Run.exact_of_allSteps`, `Run.exact`: the rule for an exact side condition. If an invariant is
  kept by every step that meets a condition, and a step that does not meet it breaks the property,
  then the property holds in every state of a run if and only if every step of it meets the
  condition.
-/

namespace Transition

variable {S A : Type*}

/-- A run, with the list of its steps: the state before each step and the action taken there. -/
inductive Run (step : S → A → Option S) (s₀ : S) : List (S × A) → S → Prop
  | nil : Run step s₀ [] s₀
  | snoc {tr s a s'} : Run step s₀ tr s → step s a = some s' → Run step s₀ (tr ++ [(s, a)]) s'

/-- The states some run leads to. -/
def Reachable (step : S → A → Option S) (s₀ s : S) : Prop := ∃ tr, Run step s₀ tr s

/-- Run a list of actions. -/
def runList (step : S → A → Option S) : S → List A → Option S
  | s, [] => some s
  | s, a :: as => (step s a).bind fun s' => runList step s' as

/-- Run a list of actions, with the steps. -/
def traceList (step : S → A → Option S) : S → List A → Option (List (S × A) × S)
  | s, [] => some ([], s)
  | s, a :: as => (step s a).bind fun t => (traceList step t as).map fun r => ((s, a) :: r.1, r.2)

/-- The step of a system that remembers its last step. -/
def remember (step : S → A → Option S) (p : S × Option (S × A)) (a : A) :
    Option (S × Option (S × A)) :=
  (step p.1 a).map fun s' => (s', some (p.1, a))

variable {step : S → A → Option S} {s₀ s s' : S} {tr : List (S × A)}

theorem remember_eq_some {p p' : S × Option (S × A)} {a : A} :
    remember step p a = some p' ↔ step p.1 a = some p'.1 ∧ p'.2 = some (p.1, a) := by
  rw [remember, Option.map_eq_some_iff]
  constructor
  · rintro ⟨s', hs, rfl⟩
    exact ⟨hs, rfl⟩
  · rintro ⟨hs, hl⟩
    exact ⟨p'.1, hs, by rw [← hl]⟩

theorem Reachable.refl : Reachable step s₀ s₀ := ⟨[], .nil⟩

theorem Reachable.tail {a : A} (hr : Reachable step s₀ s) (h : step s a = some s') :
    Reachable step s₀ s' := by
  obtain ⟨tr, hr⟩ := hr
  exact ⟨_, hr.snoc h⟩

theorem Run.append {tr' : List (S × A)} (h : Run step s₀ tr s) (h' : Run step s tr' s') :
    Run step s₀ (tr ++ tr') s' := by
  induction h' with
  | nil => rwa [List.append_nil]
  | snoc _ hstep ih =>
    rw [← List.append_assoc]
    exact ih.snoc hstep

theorem Run.exists_step (h : Run step s₀ tr s') {a : A} (hm : (s, a) ∈ tr) :
    ∃ t, step s a = some t := by
  induction h with
  | nil => exact absurd hm List.not_mem_nil
  | snoc _ hstep ih =>
    rcases List.mem_append.mp hm with hm | hm
    · exact ih hm
    · obtain ⟨rfl, rfl⟩ := Prod.mk.inj (List.mem_singleton.mp hm)
      exact ⟨_, hstep⟩

/-- A list of actions that can be run is a run with these actions. -/
theorem exists_run_of_runList {as : List A} (h : runList step s as = some s') :
    ∃ tr, Run step s tr s' ∧ tr.map Prod.snd = as := by
  induction as generalizing s with
  | nil =>
    obtain rfl : s = s' := Option.some.inj h
    exact ⟨[], .nil, rfl⟩
  | cons a as ih =>
    obtain ⟨t, hst, ht⟩ := Option.bind_eq_some_iff.mp h
    obtain ⟨tr, hr, rfl⟩ := ih ht
    exact ⟨[(s, a)] ++ tr, (Run.snoc .nil hst).append hr, rfl⟩

theorem run_of_traceList {as : List A} {r : List (S × A) × S} (h : traceList step s as = some r) :
    Run step s r.1 r.2 ∧ r.1.map Prod.snd = as := by
  induction as generalizing s r with
  | nil =>
    obtain rfl := Option.some.inj h
    exact ⟨.nil, rfl⟩
  | cons a as ih =>
    obtain ⟨t, hst, ht⟩ := Option.bind_eq_some_iff.mp h
    obtain ⟨q, hq, rfl⟩ := Option.map_eq_some_iff.mp ht
    obtain ⟨hr, hmap⟩ := ih hq
    exact ⟨(Run.snoc .nil hst).append hr, congrArg _ hmap⟩

theorem exists_run_of_trace {r : S → A → Option S} {l m : List A} {B : Type*}
    {f : S → List (S × A) × S → B} {b : B}
    (h : ((runList r s l).bind fun t => (traceList r t m).map (f t)) = some b) :
    ∃ t tr u, runList r s l = some t ∧ Run r t tr u ∧ tr.map Prod.snd = m ∧ f t (tr, u) = b := by
  obtain ⟨t, ht, h⟩ := Option.bind_eq_some_iff.mp h
  obtain ⟨q, hq, hb⟩ := Option.map_eq_some_iff.mp h
  obtain ⟨hrun, hmap⟩ := run_of_traceList hq
  exact ⟨t, q.1, q.2, ht, hrun, hmap, hb⟩

/-- What is computed of the last state of a list of actions. -/
theorem exists_of_map_runList {r : S → A → Option S} {l : List A} {B : Type*} {f : S → B} {b : B}
    (h : (runList r s l).map f = some b) : ∃ t, runList r s l = some t ∧ f t = b :=
  Option.map_eq_some_iff.mp h

theorem reachable_of_runList {as : List A} (h : runList step s as = some s') :
    Reachable step s s' := by
  obtain ⟨tr, hr, _⟩ := exists_run_of_runList h
  exact ⟨tr, hr⟩

theorem Reachable.trans {t : S} (h : Reachable step s₀ s) (h' : Reachable step s t) :
    Reachable step s₀ t := by
  obtain ⟨tr, hr⟩ := h
  obtain ⟨tr', hr'⟩ := h'
  exact ⟨_, hr.append hr'⟩

/-- **Invariants.** What holds at the start and is kept by every step holds after every run. -/
theorem Run.invariant {I : S → Prop} (h₀ : I s₀)
    (hstep : ∀ s a s', I s → step s a = some s' → I s') (hr : Run step s₀ tr s) : I s := by
  induction hr with
  | nil => exact h₀
  | snoc _ h ih => exact hstep _ _ _ ih h

theorem Reachable.invariant {I : S → Prop} (h₀ : I s₀)
    (hstep : ∀ s a s', I s → step s a = some s' → I s') (hr : Reachable step s₀ s) : I s := by
  obtain ⟨tr, hr⟩ := hr
  exact hr.invariant h₀ hstep

/-- `P` holds in every state the run passes through, its last one included. -/
def Along (P : S → Prop) (tr : List (S × A)) (s : S) : Prop := (∀ p ∈ tr, P p.1) ∧ P s

/-- Every step of the run meets `C`, a condition on the state before it and the action. -/
def AllSteps (C : S → A → Prop) (tr : List (S × A)) : Prop := ∀ p ∈ tr, C p.1 p.2

theorem along_snoc {P : S → Prop} {a : A} :
    Along P (tr ++ [(s, a)]) s' ↔ Along P tr s ∧ P s' := by
  simp only [Along, List.mem_append, List.mem_singleton, or_imp, forall_and, forall_eq]

theorem allSteps_snoc {C : S → A → Prop} {a : A} :
    AllSteps C (tr ++ [(s, a)]) ↔ AllSteps C tr ∧ C s a := by
  simp only [AllSteps, List.mem_append, List.mem_singleton, or_imp, forall_and, forall_eq]

/-- **The exact condition of a property of runs**, among those whose steps meet `D`. `I` is kept by
every step that meets `C`, and a step after which `Good` still holds meets `C`. Then `Good` holds
along a run if and only if every step of the run meets `C`. -/
theorem Run.exact_of_allSteps {I Good : S → Prop} {C D : S → A → Prop} (h₀ : I s₀)
    (hgood : ∀ s, I s → Good s)
    (hkeep : ∀ s a s', I s → D s a → step s a = some s' → C s a → I s')
    (hbreak : ∀ s a s', I s → D s a → step s a = some s' → Good s' → C s a)
    (hr : Run step s₀ tr s) (hd : AllSteps D tr) : Along Good tr s ↔ AllSteps C tr := by
  -- the invariant comes along with the condition
  suffices h : (Along Good tr s ↔ AllSteps C tr) ∧ (AllSteps C tr → I s) from h.1
  induction hr with
  | nil => exact ⟨⟨fun _ p hp => absurd hp List.not_mem_nil,
      fun _ => ⟨fun p hp => absurd hp List.not_mem_nil, hgood _ h₀⟩⟩, fun _ => h₀⟩
  | snoc _ hst ih =>
    obtain ⟨hd, hda⟩ := allSteps_snoc.mp hd
    obtain ⟨ih₁, ih₂⟩ := ih hd
    rw [along_snoc, allSteps_snoc]
    refine ⟨⟨fun ⟨hal, hg⟩ => ?_, fun ⟨hc, hca⟩ => ?_⟩, fun ⟨hc, hca⟩ => ?_⟩
    · have hc := ih₁.mp hal
      exact ⟨hc, hbreak _ _ _ (ih₂ hc) hda hst hg⟩
    · exact ⟨ih₁.mpr hc, hgood _ (hkeep _ _ _ (ih₂ hc) hda hst hca)⟩
    · exact hkeep _ _ _ (ih₂ hc) hda hst hca

/-- What holds of the last state, and before each step if it holds after it, holds after every step
of the run. -/
theorem Run.allSteps_of_last {B : S → Prop} (hB : ∀ s a s', step s a = some s' → B s' → B s)
    (hr : Run step s₀ tr s) (hb : B s) :
    AllSteps (fun s a => ∀ s', step s a = some s' → B s') tr := by
  induction hr with
  | nil => exact fun p hp => absurd hp List.not_mem_nil
  | snoc _ hst ih =>
    refine allSteps_snoc.mpr ⟨ih (hB _ _ _ hst hb), fun t ht => ?_⟩
    obtain rfl := Option.some.inj (hst.symm.trans ht)
    exact hb

/-- The exact condition of a property of runs, with a bound `B` that only the last state has to
meet. -/
theorem Run.exact {I Good B : S → Prop} {C : S → A → Prop} (h₀ : I s₀)
    (hgood : ∀ s, I s → Good s) (hB : ∀ s a s', step s a = some s' → B s' → B s)
    (hkeep : ∀ s a s', I s → B s' → step s a = some s' → C s a → I s')
    (hbreak : ∀ s a s', I s → B s' → step s a = some s' → Good s' → C s a)
    (hr : Run step s₀ tr s) (hb : B s) : Along Good tr s ↔ AllSteps C tr :=
  hr.exact_of_allSteps h₀ hgood (fun s a s' hi hd hs => hkeep s a s' hi (hd s' hs) hs)
    (fun s a s' hi hd hs => hbreak s a s' hi (hd s' hs) hs) (hr.allSteps_of_last hB hb)

end Transition
