import Mathlib.Data.List.Basic

/-!
# The first of several futures

A future with the states `ρ` is given by what a poll of it does, in a world `σ`: it has an output or
not, and it leaves a future and a world.

* `pollFirst`: the poll of a list of futures, in order until one is ready.
* `pollFirst_eq_some_iff`, `pollFirst_eq_none_iff`: its output, for futures that leave the world
  alone.
* `Pending`, `ReadyAt`: the polls of a future, each in its own world, up to the one that is ready.
* `readyAt_pollFirst_iff`: the list is ready with the first of the futures that are ready soonest.
* `Renames`: one future is another one with other names for its states and outputs.
-/

namespace FirstReady

variable {ρ σ ω : Type*}

/-- A poll: its output if there is one, the future left, and the world left. -/
abbrev PollFn (ρ σ ω : Type*) := ρ → σ → Option ω × ρ × σ

/-- The poll of a list of futures. The output comes with the index. -/
def pollFirst (poll : PollFn ρ σ ω) : PollFn (List ρ) σ (ℕ × ω)
  | [], s => (none, [], s)
  | f :: fs, s =>
    match poll f s with
    | (some x, f', s') => (some (0, x), f' :: fs, s')
    | (none, f', s') =>
      let r := pollFirst poll fs s'
      (r.1.map fun p => (p.1 + 1, p.2), f' :: r.2.1, r.2.2)

variable {poll : PollFn ρ σ ω} {f : ρ} {fs : List ρ} {s : σ} {x : ω} {i k : ℕ}

theorem pollFirst_cons_of_some (h : (poll f s).1 = some x) :
    pollFirst poll (f :: fs) s = (some (0, x), (poll f s).2.1 :: fs, (poll f s).2.2) := by
  rcases hp : poll f s with ⟨o, f', s'⟩
  rw [hp] at h
  cases h
  rw [pollFirst, hp]

theorem pollFirst_cons_of_none (h : (poll f s).1 = none) : pollFirst poll (f :: fs) s =
    ((pollFirst poll fs (poll f s).2.2).1.map fun p => (p.1 + 1, p.2),
      (poll f s).2.1 :: (pollFirst poll fs (poll f s).2.2).2.1,
      (pollFirst poll fs (poll f s).2.2).2.2) := by
  rcases hp : poll f s with ⟨o, f', s'⟩
  rw [hp] at h
  cases h
  rw [pollFirst, hp]

/-! ### Futures that leave the world alone -/

/-- No poll changes the world. -/
def Leaves (poll : PollFn ρ σ ω) : Prop := ∀ f s, (poll f s).2.2 = s

theorem pollFirst_eq_none_iff (hl : Leaves poll) :
    (pollFirst poll fs s).1 = none ↔ ∀ f ∈ fs, (poll f s).1 = none := by
  induction fs with
  | nil => simp [pollFirst]
  | cons f fs ih =>
    rw [List.forall_mem_cons]
    cases hp : (poll f s).1 with
    | some x => simp [pollFirst_cons_of_some hp]
    | none => simp [pollFirst_cons_of_none hp, hl f s, ih]

theorem rest_pollFirst (hl : Leaves poll) (h : (pollFirst poll fs s).1 = none) :
    (pollFirst poll fs s).2.1 = fs.map fun f => (poll f s).2.1 := by
  induction fs with
  | nil => rfl
  | cons f fs ih =>
    have hf := (pollFirst_eq_none_iff hl).mp h
    have hp := hf f List.mem_cons_self
    rw [pollFirst_cons_of_none hp, hl, List.map_cons,
      ih ((pollFirst_eq_none_iff hl).mpr fun g hg => hf g (List.mem_cons_of_mem _ hg))]

theorem pollFirst_eq_some_iff (hl : Leaves poll) : (pollFirst poll fs s).1 = some (i, x) ↔
    (∃ f, fs[i]? = some f ∧ (poll f s).1 = some x) ∧ ∀ f ∈ fs.take i, (poll f s).1 = none := by
  induction fs generalizing i with
  | nil => simp [pollFirst]
  | cons f fs ih =>
    cases hp : (poll f s).1 with
    | some y =>
      rw [pollFirst_cons_of_some hp]
      cases i with
      | zero => simp [hp]
      | succ i => simp [hp]
    | none =>
      rw [pollFirst_cons_of_none hp, hl]
      cases i with
      | zero => simp [hp]
      | succ i => simp [hp, ih]

/-! ### Runs -/

/-- The future after it was polled in the first `k` worlds. -/
def after (poll : PollFn ρ σ ω) (e : ℕ → σ) (f : ρ) : ℕ → ρ
  | 0 => f
  | k + 1 => (poll (after poll e f k) (e k)).2.1

/-- The first `k` polls are not ready. -/
def Pending (poll : PollFn ρ σ ω) (e : ℕ → σ) (f : ρ) (k : ℕ) : Prop :=
  ∀ l < k, (poll (after poll e f l) (e l)).1 = none

/-- The poll in the world `k` is the first that is ready. -/
def ReadyAt (poll : PollFn ρ σ ω) (e : ℕ → σ) (f : ρ) (k : ℕ) (x : ω) : Prop :=
  Pending poll e f k ∧ (poll (after poll e f k) (e k)).1 = some x

variable {e : ℕ → σ}

instance : Decidable (Pending poll e f k) :=
  inferInstanceAs (Decidable (∀ l < k, (poll (after poll e f l) (e l)).1 = none))

instance [DecidableEq ω] : Decidable (ReadyAt poll e f k x) :=
  inferInstanceAs (Decidable (_ ∧ _))

theorem pending_succ :
    Pending poll e f (k + 1) ↔ Pending poll e f k ∧ (poll (after poll e f k) (e k)).1 = none :=
  ⟨fun h => ⟨fun l hl => h l (Nat.lt_succ_of_lt hl), h k (Nat.lt_succ_self k)⟩,
    fun ⟨h, hk⟩ l hl => (Nat.lt_succ_iff_lt_or_eq.mp hl).elim (h l) fun heq => heq ▸ hk⟩

theorem pending_zero : Pending poll e f 0 := fun _ hl => absurd hl (Nat.not_lt_zero _)

/-- While none of them is ready, the futures of a list are polled side by side. -/
theorem pending_pollFirst (hl : Leaves poll) :
    (Pending (pollFirst poll) e fs k ↔ ∀ f ∈ fs, Pending poll e f k) ∧
      (Pending (pollFirst poll) e fs k →
        after (pollFirst poll) e fs k = fs.map fun f => after poll e f k) := by
  induction k with
  | zero =>
    exact ⟨⟨fun _ f _ => pending_zero, fun _ => pending_zero⟩, fun _ => (List.map_id fs).symm⟩
  | succ k ih =>
    obtain ⟨ihp, iha⟩ := ih
    have hiff : Pending (pollFirst poll) e fs (k + 1) ↔ ∀ f ∈ fs, Pending poll e f (k + 1) := by
      rw [pending_succ]
      constructor
      · rintro ⟨hp, hk⟩ f hf
        rw [iha hp, pollFirst_eq_none_iff hl] at hk
        exact pending_succ.mpr ⟨ihp.mp hp f hf, hk _ (List.mem_map_of_mem hf)⟩
      · intro h
        have hp : Pending (pollFirst poll) e fs k :=
          ihp.mpr fun f hf => (pending_succ.mp (h f hf)).1
        refine ⟨hp, ?_⟩
        rw [iha hp, pollFirst_eq_none_iff hl]
        intro g hg
        obtain ⟨f, hf, rfl⟩ := List.mem_map.mp hg
        exact (pending_succ.mp (h f hf)).2
    refine ⟨hiff, fun h => ?_⟩
    obtain ⟨hp, hk⟩ := pending_succ.mp h
    rw [after, rest_pollFirst hl hk, iha hp, List.map_map]
    rfl

/-- **The first of several futures.** A list of futures is ready when the first of them is, and with
the first one in the list of those that are ready then. -/
theorem readyAt_pollFirst_iff (hl : Leaves poll) : ReadyAt (pollFirst poll) e fs k (i, x) ↔
    (∃ f, fs[i]? = some f ∧ ReadyAt poll e f k x) ∧
      (∀ f ∈ fs.take i, Pending poll e f (k + 1)) ∧ ∀ f ∈ fs, Pending poll e f k := by
  obtain ⟨hpend, hafter⟩ : (Pending (pollFirst poll) e fs k ↔ _) ∧ _ := pending_pollFirst hl
  constructor
  · rintro ⟨hp, hk⟩
    rw [hafter hp, pollFirst_eq_some_iff hl, ← List.map_take, List.getElem?_map] at hk
    obtain ⟨⟨g, hg, hx⟩, hbefore⟩ := hk
    obtain ⟨f, hf, rfl⟩ := Option.map_eq_some_iff.mp hg
    have hall := hpend.mp hp
    refine ⟨⟨f, hf, hall f (List.mem_of_getElem? hf), hx⟩, fun g hg => ?_, hall⟩
    exact pending_succ.mpr
      ⟨hall g (List.mem_of_mem_take hg), hbefore _ (List.mem_map_of_mem hg)⟩
  · rintro ⟨⟨f, hf, -, hx⟩, hbefore, hall⟩
    have hp := hpend.mpr hall
    refine ⟨hp, ?_⟩
    rw [hafter hp, pollFirst_eq_some_iff hl, ← List.map_take, List.getElem?_map]
    refine ⟨⟨_, congrArg (Option.map _) hf, hx⟩, fun g hg => ?_⟩
    obtain ⟨f', hf', rfl⟩ := List.mem_map.mp hg
    exact (pending_succ.mp (hbefore f' hf')).2

/-! ### Other names -/

/-- The futures `f` behave as the futures `φ f`, and their outputs `x` are there `ψ x`. -/
def Renames {ρ' ω' : Type*} (φ : ρ → ρ') (ψ : ω → ω') (poll : PollFn ρ σ ω)
    (poll' : PollFn ρ' σ ω') : Prop :=
  ∀ f s, poll' (φ f) s = ((poll f s).1.map ψ, φ (poll f s).2.1, (poll f s).2.2)

section

variable {ρ' ω' : Type*} {φ : ρ → ρ'} {ψ : ω → ω'} {poll' : PollFn ρ' σ ω'}

theorem Renames.after (h : Renames φ ψ poll poll') (k : ℕ) :
    after poll' e (φ f) k = φ (after poll e f k) := by
  induction k with
  | zero => rfl
  | succ k ih =>
    show (poll' _ _).2.1 = _
    rw [ih, h]
    rfl

theorem Renames.pending_iff (h : Renames φ ψ poll poll') :
    Pending poll' e (φ f) k ↔ Pending poll e f k := by
  refine forall_congr' fun l => forall_congr' fun _ => ?_
  rw [h.after, h, Option.map_eq_none_iff]

theorem Renames.readyAt_iff (h : Renames φ ψ poll poll') (hψ : Function.Injective ψ) :
    ReadyAt poll' e (φ f) k (ψ x) ↔ ReadyAt poll e f k x := by
  refine and_congr h.pending_iff ?_
  rw [h.after, h]
  exact ⟨fun hx => Option.map_injective hψ hx, fun hx => congrArg (Option.map ψ) hx⟩

end

end FirstReady
