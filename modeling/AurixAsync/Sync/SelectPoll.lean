import AurixAsync.Lib.FirstReady
import AurixAsync.Executor.BaseExecutor

/-!
# The outputs of the selects

The five selects with the outputs of their futures, for futures given by what a poll of them does.

* `Select`, `Select3`, `Select4`, `SelectArray`: the code. A select over a slice is polled as one
  over an array.
* `Select.readyAt_either_iff`, `Select3.readyAt_either3_iff`, `Select4.readyAt_either4_iff`,
  `SelectArray.readyAt_array_iff`: the poll at which a select is ready, and its output, if the
  futures do not change what the others see.
-/

namespace AurixAsync

open FirstReady

variable {A B C D σ α β γ δ : Type}

/-- The output of a select over two futures. -/
inductive Either (α β : Type)
  | First (x : α)
  | Second (x : β)
deriving DecidableEq, Repr

/-- The output of a select over three futures. -/
inductive Either3 (α β γ : Type)
  | First (x : α)
  | Second (x : β)
  | Third (x : γ)
deriving DecidableEq, Repr

/-- The output of a select over four futures. -/
inductive Either4 (α β γ δ : Type)
  | First (x : α)
  | Second (x : β)
  | Third (x : γ)
  | Fourth (x : δ)
deriving DecidableEq, Repr

/-- The future of `select`. -/
structure Select (A B : Type) where
  a : A
  b : B

/-- The future of `select3`. -/
structure Select3 (A B C : Type) where
  a : A
  b : B
  c : C

/-- The future of `select4`. -/
structure Select4 (A B C D : Type) where
  a : A
  b : B
  c : C
  d : D

/-- The future of `select_array`. -/
structure SelectArray (A : Type) where
  inner : List A

/-- `a` is polled, and then `b`. -/
def Select.poll (pollA : PollFn A σ α) (pollB : PollFn B σ β) :
    PollFn (Select A B) σ (Either α β) := fun this s =>
  match pollA this.a s with
  | (some x, a, s) => (some (.First x), { this with a }, s)
  | (none, a, s) =>
    match pollB this.b s with
    | (some x, b, s) => (some (.Second x), ⟨a, b⟩, s)
    | (none, b, s) => (none, ⟨a, b⟩, s)

/-- The futures are polled in order until one is ready. -/
def Select3.poll (pollA : PollFn A σ α) (pollB : PollFn B σ β) (pollC : PollFn C σ γ) :
    PollFn (Select3 A B C) σ (Either3 α β γ) := fun this s =>
  match pollA this.a s with
  | (some x, a, s) => (some (.First x), { this with a }, s)
  | (none, a, s) =>
    match pollB this.b s with
    | (some x, b, s) => (some (.Second x), { this with a, b }, s)
    | (none, b, s) =>
      match pollC this.c s with
      | (some x, c, s) => (some (.Third x), ⟨a, b, c⟩, s)
      | (none, c, s) => (none, ⟨a, b, c⟩, s)

/-- The futures are polled in order until one is ready. -/
def Select4.poll (pollA : PollFn A σ α) (pollB : PollFn B σ β) (pollC : PollFn C σ γ)
    (pollD : PollFn D σ δ) : PollFn (Select4 A B C D) σ (Either4 α β γ δ) := fun this s =>
  match pollA this.a s with
  | (some x, a, s) => (some (.First x), { this with a }, s)
  | (none, a, s) =>
    match pollB this.b s with
    | (some x, b, s) => (some (.Second x), { this with a, b }, s)
    | (none, b, s) =>
      match pollC this.c s with
      | (some x, c, s) => (some (.Third x), { this with a, b, c }, s)
      | (none, c, s) =>
        match pollD this.d s with
        | (some x, d, s) => (some (.Fourth x), ⟨a, b, c, d⟩, s)
        | (none, d, s) => (none, ⟨a, b, c, d⟩, s)

/-- The poll of `SelectArray` and of `SelectSlice`: `find_map` over the futures with their index. -/
def SelectArray.poll (poll : PollFn A σ α) : PollFn (SelectArray A) σ (α × ℕ) := fun this s =>
  let item := pollFirst poll this.inner s
  (item.1.map fun r => (r.2, r.1), ⟨item.2.1⟩, item.2.2)

variable {pollA : PollFn A σ α} {pollB : PollFn B σ β} {pollC : PollFn C σ γ} {pollD : PollFn D σ δ}
  {e : ℕ → σ} {k : ℕ}

/-! ### Two futures -/

theorem Select.poll_of_some {t : Select A B} {s : σ} {x : α} (h : (pollA t.a s).1 = some x) :
    Select.poll pollA pollB t s =
      (some (.First x), ⟨(pollA t.a s).2.1, t.b⟩, (pollA t.a s).2.2) := by
  rcases hp : pollA t.a s with ⟨o, a, s'⟩
  rw [hp] at h
  cases h
  rw [Select.poll, hp]

theorem Select.poll_of_none {t : Select A B} {s : σ} (h : (pollA t.a s).1 = none) :
    Select.poll pollA pollB t s =
      ((pollB t.b (pollA t.a s).2.2).1.map .Second,
        ⟨(pollA t.a s).2.1, (pollB t.b (pollA t.a s).2.2).2.1⟩,
        (pollB t.b (pollA t.a s).2.2).2.2) := by
  rcases hp : pollA t.a s with ⟨o, a, s'⟩
  rw [hp] at h
  cases h
  rcases hq : pollB t.b s' with ⟨o', b, s''⟩
  cases o' with
  | some y => simp [Select.poll, hp, hq]
  | none => simp [Select.poll, hp, hq]

theorem Select.leaves (hA : Leaves pollA) (hB : Leaves pollB) :
    Leaves (Select.poll pollA pollB) := by
  intro t s
  cases h : (pollA t.a s).1 with
  | some x => rw [Select.poll_of_some h, hA]
  | none => rw [Select.poll_of_none h, hB, hA]

theorem Select.poll_eq_none_iff (hA : Leaves pollA) {t : Select A B} {s : σ} :
    (Select.poll pollA pollB t s).1 = none ↔ (pollA t.a s).1 = none ∧ (pollB t.b s).1 = none := by
  cases h : (pollA t.a s).1 with
  | some x => simp [Select.poll_of_some h]
  | none => simp [Select.poll_of_none h, hA t.a s]

theorem Select.pending (hA : Leaves pollA) {t : Select A B} :
    (Pending (Select.poll pollA pollB) e t k ↔ Pending pollA e t.a k ∧ Pending pollB e t.b k) ∧
      (Pending (Select.poll pollA pollB) e t k →
        after (Select.poll pollA pollB) e t k = ⟨after pollA e t.a k, after pollB e t.b k⟩) := by
  induction k with
  | zero => exact ⟨⟨fun _ => ⟨pending_zero, pending_zero⟩, fun _ => pending_zero⟩, fun _ => rfl⟩
  | succ k ih =>
    obtain ⟨ihp, iha⟩ := ih
    constructor
    · rw [pending_succ, pending_succ, pending_succ]
      constructor
      · rintro ⟨hp, hk⟩
        rw [iha hp, Select.poll_eq_none_iff hA] at hk
        exact ⟨⟨(ihp.mp hp).1, hk.1⟩, (ihp.mp hp).2, hk.2⟩
      · rintro ⟨⟨ha, hka⟩, hb, hkb⟩
        have hp := ihp.mpr ⟨ha, hb⟩
        refine ⟨hp, ?_⟩
        rw [iha hp, Select.poll_eq_none_iff hA]
        exact ⟨hka, hkb⟩
    · intro h
      obtain ⟨hp, hk⟩ := pending_succ.mp h
      rw [iha hp, Select.poll_eq_none_iff hA] at hk
      change (Select.poll pollA pollB _ _).2.1 = _
      rw [iha hp, Select.poll_of_none hk.1, hA]
      rfl

/-- **A select** is ready when one of its futures is, and with the first if both are. -/
theorem Select.readyAt_either_iff (hA : Leaves pollA) {t : Select A B} {r : Either α β} :
    ReadyAt (Select.poll pollA pollB) e t k r ↔
      match r with
      | .First x => ReadyAt pollA e t.a k x ∧ Pending pollB e t.b k
      | .Second y => Pending pollA e t.a (k + 1) ∧ ReadyAt pollB e t.b k y := by
  obtain ⟨hpend, hafter⟩ : (Pending (Select.poll pollA pollB) e t k ↔ _) ∧ _ := Select.pending hA
  constructor
  · rintro ⟨hp, hk⟩
    obtain ⟨ha, hb⟩ := hpend.mp hp
    rw [hafter hp] at hk
    cases h : (pollA (after pollA e t.a k) (e k)).1 with
    | some x =>
      rw [Select.poll_of_some h] at hk
      cases hk
      exact ⟨⟨ha, h⟩, hb⟩
    | none =>
      rw [Select.poll_of_none h, hA] at hk
      obtain ⟨y, hy, rfl⟩ := Option.map_eq_some_iff.mp hk
      exact ⟨pending_succ.mpr ⟨ha, h⟩, hb, hy⟩
  · intro h
    cases r with
    | First x =>
      obtain ⟨⟨ha, hx⟩, hb⟩ := h
      have hp := hpend.mpr ⟨ha, hb⟩
      refine ⟨hp, ?_⟩
      rw [hafter hp, Select.poll_of_some hx]
    | Second y =>
      obtain ⟨ha, hb, hy⟩ := h
      obtain ⟨ha, hx⟩ := pending_succ.mp ha
      have hp := hpend.mpr ⟨ha, hb⟩
      refine ⟨hp, ?_⟩
      rw [hafter hp, Select.poll_of_none hx, hA]
      exact congrArg (Option.map Either.Second) hy

/-! ### Three and four futures -/

/-- A select over three futures as one over the first and a select over the others. -/
def Select3.nest (t : Select3 A B C) : Select A (Select B C) := ⟨t.a, t.b, t.c⟩

/-- An output of three as one of two. -/
def Either3.nest : Either3 α β γ → Either α (Either β γ)
  | .First x => .First x
  | .Second x => .Second (.First x)
  | .Third x => .Second (.Second x)

theorem Either3.nest_injective : Function.Injective (Either3.nest : Either3 α β γ → _) := by
  intro r r' h
  cases r <;> cases r' <;> simp_all [Either3.nest]

theorem Select3.renames : Renames Select3.nest Either3.nest (Select3.poll pollA pollB pollC)
    (Select.poll pollA (Select.poll pollB pollC)) := by
  intro t s
  rcases ha : pollA t.a s with ⟨_ | x, a, s₁⟩
  · rcases hb : pollB t.b s₁ with ⟨_ | y, b, s₂⟩
    · rcases hc : pollC t.c s₂ with ⟨_ | z, c, s₃⟩
      · simp [Select.poll, Select3.poll, Select3.nest, ha, hb, hc]
      · simp [Select.poll, Select3.poll, Select3.nest, Either3.nest, ha, hb, hc]
    · simp [Select.poll, Select3.poll, Select3.nest, Either3.nest, ha, hb]
  · simp [Select.poll, Select3.poll, Select3.nest, Either3.nest, ha]

theorem Select3.readyAt_either3_iff (hA : Leaves pollA) (hB : Leaves pollB) {t : Select3 A B C}
    {r : Either3 α β γ} : ReadyAt (Select3.poll pollA pollB pollC) e t k r ↔
      match r with
      | .First x => ReadyAt pollA e t.a k x ∧ Pending pollB e t.b k ∧ Pending pollC e t.c k
      | .Second y => Pending pollA e t.a (k + 1) ∧ ReadyAt pollB e t.b k y ∧ Pending pollC e t.c k
      | .Third z =>
        Pending pollA e t.a (k + 1) ∧ Pending pollB e t.b (k + 1) ∧ ReadyAt pollC e t.c k z := by
  rw [← Select3.renames.readyAt_iff Either3.nest_injective, Select.readyAt_either_iff hA]
  cases r with
  | First x => exact and_congr_right fun _ => (Select.pending hB).1
  | Second y => exact and_congr_right fun _ => Select.readyAt_either_iff hB
  | Third z => exact and_congr_right fun _ => Select.readyAt_either_iff hB

/-- A select over four futures as one over two. -/
def Select4.nest (t : Select4 A B C D) : Select A (Select3 B C D) := ⟨t.a, t.b, t.c, t.d⟩

/-- An output of four as one of two. -/
def Either4.nest : Either4 α β γ δ → Either α (Either3 β γ δ)
  | .First x => .First x
  | .Second x => .Second (.First x)
  | .Third x => .Second (.Second x)
  | .Fourth x => .Second (.Third x)

theorem Either4.nest_injective : Function.Injective (Either4.nest : Either4 α β γ δ → _) := by
  intro r r' h
  cases r <;> cases r' <;> simp_all [Either4.nest]

theorem Select4.renames : Renames Select4.nest Either4.nest
    (Select4.poll pollA pollB pollC pollD)
    (Select.poll pollA (Select3.poll pollB pollC pollD)) := by
  intro t s
  rcases ha : pollA t.a s with ⟨_ | x, a, s₁⟩
  · rcases hb : pollB t.b s₁ with ⟨_ | y, b, s₂⟩
    · rcases hc : pollC t.c s₂ with ⟨_ | z, c, s₃⟩
      · rcases hd : pollD t.d s₃ with ⟨_ | u, d, s₄⟩
        · simp [Select.poll, Select3.poll, Select4.poll, Select4.nest, ha, hb, hc, hd]
        · simp [Select.poll, Select3.poll, Select4.poll, Select4.nest, Either4.nest, ha, hb, hc, hd]
      · simp [Select.poll, Select3.poll, Select4.poll, Select4.nest, Either4.nest, ha, hb, hc]
    · simp [Select.poll, Select3.poll, Select4.poll, Select4.nest, Either4.nest, ha, hb]
  · simp [Select.poll, Select4.poll, Select4.nest, Either4.nest, ha]

theorem Select3.pending_iff (hA : Leaves pollA) (hB : Leaves pollB) {t : Select3 A B C} :
    Pending (Select3.poll pollA pollB pollC) e t k ↔
      Pending pollA e t.a k ∧ Pending pollB e t.b k ∧ Pending pollC e t.c k := by
  rw [← Select3.renames.pending_iff, (Select.pending hA).1, Select3.nest, (Select.pending hB).1]

/-- **A select over four futures** is ready when one of them is, and with the first of those that
are. -/
theorem Select4.readyAt_either4_iff (hA : Leaves pollA) (hB : Leaves pollB) (hC : Leaves pollC)
    {t : Select4 A B C D} {r : Either4 α β γ δ} :
    ReadyAt (Select4.poll pollA pollB pollC pollD) e t k r ↔
      match r with
      | .First x => ReadyAt pollA e t.a k x ∧ Pending pollB e t.b k ∧ Pending pollC e t.c k ∧
        Pending pollD e t.d k
      | .Second y => Pending pollA e t.a (k + 1) ∧ ReadyAt pollB e t.b k y ∧
        Pending pollC e t.c k ∧ Pending pollD e t.d k
      | .Third z => Pending pollA e t.a (k + 1) ∧ Pending pollB e t.b (k + 1) ∧
        ReadyAt pollC e t.c k z ∧ Pending pollD e t.d k
      | .Fourth u => Pending pollA e t.a (k + 1) ∧ Pending pollB e t.b (k + 1) ∧
        Pending pollC e t.c (k + 1) ∧ ReadyAt pollD e t.d k u := by
  rw [← Select4.renames.readyAt_iff Either4.nest_injective, Select.readyAt_either_iff hA]
  cases r with
  | First x => exact and_congr_right fun _ => Select3.pending_iff hB hC
  | Second y => exact and_congr_right fun _ => Select3.readyAt_either3_iff hB hC
  | Third z => exact and_congr_right fun _ => Select3.readyAt_either3_iff hB hC
  | Fourth u => exact and_congr_right fun _ => Select3.readyAt_either3_iff hB hC

/-- The future of a timer in a world that is the time. -/
def Timer.pollFn : PollFn Timer ℕ Unit := fun t now =>
  match (t.poll now none).1 with
  | .ready => (some (), t, now)
  | .pending => (none, t, now)

theorem Timer.leaves_pollFn : Leaves Timer.pollFn := by
  intro t now
  rw [Timer.pollFn]
  cases (t.poll now none).1 <;> rfl

theorem Select4.readyAt_either4_timers :
    ReadyAt (Select4.poll Timer.pollFn Timer.pollFn Timer.pollFn Timer.pollFn) id
      ⟨⟨9⟩, ⟨4⟩, ⟨7⟩, ⟨4⟩⟩ 4 (.Second ()) := by
  refine (Select4.readyAt_either4_iff Timer.leaves_pollFn Timer.leaves_pollFn
    Timer.leaves_pollFn).mpr ?_
  change Pending Timer.pollFn id ⟨9⟩ 5 ∧ ReadyAt Timer.pollFn id ⟨4⟩ 4 () ∧
    Pending Timer.pollFn id ⟨7⟩ 4 ∧ Pending Timer.pollFn id ⟨4⟩ 4
  decide

/-! ### Arrays and slices -/

theorem SelectArray.renames {poll : PollFn A σ α} :
    Renames SelectArray.mk (fun r : ℕ × α => (r.2, r.1)) (pollFirst poll)
      (SelectArray.poll poll) := fun _ _ => rfl

/-- **A select over an array** is ready when one of its futures is, and with the first of those that
are, and its index. -/
theorem SelectArray.readyAt_array_iff {poll : PollFn A σ α} (hl : Leaves poll) {t : SelectArray A}
    {x : α} {i : ℕ} : ReadyAt (SelectArray.poll poll) e t k (x, i) ↔
      (∃ f, t.inner[i]? = some f ∧ ReadyAt poll e f k x) ∧
        (∀ f ∈ t.inner.take i, Pending poll e f (k + 1)) ∧ ∀ f ∈ t.inner, Pending poll e f k := by
  have hinj : Function.Injective fun r : ℕ × α => (r.2, r.1) := by
    rintro ⟨i, x⟩ ⟨j, y⟩ h
    cases h
    rfl
  rw [← readyAt_pollFirst_iff hl]
  exact SelectArray.renames.readyAt_iff (x := (i, x)) hinj

theorem SelectArray.readyAt_array_timers :
    ReadyAt (SelectArray.poll Timer.pollFn) id ⟨[⟨9⟩, ⟨4⟩, ⟨4⟩]⟩ 4 ((), 1) := by
  refine (SelectArray.readyAt_array_iff Timer.leaves_pollFn).mpr ⟨⟨⟨4⟩, rfl, ?_⟩, ?_, ?_⟩
  · decide
  · decide
  · decide

/-- The output of a select over two futures of one type, with its index. -/
def Either.toArray : Either α α → α × ℕ
  | .First x => (x, 0)
  | .Second x => (x, 1)

/-- A select over two futures of one type is one over an array. -/
theorem SelectArray.poll_pair (poll : PollFn A σ α) (a b : A) (s : σ) :
    SelectArray.poll poll ⟨[a, b]⟩ s =
      ((Select.poll poll poll ⟨a, b⟩ s).1.map Either.toArray,
        ⟨[(Select.poll poll poll ⟨a, b⟩ s).2.1.a, (Select.poll poll poll ⟨a, b⟩ s).2.1.b]⟩,
        (Select.poll poll poll ⟨a, b⟩ s).2.2) := by
  rcases ha : poll a s with ⟨_ | x, a', s₁⟩
  · rcases hb : poll b s₁ with ⟨_ | y, b', s₂⟩
    · simp [SelectArray.poll, Select.poll, pollFirst, ha, hb]
    · simp [SelectArray.poll, Select.poll, pollFirst, Either.toArray, ha, hb]
  · simp [SelectArray.poll, Select.poll, pollFirst, Either.toArray, ha]

end AurixAsync
