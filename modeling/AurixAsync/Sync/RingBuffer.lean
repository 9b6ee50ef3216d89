import AurixAsync.Lib.Ring

/-!
# The ring buffer

`RingBuffer<N>` holds two indices into a buffer of `N` bytes and a flag that tells a full buffer
from an empty one. `none` is the panic of the assertion in `wrap`.

* `RingBuffer`, `pushBuf`, `push`, `popBuf`, `pop`, `len`, `clear`: the code.
* `Valid`: the indices are inside the buffer, and a full buffer has them equal.
* `popBuf_eq`, `pushBuf_eq`: the parts of the buffer that are offered.
* `isFull_iff`, `isEmpty_iff`, `push_spec`, `pop_spec`: the operations in terms of `len`.
-/

namespace AurixAsync

/-- `start..stop`, as a slice of a buffer. -/
structure Range where
  start : ℕ
  stop : ℕ
deriving DecidableEq, Repr

/-- The length of a range. -/
def Range.len (r : Range) : ℕ := r.stop - r.start

/-- Where the data starts, where the next push begins, and whether the buffer is full. -/
structure RingBuffer (N : ℕ) where
  start : ℕ
  stop : ℕ
  full : Bool
deriving DecidableEq, Repr

namespace RingBuffer

variable {N : ℕ}

/-- An empty buffer. -/
def new : RingBuffer N := ⟨0, 0, false⟩

/-- `is_full`. -/
def isFull (b : RingBuffer N) : Bool := b.full

/-- `is_empty`. -/
def isEmpty (b : RingBuffer N) : Bool := b.start = b.stop && !b.full

/-- `wrap`, with its assertion. -/
def wrap (N n : ℕ) : Option ℕ :=
  if n ≤ N then some (if n = N then 0 else n) else none

/-- `push_buf`: the part that the next bytes can be written to, in one piece. -/
def pushBuf (b : RingBuffer N) : Range :=
  if b.isFull then ⟨0, 0⟩
  else
    let n := if b.start ≤ b.stop then N - b.stop else b.start - b.stop
    ⟨b.stop, b.stop + n⟩

/-- `push`: the first `n` bytes of that part were written. -/
def push (b : RingBuffer N) (n : ℕ) : Option (RingBuffer N) :=
  if n = 0 then some b
  else (wrap N (b.stop + n)).map fun stop => { b with stop := stop, full := b.start = stop }

/-- `pop_buf`: the first bytes, in one piece. -/
def popBuf (b : RingBuffer N) : Range :=
  if b.isEmpty then ⟨0, 0⟩
  else
    let n := if b.stop ≤ b.start then N - b.start else b.stop - b.start
    ⟨b.start, b.start + n⟩

/-- `pop`: the first `n` bytes of that part were read. -/
def pop (b : RingBuffer N) (n : ℕ) : Option (RingBuffer N) :=
  if n = 0 then some b
  else (wrap N (b.start + n)).map fun start => { b with start := start, full := false }

/-- `len`. -/
def len (b : RingBuffer N) : ℕ :=
  if b.isEmpty then 0
  else if b.start < b.stop then b.stop - b.start
  else N + b.stop - b.start

/-- `clear`. -/
def clear (_ : RingBuffer N) : RingBuffer N := ⟨0, 0, false⟩

/-- The indices are inside the buffer, and equal when it is full. -/
structure Valid (b : RingBuffer N) : Prop where
  start_lt : b.start < N
  stop_lt : b.stop < N
  full : b.full = true → b.start = b.stop

variable {b b' : RingBuffer N} {n : ℕ}

theorem valid_new (hN : 0 < N) : (new : RingBuffer N).Valid :=
  ⟨hN, hN, fun h => absurd h Bool.false_ne_true⟩

theorem valid_clear (b : RingBuffer N) (hN : 0 < N) : b.clear.Valid :=
  ⟨hN, hN, fun h => absurd h Bool.false_ne_true⟩

@[simp] theorem len_clear (b : RingBuffer N) : b.clear.len = 0 := rfl

theorem isEmpty_eq_true : b.isEmpty = true ↔ b.start = b.stop ∧ b.full = false := by
  simp [isEmpty]

theorem isEmpty_eq_false : b.isEmpty = false ↔ b.start ≠ b.stop ∨ b.full = true := by
  rw [← Bool.not_eq_true, isEmpty_eq_true, not_and_or, Bool.not_eq_false]

theorem len_cases (b : RingBuffer N) :
    b.isEmpty = true ∧ b.len = 0 ∨
      b.isEmpty = false ∧ b.start < b.stop ∧ b.len = b.stop - b.start ∨
      b.isEmpty = false ∧ b.stop ≤ b.start ∧ b.len = N + b.stop - b.start := by
  unfold len
  cases he : b.isEmpty with
  | true => exact Or.inl ⟨rfl, by simp⟩
  | false =>
    by_cases hlt : b.start < b.stop
    · exact Or.inr (Or.inl ⟨rfl, hlt, by simp [hlt]⟩)
    · exact Or.inr (Or.inr ⟨rfl, by omega, by simp [hlt]⟩)

theorem len_le (h : b.Valid) : b.len ≤ N := by
  have h₁ := h.start_lt
  have h₂ := h.stop_lt
  rcases len_cases b with ⟨-, hl⟩ | ⟨-, hlt, hl⟩ | ⟨-, hle, hl⟩ <;> omega

theorem isEmpty_iff (h : b.Valid) : b.isEmpty = true ↔ b.len = 0 := by
  have h₁ := h.start_lt
  have h₂ := h.stop_lt
  rcases len_cases b with ⟨he, hl⟩ | ⟨he, hlt, hl⟩ | ⟨he, hle, hl⟩
  · exact ⟨fun _ => hl, fun _ => he⟩
  · rw [he]
    exact ⟨fun hf => absurd hf Bool.false_ne_true, fun hz => by omega⟩
  · rw [he]
    exact ⟨fun hf => absurd hf Bool.false_ne_true, fun hz => by omega⟩

theorem isFull_iff (h : b.Valid) : b.isFull = true ↔ b.len = N := by
  have h₁ := h.start_lt
  have h₂ := h.stop_lt
  unfold isFull
  rcases len_cases b with ⟨he, hl⟩ | ⟨he, hlt, hl⟩ | ⟨he, hle, hl⟩
  · have hf := (isEmpty_eq_true.mp he).2
    rw [hf]
    exact ⟨fun hf => absurd hf Bool.false_ne_true, fun hN => by omega⟩
  · constructor
    · intro hf
      have heq := h.full hf
      omega
    · intro hN
      omega
  · constructor
    · intro hf
      have heq := h.full hf
      omega
    · intro hN
      rcases isEmpty_eq_false.mp he with hne | hf
      · omega
      · exact hf

/-- The data ends where the next push begins. -/
theorem stop_eq (h : b.Valid) : b.stop = (b.len + b.start) % N := by
  have h₁ := h.start_lt
  have h₂ := h.stop_lt
  have hmod := Ring.add_mod_cases h₁ (len_le h)
  rcases len_cases b with ⟨he, hl⟩ | ⟨-, hlt, hl⟩ | ⟨-, hle, hl⟩
  · have heq := (isEmpty_eq_true.mp he).1
    omega
  · omega
  · omega

theorem len_eq_of_stop (h : b.Valid) {l : ℕ} (hl : l ≤ N) (hs : b.stop = (l + b.start) % N)
    (hf : b.full = true ↔ l = N) : b.len = l := by
  have h₁ := h.start_lt
  have hmod := Ring.add_mod_cases h₁ hl
  rcases len_cases b with ⟨he, hl'⟩ | ⟨he, hlt, hl'⟩ | ⟨he, hle, hl'⟩
  · obtain ⟨heq, hfull⟩ := isEmpty_eq_true.mp he
    have hne : l ≠ N := fun hN => by rw [hf.mpr hN] at hfull; exact absurd hfull (by simp)
    omega
  · omega
  · rcases isEmpty_eq_false.mp he with hne | hfull
    · omega
    · have hN := hf.mp hfull
      have heq := h.full hfull
      omega

/-! ### The parts offered -/

/-- The part that `pop_buf` offers: from the start up to the end of the data or of the buffer. -/
theorem popBuf_eq (h : b.Valid) (hl : b.len ≠ 0) :
    b.popBuf = ⟨b.start, b.start + min b.len (N - b.start)⟩ := by
  have h₁ := h.start_lt
  have h₂ := h.stop_lt
  unfold popBuf
  rcases len_cases b with ⟨-, hz⟩ | ⟨he, hlt, hl'⟩ | ⟨he, hle, hl'⟩
  · exact absurd hz hl
  · simp only [he, Bool.false_eq_true, if_false, Range.mk.injEq, true_and]
    rw [if_neg (by omega)]
    omega
  · simp only [he, Bool.false_eq_true, if_false, Range.mk.injEq, true_and]
    rw [if_pos hle]
    omega

/-- The part that `push_buf` offers: from the end of the data up to the start of it or the end of
the buffer. -/
theorem pushBuf_eq (h : b.Valid) (hl : b.len ≠ N) :
    b.pushBuf = ⟨b.stop, b.stop + min (N - b.len) (N - b.stop)⟩ := by
  have h₁ := h.start_lt
  have h₂ := h.stop_lt
  have hf : b.isFull = false := by
    by_contra hf
    exact hl ((isFull_iff h).mp (Bool.not_eq_false _ ▸ hf))
  unfold pushBuf
  simp only [hf, Bool.false_eq_true, if_false, Range.mk.injEq, true_and]
  rcases len_cases b with ⟨he, hl'⟩ | ⟨he, hlt, hl'⟩ | ⟨he, hle, hl'⟩
  · have heq := (isEmpty_eq_true.mp he).1
    rw [if_pos heq.le]
    omega
  · rw [if_pos hlt.le]
    omega
  · by_cases hs : b.start ≤ b.stop
    · omega
    · rw [if_neg hs]
      omega

theorem len_popBuf_eq (h : b.Valid) : b.popBuf.len = min b.len (N - b.start) := by
  by_cases hz : b.len = 0
  · rw [popBuf, (isEmpty_iff h).mpr hz, if_pos rfl, hz, Nat.zero_min]
    rfl
  · rw [popBuf_eq h hz, Range.len, Nat.add_sub_cancel_left]

theorem len_pushBuf_eq (h : b.Valid) : b.pushBuf.len = min (N - b.len) (N - b.stop) := by
  by_cases hN : b.len = N
  · rw [pushBuf, (isFull_iff h).mpr hN, if_pos rfl, hN, Nat.sub_self, Nat.zero_min]
    rfl
  · rw [pushBuf_eq h hN, Range.len, Nat.add_sub_cancel_left]

theorem len_pushBuf (h : b.Valid) :
    b.pushBuf.len ≤ N - b.len ∧ (b.pushBuf.len = 0 ↔ b.len = N) := by
  have h₁ := h.stop_lt
  have h₂ := len_le h
  rw [len_pushBuf_eq h]
  omega

theorem len_popBuf (h : b.Valid) :
    b.popBuf.len ≤ b.len ∧ (b.popBuf.len = 0 ↔ b.len = 0) := by
  have h₁ := h.start_lt
  rw [len_popBuf_eq h]
  omega

theorem parts_le (h : b.Valid) :
    b.popBuf.start ≤ b.popBuf.stop ∧ b.popBuf.stop ≤ N ∧
      b.pushBuf.start ≤ b.pushBuf.stop ∧ b.pushBuf.stop ≤ N := by
  have h₁ := h.start_lt
  have h₂ := h.stop_lt
  have hpop : b.popBuf.start ≤ b.popBuf.stop ∧ b.popBuf.stop ≤ N := by
    unfold popBuf
    split_ifs
    · exact ⟨le_rfl, Nat.zero_le N⟩
    · dsimp only
      omega
    · dsimp only
      omega
  have hpush : b.pushBuf.start ≤ b.pushBuf.stop ∧ b.pushBuf.stop ≤ N := by
    unfold pushBuf
    split_ifs
    · exact ⟨le_rfl, Nat.zero_le N⟩
    · dsimp only
      omega
    · dsimp only
      omega
  exact ⟨hpop.1, hpop.2, hpush⟩

/-! ### Pushing and popping -/

theorem wrap_eq_mod (hn : n ≤ N) : wrap N n = some (n % N) := by
  rw [wrap, if_pos hn]
  split_ifs with heq
  · rw [heq, Nat.mod_self]
  · rw [Nat.mod_eq_of_lt (by omega)]

theorem start_push (hp : b.push n = some b') : b'.start = b.start := by
  unfold push at hp
  split_ifs at hp
  · obtain rfl := Option.some.inj hp
    rfl
  · obtain ⟨stop, -, rfl⟩ := Option.map_eq_some_iff.mp hp
    rfl

/-- **`push` adds what was pushed**, as long as `push_buf` offered it. -/
theorem push_spec (h : b.Valid) (hn : n ≤ b.pushBuf.len) :
    ∃ b', b.push n = some b' ∧ b'.Valid ∧ b'.len = b.len + n := by
  have h₁ := h.start_lt
  have h₂ := h.stop_lt
  by_cases hz : n = 0
  · exact ⟨b, by rw [push, if_pos hz], h, by omega⟩
  · rw [len_pushBuf_eq h] at hn
    have hpos : 0 < N := by omega
    have hle : b.len + n ≤ N := by omega
    have hstop : (b.stop + n) % N = (b.len + n + b.start) % N := by
      rw [stop_eq h, Nat.mod_add_mod, Nat.add_right_comm]
    have hv : (⟨b.start, (b.stop + n) % N, b.start = (b.stop + n) % N⟩ : RingBuffer N).Valid :=
      ⟨h₁, Nat.mod_lt _ hpos, fun hf => of_decide_eq_true hf⟩
    refine ⟨_, by rw [push, if_neg hz, wrap_eq_mod (by omega)]; rfl, hv, ?_⟩
    apply len_eq_of_stop hv hle hstop
    -- the start is met again when the buffer is full
    have hmod := Ring.add_mod_cases h₁ hle
    show decide (b.start = (b.stop + n) % N) = true ↔ b.len + n = N
    rw [decide_eq_true_eq, hstop]
    omega

/-- **`pop` removes what was popped**, as long as `pop_buf` offered it, and moves the start. -/
theorem pop_spec (h : b.Valid) (hn : n ≤ b.popBuf.len) :
    ∃ b', b.pop n = some b' ∧ b'.Valid ∧ b'.len = b.len - n := by
  have h₁ := h.start_lt
  have h₂ := h.stop_lt
  by_cases hz : n = 0
  · exact ⟨b, by rw [pop, if_pos hz], h, by omega⟩
  · rw [len_popBuf_eq h] at hn
    have hpos : 0 < N := by omega
    have hle := len_le h
    have hv : (⟨(b.start + n) % N, b.stop, false⟩ : RingBuffer N).Valid :=
      ⟨Nat.mod_lt _ hpos, h₂, fun hf => absurd hf Bool.false_ne_true⟩
    refine ⟨_, by rw [pop, if_neg hz, wrap_eq_mod (by omega)]; rfl, hv, ?_⟩
    apply len_eq_of_stop hv (by omega)
    · show b.stop = (b.len - n + (b.start + n) % N) % N
      rw [Nat.add_mod_mod, stop_eq h]
      congr 1
      omega
    · show false = true ↔ b.len - n = N
      constructor
      · exact fun hf => absurd hf Bool.false_ne_true
      · intro hN
        omega

theorem start_pop (h : b.Valid) (hn : n ≤ b.popBuf.len) (hp : b.pop n = some b') :
    b'.start = (b.start + n) % N := by
  have h₁ := h.start_lt
  rw [len_popBuf_eq h] at hn
  by_cases hz : n = 0
  · rw [pop, if_pos hz] at hp
    rw [← Option.some.inj hp, hz, Nat.add_zero, Nat.mod_eq_of_lt h₁]
  · rw [pop, if_neg hz, wrap_eq_mod (by omega)] at hp
    rw [← Option.some.inj hp]

end RingBuffer

end AurixAsync
