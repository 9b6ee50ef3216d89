import AurixAsync.Sync.RingBuffer
import AurixAsync.Sync.WakerRegistration

/-!
# The byte pipe

`Pipe<N>`: a buffer of `N` bytes, its ring buffer, and a place each for the waker of a reader and
of a writer. Every operation is one critical section. It returns what the caller gets, the pipe,
and the tasks woken, in order; `none` is the panic of an assertion.

* `tryReadWithContext`, `tryFillBufWithContext`, `consume`, `tryWriteWithContext`, `clear`: the
  code.
* `Valid`: what holds of every pipe.
* `tryRead_cases`, `tryFillBuf_cases`, `consume_cases`, `tryWrite_cases`: the operations in terms
  of `len`, with whom they register and wake.
-/

namespace AurixAsync

/-- The pipe is empty. -/
inductive TryReadError
  | empty
deriving DecidableEq, Repr

/-- The pipe is full. -/
inductive TryWriteError
  | full
deriving DecidableEq, Repr

/-- The memory, its ring buffer, and a waker for the readers and one for the writers. -/
structure Pipe (N : ℕ) where
  buf : List UInt8
  buffer : RingBuffer N
  readWaker : WakerRegistration
  writeWaker : WakerRegistration

namespace Pipe

variable {N : ℕ}

/-- An empty pipe. -/
def new : Pipe N := ⟨List.replicate N 0, .new, .new, .new⟩

/-- The number of bytes in the pipe. -/
def len (s : Pipe N) : ℕ := s.buffer.len

/-- `is_full`. -/
def isFull (s : Pipe N) : Bool := s.len = N

/-- `is_empty`. -/
def isEmpty (s : Pipe N) : Bool := s.len = 0

/-- `Buffer::get`. -/
def get (s : Pipe N) (r : Range) : List UInt8 := (s.buf.drop r.start).take r.len

/-- The buffer with these bytes copied to the start of the slice that `Buffer::get_mut` gives. -/
def copyTo (buf : List UInt8) (start : ℕ) (bytes : List UInt8) : List UInt8 :=
  buf.take start ++ bytes ++ buf.drop (start + bytes.length)

/-- `try_read_with_context` into a buffer of `n` bytes: the bytes copied. -/
def tryReadWithContext (s : Pipe N) (cx : Option TaskRef) (n : ℕ) :
    Option (Except TryReadError (List UInt8) × Pipe N × List TaskRef) :=
  let w := s.writeWaker.wakeIf s.buffer.isFull
  let r := s.buffer.popBuf
  if r.len = 0 then
    let reg := s.readWaker.registerCx cx
    some (.error .empty, { s with writeWaker := w.1, readWaker := reg.1 }, w.2 ++ reg.2)
  else
    (s.buffer.pop (min r.len n)).map fun b =>
      (.ok ((s.get r).take (min r.len n)), { s with writeWaker := w.1, buffer := b }, w.2)

/-- `try_fill_buf_with_context`: the first bytes in one piece, with the tasks it wakes. -/
def tryFillBufWithContext (s : Pipe N) (cx : Option TaskRef) :
    Option (Except TryReadError (List UInt8) × Pipe N × List TaskRef) :=
  let w := s.writeWaker.wakeIf s.buffer.isFull
  let r := s.buffer.popBuf
  if r.len = 0 then
    let reg := s.readWaker.registerCx cx
    some (.error .empty, { s with writeWaker := w.1, readWaker := reg.1 }, w.2 ++ reg.2)
  else some (.ok (s.get r), { s with writeWaker := w.1 }, w.2)

/-- `consume`, with its assertion. It wakes nobody. -/
def consume (s : Pipe N) (amt : ℕ) : Option (Pipe N) :=
  if amt ≤ s.buffer.popBuf.len then (s.buffer.pop amt).map fun b => { s with buffer := b }
  else none

/-- `try_write_with_context`: the number of bytes taken. -/
def tryWriteWithContext (s : Pipe N) (cx : Option TaskRef) (bytes : List UInt8) :
    Option (Except TryWriteError ℕ × Pipe N × List TaskRef) :=
  let w := s.readWaker.wakeIf s.buffer.isEmpty
  let r := s.buffer.pushBuf
  if r.len = 0 then
    let reg := s.writeWaker.registerCx cx
    some (.error .full, { s with readWaker := w.1, writeWaker := reg.1 }, w.2 ++ reg.2)
  else
    let n := min r.len bytes.length
    (s.buffer.push n).map fun b =>
      (.ok n, { s with readWaker := w.1, buffer := b, buf := copyTo s.buf r.start (bytes.take n) },
        w.2)

/-- `clear`, with the tasks it wakes. -/
def clear (s : Pipe N) : Pipe N × List TaskRef :=
  let w := s.writeWaker.wake
  ({ s with buffer := s.buffer.clear, writeWaker := w.1 }, w.2)

/-! ### The operations in terms of the length -/

/-- The indices are in order and the buffer has `N` bytes. -/
structure Valid (s : Pipe N) : Prop where
  buffer : s.buffer.Valid
  length : s.buf.length = N

variable {s s' : Pipe N} {cx : Option TaskRef} {woken : List TaskRef}

theorem valid_new (hN : 0 < N) : (new : Pipe N).Valid :=
  ⟨RingBuffer.valid_new hN, List.length_replicate⟩

theorem Valid.pos (h : s.Valid) : 0 < N := by
  have := h.buffer.start_lt
  omega

theorem isFull_eq (h : s.Valid) : s.buffer.isFull = decide (s.len = N) := by
  rw [Bool.eq_iff_iff, decide_eq_true_eq]
  exact RingBuffer.isFull_iff h.buffer

theorem isEmpty_eq (h : s.Valid) : s.buffer.isEmpty = decide (s.len = 0) := by
  rw [Bool.eq_iff_iff, decide_eq_true_eq]
  exact RingBuffer.isEmpty_iff h.buffer

/-- What `read` and `fill_buf` have in common. On an empty pipe they register their task and fail;
otherwise they wake the writer registered if the pipe was full. -/
def Reads (s : Pipe N) (cx : Option TaskRef) (r : Except TryReadError (List UInt8)) (s' : Pipe N)
    (woken : List TaskRef) : Prop :=
  s.len = 0 ∧ r = .error .empty ∧ s'.len = 0 ∧ s'.writeWaker = s.writeWaker ∧
      s'.readWaker = (s.readWaker.registerCx cx).1 ∧ woken = (s.readWaker.registerCx cx).2 ∨
    0 < s.len ∧ (∃ bytes, r = .ok bytes) ∧ s'.len ≤ s.len ∧ s'.readWaker = s.readWaker ∧
      s'.writeWaker = (s.writeWaker.wakeIf (s.len = N)).1 ∧
      woken = (s.writeWaker.wakeIf (s.len = N)).2

/-- **What a read does**: it takes some bytes, if there are any. -/
theorem tryRead_cases (h : s.Valid) (cx : Option TaskRef) (n : ℕ) :
    ∃ r s' woken, s.tryReadWithContext cx n = some (r, s', woken) ∧ s'.Valid ∧
      s.Reads cx r s' woken := by
  have hN := h.pos
  have hpop := RingBuffer.len_popBuf h.buffer
  unfold tryReadWithContext
  rw [isFull_eq h]
  by_cases hz : s.buffer.popBuf.len = 0
  · have he : s.len = 0 := hpop.2.mp hz
    simp only [hz, if_true]
    rw [decide_eq_false (p := s.len = N) (by omega)]
    exact ⟨_, _, _, rfl, ⟨h.buffer, h.length⟩, Or.inl ⟨he, rfl, he, rfl, rfl, rfl⟩⟩
  · have hle : min s.buffer.popBuf.len n ≤ s.buffer.popBuf.len := Nat.min_le_left _ _
    obtain ⟨b, hb, hv, hl⟩ := RingBuffer.pop_spec h.buffer hle
    have hlen : s.len ≠ 0 := fun he => hz (hpop.2.mpr he)
    simp only [hz, if_false]
    rw [hb]
    refine ⟨_, _, _, rfl, ⟨hv, h.length⟩, Or.inr ⟨by omega, ⟨_, rfl⟩, ?_, rfl, rfl, rfl⟩⟩
    change b.len ≤ s.buffer.len
    omega

/-- **What `fill_buf` does**: as a read, but it takes no bytes. -/
theorem tryFillBuf_cases (h : s.Valid) (cx : Option TaskRef) :
    ∃ r s' woken, s.tryFillBufWithContext cx = some (r, s', woken) ∧ s'.Valid ∧
      s.Reads cx r s' woken ∧ s'.len = s.len := by
  have hN := h.pos
  have hpop := RingBuffer.len_popBuf h.buffer
  unfold tryFillBufWithContext
  rw [isFull_eq h]
  by_cases hz : s.buffer.popBuf.len = 0
  · have he : s.len = 0 := hpop.2.mp hz
    simp only [hz, if_true]
    rw [decide_eq_false (p := s.len = N) (by omega)]
    exact ⟨_, _, _, rfl, ⟨h.buffer, h.length⟩, Or.inl ⟨he, rfl, he, rfl, rfl, rfl⟩, rfl⟩
  · have hlen : s.len ≠ 0 := fun he => hz (hpop.2.mpr he)
    simp only [hz, if_false]
    exact ⟨_, _, _, rfl, ⟨h.buffer, h.length⟩,
      Or.inr ⟨by omega, ⟨_, rfl⟩, le_rfl, rfl, rfl, rfl⟩, rfl⟩

/-- **What `consume` does**: the bytes go and nobody is woken. -/
theorem consume_cases (h : s.Valid) {amt : ℕ} (hc : s.consume amt = some s') :
    s'.Valid ∧ amt ≤ s.len ∧ s'.len = s.len - amt ∧ s'.readWaker = s.readWaker ∧
      s'.writeWaker = s.writeWaker := by
  have hpop := RingBuffer.len_popBuf h.buffer
  unfold consume at hc
  split_ifs at hc with hle
  obtain ⟨b, hb, hv, hl⟩ := RingBuffer.pop_spec h.buffer hle
  rw [hb] at hc
  obtain rfl := Option.some.inj hc
  exact ⟨⟨hv, h.length⟩, hle.trans hpop.1, hl, rfl, rfl⟩

theorem length_copyTo {buf bytes : List UInt8} {start : ℕ}
    (hle : start + bytes.length ≤ buf.length) : (copyTo buf start bytes).length = buf.length := by
  rw [copyTo, List.length_append, List.length_append, List.length_take, List.length_drop]
  omega

theorem pushBuf_le (h : s.Valid) : s.buffer.pushBuf.start + s.buffer.pushBuf.len ≤ N := by
  obtain ⟨-, -, hle, hN⟩ := RingBuffer.parts_le h.buffer
  rw [Range.len, Nat.add_sub_cancel' hle]
  exact hN

/-- **What a write does.** On a full pipe it registers its task and fails. Otherwise it adds some
bytes, and wakes the reader registered if the pipe was empty. -/
theorem tryWrite_cases (h : s.Valid) (cx : Option TaskRef) (bytes : List UInt8) :
    ∃ r s' woken, s.tryWriteWithContext cx bytes = some (r, s', woken) ∧ s'.Valid ∧
      (s.len = N ∧ r = .error .full ∧ s'.len = N ∧ s'.readWaker = s.readWaker ∧
          s'.writeWaker = (s.writeWaker.registerCx cx).1 ∧ woken = (s.writeWaker.registerCx cx).2 ∨
        s.len < N ∧ (∃ n, r = .ok n) ∧ s.len ≤ s'.len ∧ s'.writeWaker = s.writeWaker ∧
          s'.readWaker = (s.readWaker.wakeIf (s.len = 0)).1 ∧
          woken = (s.readWaker.wakeIf (s.len = 0)).2) := by
  have hN := h.pos
  have hpush := RingBuffer.len_pushBuf h.buffer
  have hlen : s.len ≤ N := RingBuffer.len_le h.buffer
  have hstart := pushBuf_le h
  unfold tryWriteWithContext
  rw [isEmpty_eq h]
  by_cases hz : s.buffer.pushBuf.len = 0
  · have hf : s.len = N := hpush.2.mp hz
    simp only [hz, if_true]
    rw [decide_eq_false (p := s.len = 0) (by omega)]
    exact ⟨_, _, _, rfl, ⟨h.buffer, h.length⟩, Or.inl ⟨hf, rfl, hf, rfl, rfl, rfl⟩⟩
  · have hle : min s.buffer.pushBuf.len bytes.length ≤ s.buffer.pushBuf.len := Nat.min_le_left _ _
    obtain ⟨b, hb, hv, hl⟩ := RingBuffer.push_spec h.buffer hle
    have hne : s.len ≠ N := fun hf => hz (hpush.2.mpr hf)
    simp only [hz, if_false]
    rw [hb]
    refine ⟨_, _, _, rfl, ⟨hv, ?_⟩, Or.inr ⟨by omega, ⟨_, rfl⟩, ?_, rfl, rfl, rfl⟩⟩
    · have hbuf := h.length
      change (copyTo s.buf _ _).length = N
      rw [length_copyTo (by rw [List.length_take]; omega), hbuf]
    · change s.buffer.len ≤ b.len
      omega

end Pipe

end AurixAsync
