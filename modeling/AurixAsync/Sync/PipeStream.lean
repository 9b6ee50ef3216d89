import AurixAsync.Lib.Ring
import AurixAsync.Lib.Run
import AurixAsync.Sync.Pipe

/-!
# The pipe as a byte stream

* `contents`: the bytes in the pipe, in order, as a view of the buffer around its end.
* `tryRead_stream`, `tryFillBuf_stream`, `consume_stream`, `tryWrite_stream`: the operations in
  terms of the contents.
* `Streamed`, `Action`, `step`: the pipe with the bytes accepted, the bytes that left it, the slice
  that the reader holds and the futures of `write_all`.
* `Faithful`: what left the pipe are the first of the bytes accepted, in order, `len` is the number
  of the others, the slice held keeps its bytes, and no assertion fails.
* `faithful_of_reachable`: this holds in every reachable state.
-/

namespace AurixAsync

namespace Pipe

open Transition Ring

variable {N : ℕ}

/-- The bytes in the pipe, the oldest first. -/
def contents (s : Pipe N) : List UInt8 := view s.buf s.buffer.start s.len

/-- The bytes a read returned. -/
def got : Except TryReadError (List UInt8) → List UInt8
  | .ok bytes => bytes
  | .error _ => []

/-- The number of bytes a write took. -/
def taken : Except TryWriteError ℕ → ℕ
  | .ok n => n
  | .error _ => 0

variable {s s' : Pipe N} {cx : Option TaskRef} {woken : List TaskRef}

theorem len_le (h : s.Valid) : s.len ≤ N := RingBuffer.len_le h.buffer

theorem length_contents (h : s.Valid) : s.contents.length = s.len := by
  apply length_view
  rw [h.length]
  exact len_le h

theorem get_eq (h : s.Valid) {r : Range} (hs : r.len ≠ 0 → r.start = s.buffer.start)
    (hl : r.len ≤ s.buffer.popBuf.len) : s.get r = s.contents.take r.len := by
  have hb := h.length
  have hN := h.buffer.start_lt
  rw [RingBuffer.len_popBuf_eq h.buffer] at hl
  by_cases hz : r.len = 0
  · rw [get, hz, List.take_zero, List.take_zero]
  · rw [get, hs hz, contents, take_view]
    · exact hl.trans (Nat.min_le_left _ _)
    · omega

theorem get_popBuf (h : s.Valid) :
    s.get s.buffer.popBuf = s.contents.take s.buffer.popBuf.len := by
  apply get_eq h _ le_rfl
  intro hz
  have hl : s.buffer.len ≠ 0 := fun hl => hz ((RingBuffer.len_popBuf h.buffer).2.mpr hl)
  rw [RingBuffer.popBuf_eq h.buffer hl]

theorem view_pop (h : s.Valid) {n : ℕ} (hn : n ≤ s.buffer.popBuf.len) {b : RingBuffer N}
    (hb : s.buffer.pop n = some b) : view s.buf b.start b.len = s.contents.drop n := by
  obtain ⟨b', hb', -, hl⟩ := RingBuffer.pop_spec h.buffer hn
  obtain rfl : b = b' := Option.some.inj (hb.symm.trans hb')
  have hle : n ≤ s.len := hn.trans (RingBuffer.len_popBuf h.buffer).1
  have hbuf : s.len ≤ s.buf.length := by
    rw [h.length]
    exact len_le h
  have hmod : (s.buffer.start + n) % N = (s.buffer.start + n) % s.buf.length := by rw [h.length]
  rw [RingBuffer.start_pop h.buffer hn hb, hmod, view_mod, hl]
  exact (drop_view hle hbuf).symm

theorem view_push (h : s.Valid) {xs : List UInt8} (hn : xs.length ≤ s.buffer.pushBuf.len)
    (hN : s.len ≠ N) {b : RingBuffer N} (hb : s.buffer.push xs.length = some b) :
    view (copyTo s.buf s.buffer.pushBuf.start xs) b.start b.len = s.contents ++ xs := by
  obtain ⟨b', hb', -, hl⟩ := RingBuffer.push_spec h.buffer hn
  obtain rfl : b = b' := Option.some.inj (hb.symm.trans hb')
  have hlen := h.length
  have hstart := h.buffer.start_lt
  have hstop := h.buffer.stop_lt
  have heq := RingBuffer.stop_eq h.buffer
  have hle := RingBuffer.len_le h.buffer
  rw [RingBuffer.len_pushBuf_eq h.buffer] at hn
  rw [RingBuffer.start_push hb, hl, RingBuffer.pushBuf_eq h.buffer hN, heq]
  rw [heq] at hn
  have hmod : (s.buffer.len + s.buffer.start) % N =
      (s.buffer.len + s.buffer.start) % s.buf.length := by rw [h.length]
  rw [hmod] at hn ⊢
  apply view_paste
  · omega
  · omega
  · have hlt := Nat.mod_lt (s.buffer.len + s.buffer.start) (hlen ▸ h.pos)
    omega

/-! ### The operations in terms of the contents -/

theorem Valid.tryRead (h : s.Valid) {n : ℕ} {r : Except TryReadError (List UInt8)}
    (hr : s.tryReadWithContext cx n = some (r, s', woken)) : s'.Valid := by
  obtain ⟨_, _, _, he, hv, -⟩ := tryRead_cases h cx n
  rw [hr] at he
  cases he
  exact hv

theorem Valid.tryWrite (h : s.Valid) {bytes : List UInt8} {r : Except TryWriteError ℕ}
    (hr : s.tryWriteWithContext cx bytes = some (r, s', woken)) : s'.Valid := by
  obtain ⟨_, _, _, he, hv, -⟩ := tryWrite_cases h cx bytes
  rw [hr] at he
  cases he
  exact hv

/-- **A read takes the first bytes.** -/
theorem tryRead_stream (h : s.Valid) {n : ℕ} {r : Except TryReadError (List UInt8)}
    (hr : s.tryReadWithContext cx n = some (r, s', woken)) :
    s'.Valid ∧ got r ++ s'.contents = s.contents := by
  refine ⟨h.tryRead hr, ?_⟩
  unfold tryReadWithContext at hr
  by_cases hz : s.buffer.popBuf.len = 0
  · simp only [hz, if_true, Option.some.injEq, Prod.mk.injEq] at hr
    obtain ⟨rfl, rfl, -⟩ := hr
    rfl
  · simp only [hz, if_false, Option.map_eq_some_iff, Prod.mk.injEq] at hr
    obtain ⟨b, hb, rfl, rfl, -⟩ := hr
    show (s.get s.buffer.popBuf).take _ ++ view s.buf b.start b.len = s.contents
    rw [view_pop h (Nat.min_le_left _ _) hb, get_popBuf h, List.take_take,
      Nat.min_eq_left (Nat.min_le_left _ _), List.take_append_drop]

/-- **`fill_buf` takes nothing** and returns the first bytes, as a slice of the buffer. -/
theorem tryFillBuf_stream (h : s.Valid) {r : Except TryReadError (List UInt8)}
    (hr : s.tryFillBufWithContext cx = some (r, s', woken)) :
    s'.Valid ∧ s'.buffer = s.buffer ∧ s'.contents = s.contents ∧
      got r = s.contents.take s.buffer.popBuf.len := by
  unfold tryFillBufWithContext at hr
  by_cases hz : s.buffer.popBuf.len = 0
  · simp only [hz, if_true, Option.some.injEq, Prod.mk.injEq] at hr
    obtain ⟨rfl, rfl, -⟩ := hr
    refine ⟨⟨h.buffer, h.length⟩, rfl, rfl, ?_⟩
    rw [hz, List.take_zero]
    rfl
  · simp only [hz, if_false, Option.some.injEq, Prod.mk.injEq] at hr
    obtain ⟨rfl, rfl, -⟩ := hr
    exact ⟨⟨h.buffer, h.length⟩, rfl, rfl, get_popBuf h⟩

/-- **`consume` drops the first bytes**, and never fails on those that `fill_buf` offered. -/
theorem consume_stream (h : s.Valid) {amt : ℕ} (ha : amt ≤ s.buffer.popBuf.len) :
    ∃ p, s.consume amt = some p ∧ p.Valid ∧ p.contents = s.contents.drop amt := by
  obtain ⟨b, hb, hv, -⟩ := RingBuffer.pop_spec h.buffer ha
  refine ⟨{ s with buffer := b }, ?_, ⟨hv, h.length⟩, view_pop h ha hb⟩
  rw [consume, if_pos ha, hb]
  rfl

/-- **A write appends the bytes it takes**: at least one, if there is one and there is room. The
start of the data stays. -/
theorem tryWrite_stream (h : s.Valid) {bytes : List UInt8} {r : Except TryWriteError ℕ}
    (hr : s.tryWriteWithContext cx bytes = some (r, s', woken)) :
    s'.Valid ∧ s'.contents = s.contents ++ bytes.take (taken r) ∧
      s'.buffer.start = s.buffer.start ∧ taken r ≤ bytes.length ∧
      (bytes ≠ [] → s.len < N → 1 ≤ taken r) := by
  refine ⟨h.tryWrite hr, ?_⟩
  have hfull := (RingBuffer.len_pushBuf h.buffer).2
  unfold tryWriteWithContext at hr
  by_cases hz : s.buffer.pushBuf.len = 0
  · simp only [hz, if_true, Option.some.injEq, Prod.mk.injEq] at hr
    obtain ⟨rfl, rfl, -⟩ := hr
    refine ⟨(List.append_nil _).symm, rfl, Nat.zero_le _, fun _ hlt => ?_⟩
    exact absurd (hfull.mp hz) hlt.ne
  · simp only [hz, if_false, Option.map_eq_some_iff, Prod.mk.injEq] at hr
    obtain ⟨b, hb, rfl, rfl, -⟩ := hr
    have hN : s.len ≠ N := fun hN => hz (hfull.mpr hN)
    have hlen : (bytes.take (min s.buffer.pushBuf.len bytes.length)).length =
        min s.buffer.pushBuf.len bytes.length := by
      rw [List.length_take, Nat.min_eq_left (Nat.min_le_right _ _)]
    refine ⟨?_, RingBuffer.start_push hb, Nat.min_le_right _ _, fun hne _ => ?_⟩
    · apply view_push h _ hN
      · rw [hlen]
        exact hb
      · rw [hlen]
        exact Nat.min_le_left _ _
    · have hpos := List.length_pos_of_ne_nil hne
      show 1 ≤ min s.buffer.pushBuf.len bytes.length
      omega

theorem clear_stream (h : s.Valid) : s.clear.1.Valid ∧ s.clear.1.contents = [] :=
  ⟨⟨RingBuffer.valid_clear s.buffer h.pos, h.length⟩, view_zero s.buf 0⟩

/-! ### The machine -/

/-- A slice returned by `fill_buf`: where it is, and the bytes it had then. -/
structure Slice where
  range : Range
  bytes : List UInt8

/-- A future of `write_all`: its bytes, those written, and those left. -/
structure WriteAll where
  bytes : List UInt8
  written : List UInt8
  buf : List UInt8

/-- A pipe, the bytes accepted by writes, the bytes that left the pipe, each with whether the
reader got it (or it was cleared), the slice that the reader holds, and the futures of
`write_all`. -/
structure Streamed (N : ℕ) where
  pipe : Pipe N
  accepted : List UInt8
  gone : List (Bool × UInt8)
  held : Option Slice
  writing : List WriteAll

namespace Streamed

/-- A new pipe. -/
def new : Streamed N := ⟨.new, [], [], none, []⟩

/-- What the users of the pipe do. -/
inductive Action
  /-- `try_write`, or a poll of a `WriteFuture` by a task. -/
  | write (cx : Option TaskRef) (bytes : List UInt8)
  | writeAll (bytes : List UInt8)
  /-- The next turn of the loop of a `write_all`. -/
  | turnWriteAll (i : ℕ) (task : TaskRef)
  /-- `try_read`, or a poll of a `ReadFuture`, with a buffer of `n` bytes. -/
  | read (cx : Option TaskRef) (n : ℕ)
  /-- `try_fill_buf`, or a poll of a `FillBufFuture`. -/
  | fillBuf (cx : Option TaskRef)
  /-- The `consume` for the slice held. -/
  | consume (amt : ℕ)
  | clear
deriving DecidableEq

/-- The bytes the reader got. -/
def delivered (s : Streamed N) : List UInt8 := (s.gone.filter fun p => p.1).map Prod.snd

/-- The bytes that were cleared. -/
def discarded (s : Streamed N) : List UInt8 := (s.gone.filter fun p => !p.1).map Prod.snd

/-- The bytes go to the reader. -/
def handOver (s : Streamed N) (bytes : List UInt8) : List (Bool × UInt8) :=
  s.gone ++ bytes.map (Prod.mk true)

/-- After a write of `bytes`. -/
def wrote (s : Streamed N) (bytes : List UInt8)
    (r : Except TryWriteError ℕ × Pipe N × List TaskRef) : Streamed N :=
  { s with pipe := r.2.1, accepted := s.accepted ++ bytes.take (taken r.1) }

/-- A step; `none` for a panic, a `consume` of more than the slice held, and a future that is not
there or complete. The borrow checker ends the slice at the next call of the reader, and the
reader before the pipe is cleared. -/
def step (s : Streamed N) : Action → Option (Streamed N)
  | .write cx bytes => (s.pipe.tryWriteWithContext cx bytes).map (s.wrote bytes)
  | .writeAll bytes => some { s with writing := s.writing ++ [⟨bytes, [], bytes⟩] }
  | .turnWriteAll i task =>
    s.writing[i]?.bind fun w =>
      if w.buf = [] then none
      else (s.pipe.tryWriteWithContext (some task) w.buf).map fun r =>
        { s.wrote w.buf r with
          writing := s.writing.set i
            ⟨w.bytes, w.written ++ w.buf.take (taken r.1), w.buf.drop (taken r.1)⟩ }
  | .read cx n =>
    (s.pipe.tryReadWithContext cx n).map fun r =>
      { s with pipe := r.2.1, gone := s.handOver (got r.1), held := none }
  | .fillBuf cx =>
    (s.pipe.tryFillBufWithContext cx).map fun r =>
      { s with
        pipe := r.2.1
        held := match r.1 with
          | .ok bytes => some ⟨s.pipe.buffer.popBuf, bytes⟩
          | .error _ => none }
  | .consume amt =>
    s.held.bind fun sl =>
      if amt ≤ sl.bytes.length then
        (s.pipe.consume amt).map fun p =>
          { s with pipe := p, gone := s.handOver (sl.bytes.take amt), held := none }
      else none
  | .clear =>
    some { s with
      pipe := s.pipe.clear.1
      gone := s.gone ++ (s.accepted.drop s.gone.length).map (Prod.mk false)
      held := none }

/-- **A faithful bounded byte stream.** -/
structure Faithful (s : Streamed N) : Prop where
  /-- What left the pipe are the first of the bytes accepted, in order. -/
  order : s.gone.map Prod.snd <+: s.accepted
  /-- The others are in it. -/
  len : s.pipe.len + s.delivered.length + s.discarded.length = s.accepted.length
  len_le : s.pipe.len ≤ N
  /-- A write of some bytes takes at least one of them, if there is room. -/
  progress : ∀ cx bytes, bytes ≠ [] → s.pipe.len < N →
    ∃ n p woken, s.pipe.tryWriteWithContext cx bytes = some (.ok n, p, woken) ∧ 1 ≤ n ∧
      n ≤ bytes.length
  /-- The slice held still has the bytes that `fill_buf` returned. -/
  slice : ∀ sl, s.held = some sl → s.pipe.get sl.range = sl.bytes
  writeAll : ∀ w ∈ s.writing, w.written ++ w.buf = w.bytes
  /-- The assertions hold. -/
  write_isSome : ∀ cx bytes, (s.pipe.tryWriteWithContext cx bytes).isSome
  read_isSome : ∀ cx n, (s.pipe.tryReadWithContext cx n).isSome
  fillBuf_isSome : ∀ cx, (s.pipe.tryFillBufWithContext cx).isSome
  consume_isSome : ∀ sl, s.held = some sl →
    ∀ amt ≤ sl.bytes.length, (s.pipe.consume amt).isSome
  /-- The slices taken are slices of the buffer. -/
  popBuf : s.pipe.buffer.popBuf.start ≤ s.pipe.buffer.popBuf.stop ∧
    s.pipe.buffer.popBuf.stop ≤ N
  pushBuf : s.pipe.buffer.pushBuf.start ≤ s.pipe.buffer.pushBuf.stop ∧
    s.pipe.buffer.pushBuf.stop ≤ N

/-! ### The invariant -/

/-- A slice at the start of the data, with the bytes that are there. -/
structure Slice.At (sl : Slice) (p : Pipe N) : Prop where
  start : sl.range.len ≠ 0 → sl.range.start = p.buffer.start
  len : sl.range.len ≤ p.buffer.popBuf.len
  bytes : sl.bytes = p.contents.take sl.range.len

/-- The bytes accepted are those that left the pipe and then those in it, and the slice held is the
first of these. -/
structure StreamInv (s : Streamed N) : Prop where
  valid : s.pipe.Valid
  /-- Every byte accepted left the pipe or is in it. -/
  flow : s.gone.map Prod.snd ++ s.pipe.contents = s.accepted
  held : ∀ sl, s.held = some sl → Slice.At sl s.pipe
  writeAll : ∀ w ∈ s.writing, w.written ++ w.buf = w.bytes

variable {s s' : Streamed N}

theorem streamInv_new (hN : 0 < N) : StreamInv (new : Streamed N) where
  valid := valid_new hN
  flow := rfl
  held _ h := absurd h (by simp [new])
  writeAll _ h := absurd h List.not_mem_nil

/-- Every byte that left the pipe was delivered or discarded. -/
theorem length_delivered_add (s : Streamed N) :
    s.delivered.length + s.discarded.length = s.gone.length := by
  rw [delivered, discarded, List.length_map, List.length_map]
  exact (List.length_eq_length_filter_add _).symm

theorem Slice.At.get_eq {sl : Slice} {p : Pipe N} (h : Slice.At sl p) (hv : p.Valid) :
    p.get sl.range = sl.bytes := by
  rw [Pipe.get_eq hv h.start h.len, h.bytes]

theorem Slice.At.length_le {sl : Slice} {p : Pipe N} (h : Slice.At sl p) :
    sl.bytes.length ≤ p.buffer.popBuf.len := by
  rw [h.bytes, List.length_take]
  exact (Nat.min_le_left _ _).trans h.len

/-- **The invariant gives the stream.** -/
theorem StreamInv.faithful (hi : StreamInv s) : Faithful s where
  order := ⟨s.pipe.contents, hi.flow⟩
  len := by
    have hlen := length_contents hi.valid
    have hsum := s.length_delivered_add
    rw [← hi.flow, List.length_append, List.length_map, hlen]
    omega
  len_le := Pipe.len_le hi.valid
  progress cx bytes hne hlt := by
    obtain ⟨r, p, woken, hw, -, hcases⟩ := tryWrite_cases hi.valid cx bytes
    obtain ⟨-, -, -, hle, hpos⟩ := tryWrite_stream hi.valid hw
    rcases hcases with ⟨hfull, -⟩ | ⟨-, ⟨n, rfl⟩, -⟩
    · exact absurd hfull hlt.ne
    · exact ⟨n, p, woken, hw, hpos hne hlt, hle⟩
  slice sl hsl := (hi.held sl hsl).get_eq hi.valid
  writeAll := hi.writeAll
  write_isSome cx bytes := by
    obtain ⟨r, p, woken, hw, -⟩ := tryWrite_cases hi.valid cx bytes
    rw [hw]
    rfl
  read_isSome cx n := by
    obtain ⟨r, p, woken, hr, -⟩ := tryRead_cases hi.valid cx n
    rw [hr]
    rfl
  fillBuf_isSome cx := by
    obtain ⟨r, p, woken, hr, -⟩ := tryFillBuf_cases hi.valid cx
    rw [hr]
    rfl
  consume_isSome sl hsl amt ha := by
    obtain ⟨p, hp, -⟩ := consume_stream hi.valid (ha.trans (hi.held sl hsl).length_le)
    rw [hp]
    rfl
  popBuf := ⟨(RingBuffer.parts_le hi.valid.buffer).1, (RingBuffer.parts_le hi.valid.buffer).2.1⟩
  pushBuf := (RingBuffer.parts_le hi.valid.buffer).2.2

theorem Slice.At.append {sl : Slice} {p p' : Pipe N} (h : Slice.At sl p) (hv : p.Valid)
    (hv' : p'.Valid) {xs : List UInt8} (hc : p'.contents = p.contents ++ xs)
    (hs : p'.buffer.start = p.buffer.start) : Slice.At sl p' := by
  have hl := h.len
  have hlen : p'.len = p.len + xs.length := by
    rw [← length_contents hv', hc, List.length_append, length_contents hv]
  have hle : p.buffer.popBuf.len ≤ p'.buffer.popBuf.len := by
    rw [RingBuffer.len_popBuf_eq hv.buffer, RingBuffer.len_popBuf_eq hv'.buffer, hs]
    apply min_le_min_right
    show p.len ≤ p'.len
    omega
  refine ⟨fun hz => hs ▸ h.start hz, hl.trans hle, ?_⟩
  have hpop : p.buffer.popBuf.len ≤ p.len := (RingBuffer.len_popBuf hv.buffer).1
  rw [hc, List.take_append_of_le_length, h.bytes]
  rw [length_contents hv]
  omega

theorem StreamInv.wrote (hi : StreamInv s) {cx : Option TaskRef} {bytes : List UInt8}
    {r : Except TryWriteError ℕ × Pipe N × List TaskRef}
    (hr : s.pipe.tryWriteWithContext cx bytes = some r) : StreamInv (s.wrote bytes r) := by
  obtain ⟨hv, hc, hs, -⟩ := tryWrite_stream hi.valid hr
  refine ⟨hv, ?_, fun sl hsl => (hi.held sl hsl).append hi.valid hv hc hs, hi.writeAll⟩
  show s.gone.map Prod.snd ++ r.2.1.contents = s.accepted ++ bytes.take (taken r.1)
  rw [hc, ← List.append_assoc, hi.flow]

theorem StreamInv.turnWriteAll (hi : StreamInv s) {i : ℕ} {task : TaskRef}
    (h : s.step (.turnWriteAll i task) = some s') : StreamInv s' := by
  obtain ⟨w, hw, h⟩ := Option.bind_eq_some_iff.mp h
  split_ifs at h
  obtain ⟨r, hr, rfl⟩ := Option.map_eq_some_iff.mp h
  have hwrote := hi.wrote hr
  refine ⟨hwrote.valid, hwrote.flow, hwrote.held, fun v hv => ?_⟩
  rcases List.mem_or_eq_of_mem_set hv with hv | rfl
  · exact hi.writeAll v hv
  · show w.written ++ w.buf.take (taken r.1) ++ w.buf.drop (taken r.1) = w.bytes
    rw [List.append_assoc, List.take_append_drop]
    exact hi.writeAll w (List.mem_of_getElem? hw)

theorem map_snd_handOver (s : Streamed N) (bytes : List UInt8) :
    (s.handOver bytes).map Prod.snd = s.gone.map Prod.snd ++ bytes := by
  rw [handOver, List.map_append, List.map_map]
  congr 1
  exact List.map_id bytes

theorem StreamInv.read (hi : StreamInv s) {cx : Option TaskRef} {n : ℕ}
    (h : s.step (.read cx n) = some s') : StreamInv s' := by
  obtain ⟨r, hr, rfl⟩ := Option.map_eq_some_iff.mp h
  obtain ⟨hv, hc⟩ := tryRead_stream hi.valid hr
  refine ⟨hv, ?_, fun sl hsl => absurd hsl (by simp), hi.writeAll⟩
  show (s.handOver (got r.1)).map Prod.snd ++ r.2.1.contents = s.accepted
  rw [map_snd_handOver, List.append_assoc, hc]
  exact hi.flow

theorem StreamInv.fillBuf (hi : StreamInv s) {cx : Option TaskRef}
    (h : s.step (.fillBuf cx) = some s') : StreamInv s' := by
  obtain ⟨⟨res, p, woken⟩, hr, rfl⟩ := Option.map_eq_some_iff.mp h
  obtain ⟨hv, hb, hc, hgot⟩ := tryFillBuf_stream hi.valid hr
  refine ⟨hv, ?_, ?_, hi.writeAll⟩
  · show s.gone.map Prod.snd ++ p.contents = s.accepted
    rw [hc]
    exact hi.flow
  · intro sl hsl
    cases res with
    | error e => exact absurd hsl (by simp)
    | ok bytes =>
      obtain rfl : _ = sl := Option.some.inj hsl
      refine ⟨fun hz => ?_, (by rw [hb]), (by rw [hc]; exact hgot)⟩
      have hl : s.pipe.buffer.len ≠ 0 := fun hl =>
        hz ((RingBuffer.len_popBuf hi.valid.buffer).2.mpr hl)
      rw [hb, RingBuffer.popBuf_eq hi.valid.buffer hl]

theorem StreamInv.consume (hi : StreamInv s) {amt : ℕ}
    (h : s.step (.consume amt) = some s') : StreamInv s' := by
  obtain ⟨sl, hsl, h⟩ := Option.bind_eq_some_iff.mp h
  split_ifs at h with ha
  obtain ⟨p, hp, rfl⟩ := Option.map_eq_some_iff.mp h
  have hat := hi.held sl hsl
  obtain ⟨p', hp', hv, hc⟩ := consume_stream hi.valid (ha.trans hat.length_le)
  obtain rfl : p = p' := Option.some.inj (hp.symm.trans hp')
  refine ⟨hv, ?_, fun sl hsl => absurd hsl (by simp), hi.writeAll⟩
  have hle : amt ≤ sl.range.len := by
    rw [hat.bytes, List.length_take] at ha
    omega
  show (s.handOver (sl.bytes.take amt)).map Prod.snd ++ p.contents = s.accepted
  rw [map_snd_handOver, hat.bytes, List.take_take, Nat.min_eq_left hle, hc, List.append_assoc,
    List.take_append_drop]
  exact hi.flow

theorem StreamInv.clear (hi : StreamInv s) (h : s.step .clear = some s') : StreamInv s' := by
  obtain rfl := Option.some.inj h
  obtain ⟨hv, hc⟩ := clear_stream hi.valid
  refine ⟨hv, ?_, fun sl hsl => absurd hsl (by simp), hi.writeAll⟩
  have hflow := hi.flow
  show (s.gone ++ (s.accepted.drop s.gone.length).map (Prod.mk false)).map Prod.snd ++
    s.pipe.clear.1.contents = s.accepted
  have hdrop : s.accepted.drop s.gone.length = s.pipe.contents := by
    rw [← hflow, List.drop_left' (List.length_map _)]
  rw [hdrop, hc, List.append_nil, List.map_append, List.map_map]
  have hid : s.pipe.contents.map (Prod.snd ∘ Prod.mk false) = s.pipe.contents :=
    List.map_id s.pipe.contents
  rw [hid, hflow]

/-- **Every step keeps the stream.** -/
theorem StreamInv.step {a : Action} (hi : StreamInv s) (h : s.step a = some s') :
    StreamInv s' := by
  cases a with
  | write cx bytes =>
    obtain ⟨r, hr, rfl⟩ := Option.map_eq_some_iff.mp h
    exact hi.wrote hr
  | writeAll bytes =>
    obtain rfl := Option.some.inj h
    refine ⟨hi.valid, hi.flow, hi.held, fun w hw => ?_⟩
    rcases List.mem_append.mp hw with hw | hw
    · exact hi.writeAll w hw
    · obtain rfl := List.mem_singleton.mp hw
      rfl
  | turnWriteAll i task => exact hi.turnWriteAll h
  | read cx n => exact hi.read h
  | fillBuf cx => exact hi.fillBuf h
  | consume amt => exact hi.consume h
  | clear => exact hi.clear h

/-- **The pipe is a faithful bounded byte stream** of any capacity but zero, after every run of
writes, reads, `fill_buf` and `consume`, and clears. -/
theorem faithful_of_reachable (hN : 0 < N) (h : Reachable step (new : Streamed N) s) :
    Faithful s :=
  (h.invariant (streamInv_new hN) fun _ _ _ hi => hi.step).faithful

/-- Around the end of a buffer of three bytes: a write behind a slice that is held. -/
def heldRun : List Action :=
  [.write none [1, 2], .read none 1, .writeAll [3, 4, 5], .fillBuf none, .turnWriteAll 0 7,
    .turnWriteAll 0 7, .consume 1]

theorem faithful_of_reachable_held :
    ∃ s : Streamed 3, runList step new heldRun = some s ∧ s.delivered = [1, 2] ∧
      s.accepted = [1, 2, 3, 4] ∧ Faithful s := by
  obtain ⟨s, hs, hd⟩ := exists_of_map_runList
    (show (runList step (new : Streamed 3) heldRun).map (fun s => (s.delivered, s.accepted)) =
      some ([1, 2], [1, 2, 3, 4]) by decide)
  obtain ⟨h₁, h₂⟩ := Prod.mk.inj hd
  exact ⟨s, hs, h₁, h₂, faithful_of_reachable (by decide) (reachable_of_runList hs)⟩

end Streamed

end Pipe

end AurixAsync
