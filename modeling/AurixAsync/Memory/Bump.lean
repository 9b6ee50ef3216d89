import AurixAsync.Lib.Run
import Mathlib.Algebra.Order.Group.Nat

/-!
# The bump allocator

`BumpAllocator` hands out the bytes of one static buffer from its start on and never takes them
back. An address is a number here, and a type is its size and its alignment. A buffer has less
than `2 ^ 31` bytes, as has a type, and an alignment is at most `2 ^ 29`, so that no sum overflows.

* `roundUp`, `BumpAllocator`, `alloc`: the code, `none` for the panic.
* `roundUp_le`: rounding up gives the least multiple.
* `ValidMemory`: the blocks are aligned, inside the buffer and apart from each other, and a request
  that panicked has no place in what is left.
* `Served`: the requests that keep it so.
* `validMemory_along_iff`: a run keeps `ValidMemory` if and only if each of its requests is one of
  these.
-/

namespace AurixAsync

/-- `round_up`. -/
def roundUp (n m : ℕ) : ℕ :=
  let rem := n % m
  if rem = 0 then n else n + m - rem

/-- What `alloc::<T>` reads of the type. -/
structure Layout where
  size : ℕ
  align : ℕ
  align_pow : ∃ k, align = 2 ^ k

namespace Layout

theorem align_pos (l : Layout) : 0 < l.align := by
  obtain ⟨k, hk⟩ := l.align_pow
  rw [hk]
  exact Nat.two_pow_pos k

end Layout

/-- The length of the buffer, the offset of its free part, and its address. -/
structure BumpAllocator where
  len : ℕ
  pos : ℕ
  start : ℕ
deriving DecidableEq, Repr

/-! ### Rounding up -/

section RoundUp

variable {n m k : ℕ}

theorem le_roundUp (hm : 0 < m) : n ≤ roundUp n m := by
  have hlt := Nat.mod_lt n hm
  unfold roundUp
  show n ≤ if n % m = 0 then n else n + m - n % m
  split_ifs
  · exact Nat.le_refl n
  · omega

theorem dvd_roundUp (hm : 0 < m) : m ∣ roundUp n m := by
  have hlt := Nat.mod_lt n hm
  unfold roundUp
  show m ∣ if n % m = 0 then n else n + m - n % m
  split_ifs with h
  · exact Nat.dvd_of_mod_eq_zero h
  · have hsplit : n + m - n % m = n - n % m + m := by
      have := Nat.mod_le n m
      omega
    rw [hsplit]
    exact Nat.dvd_add (Nat.dvd_sub_mod n) (Nat.dvd_refl m)

theorem roundUp_lt (hm : 0 < m) : roundUp n m < n + m := by
  unfold roundUp
  show (if n % m = 0 then n else n + m - n % m) < n + m
  split_ifs <;> omega

theorem roundUp_le (hm : 0 < m) (hk : m ∣ k) (hn : n ≤ k) : roundUp n m ≤ k := by
  obtain ⟨c, rfl⟩ := hk
  obtain ⟨d, hd⟩ := dvd_roundUp (n := n) hm
  have hlt := roundUp_lt (n := n) hm
  rw [hd] at hlt ⊢
  -- one multiple less would be below `n`
  have hdc : m * d < m * (c + 1) := by
    rw [Nat.mul_add, Nat.mul_one]
    omega
  exact Nat.mul_le_mul_left m (Nat.lt_succ_iff.mp (Nat.lt_of_mul_lt_mul_left hdc))

theorem roundUp_add (hm : 0 < m) (hk : m ∣ k) : roundUp (k + n) m = k + roundUp n m := by
  apply Nat.le_antisymm
  · exact roundUp_le hm (Nat.dvd_add hk (dvd_roundUp hm)) (Nat.add_le_add_left (le_roundUp hm) k)
  · have hle : k + n ≤ roundUp (k + n) m := le_roundUp hm
    have hsub : m ∣ roundUp (k + n) m - k := Nat.dvd_sub (dvd_roundUp hm) hk
    have hn : roundUp n m ≤ roundUp (k + n) m - k := roundUp_le hm hsub (by omega)
    omega

end RoundUp

namespace BumpAllocator

open Transition

/-- `new`, of a buffer of `len` bytes at `start`. -/
def new (start len : ℕ) : BumpAllocator := ⟨len, 0, start⟩

/-- `alloc`: the address. -/
def alloc (a : BumpAllocator) (l : Layout) : Option (ℕ × BumpAllocator) :=
  let newPos := roundUp a.pos l.align
  if newPos + l.size < a.len then
    some (a.start + newPos, { a with pos := newPos + l.size })
  else none

variable {a a' : BumpAllocator} {l : Layout} {addr : ℕ}

theorem alloc_eq_some : a.alloc l = some (addr, a') ↔
    roundUp a.pos l.align + l.size < a.len ∧ addr = a.start + roundUp a.pos l.align ∧
      a' = { a with pos := roundUp a.pos l.align + l.size } := by
  unfold alloc
  show (if _ then some (_, _) else none) = _ ↔ _
  split_ifs with h
  · rw [Option.some.injEq, Prod.mk.injEq, eq_comm, @eq_comm _ _ a']
    exact (and_iff_right h).symm
  · exact ⟨fun e => absurd e (by simp), fun e => absurd e.1 h⟩

theorem alloc_eq_none : a.alloc l = none ↔ a.len ≤ roundUp a.pos l.align + l.size := by
  unfold alloc
  show (if _ then some (_, _) else none) = _ ↔ _
  split_ifs with h
  · exact ⟨fun e => absurd e (by simp), fun e => absurd h (by omega)⟩
  · exact ⟨fun _ => by omega, fun _ => rfl⟩

/-! ### The blocks handed out -/

/-- What a request got: its address. -/
structure Block where
  addr : ℕ
  layout : Layout

/-- The blocks do not overlap. -/
def Block.Apart (b c : Block) : Prop :=
  b.addr + b.layout.size ≤ c.addr ∨ c.addr + c.layout.size ≤ b.addr

/-- An allocator with the blocks it handed out. A request that panicked is the last one. -/
structure Heap where
  alloc : BumpAllocator
  blocks : List Block
  panicked : Option Layout

namespace Heap

/-- Nothing has been allocated. -/
def new (start len : ℕ) : Heap := ⟨.new start len, [], none⟩

/-- One request. -/
def step (s : Heap) (l : Layout) : Option Heap :=
  if s.panicked.isSome then none
  else
    match s.alloc.alloc l with
    | some (addr, alloc) => some { s with alloc := alloc, blocks := s.blocks ++ [⟨addr, l⟩] }
    | none => some { s with panicked := some l }

/-- A block of this layout could be placed in what is left of the buffer. -/
def HasRoom (a : BumpAllocator) (l : Layout) : Prop :=
  ∃ addr, l.align ∣ addr ∧ a.start + a.pos ≤ addr ∧ addr + l.size ≤ a.start + a.len

/-- Every block is aligned and inside the buffer, no two of them overlap, and a request that
panicked has no place in what is left. -/
structure ValidMemory (s : Heap) : Prop where
  aligned : ∀ b ∈ s.blocks, b.layout.align ∣ b.addr
  inside : ∀ b ∈ s.blocks,
    s.alloc.start ≤ b.addr ∧ b.addr + b.layout.size ≤ s.alloc.start + s.alloc.len
  apart : s.blocks.Pairwise Block.Apart
  panics : ∀ l, s.panicked = some l → ¬ HasRoom s.alloc l

/-- The condition on a request. Where the buffer starts at a multiple of the alignment, the
request does not end with the last byte of the buffer. Where it does not, the request is refused,
and also too long for the first aligned address. -/
def Served (s : Heap) (l : Layout) : Prop :=
  l.align ∣ s.alloc.start ∧ roundUp s.alloc.pos l.align + l.size ≠ s.alloc.len ∨
    ¬ l.align ∣ s.alloc.start ∧ s.alloc.len ≤ roundUp s.alloc.pos l.align + l.size ∧
      s.alloc.start + s.alloc.len < roundUp (s.alloc.start + s.alloc.pos) l.align + l.size

variable {s s' : Heap}

theorem step_eq_some : s.step l = some s' ↔ s.panicked = none ∧
    ((∃ addr alloc, s.alloc.alloc l = some (addr, alloc) ∧
        s' = { s with alloc := alloc, blocks := s.blocks ++ [⟨addr, l⟩] }) ∨
      s.alloc.alloc l = none ∧ s' = { s with panicked := some l }) := by
  unfold step
  cases hp : s.panicked with
  | some m => simp
  | none =>
    cases ha : s.alloc.alloc l with
    | none => simp [eq_comm]
    | some r =>
      obtain ⟨addr, alloc⟩ := r
      constructor
      · intro e
        exact ⟨rfl, Or.inl ⟨addr, alloc, rfl, (Option.some.inj e).symm⟩⟩
      · rintro ⟨-, ⟨addr', alloc', he, rfl⟩ | ⟨he, -⟩⟩
        · obtain ⟨rfl, rfl⟩ := Prod.mk.inj (Option.some.inj he)
          rfl
        · exact absurd he (by simp)

theorem hasRoom_iff : HasRoom a l ↔
    roundUp (a.start + a.pos) l.align + l.size ≤ a.start + a.len := by
  constructor
  · rintro ⟨addr, hd, hle, hin⟩
    have := roundUp_le l.align_pos hd hle
    omega
  · intro h
    exact ⟨_, dvd_roundUp l.align_pos, le_roundUp l.align_pos, h⟩

/-- An address that `alloc` gives is aligned only in a buffer that is. -/
theorem dvd_start_add_iff :
    l.align ∣ a.start + roundUp a.pos l.align ↔ l.align ∣ a.start :=
  (Nat.dvd_add_left (dvd_roundUp l.align_pos))

/-- The blocks lie one after the other below `pos`. -/
structure HeapInv (s : Heap) : Prop where
  valid : ValidMemory s
  below : ∀ b ∈ s.blocks, b.addr + b.layout.size ≤ s.alloc.start + s.alloc.pos

theorem heapInv_new (start len : ℕ) : HeapInv (new start len) where
  valid :=
    { aligned := fun _ hb => absurd hb List.not_mem_nil
      inside := fun _ hb => absurd hb List.not_mem_nil
      apart := List.Pairwise.nil
      panics := fun _ hl => absurd hl (by simp [new]) }
  below := fun _ hb => absurd hb List.not_mem_nil

theorem HeapInv.push (hi : HeapInv s) (hn : s.panicked = none)
    (hfit : roundUp s.alloc.pos l.align + l.size < s.alloc.len) (hd : l.align ∣ s.alloc.start) :
    HeapInv { s with
      alloc := { s.alloc with pos := roundUp s.alloc.pos l.align + l.size }
      blocks := s.blocks ++ [⟨s.alloc.start + roundUp s.alloc.pos l.align, l⟩] } := by
  have hle : s.alloc.pos ≤ roundUp s.alloc.pos l.align := le_roundUp l.align_pos
  refine ⟨⟨?_, ?_, ?_, fun m hm => ?_⟩, ?_⟩
  · intro b hb
    rcases List.mem_append.mp hb with hb | hb
    · exact hi.valid.aligned b hb
    · obtain rfl := List.mem_singleton.mp hb
      exact dvd_start_add_iff.mpr hd
  · intro b hb
    rcases List.mem_append.mp hb with hb | hb
    · exact hi.valid.inside b hb
    · obtain rfl := List.mem_singleton.mp hb
      show s.alloc.start ≤ s.alloc.start + roundUp s.alloc.pos l.align ∧
        s.alloc.start + roundUp s.alloc.pos l.align + l.size ≤ s.alloc.start + s.alloc.len
      omega
  · apply List.pairwise_append.mpr
    refine ⟨hi.valid.apart, List.pairwise_singleton _ _, fun b hb c hc => Or.inl ?_⟩
    obtain rfl := List.mem_singleton.mp hc
    have hbelow := hi.below b hb
    show b.addr + b.layout.size ≤ s.alloc.start + roundUp s.alloc.pos l.align
    omega
  · change s.panicked = some m at hm
    rw [hn] at hm
    exact absurd hm (by simp)
  · intro b hb
    show b.addr + b.layout.size ≤ s.alloc.start + (roundUp s.alloc.pos l.align + l.size)
    rcases List.mem_append.mp hb with hb | hb
    · have hbelow := hi.below b hb
      omega
    · obtain rfl := List.mem_singleton.mp hb
      show s.alloc.start + roundUp s.alloc.pos l.align + l.size ≤ _
      omega

theorem HeapInv.step (hi : HeapInv s) (h : s.step l = some s') (hc : Served s l) :
    HeapInv s' := by
  obtain ⟨hn, ⟨addr, alloc, ha, rfl⟩ | ⟨ha, rfl⟩⟩ := step_eq_some.mp h
  · obtain ⟨hfit, rfl, rfl⟩ := alloc_eq_some.mp ha
    rcases hc with ⟨hd, -⟩ | ⟨-, hle, -⟩
    · exact hi.push hn hfit hd
    · omega
  · have hle := alloc_eq_none.mp ha
    refine ⟨⟨hi.valid.aligned, hi.valid.inside, hi.valid.apart, fun m hm => ?_⟩, hi.below⟩
    obtain rfl := Option.some.inj hm
    rw [hasRoom_iff]
    rcases hc with ⟨hd, hne⟩ | ⟨-, -, hlt⟩
    · rw [roundUp_add l.align_pos hd]
      show ¬ s.alloc.start + roundUp s.alloc.pos l.align + l.size ≤ s.alloc.start + s.alloc.len
      omega
    · exact Nat.not_le_of_lt hlt

theorem served_of_validMemory (h : s.step l = some s') (hg : ValidMemory s') : Served s l := by
  obtain ⟨hn, ⟨addr, alloc, ha, rfl⟩ | ⟨ha, rfl⟩⟩ := step_eq_some.mp h
  · obtain ⟨hfit, rfl, rfl⟩ := alloc_eq_some.mp ha
    have hal := hg.aligned ⟨_, l⟩ (List.mem_append_right _ (List.mem_singleton_self _))
    exact Or.inl ⟨dvd_start_add_iff.mp hal, Nat.ne_of_lt hfit⟩
  · have hle := alloc_eq_none.mp ha
    have hroom := hg.panics l rfl
    rw [hasRoom_iff] at hroom
    change ¬ roundUp (s.alloc.start + s.alloc.pos) l.align + l.size ≤
      s.alloc.start + s.alloc.len at hroom
    by_cases hd : l.align ∣ s.alloc.start
    · rw [roundUp_add l.align_pos hd] at hroom
      exact Or.inl ⟨hd, by omega⟩
    · exact Or.inr ⟨hd, hle, by omega⟩

/-- **The memory is valid exactly when every request meets `Served`.** For every base address and
length of the buffer and every sequence of requests. -/
theorem validMemory_along_iff (start len : ℕ) (tr : List (Heap × Layout)) (s : Heap)
    (hr : Run step (new start len) tr s) : Along ValidMemory tr s ↔ AllSteps Served tr := by
  refine Run.exact (I := HeapInv) (B := fun _ => True) (heapInv_new start len)
    (fun _ h => h.valid) (fun _ _ _ _ h => h) ?_ ?_ hr trivial
  · exact fun s l s' hi _ h hc => hi.step h hc
  · exact fun s l s' _ _ h hg => served_of_validMemory h hg

/-- The layout of a `u32`. -/
def wordLayout : Layout := ⟨4, 4, 2, rfl⟩

/-- In a buffer of 16 bytes at address 1 a `u32` is placed at address 1. -/
theorem not_validMemory_odd :
    ∃ s, runList step (new 1 16) [wordLayout] = some s ∧ ¬ ValidMemory s := by
  refine ⟨_, rfl, fun hg => ?_⟩
  have hal : 4 ∣ 1 := hg.aligned ⟨1, wordLayout⟩ (List.mem_singleton_self _)
  omega

/-- Three requests in a buffer of 16 bytes at address 8. -/
theorem validMemory_along_iff_word :
    ∃ tr s, Run step (new 8 16) tr s ∧ tr.map Prod.snd = [wordLayout, wordLayout, wordLayout] ∧
      (Along ValidMemory tr s ↔ AllSteps Served tr) := by
  obtain ⟨s, hs⟩ : ∃ s, runList step (new 8 16) [wordLayout, wordLayout, wordLayout] = some s :=
    ⟨_, rfl⟩
  obtain ⟨tr, hr, ha⟩ := exists_run_of_runList hs
  exact ⟨tr, s, hr, ha, validMemory_along_iff 8 16 tr s hr⟩

end Heap

end BumpAllocator

end AurixAsync
