import Mathlib.Algebra.Group.Nat.Defs
import Mathlib.Tactic.Common

/-!
# A memory of bytes

A memory gives each 32-bit address its byte. Addresses wrap around, so that a region is given by its
start and its length: an address `x` lies in it if `x - start` is less than the length.

* `overlay`: a memory with other bytes in a region.
* `storeByte`, `storeWord`, `storeDouble`, `storeWords`, `loadWord`: the accesses, lowest byte
  first.
* `EqOff`: two memories that are equal outside of some addresses.
* `overlay_append`: two regions that follow each other. `loadWord_overlay`: a word outside of it.
* `TableAt`: a table of rows that ends with a marked one.
-/

namespace TriCore

/-- A word, and an address. -/
abbrev Word := BitVec 32

/-- A byte. -/
abbrev Byte := BitVec 8

/-- The bytes by their addresses. -/
abbrev Memory := Word → Byte

/-- The memory with `f i` in the `i`-th of the `n` bytes from `start` on. -/
def overlay (m : Memory) (start : Word) (n : ℕ) (f : ℕ → Byte) : Memory :=
  fun x => if (x - start).toNat < n then f (x - start).toNat else m x

/-- The `i`-th byte of a word. -/
def byteOf (w : Word) (i : ℕ) : Byte := BitVec.ofNat 8 (w.toNat / 256 ^ i)

/-- `st.b`. -/
def storeByte (m : Memory) (ea : Word) (b : Byte) : Memory := overlay m ea 1 fun _ => b

/-- `st.w`: the least significant byte comes first. -/
def storeWord (m : Memory) (ea w : Word) : Memory := overlay m ea 4 (byteOf w)

/-- `st.d`: the word `lo`, and behind it the word `hi`. -/
def storeDouble (m : Memory) (ea lo hi : Word) : Memory :=
  overlay m ea 8 fun i => if i < 4 then byteOf lo i else byteOf hi (i - 4)

/-- The words of a list, one after the other. -/
def storeWords (m : Memory) (ea : Word) (ws : List Word) : Memory :=
  overlay m ea (4 * ws.length) fun i => byteOf (ws.getD (i / 4) 0) (i % 4)

/-- `ld.w`. -/
def loadWord (m : Memory) (ea : Word) : Word :=
  BitVec.ofNat 32 ((m ea).toNat + 256 * ((m (ea + 1)).toNat + 256 * ((m (ea + 2)).toNat +
    256 * (m (ea + 3)).toNat)))

variable {m : Memory} {start x ea w : Word} {n k l : ℕ} {f g : ℕ → Byte}

theorem overlay_of_lt (h : (x - start).toNat < n) :
    overlay m start n f x = f (x - start).toNat := if_pos h

theorem overlay_of_le (h : n ≤ (x - start).toNat) : overlay m start n f x = m x :=
  if_neg (Nat.not_lt.mpr h)

@[simp] theorem overlay_zero : overlay m start 0 f = m := by
  funext x
  exact overlay_of_le (Nat.zero_le _)

theorem toNat_sub_add (x start : Word) (hk : k ≤ 2 ^ 32) :
    (x - (start + BitVec.ofNat 32 k)).toNat =
      if k ≤ (x - start).toNat then (x - start).toNat - k
      else 2 ^ 32 + (x - start).toNat - k := by
  have hx := x.isLt
  have hs := start.isLt
  simp only [BitVec.toNat_sub, BitVec.toNat_add, BitVec.toNat_ofNat]
  split_ifs <;> omega

theorem toNat_add_sub (start : Word) (hk : k < 2 ^ 32) :
    (start + BitVec.ofNat 32 k - start).toNat = k := by
  have hs := start.isLt
  simp only [BitVec.toNat_sub, BitVec.toNat_add, BitVec.toNat_ofNat]
  omega

theorem toNat_add_mod {a b : Word} (hn : n ∣ 2 ^ 32) (ha : a.toNat % n = 0) (hb : b.toNat % n = 0) :
    (a + b).toNat % n = 0 := by
  rw [BitVec.toNat_add, Nat.mod_mod_of_dvd _ hn, Nat.add_mod, ha, hb]
  exact Nat.zero_mod n

theorem add_ofNat_add (a : Word) (i j : ℕ) :
    a + BitVec.ofNat 32 i + BitVec.ofNat 32 j = a + BitVec.ofNat 32 (i + j) := by
  rw [BitVec.add_assoc, ← BitVec.ofNat_add]

/-- **Two regions that follow each other** are one. -/
theorem overlay_append (h : k + l ≤ 2 ^ 32) :
    overlay (overlay m start k f) (start + BitVec.ofNat 32 k) l g =
      overlay m start (k + l) fun i => if i < k then f i else g (i - k) := by
  funext x
  have hlt := (x - start).isLt
  have hsub := toNat_sub_add x start (k := k) (by omega)
  dsimp only [overlay]
  by_cases hk : (x - start).toNat < k
  · rw [if_neg (Nat.not_le.mpr hk)] at hsub
    rw [if_neg (by omega), if_pos hk, if_pos (by omega), if_pos hk]
  · rw [if_pos (Nat.not_lt.mp hk)] at hsub
    rw [hsub, if_neg hk, if_neg hk]
    by_cases hl : (x - start).toNat < k + l
    · rw [if_pos hl, if_pos (by omega)]
    · rw [if_neg hl, if_neg (by omega)]

theorem overlay_congr (h : ∀ i < n, f i = g i) : overlay m start n f = overlay m start n g := by
  funext x
  unfold overlay
  by_cases hx : (x - start).toNat < n
  · rw [if_pos hx, if_pos hx, h _ hx]
  · rw [if_neg hx, if_neg hx]

theorem overlay_append_const (b : Byte) (h : k + l ≤ 2 ^ 32) :
    overlay (overlay m start k fun _ => b) (start + BitVec.ofNat 32 k) l (fun _ => b) =
      overlay m start (k + l) fun _ => b := by
  rw [overlay_append h]
  refine overlay_congr fun i _ => ?_
  by_cases hi : i < k
  · rw [if_pos hi]
  · rw [if_neg hi]

theorem byteOf_zero (i : ℕ) : byteOf 0 i = 0 := by
  rw [byteOf, show (0 : Word).toNat = 0 from rfl, Nat.zero_div]
  rfl

theorem storeDouble_zero (m : Memory) (ea : Word) :
    storeDouble m ea 0 0 = overlay m ea 8 fun _ => 0 := by
  refine overlay_congr fun i _ => ?_
  by_cases hi : i < 4
  · rw [if_pos hi, byteOf_zero]
  · rw [if_neg hi, byteOf_zero]

theorem loadWord_of_bytes (h : ∀ i < 4, m (ea + BitVec.ofNat 32 i) = byteOf w i) :
    loadWord m ea = w := by
  have h₀ := h 0 (by decide)
  rw [show ea + BitVec.ofNat 32 0 = ea from BitVec.add_zero ea] at h₀
  have h₁ : m (ea + 1) = byteOf w 1 := h 1 (by decide)
  have h₂ : m (ea + 2) = byteOf w 2 := h 2 (by decide)
  have h₃ : m (ea + 3) = byteOf w 3 := h 3 (by decide)
  have hw := w.isLt
  apply BitVec.eq_of_toNat_eq
  rw [loadWord, h₀, h₁, h₂, h₃]
  simp only [byteOf, BitVec.toNat_ofNat]
  omega

theorem loadWord_storeWord (m : Memory) (ea w : Word) : loadWord (storeWord m ea w) ea = w :=
  loadWord_of_bytes fun i hi => by
    have hd := toNat_add_sub ea (k := i) (by omega)
    rw [storeWord, overlay_of_lt (by omega), hd]

theorem loadWord_storeWords (m : Memory) (ea : Word) {ws : List Word} (hlen : ws.length < 2 ^ 30)
    {i : ℕ} (hi : ws[i]? = some w) :
    loadWord (storeWords m ea ws) (ea + BitVec.ofNat 32 (4 * i)) = w := by
  have hlt := (List.getElem?_eq_some_iff.mp hi).1
  refine loadWord_of_bytes fun j hj => ?_
  have hd := toNat_add_sub ea (k := 4 * i + j) (by omega)
  rw [add_ofNat_add, storeWords, overlay_of_lt (by omega), hd, show (4 * i + j) / 4 = i by omega,
    show (4 * i + j) % 4 = j by omega, List.getD_eq_getElem?_getD, hi, Option.getD_some]

theorem loadWord_congr {m' : Memory} (h : ∀ i < 4, m' (ea + BitVec.ofNat 32 i) =
    m (ea + BitVec.ofNat 32 i)) : loadWord m' ea = loadWord m ea := by
  have h₀ := h 0 (by decide)
  rw [show ea + BitVec.ofNat 32 0 = ea from BitVec.add_zero ea] at h₀
  have h₁ : m' (ea + 1) = m (ea + 1) := h 1 (by decide)
  have h₂ : m' (ea + 2) = m (ea + 2) := h 2 (by decide)
  have h₃ : m' (ea + 3) = m (ea + 3) := h 3 (by decide)
  rw [loadWord, loadWord, h₀, h₁, h₂, h₃]

theorem loadWord_overlay (h : ∀ i < 4, n ≤ (ea + BitVec.ofNat 32 i - start).toNat) :
    loadWord (overlay m start n f) ea = loadWord m ea :=
  loadWord_congr fun i hi => overlay_of_le (h i hi)

/-- The memories are equal outside of `D`. -/
def EqOff (D : Word → Prop) (m m' : Memory) : Prop := ∀ x, ¬ D x → m' x = m x

theorem EqOff.refl (D : Word → Prop) (m : Memory) : EqOff D m m := fun _ _ => rfl

theorem EqOff.trans {D : Word → Prop} {m₁ m₂ m₃ : Memory} (h : EqOff D m₁ m₂)
    (h' : EqOff D m₂ m₃) : EqOff D m₁ m₃ := fun x hx => (h' x hx).trans (h x hx)

theorem EqOff.mono {D E : Word → Prop} {m' : Memory} (h : EqOff D m m') (hDE : ∀ x, D x → E x) :
    EqOff E m m' := fun x hx => h x fun hd => hx (hDE x hd)

theorem EqOff.overlay {D : Word → Prop} {m' : Memory} (h : EqOff D m m')
    (hfg : ∀ i < n, ¬ D (start + BitVec.ofNat 32 i) → g i = f i) :
    EqOff D (overlay m start n f) (overlay m' start n g) := by
  intro x hx
  unfold TriCore.overlay
  by_cases hn : (x - start).toNat < n
  · rw [if_pos hn, if_pos hn]
    refine hfg _ hn ?_
    rwa [BitVec.ofNat_toNat, BitVec.setWidth_eq, BitVec.add_comm, BitVec.sub_add_cancel]
  · rw [if_neg hn, if_neg hn]
    exact h x hx

theorem EqOff.loadWord {D : Word → Prop} {m' : Memory} (h : EqOff D m m')
    (hea : ∀ i < 4, ¬ D (ea + BitVec.ofNat 32 i)) : loadWord m' ea = loadWord m ea :=
  loadWord_congr fun i hi => h _ (hea i hi)

/-! ### Tables -/

section

variable {α : Type} {row : Memory → Word → α} {last : α → Prop}

/-- The rows of a table, of `k` bytes each, up to the last one. -/
def TableAt (row : Memory → Word → α) (last : α → Prop) (k : ℕ) (m : Memory) :
    Word → List α → Prop
  | a, [] => last (row m a)
  | a, r :: rs => row m a = r ∧ ¬ last r ∧ TableAt row last k m (a + BitVec.ofNat 32 k) rs

/-- A row is a function of its bytes. -/
def Local (row : Memory → Word → α) (k : ℕ) : Prop :=
  ∀ m m' a, (∀ i < k, m' (a + BitVec.ofNat 32 i) = m (a + BitVec.ofNat 32 i)) → row m' a = row m a

theorem TableAt.congr (hrow : Local row k) {m m' : Memory} {a : Word} {rs : List α}
    (h : TableAt row last k m a rs) (heq : ∀ i < k * (rs.length + 1),
      m' (a + BitVec.ofNat 32 i) = m (a + BitVec.ofNat 32 i)) : TableAt row last k m' a rs := by
  induction rs generalizing a with
  | nil =>
    change last (row m' a)
    rw [hrow m m' a fun i hi => heq i (by simpa using hi)]
    exact h
  | cons r rs ih =>
    obtain ⟨hr, hlast, hrs⟩ := h
    rw [List.length_cons] at heq
    refine ⟨?_, hlast, ih hrs fun i hi => ?_⟩
    · have hfirst : k ≤ k * (rs.length + 1 + 1) := Nat.le_mul_of_pos_right k (by omega)
      rw [hrow m m' a fun i hi => heq i (by omega)]
      exact hr
    · rw [add_ofNat_add]
      refine heq (k + i) ?_
      rw [Nat.mul_succ]
      omega

end

end TriCore
