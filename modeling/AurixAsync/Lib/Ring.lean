import Mathlib.Data.List.Rotate

/-!
# Lists around their end

A list used as a ring: from a start on, around the end of the list, a number of its entries.

* `view`: these entries, in order.
* `paste`: a list copied into another at an index.
* `drop_view`: the first entries are left out by moving the start.
* `take_view`: what does not go around the end is a slice.
* `view_paste`: what is pasted behind the view is appended to it.
-/

namespace Ring

variable {α : Type*} {buf xs : List α} {start len i j k n : ℕ}

/-- The `len` entries from `start` on, around the end. -/
def view (buf : List α) (start len : ℕ) : List α := (buf.rotate start).take len

/-- `xs` in place of the entries from `i` on. -/
def paste (buf : List α) (i : ℕ) (xs : List α) : List α :=
  buf.take i ++ xs ++ buf.drop (i + xs.length)

@[simp] theorem view_zero (buf : List α) (start : ℕ) : view buf start 0 = [] := List.take_zero

theorem length_view (h : len ≤ buf.length) : (view buf start len).length = len := by
  rw [view, List.length_take, List.length_rotate]
  omega

theorem view_mod (buf : List α) (start len : ℕ) :
    view buf (start % buf.length) len = view buf start len := by
  rw [view, List.rotate_mod, view]

theorem getElem?_view (h : len ≤ buf.length) (hj : j < len) :
    (view buf start len)[j]? = buf[(j + start) % buf.length]? := by
  rw [view, List.getElem?_take_of_lt hj]
  apply List.getElem?_rotate
  omega

theorem drop_view (hn : n ≤ len) (hl : len ≤ buf.length) :
    (view buf start len).drop n = view buf (start + n) (len - n) := by
  have hle : n ≤ (buf.rotate start).length := by
    rw [List.length_rotate]
    omega
  unfold view
  rw [← List.rotate_rotate, List.rotate_eq_drop_append_take hle, List.drop_take,
    List.take_append_of_le_length]
  rw [List.length_drop, List.length_rotate]
  omega

theorem take_view (hk : k ≤ len) (hs : start + k ≤ buf.length) :
    (view buf start len).take k = (buf.drop start).take k := by
  unfold view
  rw [List.take_take, Nat.min_eq_left hk, List.rotate_eq_drop_append_take (by omega),
    List.take_append_of_le_length]
  rw [List.length_drop]
  omega

/-! ### Pasting behind the view -/

theorem getElem?_paste (h : i + xs.length ≤ buf.length) (j : ℕ) :
    (paste buf i xs)[j]? =
      if i ≤ j ∧ j < i + xs.length then xs[j - i]? else buf[j]? := by
  have hi : (buf.take i).length = i := by
    rw [List.length_take]
    omega
  unfold paste
  rw [List.append_assoc]
  by_cases h₁ : j < i
  · rw [List.getElem?_append_left (by omega), List.getElem?_take_of_lt h₁, if_neg (by omega)]
  · rw [List.getElem?_append_right (by omega), hi]
    by_cases h₂ : j < i + xs.length
    · rw [List.getElem?_append_left (by omega), if_pos (by omega)]
    · rw [List.getElem?_append_right (by omega), List.getElem?_drop, if_neg (by omega)]
      congr 1
      omega

theorem length_paste (h : i + xs.length ≤ buf.length) : (paste buf i xs).length = buf.length := by
  rw [paste, List.length_append, List.length_append, List.length_take, List.length_drop]
  omega

theorem add_mod_cases {N : ℕ} (hs : start < N) (hj : j ≤ N) :
    j + start < N ∧ (j + start) % N = j + start ∨
      N ≤ j + start ∧ (j + start) % N = j + start - N := by
  by_cases h : j + start < N
  · exact Or.inl ⟨h, Nat.mod_eq_of_lt h⟩
  · refine Or.inr ⟨by omega, ?_⟩
    rw [Nat.mod_eq_sub_mod (by omega), Nat.mod_eq_of_lt (by omega)]

/-- **Pasting behind the view appends to it**, if there is room and the pasted list does not go
around the end. -/
theorem view_paste (hs : start < buf.length) (hl : len + xs.length ≤ buf.length)
    (hi : (len + start) % buf.length + xs.length ≤ buf.length) :
    view (paste buf ((len + start) % buf.length) xs) start (len + xs.length) =
      view buf start len ++ xs := by
  have hlen := length_paste hi
  apply List.ext_getElem?
  intro j
  by_cases h₁ : j < len + xs.length
  · rw [getElem?_view (by omega) h₁, getElem?_paste hi, hlen]
    have h₂ := add_mod_cases (j := len) hs (by omega)
    have h₃ := add_mod_cases (j := j) hs (by omega)
    by_cases h₄ : j < len
    · -- an entry of the view: the indices of `xs` begin behind it
      rw [List.getElem?_append_left (by rw [length_view (by omega)]; exact h₄),
        getElem?_view (by omega) h₄, if_neg (by omega)]
    · rw [List.getElem?_append_right (by rw [length_view (by omega)]; omega),
        length_view (by omega), if_pos (by omega)]
      congr 1
      omega
  · rw [List.getElem?_eq_none, List.getElem?_eq_none]
    · rw [List.length_append, length_view (by omega)]
      omega
    · rw [length_view (by omega)]
      omega

end Ring
