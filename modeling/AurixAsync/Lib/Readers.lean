import Mathlib.Data.List.Basic

/-!
# Readers of a numbered queue

The entries of a queue have consecutive numbers, the first one `start`. Each reader has a position,
the number of the entry it reads next, and each entry carries a counter.

* `unread pos e`: how many readers at the positions `pos` have the entry `e` still to read.
* `Related r pos start q`: that number is in the relation `r` to the counter of the entry.
  `Related.push`, `drop`, `join`, `read`, `skip`, `leave`: what keeps it so.
* `Counted pos start q`: each counter of `q` is the number of readers that have to read its entry.
* `Counted.start_unread`, `Counted.head_ne_zero`: the counter of the first entry tells whether
  someone has it still to read.
* `Backlog`: right counters, and a first entry that someone has still to read. What a push, a pop
  and the moves of the readers keep of it.
-/

namespace Readers

variable {α : Type*} {pos : List ℕ} {start e i j m n : ℕ} {q : List (α × ℕ)}

/-- The number of readers that have the entry `e` still to read. -/
def unread (pos : List ℕ) (e : ℕ) : ℕ := pos.countP (· ≤ e)

theorem unread_ne_zero : unread pos e ≠ 0 ↔ ∃ n ∈ pos, n ≤ e := by
  rw [unread, ← Nat.pos_iff_ne_zero, List.countP_pos_iff]
  simp only [decide_eq_true_eq]

theorem unread_eq_length (h : ∀ n ∈ pos, n ≤ e) : unread pos e = pos.length := by
  rw [unread, List.countP_eq_length]
  intro n hn
  exact decide_eq_true (h n hn)

theorem unread_append (h : e < n) : unread (pos ++ [n]) e = unread pos e := by
  rw [unread, List.countP_append, List.countP_singleton, if_neg (by simpa using h)]
  rfl

theorem unread_set (h : pos[i]? = some n) : unread (pos.set i m) e + (if n ≤ e then 1 else 0) =
    unread pos e + (if m ≤ e then 1 else 0) := by
  induction pos generalizing i with
  | nil => simp at h
  | cons p ps ih =>
    cases i with
    | zero =>
      have hp : p = n := by simpa using h
      subst hp
      simp only [List.set_cons_zero, unread, List.countP_cons, decide_eq_true_eq]
      omega
    | succ i =>
      have := ih (by simpa using h)
      simp only [List.set_cons_succ, unread, List.countP_cons, decide_eq_true_eq] at this ⊢
      omega

theorem unread_eraseIdx (h : pos[i]? = some n) :
    unread pos e = unread (pos.eraseIdx i) e + (if n ≤ e then 1 else 0) := by
  induction pos generalizing i with
  | nil => simp at h
  | cons p ps ih =>
    cases i with
    | zero =>
      have hp : p = n := by simpa using h
      subst hp
      simp only [List.eraseIdx_cons_zero, unread, List.countP_cons, decide_eq_true_eq]
    | succ i =>
      have := ih (by simpa using h)
      simp only [List.eraseIdx_cons_succ, unread, List.countP_cons, decide_eq_true_eq] at this ⊢
      omega

theorem set_self (h : pos[i]? = some n) : pos.set i n = pos := by
  obtain ⟨hlt, hget⟩ := List.getElem?_eq_some_iff.mp h
  rw [← hget, List.set_getElem_self]

/-! ### Counters -/

/-- Take one off the counters from the entry `j` on. -/
def decrement (j : ℕ) (q : List (α × ℕ)) : List (α × ℕ) :=
  q.take j ++ (q.drop j).map fun x => (x.1, x.2 - 1)

theorem length_decrement : (decrement j q).length = q.length := by
  rw [decrement, List.length_append, List.length_map, ← List.length_append, List.take_append_drop]

theorem getElem?_decrement (k : ℕ) :
    (decrement j q)[k]? = if k < j then q[k]? else (q[k]?).map fun x => (x.1, x.2 - 1) := by
  induction j generalizing q k with
  | zero =>
    rw [if_neg (Nat.not_lt_zero k), decrement, List.take_zero, List.nil_append, List.drop_zero,
      List.getElem?_map]
  | succ j ih =>
    cases q with
    | nil => simp [decrement]
    | cons x xs =>
      cases k with
      | zero => rfl
      | succ k =>
        show (decrement j xs)[k]? = _
        rw [ih]
        simp only [Nat.add_lt_add_iff_right, List.getElem?_cons_succ]

/-- The number of readers that have an entry still to read is in the relation `r` to its counter. -/
def Related (r : ℕ → ℕ → Prop) (pos : List ℕ) (start : ℕ) (q : List (α × ℕ)) : Prop :=
  ∀ j x, q[j]? = some x → r (unread pos (start + j)) x.2

section Related

variable {r : ℕ → ℕ → Prop} {a : α} {c : ℕ}

theorem Related.push (h : Related r pos start q) (hc : r (unread pos (start + q.length)) c) :
    Related r pos start (q ++ [(a, c)]) := by
  intro j x hx
  by_cases hj : j < q.length
  · rw [List.getElem?_append_left hj] at hx
    exact h j x hx
  · rw [List.getElem?_append_right (by omega), List.getElem?_singleton] at hx
    split_ifs at hx with hz
    obtain rfl := Option.some.inj hx
    have hj' : j = q.length := by omega
    rw [hj']
    exact hc

theorem Related.drop (h : Related r pos start q) (k : ℕ) :
    Related r pos (start + k) (q.drop k) := by
  intro j x hx
  rw [List.getElem?_drop] at hx
  rw [Nat.add_assoc]
  exact h (k + j) x hx

theorem Related.congr {pos' : List ℕ} (h : Related r pos start q)
    (he : ∀ j < q.length, unread pos' (start + j) = unread pos (start + j)) :
    Related r pos' start q := by
  intro j x hx
  rw [he j (List.getElem?_eq_some_iff.mp hx).1]
  exact h j x hx

theorem Related.join (h : Related r pos start q) (hn : start + q.length ≤ n) :
    Related r (pos ++ [n]) start q := by
  apply h.congr
  intro j hj
  exact unread_append (by omega)

theorem Related.skip (h : Related r pos start q) (hi : pos[i]? = some n) (hn : n ≤ start) :
    Related r (pos.set i start) start q := by
  apply h.congr
  intro j _
  have := unread_set (m := start) (e := start + j) hi
  rw [if_pos (by omega), if_pos (by omega)] at this
  omega

theorem Related.read (h : Related r pos start q) (hr : ∀ u c, r (u + 1) (c + 1) → r u c)
    (hi : pos[i]? = some (start + j)) (hq : q[j]? = some (a, c + 1)) :
    Related r (pos.set i (start + j + 1)) start (q.set j (a, c)) := by
  intro k x hx
  have hset := unread_set (m := start + j + 1) (e := start + k) hi
  rw [List.getElem?_set] at hx
  split_ifs at hx with hjk hlt
  · obtain rfl := Option.some.inj hx
    subst hjk
    rw [if_pos (by omega), if_neg (by omega)] at hset
    apply hr
    rw [hset]
    exact h j _ hq
  · have hiff : start + j ≤ start + k ↔ start + j + 1 ≤ start + k := by omega
    simp only [hiff] at hset
    rw [Nat.add_right_cancel hset]
    exact h k x hx

theorem Related.leave (h : Related r pos start q) (hr : ∀ u c, r (u + 1) c → r u (c - 1))
    (hi : pos[i]? = some (start + j)) : Related r (pos.eraseIdx i) start (decrement j q) := by
  intro k x hx
  have hu := unread_eraseIdx (e := start + k) hi
  rw [getElem?_decrement] at hx
  split_ifs at hx with hk
  · rw [if_neg (by omega), Nat.add_zero] at hu
    rw [← hu]
    exact h k x hx
  · rw [if_pos (by omega)] at hu
    obtain ⟨y, hy, rfl⟩ := Option.map_eq_some_iff.mp hx
    apply hr
    rw [← hu]
    exact h k y hy

end Related

/-! ### Right counters -/

/-- Each counter is the number of readers that have its entry still to read. -/
def Counted (pos : List ℕ) (start : ℕ) (q : List (α × ℕ)) : Prop :=
  ∀ j x, q[j]? = some x → x.2 = unread pos (start + j)

theorem Counted.related (h : Counted pos start q) : Related (fun u c => c = u) pos start q := h

theorem counted_nil : Counted pos start ([] : List (α × ℕ)) := by
  intro j x hx
  simp at hx

theorem Counted.start_unread (h : Counted pos start q) {x : α × ℕ} (hx : q.head? = some x)
    (hne : x.2 ≠ 0) : ∃ n ∈ pos, n ≤ start := by
  rw [List.head?_eq_getElem?] at hx
  rw [h 0 x hx] at hne
  exact unread_ne_zero.mp hne

theorem Counted.head_ne_zero (h : Counted pos start q) (hu : ∃ n ∈ pos, n ≤ start) {x : α × ℕ}
    (hx : q.head? = some x) : x.2 ≠ 0 := by
  rw [List.head?_eq_getElem?] at hx
  rw [h 0 x hx]
  exact unread_ne_zero.mpr hu

theorem Counted.push (h : Counted pos start q) (hle : ∀ n ∈ pos, n ≤ start + q.length) (a : α) :
    Counted pos start (q ++ [(a, pos.length)]) :=
  h.related.push (unread_eq_length hle).symm

theorem Counted.drop (h : Counted pos start q) (k : ℕ) : Counted pos (start + k) (q.drop k) :=
  h.related.drop k

theorem Counted.join (h : Counted pos start q) (hn : start + q.length ≤ n) :
    Counted (pos ++ [n]) start q :=
  h.related.join hn

theorem Counted.skip (h : Counted pos start q) (hi : pos[i]? = some n) (hn : n ≤ start) :
    Counted (pos.set i start) start q :=
  h.related.skip hi hn

theorem Counted.read (h : Counted pos start q) (hi : pos[i]? = some (start + j)) {a : α} {c : ℕ}
    (hq : q[j]? = some (a, c + 1)) :
    Counted (pos.set i (start + j + 1)) start (q.set j (a, c)) :=
  h.related.read (fun _ _ hc => Nat.succ.inj hc) hi hq

theorem Counted.leave (h : Counted pos start q) (hi : pos[i]? = some (start + j)) :
    Counted (pos.eraseIdx i) start (decrement j q) :=
  h.related.leave (fun _ _ hc => Nat.sub_eq_of_eq_add hc) hi

/-- A reader behind the queue leaves, and the counters stay: none of them is right. -/
theorem Counted.not_leave_behind (h : Counted pos start q) (hi : pos[i]? = some n)
    (hn : n < start) (hq : q ≠ []) : ¬ Counted (pos.eraseIdx i) start q := by
  intro h'
  obtain ⟨x, hx⟩ : ∃ x, q[0]? = some x := by
    obtain ⟨x, xs, rfl⟩ := List.exists_cons_of_ne_nil hq
    exact ⟨x, rfl⟩
  have h₁ := h 0 x hx
  have h₂ := h' 0 x hx
  have hu := unread_eraseIdx (e := start + 0) hi
  rw [if_pos (by omega)] at hu
  omega

/-- Take off the entries at the front that nobody has to read. -/
def popRead (q : List (α × ℕ)) : List (α × ℕ) := q.dropWhile fun x => x.2 = 0

theorem popRead_eq_drop (q : List (α × ℕ)) : popRead q = q.drop (q.length - (popRead q).length) :=
  (List.suffix_iff_eq_drop.mp (List.dropWhile_suffix _))

theorem length_popRead_le : (popRead q).length ≤ q.length := (List.dropWhile_suffix _).length_le

theorem head?_popRead {x : α × ℕ} (hx : (popRead q).head? = some x) : x.2 ≠ 0 := by
  intro hz
  have := List.head?_dropWhile_not (fun x : α × ℕ => decide (x.2 = 0)) q
  rw [popRead] at hx
  rw [hx] at this
  simp [hz] at this

/-! ### The backlog -/

/-- A queue whose next entry will be `next`: its counters are right, no reader is ahead of it, and
someone has its first entry still to read. -/
structure Backlog (pos : List ℕ) (next : ℕ) (q : List (α × ℕ)) : Prop where
  length_le : q.length ≤ next
  pos_le : ∀ n ∈ pos, n ≤ next
  counted : Counted pos (next - q.length) q
  oldest : q ≠ [] → ∃ n ∈ pos, n ≤ next - q.length

variable {next c : ℕ} {a : α}

theorem backlog_nil : Backlog [] 0 ([] : List (α × ℕ)) where
  length_le := Nat.le_refl 0
  pos_le := fun _ hn => absurd hn List.not_mem_nil
  counted := counted_nil
  oldest := fun h => absurd rfl h

theorem Backlog.push (h : Backlog pos next q) (hpos : pos ≠ []) (a : α) :
    Backlog pos (next + 1) (q ++ [(a, pos.length)]) := by
  have hlen : next + 1 - (q ++ [(a, pos.length)]).length = next - q.length := by
    rw [List.length_append, List.length_singleton]
    omega
  have hle := h.length_le
  refine ⟨?_, fun n hn => Nat.le_succ_of_le (h.pos_le n hn), ?_, fun _ => ?_⟩
  · rw [List.length_append, List.length_singleton]
    omega
  · rw [hlen]
    refine h.counted.push (fun n hn => ?_) a
    have := h.pos_le n hn
    omega
  · rw [hlen]
    by_cases hq : q = []
    · obtain ⟨n, hn⟩ := List.exists_mem_of_ne_nil pos hpos
      refine ⟨n, hn, ?_⟩
      rw [hq]
      exact h.pos_le n hn
    · exact h.oldest hq

theorem Backlog.drop_start (h : Backlog pos next q) {k : ℕ} (hk : k ≤ q.length) :
    next - (q.drop k).length = next - q.length + k := by
  have := h.length_le
  rw [List.length_drop]
  omega

theorem Backlog.tail (h : Backlog pos next q) : Backlog pos next q.tail := by
  by_cases hq : q = []
  · rw [hq]
    rw [hq] at h
    exact h
  · have hpos : 1 ≤ q.length := List.length_pos_iff.mpr hq
    have hstart := h.drop_start hpos
    have hle := h.length_le
    rw [List.drop_one] at hstart
    refine ⟨by rw [List.length_tail]; omega, h.pos_le, ?_, fun _ => ?_⟩
    · rw [hstart, ← List.drop_one]
      exact h.counted.drop 1
    · obtain ⟨n, hn, hns⟩ := h.oldest hq
      exact ⟨n, hn, by omega⟩

theorem Backlog.join (h : Backlog pos next q) : Backlog (pos ++ [next]) next q := by
  have hle := h.length_le
  refine ⟨hle, fun n hn => ?_, h.counted.join (by omega), fun hq => ?_⟩
  · rcases List.mem_append.mp hn with hn | hn
    · exact h.pos_le n hn
    · exact Nat.le_of_eq (List.mem_singleton.mp hn)
  · obtain ⟨n, hn, hns⟩ := h.oldest hq
    exact ⟨n, List.mem_append_left _ hn, hns⟩

theorem mem_set_le {pos : List ℕ} (h : ∀ n ∈ pos, n ≤ next) (hm : m ≤ next) :
    ∀ n ∈ pos.set i m, n ≤ next := by
  intro n hn
  rcases List.mem_or_eq_of_mem_set hn with hn | rfl
  · exact h n hn
  · exact hm

theorem mem_set {pos : List ℕ} (h : pos[i]? = some n) (m : ℕ) : m ∈ pos.set i m :=
  List.mem_set (List.getElem?_eq_some_iff.mp h).1 m

theorem Backlog.skip (h : Backlog pos next q) (hi : pos[i]? = some n)
    (hn : n ≤ next - q.length) : Backlog (pos.set i (next - q.length)) next q where
  length_le := h.length_le
  pos_le := mem_set_le h.pos_le (Nat.sub_le _ _)
  counted := h.counted.skip hi hn
  oldest := fun _ => ⟨_, mem_set hi _, Nat.le_refl _⟩

theorem Backlog.read (h : Backlog pos next q) (hi : pos[i]? = some (next - q.length + j))
    (hq : q[j]? = some (a, c + 1)) (hc : ¬ (j = 0 ∧ c = 0)) :
    Backlog (pos.set i (next - q.length + j + 1)) next (q.set j (a, c)) := by
  have hj : j < q.length := (List.getElem?_eq_some_iff.mp hq).1
  have hle := h.length_le
  have hcounted := h.counted.read hi hq
  refine ⟨by rw [List.length_set]; exact hle, mem_set_le h.pos_le (by omega), ?_, fun _ => ?_⟩
  · rw [List.length_set]
    exact hcounted
  · rw [List.length_set]
    by_cases hz : j = 0
    · subst hz
      refine hcounted.start_unread (x := (a, c)) ?_ fun hc0 => hc ⟨rfl, hc0⟩
      rw [List.head?_eq_getElem?, List.getElem?_set_self hj]
    · have hne : q ≠ [] := fun e => by rw [e] at hj; exact absurd hj (Nat.not_lt_zero j)
      have hu := unread_set (m := next - q.length + j + 1) (e := next - q.length) hi
      rw [if_neg (by omega), if_neg (by omega)] at hu
      have := unread_ne_zero.mpr (h.oldest hne)
      exact unread_ne_zero.mp (by omega)

theorem Backlog.readLast (h : Backlog pos next q) (hi : pos[i]? = some (next - q.length))
    (hq : q[0]? = some (a, 1)) : Backlog (pos.set i (next - q.length + 1)) next q.tail := by
  have hj : 1 ≤ q.length := (List.getElem?_eq_some_iff.mp hq).1
  have hle := h.length_le
  have hstart := h.drop_start hj
  rw [List.drop_one] at hstart
  have hcounted := (h.counted.read (j := 0) hi hq).drop 1
  have htail : (q.set 0 (a, 0)).drop 1 = q.tail := by
    obtain ⟨x, xs, rfl⟩ := List.exists_cons_of_ne_nil (List.length_pos_iff.mp hj)
    rfl
  rw [htail] at hcounted
  refine ⟨by rw [List.length_tail]; omega, mem_set_le h.pos_le (by omega), ?_, fun _ => ?_⟩
  · rw [hstart]
    exact hcounted
  · exact ⟨_, mem_set hi _, Nat.le_of_eq hstart.symm⟩

theorem Backlog.leave (h : Backlog pos next q) (hi : pos[i]? = some (next - q.length + j)) :
    Backlog (pos.eraseIdx i) next (popRead (decrement j q)) := by
  have hle := h.length_le
  have hshort := length_popRead_le (q := decrement j q)
  have hcounted := (h.counted.leave hi).drop
    ((decrement j q).length - (popRead (decrement j q)).length)
  rw [← popRead_eq_drop, length_decrement] at hcounted
  rw [length_decrement] at hshort
  have hstart : next - (popRead (decrement j q)).length =
      next - q.length + (q.length - (popRead (decrement j q)).length) := by omega
  refine ⟨by omega, fun n hn => h.pos_le n (List.mem_of_mem_eraseIdx hn), ?_, fun hq => ?_⟩
  · rw [hstart]
    exact hcounted
  · obtain ⟨x, xs, hx⟩ := List.exists_cons_of_ne_nil hq
    have hhead : (popRead (decrement j q)).head? = some x := by rw [hx]; rfl
    rw [hstart]
    exact hcounted.start_unread hhead (head?_popRead hhead)

theorem Backlog.leaveEmpty (h : Backlog pos next q) (hq : q = []) :
    Backlog (pos.eraseIdx i) next q where
  length_le := h.length_le
  pos_le := fun n hn => h.pos_le n (List.mem_of_mem_eraseIdx hn)
  counted := by rw [hq]; exact counted_nil
  oldest := fun hne => absurd hq hne

end Readers
