import AurixAsync.Lib.Readers

/-!
# Readers that may miss entries

A log of all entries, each numbered by its index, of which a queue keeps the last ones. Each reader
has a position in the log. Entries leave the queue when nobody has to read them any more, or they
are evicted, and then a reader may miss them. The counters of the queue may be too high.

* `Related.ne_zero`, `Related.eraseIdx`: counters that are at least the numbers of readers.
* `Kept pos lost log q`: the queue is the end of the log, its counters are high enough, and a
  reader behind the queue has missed evicted entries only.
* `Kept.push`, `evict`, `join`, `read`, `readLast`, `skip`, `leave`, `leaveBehind`: what keeps it.
-/

namespace Readers

variable {α : Type*} {pos lost : List ℕ} {start e i j k m n c : ℕ} {q : List (α × ℕ)} {a : α}

theorem unread_le_length : unread pos e ≤ pos.length := List.countP_le_length

theorem Related.ne_zero (h : Related (· ≤ ·) pos start q) (hn : n ∈ pos) (hle : n ≤ start + j)
    {x : α × ℕ} (hx : q[j]? = some x) : x.2 ≠ 0 := by
  have hpos : unread pos (start + j) ≠ 0 := unread_ne_zero.mpr ⟨n, hn, hle⟩
  have hc : unread pos (start + j) ≤ x.2 := h j x hx
  omega

theorem Related.eraseIdx (h : Related (· ≤ ·) pos start q) (hi : pos[i]? = some n) :
    Related (· ≤ ·) (pos.eraseIdx i) start q := by
  intro j x hx
  have hu := unread_eraseIdx (e := start + j) hi
  have hc : unread pos (start + j) ≤ x.2 := h j x hx
  show unread (pos.eraseIdx i) (start + j) ≤ x.2
  omega

/-! ### The end of a log -/

/-- A queue of the last entries of a log. No reader is ahead of the log, the counters are high
enough, what a reader has missed is lost, and what is lost has left the queue. -/
structure Kept (pos lost : List ℕ) (log : List α) (q : List (α × ℕ)) : Prop where
  suffix : q.map Prod.fst <:+ log
  pos_le : ∀ n ∈ pos, n ≤ log.length
  atLeast : Related (· ≤ ·) pos (log.length - q.length) q
  missed : ∀ n ∈ pos, ∀ e, n ≤ e → e < log.length - q.length → e ∈ lost
  passed : ∀ e ∈ lost, e < log.length - q.length

variable {log : List α}

theorem kept_nil : Kept [] [] ([] : List α) [] where
  suffix := List.suffix_rfl
  pos_le := fun _ hn => absurd hn List.not_mem_nil
  atLeast := fun j x hx => absurd hx (by simp)
  missed := fun _ hn => absurd hn List.not_mem_nil
  passed := fun _ he => absurd he List.not_mem_nil

theorem Kept.length_le (h : Kept pos lost log q) : q.length ≤ log.length := by
  have := h.suffix.length_le
  rw [List.length_map] at this
  exact this

theorem Kept.getElem?_log (h : Kept pos lost log q) {x : α × ℕ} (hx : q[j]? = some x) :
    log[log.length - q.length + j]? = some x.1 := by
  obtain ⟨front, hlog⟩ := h.suffix
  have hlen : log.length - q.length = front.length := by
    rw [← hlog, List.length_append, List.length_map]
    omega
  rw [hlen, ← hlog, List.getElem?_append_right (Nat.le_add_right _ _), Nat.add_sub_cancel_left,
    List.getElem?_map, hx]
  rfl

theorem Kept.push (h : Kept pos lost log q) (hc : pos.length ≤ c) (a : α) :
    Kept pos lost (log ++ [a]) (q ++ [(a, c)]) := by
  have hlen : (log ++ [a]).length - (q ++ [(a, c)]).length = log.length - q.length := by
    rw [List.length_append, List.length_append, List.length_singleton, List.length_singleton]
    omega
  refine ⟨?_, fun n hn => ?_, ?_, ?_, ?_⟩
  · rw [List.map_append]
    obtain ⟨front, hlog⟩ := h.suffix
    exact ⟨front, by rw [← List.append_assoc, hlog]; rfl⟩
  · rw [List.length_append]
    exact Nat.le_trans (h.pos_le n hn) (Nat.le_add_right _ _)
  · rw [hlen]
    exact h.atLeast.push (Nat.le_trans unread_le_length hc)
  · rw [hlen]
    exact h.missed
  · rw [hlen]
    exact h.passed

/-- The first entries leave the queue, and who has them still to read misses them. -/
theorem Kept.drop {lost' : List ℕ} (h : Kept pos lost log q) (hk : k ≤ q.length)
    (hlost : ∀ e ∈ lost, e ∈ lost') (hpast : ∀ e ∈ lost', e < log.length - q.length + k)
    (hout : ∀ n ∈ pos, ∀ j < k, n ≤ log.length - q.length + j →
      log.length - q.length + j ∈ lost') : Kept pos lost' log (q.drop k) := by
  have hle := h.length_le
  have hstart : log.length - (q.drop k).length = log.length - q.length + k := by
    rw [List.length_drop]
    omega
  refine ⟨?_, h.pos_le, ?_, fun n hn e hne he => ?_, ?_⟩
  · rw [List.map_drop]
    exact (List.drop_suffix k _).trans h.suffix
  · rw [hstart]
    exact h.atLeast.drop k
  · rw [hstart] at he
    by_cases hold : e < log.length - q.length
    · exact hlost e (h.missed n hn e hne hold)
    · have hj := hout n hn (e - (log.length - q.length)) (by omega)
      rw [Nat.add_sub_cancel' (by omega)] at hj
      exact hj hne
  · rw [hstart]
    exact hpast

theorem Kept.evict (h : Kept pos lost log q) (hq : q ≠ []) :
    Kept pos (lost ++ [log.length - q.length]) log q.tail := by
  rw [← List.drop_one]
  apply h.drop (List.length_pos_of_ne_nil hq) fun e he => List.mem_append_left _ he
  · intro e he
    rcases List.mem_append.mp he with he | he
    · exact Nat.lt_succ_of_lt (h.passed e he)
    · rw [List.mem_singleton.mp he]
      exact Nat.lt_succ_self _
  · intro n _ j hj _
    obtain rfl : j = 0 := by omega
    exact List.mem_append_right _ (List.mem_singleton_self _)

theorem Kept.dropRead (h : Kept pos lost log q) (hk : k ≤ q.length)
    (hz : ∀ j < k, ∀ x, q[j]? = some x → x.2 = 0) : Kept pos lost log (q.drop k) := by
  apply h.drop hk fun e he => he
  · intro e he
    exact Nat.lt_add_right k (h.passed e he)
  · intro n hn j hj hle
    have hx : q[j]? = some q[j] := List.getElem?_eq_getElem (by omega)
    exact absurd (hz j hj _ hx) (h.atLeast.ne_zero hn hle hx)

theorem Kept.join (h : Kept pos lost log q) : Kept (pos ++ [log.length]) lost log q := by
  have hle := h.length_le
  refine ⟨h.suffix, fun n hn => ?_, h.atLeast.join (by omega), fun n hn e hne he => ?_, h.passed⟩
  · rcases List.mem_append.mp hn with hn | hn
    · exact h.pos_le n hn
    · exact Nat.le_of_eq (List.mem_singleton.mp hn)
  · rcases List.mem_append.mp hn with hn | hn
    · exact h.missed n hn e hne he
    · rw [List.mem_singleton.mp hn] at hne
      omega

theorem Kept.skip (h : Kept pos lost log q) (hi : pos[i]? = some n)
    (hn : n ≤ log.length - q.length) : Kept (pos.set i (log.length - q.length)) lost log q := by
  refine ⟨h.suffix, mem_set_le h.pos_le (Nat.sub_le _ _), h.atLeast.skip hi hn,
    fun m hm e hme he => ?_, h.passed⟩
  rcases List.mem_or_eq_of_mem_set hm with hm | rfl
  · exact h.missed m hm e hme he
  · omega

theorem Kept.read (h : Kept pos lost log q) (hi : pos[i]? = some (log.length - q.length + j))
    (hq : q[j]? = some (a, c + 1)) :
    Kept (pos.set i (log.length - q.length + j + 1)) lost log (q.set j (a, c)) := by
  have hj : j < q.length := (List.getElem?_eq_some_iff.mp hq).1
  have hle := h.length_le
  refine ⟨?_, mem_set_le h.pos_le (by omega), ?_, fun m hm e hme he => ?_, ?_⟩
  · have hmap : (q.set j (a, c)).map Prod.fst = q.map Prod.fst := by
      apply List.ext_getElem?
      intro k
      rw [List.getElem?_map, List.getElem?_map, List.getElem?_set]
      by_cases hk : j = k
      · subst hk
        rw [if_pos rfl, if_pos hj, hq]
        rfl
      · rw [if_neg hk]
    rw [hmap]
    exact h.suffix
  · rw [List.length_set]
    exact h.atLeast.read (fun _ _ hc => Nat.le_of_succ_le_succ hc) hi hq
  · rw [List.length_set] at he
    rcases List.mem_or_eq_of_mem_set hm with hm | rfl
    · exact h.missed m hm e hme he
    · omega
  · rw [List.length_set]
    exact h.passed

theorem Kept.readLast (h : Kept pos lost log q) (hi : pos[i]? = some (log.length - q.length))
    (hq : q[0]? = some (a, 1)) :
    Kept (pos.set i (log.length - q.length + 1)) lost log q.tail := by
  have hj : 0 < q.length := (List.getElem?_eq_some_iff.mp hq).1
  have htail : (q.set 0 (a, 0)).drop 1 = q.tail := by
    obtain ⟨x, xs, rfl⟩ := List.exists_cons_of_ne_nil (List.length_pos_iff.mp hj)
    rfl
  rw [← htail]
  apply (h.read (j := 0) hi hq).dropRead
  · rw [List.length_set]
    exact hj
  · intro j hj₁ x hx
    obtain rfl : j = 0 := by omega
    rw [List.getElem?_set_self hj] at hx
    rw [← Option.some.inj hx]

theorem Kept.leaveBehind (h : Kept pos lost log q) (hi : pos[i]? = some n) :
    Kept (pos.eraseIdx i) lost log q where
  suffix := h.suffix
  pos_le := fun n hn => h.pos_le n (List.mem_of_mem_eraseIdx hn)
  atLeast := h.atLeast.eraseIdx hi
  missed := fun n hn => h.missed n (List.mem_of_mem_eraseIdx hn)
  passed := h.passed

theorem getElem?_lt_popRead {x : α × ℕ} (hj : j < q.length - (popRead q).length)
    (hx : q[j]? = some x) : x.2 = 0 := by
  induction q generalizing j with
  | nil => simp at hx
  | cons y ys ih =>
    by_cases hy : y.2 = 0
    · have hpop : popRead (y :: ys) = popRead ys := by
        rw [popRead, List.dropWhile_cons_of_pos (by simpa using hy), popRead]
      cases j with
      | zero =>
        obtain rfl : y = x := by simpa using hx
        exact hy
      | succ j =>
        apply ih (j := j) _ (by simpa using hx)
        rw [hpop, List.length_cons] at hj
        omega
    · have hpop : popRead (y :: ys) = y :: ys := by
        rw [popRead, List.dropWhile_cons_of_neg (by simpa using hy)]
      rw [hpop] at hj
      omega

theorem map_fst_decrement : (decrement j q).map Prod.fst = q.map Prod.fst := by
  rw [decrement, List.map_append, List.map_map]
  show (q.take j).map Prod.fst ++ (q.drop j).map Prod.fst = _
  rw [← List.map_append, List.take_append_drop]

/-- A reader leaves with the entries from `j` on unread, and what nobody has to read any more is
taken off the front. -/
theorem Kept.leave (h : Kept pos lost log q) (hi : pos[i]? = some (log.length - q.length + j)) :
    Kept (pos.eraseIdx i) lost log (popRead (decrement j q)) := by
  have hdec : Kept (pos.eraseIdx i) lost log (decrement j q) := by
    refine ⟨?_, fun n hn => h.pos_le n (List.mem_of_mem_eraseIdx hn), ?_, fun n hn => ?_, ?_⟩
    · rw [map_fst_decrement]
      exact h.suffix
    · rw [length_decrement]
      exact h.atLeast.leave (fun _ _ hc => Nat.le_sub_one_of_lt hc) hi
    · rw [length_decrement]
      exact h.missed n (List.mem_of_mem_eraseIdx hn)
    · rw [length_decrement]
      exact h.passed
  rw [popRead_eq_drop]
  exact hdec.dropRead (Nat.sub_le _ _) fun k hk x hx => getElem?_lt_popRead hk hx

end Readers
