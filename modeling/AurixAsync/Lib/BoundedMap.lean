import Mathlib.Data.List.Nodup

/-!
# Bounded maps

`BoundedMap K V N` is an association list of at most `N` entries, whose keys differ; both are
fields. An entry keeps its place in the list for good.

* `BoundedMap.get?`, `replace`, `insert`: the operations. An insert replaces the value of a key
  that is there, adds one that is not, and fails when there is no place for it.
* `get?_replace`, `get?_insert`, `keys_insert`: what they do to every key.
* `insert_eq_none`: when an insert fails.
-/

/-- An association list of at most `N` entries with different keys. -/
structure BoundedMap (K V : Type*) (N : ℕ) where
  entries : List (K × V)
  nodup : (entries.map Prod.fst).Nodup
  length_le : entries.length ≤ N

namespace BoundedMap

variable {K V : Type*} {N : ℕ} [DecidableEq K] {m m' : BoundedMap K V N} {k k' : K} {v : V}

/-- The empty map. -/
def new : BoundedMap K V N := ⟨[], List.nodup_nil, Nat.zero_le N⟩

/-- The value of a key. -/
def get? (m : BoundedMap K V N) (k : K) : Option V :=
  (m.entries.find? fun e => e.1 = k).map Prod.snd

theorem get?_eq_none : m.get? k = none ↔ k ∉ m.entries.map Prod.fst := by
  rw [get?, Option.map_eq_none_iff, List.find?_eq_none, List.mem_map]
  constructor
  · rintro h ⟨e, he, rfl⟩
    exact h e he (decide_eq_true rfl)
  · intro h e he hk
    exact h ⟨e, he, of_decide_eq_true hk⟩

theorem get?_of_mem (h : (k, v) ∈ m.entries) : m.get? k = some v := by
  rw [get?]
  cases hf : m.entries.find? fun e => e.1 = k with
  | none => exact absurd (decide_eq_true rfl) (List.find?_eq_none.mp hf _ h)
  | some e =>
    have he : e.1 = k := by
      have := List.find?_some hf
      exact of_decide_eq_true this
    rw [List.inj_on_of_nodup_map m.nodup (List.mem_of_find?_eq_some hf) h he]
    rfl

/-- Change the value of an entry in place. -/
def setEntry (k : K) (v : V) (e : K × V) : K × V := if e.1 = k then (e.1, v) else e

@[simp] theorem fst_setEntry (e : K × V) : (setEntry k v e).1 = e.1 := by
  unfold setEntry
  split_ifs <;> rfl

/-- The value of a key is changed in place; nothing happens where the key is not there. -/
def replace (m : BoundedMap K V N) (k : K) (v : V) : BoundedMap K V N where
  entries := m.entries.map (setEntry k v)
  nodup := by
    have hkeys : Prod.fst ∘ setEntry k v = Prod.fst := funext fun e => fst_setEntry e
    rw [List.map_map, hkeys]
    exact m.nodup
  length_le := by
    rw [List.length_map]
    exact m.length_le

theorem keys_replace : (m.replace k v).entries.map Prod.fst = m.entries.map Prod.fst := by
  rw [replace, List.map_map]
  exact List.map_congr_left fun e _ => fst_setEntry e

theorem get?_replace : (m.replace k v).get? k' =
    if k' = k then (m.get? k').map fun _ => v else m.get? k' := by
  have hp : (fun e : K × V => decide (e.1 = k')) ∘ setEntry k v = fun e => decide (e.1 = k') := by
    funext e
    rw [Function.comp_apply, fst_setEntry]
  rw [get?, replace, List.find?_map, hp, get?]
  cases hf : m.entries.find? fun e => decide (e.1 = k') with
  | none => split_ifs <;> rfl
  | some e =>
    have he : e.1 = k' := by
      have := List.find?_some hf
      exact of_decide_eq_true this
    show some (setEntry k v e).2 = _
    unfold setEntry
    rw [he]
    split_ifs <;> rfl

/-- `insert`: the value that was there before, and the map. -/
def insert (m : BoundedMap K V N) (k : K) (v : V) : Option (Option V × BoundedMap K V N) :=
  match hk : m.get? k with
  | some old => some (some old, m.replace k v)
  | none =>
    if hlt : m.entries.length < N then
      some (none,
        { entries := m.entries ++ [(k, v)]
          nodup := by
            rw [List.map_append, List.map_singleton]
            exact m.nodup.append (List.nodup_singleton k)
              (List.disjoint_singleton.mpr (get?_eq_none.mp hk))
          length_le := by
            rw [List.length_append, List.length_singleton]
            omega })
    else none

/-- **What an insert does to every key**, whether the key was there or not. -/
theorem get?_insert {old : Option V} (h : m.insert k v = some (old, m')) :
    old = m.get? k ∧ m'.get? k' = if k' = k then some v else m.get? k' := by
  unfold insert at h
  split at h
  · rename_i w hw
    obtain ⟨rfl, rfl⟩ := Prod.mk.inj (Option.some.inj h)
    refine ⟨hw.symm, ?_⟩
    rw [get?_replace]
    split_ifs with he
    · rw [he, hw]
      rfl
    · rfl
  · rename_i hw
    split_ifs at h
    obtain ⟨rfl, rfl⟩ := Prod.mk.inj (Option.some.inj h)
    refine ⟨hw.symm, ?_⟩
    rw [get?, List.find?_append]
    split_ifs with he
    · subst he
      rw [Option.map_eq_none_iff.mp hw, Option.none_or, List.find?_singleton,
        if_pos (decide_eq_true rfl)]
      rfl
    · rw [List.find?_singleton, if_neg (by simpa using Ne.symm he), Option.or_none]
      rfl

theorem keys_insert {old : Option V} (h : m.insert k v = some (old, m')) :
    m'.entries.map Prod.fst =
      if k ∈ m.entries.map Prod.fst then m.entries.map Prod.fst
      else m.entries.map Prod.fst ++ [k] := by
  unfold insert at h
  split at h
  · rename_i w hw
    obtain ⟨rfl, rfl⟩ := Prod.mk.inj (Option.some.inj h)
    have hk : k ∈ m.entries.map Prod.fst := by
      by_contra hk
      rw [get?_eq_none.mpr hk] at hw
      exact absurd hw (by simp)
    rw [if_pos hk, keys_replace]
  · rename_i hw
    split_ifs at h
    obtain ⟨rfl, rfl⟩ := Prod.mk.inj (Option.some.inj h)
    rw [if_neg (get?_eq_none.mp hw), List.map_append, List.map_singleton]

theorem insert_eq_none : m.insert k v = none ↔ m.get? k = none ∧ m.entries.length = N := by
  have hle := m.length_le
  unfold insert
  split
  · rename_i w hw
    exact ⟨fun h => absurd h (by simp), fun h => absurd h.1 (by rw [hw]; simp)⟩
  · rename_i hw
    split_ifs with hlt
    · exact ⟨fun h => absurd h (by simp), fun h => by omega⟩
    · exact ⟨fun _ => ⟨hw, by omega⟩, fun _ => rfl⟩

end BoundedMap
