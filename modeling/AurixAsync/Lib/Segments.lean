import Mathlib.Order.Interval.Set.LinearOrder
import Mathlib.Data.List.Basic

/-!
# Lists of separated segments

A segment is a half-open interval of a linear order. A list of segments is separated if its
segments are not empty, are in order, and do not even touch.

* `cover`: the points of a list of segments.
* `Separated.eq_of_cover_eq`: a separated list is determined by its points.
* `Separated.replace`: a segment can be replaced by separated segments inside it.
* `join`, `insert`: a new segment is put into a list and merged with those it touches.
* `separated_insert`, `cover_insert`: a separated list stays separated, and gets the points of the
  new segment.
-/

namespace Segments

/-- The points from `lo` on, up to `hi`. -/
@[ext]
structure Seg (α : Type*) where
  lo : α
  hi : α

variable {α : Type*} [LinearOrder α]

/-- The points of a list of segments. -/
def cover (l : List (Seg α)) : Set α := {x | ∃ s ∈ l, x ∈ Set.Ico s.lo s.hi}

/-- The segments are not empty, are in order, and do not touch. -/
structure Separated (l : List (Seg α)) : Prop where
  lo_lt_hi : ∀ s ∈ l, s.lo < s.hi
  apart : l.Pairwise fun s t => s.hi < t.lo

variable {s t : Seg α} {l l' m r : List (Seg α)} {a x : α}

theorem mem_cover : x ∈ cover l ↔ ∃ s ∈ l, s.lo ≤ x ∧ x < s.hi := Iff.rfl

@[simp] theorem cover_nil : cover ([] : List (Seg α)) = ∅ := by
  ext x
  simp [mem_cover]

@[simp] theorem cover_cons : cover (s :: l) = Set.Ico s.lo s.hi ∪ cover l := by
  ext x
  simp [mem_cover]

@[simp] theorem cover_append : cover (l ++ r) = cover l ∪ cover r := by
  ext x
  simp [mem_cover, or_and_right, exists_or]

/-! ### Separated lists -/

theorem separated_nil : Separated ([] : List (Seg α)) where
  lo_lt_hi := fun _ hs => absurd hs List.not_mem_nil
  apart := List.Pairwise.nil

theorem separated_cons :
    Separated (s :: l) ↔ s.lo < s.hi ∧ (∀ t ∈ l, s.hi < t.lo) ∧ Separated l := by
  constructor
  · intro h
    obtain ⟨hlt, hl⟩ := List.forall_mem_cons.mp h.lo_lt_hi
    obtain ⟨hs, hp⟩ := List.pairwise_cons.mp h.apart
    exact ⟨hlt, hs, hl, hp⟩
  · rintro ⟨hlt, hs, hl, hp⟩
    exact ⟨List.forall_mem_cons.mpr ⟨hlt, hl⟩, List.pairwise_cons.mpr ⟨hs, hp⟩⟩

theorem separated_append : Separated (l ++ r) ↔
    Separated l ∧ Separated r ∧ ∀ s ∈ l, ∀ t ∈ r, s.hi < t.lo := by
  constructor
  · intro h
    obtain ⟨hl, hr⟩ := List.forall_mem_append.mp h.lo_lt_hi
    obtain ⟨hpl, hpr, hlr⟩ := List.pairwise_append.mp h.apart
    exact ⟨⟨hl, hpl⟩, ⟨hr, hpr⟩, hlr⟩
  · rintro ⟨⟨hl, hpl⟩, ⟨hr, hpr⟩, hlr⟩
    exact ⟨List.forall_mem_append.mpr ⟨hl, hr⟩, List.pairwise_append.mpr ⟨hpl, hpr, hlr⟩⟩

theorem separated_singleton (h : s.lo < s.hi) : Separated [s] :=
  separated_cons.mpr ⟨h, fun _ ht => absurd ht List.not_mem_nil, separated_nil⟩

theorem Separated.tail (h : Separated (s :: l)) : Separated l := (separated_cons.mp h).2.2

theorem Separated.lo_le (h : Separated (s :: l)) (hx : x ∈ cover (s :: l)) : s.lo ≤ x := by
  obtain ⟨hlt, hs, -⟩ := separated_cons.mp h
  obtain ⟨t, ht, htx, -⟩ := mem_cover.mp hx
  rcases List.mem_cons.mp ht with rfl | ht
  · exact htx
  · exact (hlt.trans (hs t ht)).le.trans htx

theorem Separated.lo_mem (h : Separated (s :: l)) : s.lo ∈ cover (s :: l) :=
  mem_cover.mpr ⟨s, List.mem_cons_self, le_refl _, (separated_cons.mp h).1⟩

theorem Separated.hi_notMem (h : Separated (s :: l)) : s.hi ∉ cover (s :: l) := by
  obtain ⟨-, hs, -⟩ := separated_cons.mp h
  intro hx
  obtain ⟨t, ht, htx, hxt⟩ := mem_cover.mp hx
  rcases List.mem_cons.mp ht with rfl | ht
  · exact lt_irrefl _ hxt
  · exact absurd (hs t ht) htx.not_gt

theorem Separated.mem_cover_tail (h : Separated (s :: l)) :
    x ∈ cover l ↔ x ∈ cover (s :: l) ∧ s.hi ≤ x := by
  obtain ⟨-, hs, -⟩ := separated_cons.mp h
  rw [cover_cons, Set.mem_union, Set.mem_Ico]
  constructor
  · intro hx
    obtain ⟨t, ht, htx, -⟩ := mem_cover.mp hx
    exact ⟨Or.inr hx, (hs t ht).le.trans htx⟩
  · rintro ⟨hx | hx, hle⟩
    · exact absurd hx.2 hle.not_gt
    · exact hx

/-- **A separated list is determined by its points.** -/
theorem Separated.eq_of_cover_eq (h : Separated l) (h' : Separated l')
    (hc : cover l = cover l') : l = l' := by
  induction l generalizing l' with
  | nil =>
    cases l' with
    | nil => rfl
    | cons t l' =>
      have ht := h'.lo_mem
      rw [← hc, cover_nil] at ht
      exact absurd ht (Set.notMem_empty _)
  | cons s l ih =>
    cases l' with
    | nil =>
      have hs := h.lo_mem
      rw [hc, cover_nil] at hs
      exact absurd hs (Set.notMem_empty _)
    | cons t l' =>
      have hlo : s.lo = t.lo :=
        le_antisymm (h.lo_le (hc ▸ h'.lo_mem)) (h'.lo_le (hc ▸ h.lo_mem))
      -- the end of the shorter one would be a point of the longer one
      have hhi : s.hi = t.hi := by
        rcases lt_trichotomy s.hi t.hi with hlt | heq | hlt
        · refine absurd ?_ h.hi_notMem
          rw [hc, cover_cons]
          exact Or.inl ⟨hlo ▸ (separated_cons.mp h).1.le, hlt⟩
        · exact heq
        · refine absurd ?_ h'.hi_notMem
          rw [← hc, cover_cons]
          exact Or.inl ⟨hlo ▸ (separated_cons.mp h').1.le, hlt⟩
      have htail : cover l = cover l' := by
        ext x
        rw [h.mem_cover_tail, h'.mem_cover_tail, hc, hhi]
      rw [Seg.ext hlo hhi, ih h.tail h'.tail htail]

theorem Separated.replace (h : Separated (l ++ s :: r)) (hm : Separated m)
    (hin : ∀ t ∈ m, s.lo ≤ t.lo ∧ t.hi ≤ s.hi) : Separated (l ++ m ++ r) := by
  obtain ⟨hl, hsr, hlr⟩ := separated_append.mp h
  obtain ⟨-, hs, hr⟩ := separated_cons.mp hsr
  refine separated_append.mpr ⟨separated_append.mpr ⟨hl, hm, ?_⟩, hr, ?_⟩
  · intro u hu t ht
    exact (hlr u hu s List.mem_cons_self).trans_le (hin t ht).1
  · intro t ht u hu
    rcases List.mem_append.mp ht with ht | ht
    · exact hlr t ht u (List.mem_cons_of_mem s hu)
    · exact (hin t ht).2.trans_lt (hs u hu)

theorem Separated.notMem_of_mem (h : Separated (l ++ s :: r)) (hx : x ∈ Set.Ico s.lo s.hi) :
    x ∉ cover (l ++ r) := by
  obtain ⟨-, hsr, hlr⟩ := separated_append.mp h
  obtain ⟨-, hs, -⟩ := separated_cons.mp hsr
  rw [cover_append]
  rintro (hl | hr)
  · obtain ⟨t, ht, -, htx⟩ := mem_cover.mp hl
    exact absurd (htx.trans (hlr t ht s List.mem_cons_self)) hx.1.not_gt
  · obtain ⟨t, ht, htx, -⟩ := mem_cover.mp hr
    exact absurd ((hs t ht).trans_le htx) hx.2.not_gt

/-- Points are taken out of one segment. -/
theorem Separated.cover_replace {X : Set α} (h : Separated (l ++ s :: r))
    (hX : X ⊆ Set.Ico s.lo s.hi) (hm : cover m = Set.Ico s.lo s.hi \ X) :
    cover (l ++ m ++ r) = cover (l ++ s :: r) \ X := by
  rw [cover_append, cover_append, hm, cover_append, cover_cons]
  ext x
  have hout : x ∈ Set.Ico s.lo s.hi → x ∉ cover l ∪ cover r := fun hx =>
    cover_append (l := l) (r := r) ▸ h.notMem_of_mem hx
  simp only [Set.mem_union, Set.mem_sdiff]
  constructor
  · rintro ((hx | ⟨hx, hn⟩) | hx)
    · exact ⟨Or.inl hx, fun hxX => hout (hX hxX) (Or.inl hx)⟩
    · exact ⟨Or.inr (Or.inl hx), hn⟩
    · exact ⟨Or.inr (Or.inr hx), fun hxX => hout (hX hxX) (Or.inr hx)⟩
  · rintro ⟨hx | hx | hx, hn⟩
    · exact Or.inl (Or.inl hx)
    · exact Or.inl (Or.inr ⟨hx, hn⟩)
    · exact Or.inr hx

/-! ### Putting a segment in -/

/-- Put a segment in front, merged with the first one if they touch. -/
def join (s : Seg α) : List (Seg α) → List (Seg α)
  | [] => [s]
  | t :: l => if s.hi = t.lo then ⟨s.lo, t.hi⟩ :: l else s :: t :: l

/-- Put a segment in at its place. -/
def insert (s : Seg α) : List (Seg α) → List (Seg α)
  | [] => [s]
  | t :: l => if s.lo < t.lo then join s (t :: l) else join t (insert s l)

theorem separated_join (hs : s.lo < s.hi) (h : Separated l) (hle : ∀ t ∈ l, s.hi ≤ t.lo) :
    Separated (join s l) := by
  cases l with
  | nil => exact separated_singleton hs
  | cons t l =>
    obtain ⟨htlt, ht, hl⟩ := separated_cons.mp h
    have hst := hle t List.mem_cons_self
    rw [join]
    split_ifs with htouch
    · exact separated_cons.mpr ⟨hs.trans_le (hst.trans htlt.le), ht, hl⟩
    · have hlt := lt_of_le_of_ne hst htouch
      refine separated_cons.mpr ⟨hs, List.forall_mem_cons.mpr ⟨hlt, fun u hu => ?_⟩, h⟩
      exact hlt.trans (htlt.trans (ht u hu))

theorem cover_join (hs : s.lo < s.hi) (h : Separated l) (hle : ∀ t ∈ l, s.hi ≤ t.lo) :
    cover (join s l) = Set.Ico s.lo s.hi ∪ cover l := by
  cases l with
  | nil => rw [join, cover_cons]
  | cons t l =>
    rw [join]
    split_ifs with htouch
    · have hu := Set.Ico_union_Ico_eq_Ico hs.le (htouch ▸ (separated_cons.mp h).1.le)
      rw [cover_cons, cover_cons, ← htouch, ← Set.union_assoc, hu]
    · rw [cover_cons]

theorem Separated.le_lo (h : Separated l) (ha : ∀ x ∈ cover l, a ≤ x) : ∀ t ∈ l, a ≤ t.lo :=
  fun t ht => ha _ (mem_cover.mpr ⟨t, ht, le_refl _, h.lo_lt_hi t ht⟩)

theorem le_or_le (hs : s.lo < s.hi) (ht : t.lo < t.hi)
    (hd : ∀ x ∈ Set.Ico s.lo s.hi, x ∉ Set.Ico t.lo t.hi) : s.hi ≤ t.lo ∨ t.hi ≤ s.lo := by
  by_contra hcon
  obtain ⟨h₁, h₂⟩ := not_or.mp hcon
  exact hd (max s.lo t.lo)
    ⟨le_max_left _ _, max_lt hs (not_le.mp h₁)⟩ ⟨le_max_right _ _, max_lt (not_le.mp h₂) ht⟩

/-- Of two segments put in front, the first is merged with the second alone. -/
theorem join_join (s t : Seg α) (l : List (Seg α)) :
    join s (join t l) = if s.hi = t.lo then join ⟨s.lo, t.hi⟩ l else s :: join t l := by
  cases l with
  | nil => rfl
  | cons u l =>
    rw [join, join]
    by_cases hu : t.hi = u.lo
    · rw [if_pos hu, if_pos hu, join]
    · rw [if_neg hu, if_neg hu, join]

/-- A segment that starts with one of the list and ends with one of the list. -/
def Spans (l : List (Seg α)) (t : Seg α) : Prop :=
  ∃ u ∈ l, ∃ v ∈ l, t.lo = u.lo ∧ u.hi ≤ t.hi ∧ t.hi = v.hi

theorem spans_of_mem (h : t ∈ l) : Spans l t := ⟨t, h, t, h, rfl, le_rfl, rfl⟩

theorem Spans.mono (h : Spans l t) (hsub : ∀ u ∈ l, u ∈ r) : Spans r t := by
  obtain ⟨u, hu, v, hv, hspan⟩ := h
  exact ⟨u, hsub u hu, v, hsub v hv, hspan⟩

theorem spans_join (h : Separated l) (hle : ∀ u ∈ l, s.hi ≤ u.lo) (ht : t ∈ join s l) :
    Spans (s :: l) t := by
  cases l with
  | nil => exact spans_of_mem ht
  | cons u l =>
    rw [join] at ht
    split_ifs at ht with htouch
    · rcases List.mem_cons.mp ht with rfl | ht
      · have hu := (separated_cons.mp h).1.le
        exact ⟨s, List.mem_cons_self, u, List.mem_cons_of_mem s List.mem_cons_self, rfl,
          (hle u List.mem_cons_self).trans hu, rfl⟩
      · exact spans_of_mem (List.mem_cons_of_mem s (List.mem_cons_of_mem u ht))
    · exact spans_of_mem ht

/-- **Putting a segment in** keeps a list separated and adds the segment's points. -/
theorem separated_insert (hs : s.lo < s.hi) (h : Separated l)
    (hd : ∀ x ∈ Set.Ico s.lo s.hi, x ∉ cover l) :
    Separated (insert s l) ∧ cover (insert s l) = Set.Ico s.lo s.hi ∪ cover l := by
  induction l with
  | nil => exact ⟨separated_singleton hs, by rw [insert, cover_cons]⟩
  | cons t l ih =>
    obtain ⟨htlt, ht, hl⟩ := separated_cons.mp h
    rw [cover_cons] at hd
    have hcase := le_or_le hs htlt fun x hx hxt => hd x hx (Or.inl hxt)
    rw [insert]
    split_ifs with hlt
    · have hst : s.hi ≤ t.lo := by
        rcases hcase with hst | hts
        · exact hst
        · exact absurd (htlt.trans_le hts) hlt.not_gt
      have hle : ∀ u ∈ t :: l, s.hi ≤ u.lo :=
        List.forall_mem_cons.mpr ⟨hst, fun u hu => hst.trans (htlt.trans (ht u hu)).le⟩
      exact ⟨separated_join hs h hle, cover_join hs h hle⟩
    · have hts : t.hi ≤ s.lo := by
        rcases hcase with hst | hts
        · exact absurd (hs.trans_le hst) hlt
        · exact hts
      obtain ⟨hsep, hcov⟩ := ih hl fun x hx hxl => hd x hx (Or.inr hxl)
      have hle : ∀ u ∈ insert s l, t.hi ≤ u.lo := by
        refine hsep.le_lo fun x hx => ?_
        rw [hcov] at hx
        rcases hx with hx | hx
        · exact hts.trans hx.1
        · exact (h.mem_cover_tail.mp hx).2
      refine ⟨separated_join htlt hsep hle, ?_⟩
      rw [cover_join htlt hsep hle, hcov, cover_cons, ← Set.union_assoc, ← Set.union_assoc,
        Set.union_comm (Set.Ico t.lo t.hi)]

theorem spans_insert (hs : s.lo < s.hi) (h : Separated l)
    (hd : ∀ x ∈ Set.Ico s.lo s.hi, x ∉ cover l) (ht : t ∈ insert s l) : Spans (s :: l) t := by
  induction l generalizing t with
  | nil => exact spans_of_mem ht
  | cons u l ih =>
    obtain ⟨hult, hu, hl⟩ := separated_cons.mp h
    have hcase := le_or_le hs hult fun x hx hxu =>
      hd x hx (mem_cover.mpr ⟨u, List.mem_cons_self, hxu⟩)
    have hdl : ∀ x ∈ Set.Ico s.lo s.hi, x ∉ cover l := fun x hx hxl =>
      hd x hx (h.mem_cover_tail.mp hxl).1
    rw [insert] at ht
    split_ifs at ht with hlt
    · have hsu : s.hi ≤ u.lo := hcase.resolve_right fun hus => absurd (hult.trans_le hus) hlt.not_gt
      exact spans_join h
        (List.forall_mem_cons.mpr ⟨hsu, fun v hv => hsu.trans (hult.trans (hu v hv)).le⟩) ht
    · have hus : u.hi ≤ s.lo := hcase.resolve_left fun hsu => absurd (hs.trans_le hsu) hlt
      obtain ⟨hsep, hcov⟩ := separated_insert hs hl hdl
      -- a segment of the rest, or the first one with the one after it
      obtain ⟨v, hv, w, hw, hlo, hhi, hend⟩ := spans_join hsep (hsep.le_lo fun x hx => by
        rw [hcov] at hx
        exact hx.elim (fun hx => hus.trans hx.1) fun hx => (h.mem_cover_tail.mp hx).2) ht
      have hsub : ∀ v ∈ s :: l, v ∈ s :: u :: l := by
        intro v hv
        rcases List.mem_cons.mp hv with rfl | hv
        · exact List.mem_cons_self
        · exact List.mem_cons_of_mem s (List.mem_cons_of_mem u hv)
      have hstart : ∃ v' ∈ s :: u :: l, t.lo = v'.lo ∧ v'.hi ≤ t.hi := by
        rcases List.mem_cons.mp hv with rfl | hv
        · exact ⟨v, List.mem_cons_of_mem s List.mem_cons_self, hlo, hhi⟩
        · obtain ⟨v', hv', w', hw', hlo', hhi', hend'⟩ := ih hl hdl hv
          exact ⟨v', hsub v' hv', hlo.trans hlo', hhi'.trans hhi⟩
      have hstop : ∃ w' ∈ s :: u :: l, t.hi = w'.hi := by
        rcases List.mem_cons.mp hw with rfl | hw
        · exact ⟨w, List.mem_cons_of_mem s List.mem_cons_self, hend⟩
        · obtain ⟨-, -, w', hw', -, -, hend'⟩ := ih hl hdl hw
          exact ⟨w', hsub w' hw', hend.trans hend'⟩
      obtain ⟨v', hv', hlo', hhi'⟩ := hstart
      obtain ⟨w', hw', hend'⟩ := hstop
      exact ⟨v', hv', w', hw', hlo', hhi', hend'⟩

end Segments
