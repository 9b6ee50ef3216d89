import AurixAsync.Runtime.Crt0

/-!
# The clear table and the copy table

The routines that start-up code calls go through a table each, up to a row with the destination
`-1`. They call a routine for each row, always with the same context save area, whose bytes are left
open here.

* `steps_rows`: a loop over the rows of a table, which must not be changed by it.
* `clear_turn`, `copy_turn`: a turn of the two loops.
* `Crt0BssInit_routine`, `Crt0DataInit_routine`: the two routines.
-/

-- for the lookup of the later lines of the text
set_option maxRecDepth 2048

namespace AurixAsync

namespace Runtime

open TriCore

/-- A row of the clear table. -/
structure ClearRow where
  dst : Word
  size : Word
deriving DecidableEq

/-- A row of the copy table. -/
structure CopyRow where
  src : Word
  dst : Word
  size : Word
deriving DecidableEq

/-- The row of the clear table at an address. -/
def clearRow (m : Memory) (a : Word) : ClearRow :=
  ⟨loadWord m (a + CLEAR_TABLE_DST), loadWord m (a + CLEAR_TABLE_SIZE)⟩

/-- The row of the copy table at an address. -/
def copyRow (m : Memory) (a : Word) : CopyRow :=
  ⟨loadWord m (a + COPY_TABLE_SRC), loadWord m (a + COPY_TABLE_DST),
    loadWord m (a + COPY_TABLE_SIZE)⟩

/-- The memory after the section of the row is cleared. -/
def ClearRow.init (r : ClearRow) (m : Memory) : Memory :=
  overlay m r.dst (clearLength r.size) fun _ => 0

/-- The memory after the section of the row is copied. -/
def CopyRow.init (r : CopyRow) (m : Memory) : Memory :=
  overlay m r.dst r.size.toNat fun i => m (r.src + BitVec.ofNat 32 i)

/-- A byte that the row clears. -/
def ClearRow.Writes (r : ClearRow) (x : Word) : Prop := (x - r.dst).toNat < clearLength r.size

/-- A byte that the row copies to. -/
def CopyRow.Writes (r : CopyRow) (x : Word) : Prop := (x - r.dst).toNat < r.size.toNat

instance (r : ClearRow) (x : Word) : Decidable (r.Writes x) :=
  inferInstanceAs (Decidable (_ < _))

instance (r : CopyRow) (x : Word) : Decidable (r.Writes x) :=
  inferInstanceAs (Decidable (_ < _))

/-- A row to clear that is aligned and does not meet `D`. -/
structure ClearRow.Good (D : Word → Prop) (r : ClearRow) : Prop where
  aligned : r.size ≠ 0 → r.dst.toNat % 2 = 0
  dst : ∀ x, r.Writes x → ¬ D x

/-- A row whose destination does not begin inside of the source and behind its first byte, and that
does not meet `D`. -/
structure CopyRow.Good (D : Word → Prop) (r : CopyRow) : Prop where
  copyable : Copyable r.dst r.src r.size.toNat
  dst : ∀ x, r.Writes x → ¬ D x
  src : ∀ i < r.size.toNat, ¬ D (r.src + BitVec.ofNat 32 i)

variable {D : Word → Prop} {m m' : Memory} {x : Word}

theorem ClearRow.init_of_notWrites {r : ClearRow} (h : ¬ r.Writes x) : r.init m x = m x :=
  if_neg h

theorem CopyRow.init_of_notWrites {r : CopyRow} (h : ¬ r.Writes x) : r.init m x = m x :=
  if_neg h

theorem ClearRow.eqOff_init (r : ClearRow) (h : EqOff D m m') : EqOff D (r.init m) (r.init m') :=
  h.overlay fun _ _ _ => rfl

theorem CopyRow.Good.eqOff_init {r : CopyRow} (hr : r.Good D) (h : EqOff D m m') :
    EqOff D (r.init m) (r.init m') :=
  h.overlay fun i hi _ => h _ (hr.src i hi)

theorem eqOff_foldl {α : Type} {f : α → Memory → Memory} {rs : List α}
    (hf : ∀ r ∈ rs, ∀ m m', EqOff D m m' → EqOff D (f r m) (f r m')) (h : EqOff D m m') :
    EqOff D (rs.foldl (fun m r => f r m) m) (rs.foldl (fun m r => f r m) m') := by
  induction rs generalizing m m' with
  | nil => exact h
  | cons r rs ih =>
    exact ih (fun r' hr' => hf r' (List.mem_cons_of_mem _ hr')) (hf r List.mem_cons_self m m' h)

/-! ### The loop over a table -/

section

variable {α : Type} {row : Memory → Word → α} {last : α → Prop} {w : ℕ}

/-- What a loop over the rows keeps, but for the memory and its pointer. -/
structure Kept (s s' : Cpu) : Prop where
  width : s'.a .r12 = s.a .r12
  ra : s'.a .r11 = s.a .r11
  lists : SameLists s s'

theorem Kept.trans {s s' s'' : Cpu} (h : Kept s s') (h' : Kept s' s'') : Kept s s'' :=
  ⟨h'.width.trans h.width, h'.ra.trans h.ra, h.lists.trans h'.lists⟩

theorem Kept.refl (s : Cpu) : Kept s s := ⟨rfl, rfl, .of_eq rfl⟩

/-- **The loop over a table.** If a turn at the line `top` does `f` with the row that `A13` is at,
then the loop does it with all the rows, as long as no `f` changes the table. The bytes of `D` are
left open, which no `f` reads, and which are not in the table. -/
theorem steps_rows {p : List (Line Label)} {f : α → Memory → Memory} {g : α → Prop} {top : ℕ}
    (hrow : Local row w) {s₀ : Cpu}
    (hturn : ∀ s, Kept s₀ s → s.pc = top → ¬ last (row s.mem (s.a .r13)) →
      g (row s.mem (s.a .r13)) → (s.a .r13).toNat % 2 = 0 →
      ∃ s', Steps p s s' ∧ s'.pc = top ∧ Kept s s' ∧ s'.a .r13 = s.a .r13 + BitVec.ofNat 32 w ∧
        EqOff D (f (row s.mem (s.a .r13)) s.mem) s'.mem)
    (hf : ∀ r, g r → ∀ m m', EqOff D m m' → EqOff D (f r m) (f r m')) (hw : w % 2 = 0)
    {s : Cpu} {rs : List α} (hs : Kept s₀ s) (hpc : s.pc = top)
    (heven : (s.a .r13).toNat % 2 = 0) (hrs : TableAt row last w s.mem (s.a .r13) rs)
    (hgood : ∀ r ∈ rs, g r)
    (hoff : ∀ i < w * (rs.length + 1), ¬ D (s.a .r13 + BitVec.ofNat 32 i))
    (hkeep : ∀ r ∈ rs, ∀ m, ∀ i < w * (rs.length + 1),
      f r m (s.a .r13 + BitVec.ofNat 32 i) = m (s.a .r13 + BitVec.ofNat 32 i)) :
    ∃ s', Steps p s s' ∧ s'.pc = top ∧ Kept s s' ∧ last (row s'.mem (s'.a .r13)) ∧
      (s'.a .r13).toNat % 2 = 0 ∧ EqOff D (rs.foldl (fun m r => f r m) s.mem) s'.mem := by
  induction rs generalizing s with
  | nil => exact ⟨s, .refl, hpc, Kept.refl s, hrs, heven, EqOff.refl D _⟩
  | cons r rs ih =>
    obtain ⟨rfl, hlast, htail⟩ := hrs
    obtain ⟨s₁, hs₁, hpc₁, hk₁, ha₁, hm₁⟩ :=
      hturn s hs hpc hlast (hgood _ List.mem_cons_self) heven
    rw [List.length_cons] at hkeep hoff
    have hin : ∀ i < w * (rs.length + 1), w + i < w * (rs.length + 1 + 1) := by
      intro i hi
      rw [Nat.mul_succ w (rs.length + 1)]
      omega
    have heven₁ : (s₁.a .r13).toNat % 2 = 0 := by
      rw [ha₁]
      refine toNat_add_mod (by decide) heven ?_
      rw [BitVec.toNat_ofNat]
      omega
    have hoff₁ : ∀ i < w * (rs.length + 1), ¬ D (s₁.a .r13 + BitVec.ofNat 32 i) := by
      intro i hi
      rw [ha₁, add_ofNat_add]
      exact hoff _ (hin i hi)
    have htail₁ : TableAt row last w s₁.mem (s₁.a .r13) rs := by
      rw [ha₁]
      refine htail.congr hrow fun i hi => ?_
      rw [add_ofNat_add, hm₁ _ (hoff _ (hin i hi))]
      exact hkeep _ List.mem_cons_self _ _ (hin i hi)
    obtain ⟨s', hs', hpc', hk', hlast', heven', hm'⟩ := ih (hs.trans hk₁) hpc₁ heven₁ htail₁
      (fun r hr => hgood r (List.mem_cons_of_mem _ hr)) hoff₁ (by
        intro r hr m i hi
        rw [ha₁, add_ofNat_add]
        exact hkeep r (List.mem_cons_of_mem _ hr) m _ (hin i hi))
    refine ⟨s', hs₁.trans hs', hpc', hk₁.trans hk', hlast', heven', ?_⟩
    rw [List.foldl_cons]
    refine (eqOff_foldl (fun r hr => hf r (hgood r (List.mem_cons_of_mem _ hr))) hm₁).trans hm'

end

/-! ### The two loops -/

theorem clearRow_local : Local clearRow 8 := by
  intro m m' a h
  have hword : ∀ j, j + 4 ≤ 8 →
      loadWord m' (a + BitVec.ofNat 32 j) = loadWord m (a + BitVec.ofNat 32 j) := by
    intro j hj
    refine loadWord_congr fun i hi => ?_
    rw [add_ofNat_add]
    exact h (j + i) (by omega)
  unfold clearRow
  rw [show CLEAR_TABLE_DST = BitVec.ofNat 32 0 from rfl, hword 0 (by decide),
    show CLEAR_TABLE_SIZE = BitVec.ofNat 32 4 from rfl, hword 4 (by decide)]

theorem copyRow_local : Local copyRow 12 := by
  intro m m' a h
  have hword : ∀ j, j + 4 ≤ 12 →
      loadWord m' (a + BitVec.ofNat 32 j) = loadWord m (a + BitVec.ofNat 32 j) := by
    intro j hj
    refine loadWord_congr fun i hi => ?_
    rw [add_ofNat_add]
    exact h (j + i) (by omega)
  unfold copyRow
  rw [show COPY_TABLE_SRC = BitVec.ofNat 32 0 from rfl, hword 0 (by decide),
    show COPY_TABLE_DST = BitVec.ofNat 32 4 from rfl, hword 4 (by decide),
    show COPY_TABLE_SIZE = BitVec.ofNat 32 8 from rfl, hword 8 (by decide)]

/-- The end of a turn: the call of a routine, the next row, and the jump to the top. -/
theorem turn_of_call {s t : Cpu} {k : ℕ} {l top : Label} (hpc : s.pc = k)
    (hcall : crt0[k]? = some (.call l)) (hadd : crt0[k + 1]? = some (.op (.addA .r13 .r12)))
    (hj : crt0[k + 2]? = some (.j top)) (hfree : ¬ depleted s)
    (hr : Routine crt0 (entry s (target crt0 l)) t)
    (hkept : ∀ x, InArea (freeArea s) x → t.mem x = (entry s (target crt0 l)).mem x) :
    ∃ s', Steps crt0 s s' ∧ s'.pc = target crt0 top ∧ Kept s s' ∧
      s'.a .r13 = s.a .r13 + s.a .r12 ∧ EqOff (InArea (freeArea s)) t.mem s'.mem := by
  obtain ⟨s₁, hs₁, hret⟩ : ∃ s₁, Steps crt0 s s₁ ∧ Returns s t s₁ :=
    ⟨_, steps_call hpc hcall length_crt0_lt hfree hr hkept⟩
  have hpc₁ : s₁.pc = k + 1 := hret.pc.trans (congrArg (· + 1) hpc)
  have hnext : Steps crt0 s₁ _ := steps_op (.addA .r13 .r12) hpc₁ hadd rfl
  refine ⟨_, (hs₁.trans hnext).trans (steps_j (l := top) rfl hj), rfl,
    ⟨hret.upperA .r12 rfl, hret.upperA .r11 rfl, hret.lists.trans (.of_eq rfl)⟩, ?_, hret.mem⟩
  change s₁.a .r13 + s₁.a .r12 = _
  rw [hret.upperA .r13 rfl, hret.upperA .r12 rfl]

/-- What the calls of a loop need: the area that they take. -/
structure Calls (c : Word) (s : Cpu) : Prop where
  free : ¬ depleted s
  area : freeArea s = c

theorem Calls.of_lists {c : Word} {s s' : Cpu} (h : Calls c s) (hs : SameLists s s') :
    Calls c s' where
  free := by
    unfold depleted
    rw [hs.fcx, hs.lcx]
    exact h.free
  area := (csaOf_congr hs.fcx).trans h.area

theorem clear_turn {s : Cpu} {c : Word} (hc : Calls c s)
    (hpc : s.pc = target crt0 .table_bss_clear_loop) (hw : s.a .r12 = BitVec.ofNat 32 8)
    (hlast : ¬ (clearRow s.mem (s.a .r13)).dst = -1)
    (hgood : (clearRow s.mem (s.a .r13)).Good (InArea c)) (heven : (s.a .r13).toNat % 2 = 0) :
    ∃ s', Steps crt0 s s' ∧ s'.pc = target crt0 .table_bss_clear_loop ∧ Kept s s' ∧
      s'.a .r13 = s.a .r13 + BitVec.ofNat 32 8 ∧
      EqOff (InArea c) ((clearRow s.mem (s.a .r13)).init s.mem) s'.mem := by
  have hword : ∀ off : Word, off.toNat % 2 = 0 → ((s.a .r13 + off).toNat % 2 == 0) = true :=
    fun off hoff => beq_iff_eq.mpr (toNat_add_mod (by decide) heven hoff)
  have hlabel : Steps crt0 s _ := steps_label (l := .table_bss_clear_loop) hpc rfl
  have hload := hlabel.trans
    (steps_op (.ldW .r15 .r13 CLEAR_TABLE_DST) rfl rfl (hword _ rfl))
  have htest := hload.trans (steps_jeq_of_ne (c := .r15) (w := -1)
    (l := .table_bss_clear_loop_end) rfl rfl hlast)
  obtain ⟨s₁, hs₁, hpc₁, hmem₁, hdst, hsize, ha₁, hk₁⟩ : ∃ s₁, Steps crt0 s s₁ ∧
      s₁.pc = target crt0 .table_bss_clear_loop + 5 ∧ s₁.mem = s.mem ∧
      s₁.a .r4 = (clearRow s.mem (s.a .r13)).dst ∧ s₁.d .r4 = (clearRow s.mem (s.a .r13)).size ∧
      s₁.a .r13 = s.a .r13 ∧ Kept s s₁ :=
    ⟨_, htest.trans (steps_ops (k := target crt0 .table_bss_clear_loop + 3)
      [.movA .r4 .r15, .ldW .r4 .r13 CLEAR_TABLE_SIZE] rfl rfl ⟨rfl, hword _ rfl, trivial⟩), rfl,
      rfl, rfl, rfl, rfl, ⟨rfl, rfl, .of_eq rfl⟩⟩
  have hc₁ := hc.of_lists hk₁.lists
  obtain ⟨t, hroutine, -, hmem⟩ :=
    clear_exec_routine (s := entry s₁ (target crt0 .clear_exec)) rfl (by
      change s₁.d .r4 ≠ 0 → (s₁.a .r4).toNat % 2 = 0
      rw [hdst, hsize]
      exact hgood.aligned)
  have hmem : t.mem =
      (clearRow s.mem (s.a .r13)).init (entry s₁ (target crt0 .clear_exec)).mem := by
    rw [hmem, ClearRow.init, ← hdst, ← hsize]
    rfl
  have hj : crt0[target crt0 .table_bss_clear_loop + 7]? = some (.j .table_bss_clear_loop) := rfl
  obtain ⟨s', hs', hpc', hk', ha', hmem'⟩ := turn_of_call hpc₁ rfl rfl hj hc₁.free hroutine (by
    intro x hx
    rw [hmem]
    rw [hc₁.area] at hx
    exact ClearRow.init_of_notWrites fun hw => hgood.dst x hw hx)
  refine ⟨s', hs₁.trans hs', hpc', hk₁.trans hk', ?_, ?_⟩
  · rw [ha', ha₁, hk₁.width, hw]
  · have hentry := eqOff_entry s₁ (target crt0 .clear_exec)
    rw [hc₁.area] at hentry hmem'
    rw [hmem₁] at hentry
    rw [hmem] at hmem'
    exact (ClearRow.eqOff_init _ hentry).trans hmem'

theorem copy_turn {s : Cpu} {c : Word} (hc : Calls c s)
    (hpc : s.pc = target crt0 .table_data_copy_loop) (hw : s.a .r12 = BitVec.ofNat 32 12)
    (hlast : ¬ (copyRow s.mem (s.a .r13)).dst = -1)
    (hgood : (copyRow s.mem (s.a .r13)).Good (InArea c)) (heven : (s.a .r13).toNat % 2 = 0) :
    ∃ s', Steps crt0 s s' ∧ s'.pc = target crt0 .table_data_copy_loop ∧ Kept s s' ∧
      s'.a .r13 = s.a .r13 + BitVec.ofNat 32 12 ∧
      EqOff (InArea c) ((copyRow s.mem (s.a .r13)).init s.mem) s'.mem := by
  have hword : ∀ off : Word, off.toNat % 2 = 0 → ((s.a .r13 + off).toNat % 2 == 0) = true :=
    fun off hoff => beq_iff_eq.mpr (toNat_add_mod (by decide) heven hoff)
  have hlabel : Steps crt0 s _ := steps_label (l := .table_data_copy_loop) hpc rfl
  have hload := hlabel.trans (steps_op (.ldW .r15 .r13 COPY_TABLE_DST) rfl rfl (hword _ rfl))
  have htest := hload.trans (steps_jeq_of_ne (c := .r15) (w := -1)
    (l := .table_data_copy_loop_end) rfl rfl hlast)
  obtain ⟨s₁, hs₁, hpc₁, hmem₁, hdst, hsrc, hsize, ha₁, hk₁⟩ : ∃ s₁, Steps crt0 s s₁ ∧
      s₁.pc = target crt0 .table_data_copy_loop + 7 ∧ s₁.mem = s.mem ∧
      s₁.a .r4 = (copyRow s.mem (s.a .r13)).dst ∧ s₁.a .r5 = (copyRow s.mem (s.a .r13)).src ∧
      s₁.d .r4 = (copyRow s.mem (s.a .r13)).size ∧ s₁.a .r13 = s.a .r13 ∧ Kept s s₁ :=
    ⟨_, htest.trans (steps_ops (k := target crt0 .table_data_copy_loop + 3)
      [.movA .r4 .r15, .ldW .r4 .r13 COPY_TABLE_SRC, .movA .r5 .r4,
        .ldW .r4 .r13 COPY_TABLE_SIZE] rfl rfl
      ⟨rfl, hword _ rfl, rfl, hword _ rfl, trivial⟩), rfl, rfl, rfl, rfl, rfl, rfl,
      ⟨rfl, rfl, .of_eq rfl⟩⟩
  have hc₁ := hc.of_lists hk₁.lists
  obtain ⟨t, hroutine, -, hmem⟩ :=
    copy_exec_routine (s := entry s₁ (target crt0 .copy_exec)) rfl (by
      change Copyable (s₁.a .r4) (s₁.a .r5) (s₁.d .r4).toNat
      rw [hdst, hsrc, hsize]
      exact hgood.copyable)
  have hmem : t.mem = (copyRow s.mem (s.a .r13)).init (entry s₁ (target crt0 .copy_exec)).mem := by
    rw [hmem, CopyRow.init, ← hdst, ← hsrc, ← hsize]
    rfl
  have hj : crt0[target crt0 .table_data_copy_loop + 9]? = some (.j .table_data_copy_loop) := rfl
  obtain ⟨s', hs', hpc', hk', ha', hmem'⟩ := turn_of_call hpc₁ rfl rfl hj hc₁.free hroutine (by
    intro x hx
    rw [hmem]
    rw [hc₁.area] at hx
    exact CopyRow.init_of_notWrites fun hw => hgood.dst x hw hx)
  refine ⟨s', hs₁.trans hs', hpc', hk₁.trans hk', ?_, ?_⟩
  · rw [ha', ha₁, hk₁.width, hw]
  · have hentry := eqOff_entry s₁ (target crt0 .copy_exec)
    rw [hc₁.area] at hentry hmem'
    rw [hmem₁] at hentry
    rw [hmem] at hmem'
    exact (hgood.eqOff_init hentry).trans hmem'

/-! ### The two routines -/

/-- A routine that loops over a table. -/
theorem table_routine {p : List (Line Label)} {α : Type} {row : Memory → Word → α}
    {last : α → Prop} {w : ℕ} {f : α → Memory → Memory} {g : α → Prop} {first top stop : Label}
    {dst : Word} (hrow : Local row w) (hw : w % 2 = 0) (hdst : dst.toNat % 2 = 0)
    (htext : (p.drop (target p first)).take 6 =
      [.label first, .op (.movAA .r13 .r4), .op (.movAk .r12 (BitVec.ofNat 32 w)), .label top,
        .op (.ldW .r15 .r13 dst), .jeq .r15 (-1) stop])
    (htop : target p top = target p first + 3)
    (hstop : (p.drop (target p stop)).take 2 = [.label stop, .ret])
    (hlast : ∀ m a, last (row m a) → loadWord m (a + dst) = -1)
    (hf : ∀ r, g r → ∀ m m', EqOff D m m' → EqOff D (f r m) (f r m'))
    {s : Cpu} {rs : List α}
    (hturn : ∀ s', SameLists s s' → s'.pc = target p top → s'.a .r12 = BitVec.ofNat 32 w →
      ¬ last (row s'.mem (s'.a .r13)) → g (row s'.mem (s'.a .r13)) → (s'.a .r13).toNat % 2 = 0 →
      ∃ s'', Steps p s' s'' ∧ s''.pc = target p top ∧ Kept s' s'' ∧
        s''.a .r13 = s'.a .r13 + BitVec.ofNat 32 w ∧
        EqOff D (f (row s'.mem (s'.a .r13)) s'.mem) s''.mem)
    (hpc : s.pc = target p first) (heven : (s.a .r4).toNat % 2 = 0)
    (hrs : TableAt row last w s.mem (s.a .r4) rs) (hgood : ∀ r ∈ rs, g r)
    (hoff : ∀ i < w * (rs.length + 1), ¬ D (s.a .r4 + BitVec.ofNat 32 i))
    (hkeep : ∀ r ∈ rs, ∀ m, ∀ i < w * (rs.length + 1),
      f r m (s.a .r4 + BitVec.ofNat 32 i) = m (s.a .r4 + BitVec.ofNat 32 i)) :
    ∃ s', Routine p s s' ∧ EqOff D (rs.foldl (fun m r => f r m) s.mem) s'.mem := by
  have hat : ∀ i < 6, p[target p first + i]? = _ := fun i => getElem?_of_text htext
  have hlabel : Steps p s _ := steps_label (l := first) hpc (hat 0 (by decide))
  have hptr := hlabel.trans (steps_op (.movAA .r13 .r4) rfl (hat 1 (by decide)) rfl)
  obtain ⟨s₁, hs₁, hpc₁, hmem₁, ha₁, hw₁, hra₁, hlists₁⟩ : ∃ s₁, Steps p s s₁ ∧
      s₁.pc = target p first + 3 ∧ s₁.mem = s.mem ∧ s₁.a .r13 = s.a .r4 ∧
      s₁.a .r12 = BitVec.ofNat 32 w ∧ s₁.a .r11 = s.a .r11 ∧ SameLists s s₁ :=
    ⟨_, hptr.trans (steps_op (.movAk .r12 (BitVec.ofNat 32 w)) rfl (hat 2 (by decide)) rfl),
      rfl, rfl, rfl, rfl, rfl, .of_eq rfl⟩
  rw [← hmem₁, ← ha₁] at hrs
  rw [← ha₁] at hkeep hoff heven
  rw [← htop] at hpc₁
  obtain ⟨s₂, hs₂, hpc₂, hk₂, hlast₂, heven₂, hmem₂⟩ := steps_rows hrow
    (fun s' (hk : Kept s₁ s') hpc hlast hg heven =>
      hturn s' (hlists₁.trans hk.lists) hpc (hk.width.trans hw₁) hlast hg heven)
    hf hw (Kept.refl s₁) hpc₁ heven hrs hgood hoff hkeep
  -- the last row ends the loop
  rw [htop] at hpc₂
  have hlabel₂ : Steps p s₂ _ := steps_label (l := top) hpc₂ (hat 3 (by decide))
  have hload := hlabel₂.trans (steps_op (.ldW .r15 .r13 dst) rfl (hat 4 (by decide))
    (beq_iff_eq.mpr (toNat_add_mod (by decide) heven₂ hdst)))
  have hend := hload.trans (steps_jeq_of_eq (c := .r15) (w := -1) (l := stop) rfl
    (hat 5 (by decide)) (hlast _ _ hlast₂))
  have hret := hend.trans (steps_label (l := stop) rfl (getElem?_of_text hstop Nat.two_pos))
  refine ⟨_, ⟨(hs₁.trans hs₂).trans hret, getElem?_of_text hstop Nat.one_lt_two,
    hk₂.ra.trans hra₁, (hlists₁.trans hk₂.lists).trans (.of_eq rfl)⟩, ?_⟩
  rw [← hmem₁]
  exact hmem₂

/-- **The clear table.** All its rows are cleared. -/
theorem Crt0BssInit_routine {s : Cpu} {c : Word} {rs : List ClearRow} (hc : Calls c s)
    (hpc : s.pc = target crt0 .Crt0BssInit) (heven : (s.a .r4).toNat % 2 = 0)
    (hrs : TableAt clearRow (·.dst = -1) 8 s.mem (s.a .r4) rs)
    (hgood : ∀ r ∈ rs, r.Good (InArea c))
    (hoff : ∀ i < 8 * (rs.length + 1), ¬ InArea c (s.a .r4 + BitVec.ofNat 32 i))
    (hkeep : ∀ r ∈ rs, ∀ m, ∀ i < 8 * (rs.length + 1),
      r.init m (s.a .r4 + BitVec.ofNat 32 i) = m (s.a .r4 + BitVec.ofNat 32 i)) :
    ∃ s', Routine crt0 s s' ∧ EqOff (InArea c) (rs.foldl (fun m r => r.init m) s.mem) s'.mem := by
  have hend : (crt0.drop (target crt0 .table_bss_clear_loop_end)).take 2 =
      [.label .table_bss_clear_loop_end, .ret] := rfl
  exact table_routine clearRow_local rfl rfl rfl rfl hend (fun _ _ h => h)
    (fun r _ _ _ h => r.eqOff_init h)
    (fun _ hk hpc hw hlast hg heven => clear_turn (hc.of_lists hk) hpc hw hlast hg heven) hpc heven
    hrs hgood hoff hkeep

/-- **The copy table.** All its rows are copied. -/
theorem Crt0DataInit_routine {s : Cpu} {c : Word} {rs : List CopyRow} (hc : Calls c s)
    (hpc : s.pc = target crt0 .Crt0DataInit) (heven : (s.a .r4).toNat % 2 = 0)
    (hrs : TableAt copyRow (·.dst = -1) 12 s.mem (s.a .r4) rs)
    (hgood : ∀ r ∈ rs, r.Good (InArea c))
    (hoff : ∀ i < 12 * (rs.length + 1), ¬ InArea c (s.a .r4 + BitVec.ofNat 32 i))
    (hkeep : ∀ r ∈ rs, ∀ m, ∀ i < 12 * (rs.length + 1),
      r.init m (s.a .r4 + BitVec.ofNat 32 i) = m (s.a .r4 + BitVec.ofNat 32 i)) :
    ∃ s', Routine crt0 s s' ∧ EqOff (InArea c) (rs.foldl (fun m r => r.init m) s.mem) s'.mem := by
  have hend : (crt0.drop (target crt0 .table_data_copy_loop_end)).take 2 =
      [.label .table_data_copy_loop_end, .ret] := rfl
  exact table_routine copyRow_local rfl rfl rfl rfl hend (fun _ _ h => h)
    (fun _ hr _ _ h => hr.eqOff_init h)
    (fun _ hk hpc hw hlast hg heven => copy_turn (hc.of_lists hk) hpc hw hlast hg heven) hpc heven
    hrs hgood hoff hkeep

end Runtime

end AurixAsync
