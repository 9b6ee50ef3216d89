import AurixAsync.Srp.Exclusion
import Mathlib.Order.MinMax

/-!
# Blocking by ceilings

How long a priority can be kept out by calls of `lock` below it, and that nothing waits for good.

* `Core.sections`: the contexts below a priority, each with the call that keeps the priority out.
* `sections_eq_of_run`: while a priority is kept out these stay the same, at most one of them keeps
  it out, and only on a mutex shared with a priority that is not lower.
* `notMem_bodies_of_canLock`: a call of `lock` finds its mutex free.
* `threadIe`: the interrupt enable of the thread, also while it is interrupted.
* `exists_unwind_of_reachable`: all calls can be left, and all interrupts returned from.
-/

namespace AurixAsync

namespace Srp

open Transition

variable {ι : Type}

/-- The outermost call that leaves the core at `q` or above: its mutex, and the CCPN it was made
at. -/
def outermost (q : ℕ) : List (Frame ι) → Option (ι × ℕ)
  | [] => none
  | f :: fs => (outermost q fs).or (if q ≤ f.level then some (f.mutex, f.entry) else none)

/-- The contexts of priorities below `q`: the priority, and the call that keeps `q` out. -/
def Core.sections (q : ℕ) (s : Core ι) : List (ℕ × Option (ι × ℕ)) :=
  (s.stack.filter fun c => c.prio < q).map fun c => (c.prio, outermost q c.frames)

variable {cfg : Config ι} {q prio : ℕ} {f f' : Frame ι} {fs : List (Frame ι)} {s s' : Core ι}

theorem outermost_eq_none (h : ∀ f ∈ fs, f.level < q) : outermost q fs = none := by
  induction fs with
  | nil => rfl
  | cons f fs ih =>
    obtain ⟨hf, hfs⟩ := List.forall_mem_cons.mp h
    rw [outermost, ih hfs, Option.none_or, if_neg (not_le.mpr hf)]

theorem exists_outermost (hp : prio < q) (hl : q ≤ levelOf prio fs) :
    ∃ x, outermost q fs = some x := by
  cases fs with
  | nil => exact absurd hl (not_le.mpr hp)
  | cons f fs =>
    rw [outermost, if_pos (show q ≤ f.level from hl)]
    cases outermost q fs with
    | none => exact ⟨_, rfl⟩
    | some x => exact ⟨x, rfl⟩

theorem outermost_cons (hp : prio < q) (hl : q ≤ levelOf prio fs) :
    outermost q (f :: fs) = outermost q fs := by
  obtain ⟨x, hx⟩ := exists_outermost hp hl
  rw [outermost, hx, Option.some_or]

theorem outermost_replace (hm : f'.mutex = f.mutex) (he : f'.entry = f.entry) (hf : q ≤ f.level)
    (hf' : q ≤ f'.level) : outermost q (f' :: fs) = outermost q (f :: fs) := by
  rw [outermost, outermost, if_pos hf, if_pos hf', hm, he]

theorem sections_replace {ccpn ccpn' : ℕ} {saved : Icr} {ie ie' : Bool} {fs' : List (Frame ι)}
    {cs : List (Context ι)} (h : prio < q → outermost q fs' = outermost q fs) :
    (⟨ccpn', ie', ⟨prio, saved, fs'⟩ :: cs⟩ : Core ι).sections q =
      (⟨ccpn, ie, ⟨prio, saved, fs⟩ :: cs⟩ : Core ι).sections q := by
  unfold Core.sections
  dsimp only
  rw [List.filter_cons, List.filter_cons]
  by_cases hp : prio < q
  · rw [if_pos (decide_eq_true hp), if_pos (decide_eq_true hp), List.map_cons, List.map_cons, h hp]
  · rw [if_neg (by simpa using hp), if_neg (by simpa using hp)]

theorem sections_cons {ccpn p : ℕ} {ie b : Bool} {c : Context ι} {cs : List (Context ι)}
    (h : q ≤ c.prio) :
    (⟨ccpn, ie, c :: cs⟩ : Core ι).sections q = (⟨p, b, cs⟩ : Core ι).sections q := by
  unfold Core.sections
  dsimp only
  rw [List.filter_cons, if_neg (by simpa using h)]

variable [DecidableEq ι]

theorem stackOk_of_reachable (h : Reachable (step cfg) (Core.init ι) s) :
    StackOk cfg s.ccpn s.stack :=
  h.invariant (I := fun s => StackOk cfg s.ccpn s.stack) stackOk_init
    fun _ _ _ hi hs => hi.step hs

/-- **One step** from a CCPN of `q` or above to another one leaves the sections as they are. -/
theorem sections_eq_of_step {a : Action ι} (h : StackOk cfg s.ccpn s.stack)
    (hs : step cfg s a = some s') (hq : q ≤ s.ccpn) (hq' : q ≤ s'.ccpn) :
    s'.sections q = s.sections q := by
  obtain ⟨ccpn, ie, stack⟩ := s
  have hq₀ : q ≤ ccpn := hq
  unfold Srp.step at hs
  cases a with
  | lock m =>
    dsimp only at hs
    split at hs
    · rename_i c cs
      split_ifs at hs
      obtain rfl := Option.some.inj hs
      exact sections_replace fun hp => outermost_cons hp (hq₀.trans_eq h.1)
    · exact absurd hs (by simp)
  | readCeiling =>
    dsimp only at hs
    split at hs
    · rename_i prio saved m entry p fs cs
      obtain rfl := Option.some.inj hs
      have hl : ccpn = entry := h.top.1
      exact sections_replace fun _ => outermost_replace rfl rfl (hl ▸ hq₀) (hl ▸ hq₀)
    · exact absurd hs (by simp)
  | raiseCeiling =>
    dsimp only at hs
    split at hs
    · rename_i prio saved m entry p previous fs cs
      obtain rfl := Option.some.inj hs
      have hl : ccpn = entry := h.top.1
      have hle : q ≤ entry := hl ▸ hq₀
      exact sections_replace fun _ =>
        outermost_replace rfl rfl hle (hle.trans (le_max_left entry p))
    · exact absurd hs (by simp)
  | endBody =>
    dsimp only at hs
    split at hs
    · rename_i prio saved m entry fs cs
      obtain rfl := Option.some.inj hs
      have hl : ccpn = levelOf prio fs := h.top.1.trans h.2.1.2.1
      exact sections_replace fun hp => (outermost_cons hp (hl ▸ hq₀)).symm
    · rename_i prio saved m entry p previous fs cs
      obtain rfl := Option.some.inj hs
      have hle : q ≤ max entry p := hq₀.trans_eq h.top.1
      exact sections_replace fun _ => outermost_replace rfl rfl hle hle
    · exact absurd hs (by simp)
  | restoreCeiling =>
    dsimp only at hs
    split at hs
    · rename_i prio saved m entry p previous fs cs
      obtain rfl := Option.some.inj hs
      -- the call is not the outermost one, since `q` is still kept out
      have hl : previous = levelOf prio fs := h.top.2.2.trans h.2.1.2.1
      have hq' : q ≤ previous := hq'
      exact sections_replace fun hp => (outermost_cons hp (hl ▸ hq')).symm
    · exact absurd hs (by simp)
  | setIe ie' =>
    obtain rfl := Option.some.inj hs
    rfl
  | interrupt r =>
    dsimp only at hs
    split_ifs at hs with hr
    obtain rfl := Option.some.inj hs
    exact sections_cons (hq₀.trans hr.2.le)
  | iret =>
    dsimp only at hs
    split at hs
    · rename_i prio saved c cs
      obtain rfl := Option.some.inj hs
      have hl : ccpn = prio := h.1
      exact (sections_cons (show q ≤ prio from hl ▸ hq₀)).symm
    · exact absurd hs (by simp)

/-! ### What keeps a priority out -/

/-- The priority a state carries. -/
def State.carried : State → ℕ
  | .owned p | .coOwned p | .contended p => p

theorem carried_registerAccess (r : ℕ) (x : State) :
    (registerAccess r x).carried = x.carried ∨ (registerAccess r x).carried = r := by
  have hmax : ∀ p, max p r = p ∨ max p r = r := fun p => by omega
  cases x with
  | owned p =>
    rw [registerAccess]
    split_ifs
    · exact Or.inl rfl
    · exact hmax p
  | coOwned p =>
    rw [registerAccess]
    split_ifs
    · exact hmax p
    · exact Or.inl rfl
  | contended p =>
    rw [registerAccess]
    split_ifs
    · exact hmax p
    · exact Or.inl rfl

theorem carried_foldl (prios : List ℕ) (x : State) :
    (prios.foldl (fun x r => registerAccess r x) x).carried = x.carried ∨
      (prios.foldl (fun x r => registerAccess r x) x).carried ∈ prios := by
  induction prios generalizing x with
  | nil => exact Or.inl rfl
  | cons r prios ih =>
    rw [List.foldl_cons]
    rcases ih (registerAccess r x) with h | h
    · rw [h]
      rcases carried_registerAccess r x with h | h
      · exact Or.inl h
      · exact Or.inr (List.mem_cons.mpr (Or.inl h))
    · exact Or.inr (List.mem_cons_of_mem r h)

omit [DecidableEq ι] in
/-- A ceiling is not higher than need be: it was registered itself. -/
theorem registered_of_contended {m : ι} {p : ℕ} (h : cfg.state m = .contended p) :
    cfg.Registered m p := by
  have hp := carried_foldl (cfg.accesses m) (.owned (cfg.new m))
  change (cfg.state m).carried = cfg.new m ∨ (cfg.state m).carried ∈ cfg.accesses m at hp
  rw [h] at hp
  exact hp

omit [DecidableEq ι] in
/-- What keeps a priority out is a call made below it, on a mutex that this priority or a higher one
was registered with. -/
theorem outermost_spec {m : ι} {e : ℕ} (h : FramesOk cfg prio fs) (hp : prio < q)
    (ho : outermost q fs = some (m, e)) : e < q ∧ ∃ r, cfg.Registered m r ∧ q ≤ r := by
  induction fs with
  | nil => exact absurd ho (by simp [outermost])
  | cons f fs ih =>
    obtain ⟨hok, hent, -, hfs⟩ := h
    rw [outermost] at ho
    cases hx : outermost q fs with
    | some x =>
      rw [hx, Option.some_or] at ho
      exact ih hfs (hx.trans ho)
    | none =>
      rw [hx, Option.none_or] at ho
      obtain ⟨hle, hf⟩ := Option.ite_none_right_eq_some.mp ho
      obtain ⟨rfl, rfl⟩ := Prod.mk.inj (Option.some.inj hf)
      have hlt : f.entry < q := by
        by_contra hge
        obtain ⟨x, hx'⟩ := exists_outermost hp (hent ▸ not_lt.mp hge)
        rw [hx] at hx'
        exact absurd hx' (by simp)
      refine ⟨hlt, ?_⟩
      -- its level is above the CCPN it was made at, so it is the ceiling
      obtain ⟨m, entry, phase⟩ := f
      obtain ⟨-, hfits⟩ := hok
      cases phase with
      | readCeiling p => exact absurd hle (not_le.mpr hlt)
      | raiseCeiling p previous => exact absurd hle (not_le.mpr hlt)
      | body ceiling =>
        cases ceiling with
        | none => exact absurd hle (not_le.mpr hlt)
        | some c =>
          obtain ⟨p, previous⟩ := c
          refine ⟨p, registered_of_contended hfits.1, ?_⟩
          exact (le_max_iff.mp hle).resolve_left (not_le.mpr hlt)
      | restoreCeiling p previous =>
        refine ⟨p, registered_of_contended hfits.1, ?_⟩
        exact (le_max_iff.mp hle).resolve_left (not_le.mpr hlt)

omit [DecidableEq ι] in
/-- Only the highest of the contexts below a priority keeps it out. -/
theorem tail_sections (h : StackOk cfg s.ccpn s.stack) :
    ∀ x ∈ (s.sections q).tail, x.2 = none := by
  obtain ⟨ccpn, ie, stack⟩ := s
  induction stack generalizing ccpn with
  | nil => exact fun x hx => absurd hx List.not_mem_nil
  | cons c cs ih =>
    by_cases hp : c.prio < q
    · intro x hx
      unfold Core.sections at hx
      dsimp only at hx
      rw [List.filter_cons, if_pos (decide_eq_true hp), List.map_cons, List.tail_cons] at hx
      obtain ⟨d, hd, rfl⟩ := List.mem_map.mp hx
      have hd := (List.mem_filter.mp hd).1
      have hlt : d.level < q := (level_lt_of_mem h d hd).trans hp
      have hfs := framesOk_of_mem h (List.mem_cons_of_mem c hd)
      exact outermost_eq_none fun f hf => ((level_le_levelOf hfs).2 f hf).trans_lt hlt
    · rw [sections_cons (p := c.saved.ccpn) (b := ie) (not_lt.mp hp)]
      exact ih c.saved.ccpn h.2.2.2

/-- **A priority is kept out by one call at most.** While the CCPN stays at `q` or above, the
contexts below `q` and the calls that keep it out stay the same. Only the highest of these contexts
has such a call. It was made below `q`, on a mutex shared with a priority of `q` or above. -/
theorem sections_eq_of_run (cfg : Config ι) {tr : List (Core ι × Action ι)}
    (h : Reachable (step cfg) (Core.init ι) s) (hr : Run (step cfg) s tr s')
    (hq : Along (fun t => q ≤ t.ccpn) tr s') :
    s'.sections q = s.sections q ∧ (∀ x ∈ (s'.sections q).tail, x.2 = none) ∧
      ∀ p m e, (p, some (m, e)) ∈ s'.sections q → e < q ∧ ∃ r, cfg.Registered m r ∧ q ≤ r := by
  have hok' : StackOk cfg s'.ccpn s'.stack := stackOk_of_reachable (h.trans ⟨tr, hr⟩)
  refine ⟨?_, tail_sections hok', ?_⟩
  · induction hr with
    | nil => rfl
    | snoc hr hs ih =>
      obtain ⟨hal, hlast⟩ := along_snoc.mp hq
      have hok := stackOk_of_reachable (h.trans ⟨_, hr⟩)
      rw [sections_eq_of_step hok hs hal.2 hlast, ih hal hok]
  · intro p m e hx
    obtain ⟨c, hc, heq⟩ := List.mem_map.mp hx
    obtain ⟨rfl, ho⟩ := Prod.mk.inj heq
    obtain ⟨hmem, hp⟩ := List.mem_filter.mp hc
    exact outermost_spec (framesOk_of_mem hok' hmem) (of_decide_eq_true hp) ho

/-! ### Nothing waits -/

/-- **A call of `lock` finds its mutex free**: whenever the running context may lock a mutex, no
context has an active body of it. -/
theorem notMem_bodies_of_canLock (cfg : Config ι) (h : Reachable (step cfg) (Core.init ι) s)
    {c : Context ι} {cs : List (Context ι)} {m : ι} (hs : s.stack = c :: cs)
    (hc : c.canLock cfg m) : m ∉ s.bodies := by
  have hok := stackOk_of_reachable h
  rw [hs] at hok
  obtain ⟨hreg, hm, -⟩ := hc
  -- the calls with the one that is to be made
  have hnew : FramesOk cfg c.prio (⟨m, c.level, (cfg.state m).enter⟩ :: c.frames) :=
    ⟨⟨hreg, fits_enter _ _⟩, rfl, hm, hok.2.1⟩
  intro hb
  unfold Core.bodies at hb
  rw [hs] at hb
  obtain ⟨d, hd, hb⟩ := List.mem_flatMap.mp hb
  obtain ⟨g, hg, rfl⟩ := List.mem_map.mp hb
  obtain ⟨hg, ha⟩ := List.mem_filter.mp hg
  rcases List.mem_cons.mp hd with rfl | hd
  · exact hm (List.mem_map_of_mem hg)
  · exact mutex_ne_of_level_lt hnew (framesOk_of_mem hok.2.2.2 hd) (level_lt_of_mem hok d hd)
      List.mem_cons_self hg ha rfl

/-- The actions that leave a call or return from an interrupt. -/
def Action.leaves : Action ι → Prop
  | .lock _ | .setIe _ | .interrupt _ => False
  | .readCeiling | .raiseCeiling | .endBody | .restoreCeiling | .iret => True

/-- The core can come from one state to another by leaving. -/
def Leaves (cfg : Config ι) (s s' : Core ι) : Prop :=
  ∃ tr, Run (step cfg) s tr s' ∧ AllSteps (fun _ a => a.leaves) tr

theorem Leaves.refl (cfg : Config ι) (s : Core ι) : Leaves cfg s s :=
  ⟨[], .nil, fun _ hp => absurd hp List.not_mem_nil⟩

theorem Leaves.trans {t : Core ι} (h : Leaves cfg s t) (h' : Leaves cfg t s') :
    Leaves cfg s s' := by
  obtain ⟨tr, hr, ha⟩ := h
  obtain ⟨tr', hr', ha'⟩ := h'
  exact ⟨tr ++ tr', hr.append hr', fun p hp => (List.mem_append.mp hp).elim (ha p) (ha' p)⟩

theorem Leaves.single {a : Action ι} (h : step cfg s a = some s') (ha : a.leaves) :
    Leaves cfg s s' := by
  refine ⟨_, Run.nil.snoc h, fun p hp => ?_⟩
  obtain rfl := List.mem_singleton.mp hp
  exact ha

theorem leaves_frame {ccpn : ℕ} {saved : Icr} {ie : Bool} {cs : List (Context ι)}
    (h : StackOk cfg ccpn (⟨prio, saved, f :: fs⟩ :: cs)) :
    Leaves cfg ⟨ccpn, ie, ⟨prio, saved, f :: fs⟩ :: cs⟩
      ⟨f.entry, ie, ⟨prio, saved, fs⟩ :: cs⟩ := by
  obtain ⟨m, entry, phase⟩ := f
  obtain ⟨hl, hfits⟩ := h.top
  -- from the body on, with the previous ceiling at hand
  have hbody : ∀ (k p : ℕ), Leaves cfg
      ⟨k, ie, ⟨prio, saved, ⟨m, entry, .body (some (p, entry))⟩ :: fs⟩ :: cs⟩
      ⟨entry, ie, ⟨prio, saved, fs⟩ :: cs⟩ := fun k p =>
    (Leaves.single (a := .endBody) rfl trivial).trans
      (Leaves.single (a := .restoreCeiling) rfl trivial)
  cases phase with
  | readCeiling p =>
    obtain rfl : ccpn = entry := hl
    exact (Leaves.single (a := .readCeiling) rfl trivial).trans
      ((Leaves.single (a := .raiseCeiling) rfl trivial).trans (hbody _ p))
  | raiseCeiling p previous =>
    obtain rfl : previous = entry := hfits.2
    exact (Leaves.single (a := .raiseCeiling) rfl trivial).trans (hbody _ p)
  | body ceiling =>
    cases ceiling with
    | none =>
      obtain rfl : ccpn = entry := hl
      exact Leaves.single (a := .endBody) rfl trivial
    | some c =>
      obtain ⟨p, previous⟩ := c
      obtain rfl : previous = entry := hfits.2
      exact hbody ccpn p
  | restoreCeiling p previous =>
    obtain rfl : previous = entry := hfits.2
    exact Leaves.single (a := .restoreCeiling) rfl trivial

theorem leaves_frames {ccpn : ℕ} {saved : Icr} {ie : Bool} {cs : List (Context ι)}
    (h : StackOk cfg ccpn (⟨prio, saved, fs⟩ :: cs)) :
    Leaves cfg ⟨ccpn, ie, ⟨prio, saved, fs⟩ :: cs⟩ ⟨prio, ie, ⟨prio, saved, []⟩ :: cs⟩ := by
  induction fs generalizing ccpn with
  | nil =>
    obtain rfl : ccpn = prio := h.1
    exact Leaves.refl cfg _
  | cons f fs ih => exact (leaves_frame h).trans (ih h.pop)

/-- The contexts, without their calls. -/
def Core.shape (s : Core ι) : List (ℕ × Icr) := s.stack.map fun c => (c.prio, c.saved)

theorem shape_of_step {a : Action ι} (hs : step cfg s a = some s') :
    s'.shape = s.shape ∨ (∃ x, s'.shape = x :: s.shape) ∨
      ∃ x y ys, s.shape = x :: y :: ys ∧ s'.shape = y :: ys := by
  obtain ⟨ccpn, ie, stack⟩ := s
  unfold Srp.step at hs
  cases a with
  | lock m =>
    dsimp only at hs
    split at hs
    · split_ifs at hs
      obtain rfl := Option.some.inj hs
      exact Or.inl rfl
    · exact absurd hs (by simp)
  | readCeiling | raiseCeiling | restoreCeiling =>
    dsimp only at hs
    split at hs
    · obtain rfl := Option.some.inj hs
      exact Or.inl rfl
    · exact absurd hs (by simp)
  | endBody =>
    dsimp only at hs
    split at hs
    · obtain rfl := Option.some.inj hs
      exact Or.inl rfl
    · obtain rfl := Option.some.inj hs
      exact Or.inl rfl
    · exact absurd hs (by simp)
  | setIe ie' =>
    obtain rfl := Option.some.inj hs
    exact Or.inl rfl
  | interrupt r =>
    dsimp only at hs
    split_ifs at hs
    obtain rfl := Option.some.inj hs
    exact Or.inr (Or.inl ⟨_, rfl⟩)
  | iret =>
    dsimp only at hs
    split at hs
    · obtain rfl := Option.some.inj hs
      exact Or.inr (Or.inr ⟨_, _, _, rfl, rfl⟩)
    · exact absurd hs (by simp)

theorem getLast_shape (h : Reachable (step cfg) (Core.init ι) s) :
    s.shape.getLast? = some (0, ⟨0, false⟩) := by
  refine h.invariant (I := fun s => s.shape.getLast? = some (0, ⟨0, false⟩)) rfl ?_
  intro s a s' hi hs
  rcases shape_of_step hs with he | ⟨x, he⟩ | ⟨x, y, ys, he, he'⟩
  · rw [he, hi]
  · rw [he, List.getLast?_cons, hi]
    rfl
  · rw [he, List.getLast?_cons_cons] at hi
    rw [he', hi]

/-- The interrupt enable of the thread, with `ie` that of the running context: the interrupt that
the thread was interrupted by has saved it. -/
def threadIe (ie : Bool) : List (Context ι) → Bool
  | c :: d :: cs => threadIe c.saved.ie (d :: cs)
  | _ => ie

theorem threadIe_of_step {a : Action ι} (hne : s.stack ≠ []) (hs : step cfg s a = some s')
    (ha : ∀ ie, a = .setIe ie → 1 < s.stack.length) :
    threadIe s'.ie s'.stack = threadIe s.ie s.stack := by
  obtain ⟨ccpn, ie, stack⟩ := s
  -- the calls of the running context do not matter
  have hframes : ∀ {c d : Context ι} (cs : List (Context ι)), c.saved = d.saved →
      threadIe ie (c :: cs) = threadIe ie (d :: cs) := by
    intro c d cs hcd
    cases cs with
    | nil => rfl
    | cons e es => rw [threadIe, threadIe, hcd]
  unfold Srp.step at hs
  cases a with
  | lock m =>
    dsimp only at hs
    split at hs
    · split_ifs at hs
      obtain rfl := Option.some.inj hs
      exact hframes _ rfl
    · exact absurd hs (by simp)
  | readCeiling | raiseCeiling | restoreCeiling =>
    dsimp only at hs
    split at hs
    · obtain rfl := Option.some.inj hs
      exact hframes _ rfl
    · exact absurd hs (by simp)
  | endBody =>
    dsimp only at hs
    split at hs
    · obtain rfl := Option.some.inj hs
      exact hframes _ rfl
    · obtain rfl := Option.some.inj hs
      exact hframes _ rfl
    · exact absurd hs (by simp)
  | setIe ie' =>
    obtain rfl := Option.some.inj hs
    have hlen := ha ie' rfl
    match stack, hlen with
    | c :: d :: cs, _ => rfl
  | interrupt r =>
    dsimp only at hs
    split_ifs at hs
    obtain rfl := Option.some.inj hs
    obtain ⟨c, cs, rfl⟩ := List.exists_cons_of_ne_nil hne
    rfl
  | iret =>
    dsimp only at hs
    split at hs
    · obtain rfl := Option.some.inj hs
      rfl
    · exact absurd hs (by simp)

/-- From contexts that fit, all calls are left and all interrupts returned from. -/
theorem leaves_stack {ccpn : ℕ} {ie : Bool} {cs : List (Context ι)} (h : StackOk cfg ccpn cs)
    (hl : (⟨ccpn, ie, cs⟩ : Core ι).shape.getLast? = some (0, ⟨0, false⟩)) :
    Leaves cfg ⟨ccpn, ie, cs⟩ ⟨0, threadIe ie cs, [.thread ι]⟩ := by
  induction cs generalizing ccpn ie with
  | nil => exact absurd hl (by simp [Core.shape])
  | cons c cs ih =>
    refine (leaves_frames h).trans ?_
    cases cs with
    | nil =>
      obtain ⟨hp, hsv⟩ := Prod.mk.inj (Option.some.inj hl)
      rw [hp, hsv]
      exact Leaves.refl cfg _
    | cons d ds =>
      exact (Leaves.single (a := .iret) rfl trivial).trans (ih h.2.2.2 hl)

/-- **Nothing waits for good**: from every reachable state, whatever calls and interrupts are
nested, all calls can be left and all interrupts returned from, down to the thread at CCPN 0 with
its own interrupt enable. That is the one it had when it ran last: no step changes it but a `setIe`
of the thread. -/
theorem exists_unwind_of_reachable (cfg : Config ι) (h : Reachable (step cfg) (Core.init ι) s) :
    Leaves cfg s ⟨0, threadIe s.ie s.stack, [.thread ι]⟩ ∧
      ∀ a s', step cfg s a = some s' → (∀ ie, a = .setIe ie → 1 < s.stack.length) →
        threadIe s'.ie s'.stack = threadIe s.ie s.stack := by
  have hlast := getLast_shape h
  refine ⟨leaves_stack (stackOk_of_reachable h) hlast, fun _ _ hs ha => threadIe_of_step ?_ hs ha⟩
  intro hnil
  rw [Core.shape, hnil] at hlast
  exact absurd hlast (by simp)

/-- The thread holds mutex 0 at ceiling 5, which keeps interrupt 3 out; interrupt 7 comes and goes,
and the body ends. -/
theorem sections_eq_of_run_example : ∃ (s s' : Core ℕ) (tr : List (Core ℕ × Action ℕ)),
    runList (step exampleConfig) (Core.init ℕ)
        [.setIe true, .lock 0, .readCeiling, .raiseCeiling] = some s ∧
      Run (step exampleConfig) s tr s' ∧
        tr.map Prod.snd = [.interrupt 7, .iret, .endBody] ∧ s'.sections 3 = s.sections 3 := by
  obtain ⟨s, tr, s', hs, hr, ha, hv⟩ := exists_run_of_trace (r := step exampleConfig)
    (s := Core.init ℕ) (l := [.setIe true, .lock 0, .readCeiling, .raiseCeiling])
    (m := [.interrupt 7, .iret, .endBody])
    (f := fun _ r => (r.1.all fun p => decide (3 ≤ p.1.ccpn), r.2.ccpn)) (b := (true, 5))
    (by decide)
  obtain ⟨hall, hc⟩ := Prod.mk.inj hv
  have hc : s'.ccpn = 5 := hc
  have hkept := List.all_eq_true.mp hall
  exact ⟨s, s', tr, hs, hr, ha, (sections_eq_of_run exampleConfig (reachable_of_runList hs) hr
    ⟨fun p hp => of_decide_eq_true (hkept p hp), by omega⟩).1⟩

/-- Interrupt 3 may lock mutex 0 while the thread holds mutex 1. -/
theorem notMem_bodies_example : ∃ (s : Core ℕ) (c : Context ℕ) (cs : List (Context ℕ)),
    runList (step exampleConfig) (Core.init ℕ) [.setIe true, .lock 1, .interrupt 3] = some s ∧
      s.stack = c :: cs ∧ c.canLock exampleConfig 0 ∧ 0 ∉ s.bodies := by
  obtain ⟨s, hs⟩ : ∃ s, runList (step exampleConfig) (Core.init ℕ)
      [.setIe true, .lock 1, .interrupt 3] = some s := ⟨_, rfl⟩
  have hreach := reachable_of_runList hs
  obtain rfl := Option.some.inj hs
  exact ⟨_, _, _, rfl, rfl, by decide, notMem_bodies_of_canLock exampleConfig hreach rfl
    (by decide)⟩

/-- Both are left, from within two calls and an interrupt, and interrupts are enabled again. -/
theorem exists_unwind_example : ∃ s : Core ℕ,
    runList (step exampleConfig) (Core.init ℕ) [.setIe true, .lock 1, .interrupt 3, .lock 0,
      .readCeiling] = some s ∧ s.ie = false ∧ Leaves exampleConfig s ⟨0, true, [.thread ℕ]⟩ := by
  obtain ⟨s, hs⟩ : ∃ s, runList (step exampleConfig) (Core.init ℕ) [.setIe true, .lock 1,
      .interrupt 3, .lock 0, .readCeiling] = some s := ⟨_, rfl⟩
  have hreach := reachable_of_runList hs
  obtain rfl := Option.some.inj hs
  exact ⟨_, rfl, rfl, (exists_unwind_of_reachable exampleConfig hreach).1⟩

end Srp

end AurixAsync
