import AurixAsync.Srp.Mutex

/-!
# Mutual exclusion by ceilings

No two bodies of one mutex are ever active, and every `lock` returns at the CCPN it was called at.

* `Frame.level`, `Context.level`: the CCPN a call and a context leave the core at.
* `FramesOk`, `StackOk`: each call was made at the level of the one below, and each interrupt was
  taken above the level of the context it interrupted.
* `mutex_ne_of_level_lt`: a context above the level of another locks none of its mutexes.
* `exclusion_of_reachable`: the two properties, in every reachable state.
-/

namespace AurixAsync

namespace Srp

open Transition

variable {ι : Type}

/-! ### Levels -/

/-- The CCPN while this call is the innermost one. -/
def Frame.level (f : Frame ι) : ℕ :=
  match f.phase with
  | .body (some (p, _)) | .restoreCeiling p _ => max f.entry p
  | _ => f.entry

/-- The CCPN of a context of priority `prio` in these calls. -/
def levelOf (prio : ℕ) : List (Frame ι) → ℕ
  | [] => prio
  | f :: _ => f.level

/-- The level of a context: its priority, raised by the calls it has active. -/
def Context.level (c : Context ι) : ℕ := levelOf c.prio c.frames

/-- A call fits the state of its mutex. -/
def Phase.Fits (x : State) (entry : ℕ) : Phase → Prop
  | .readCeiling p => x = .contended p
  | .body none => ∀ p, x ≠ .contended p
  | .raiseCeiling p previous | .body (some (p, previous)) | .restoreCeiling p previous =>
    x = .contended p ∧ previous = entry

/-- A call fits its mutex: its context was registered with it, and it is where the state of the
mutex puts it. -/
structure Frame.Ok (cfg : Config ι) (prio : ℕ) (f : Frame ι) : Prop where
  registered : cfg.Registered f.mutex prio
  phase : f.phase.Fits (cfg.state f.mutex) f.entry

/-- The calls of a context: each was made in the body below it, at the level of the calls below,
and on a mutex none of them holds. -/
def FramesOk (cfg : Config ι) (prio : ℕ) : List (Frame ι) → Prop
  | [] => True
  | f :: fs => f.Ok cfg prio ∧ f.entry = levelOf prio fs ∧ f.mutex ∉ fs.map Frame.mutex ∧
      FramesOk cfg prio fs

/-- The contexts: the CCPN is the level of the running one, and each of the others was interrupted
at its level by a higher priority. -/
def StackOk (cfg : Config ι) : ℕ → List (Context ι) → Prop
  | _, [] => True
  | ccpn, c :: cs => ccpn = c.level ∧ FramesOk cfg c.prio c.frames ∧
      (cs ≠ [] → c.saved.ccpn < c.prio) ∧ StackOk cfg c.saved.ccpn cs

theorem Frame.entry_le_level (f : Frame ι) : f.entry ≤ f.level := by
  unfold Frame.level
  split
  · exact le_max_left _ _
  · exact le_max_left _ _
  · exact le_rfl

variable {cfg : Config ι}

theorem level_le_levelOf {prio : ℕ} {fs : List (Frame ι)} (h : FramesOk cfg prio fs) :
    prio ≤ levelOf prio fs ∧ ∀ f ∈ fs, f.level ≤ levelOf prio fs := by
  induction fs with
  | nil => exact ⟨le_rfl, fun f hf => absurd hf List.not_mem_nil⟩
  | cons f fs ih =>
    obtain ⟨-, he, -, hfs⟩ := h
    obtain ⟨ih₁, ih₂⟩ := ih hfs
    have hle : levelOf prio fs ≤ f.level := he ▸ f.entry_le_level
    refine ⟨ih₁.trans hle, ?_⟩
    intro g hg
    rcases List.mem_cons.mp hg with rfl | hg
    · exact le_rfl
    · exact (ih₂ g hg).trans hle

theorem ok_of_mem {prio : ℕ} {fs : List (Frame ι)} (h : FramesOk cfg prio fs) {f : Frame ι}
    (hf : f ∈ fs) : f.Ok cfg prio := by
  induction fs with
  | nil => exact absurd hf List.not_mem_nil
  | cons g fs ih =>
    obtain ⟨hg, -, -, hfs⟩ := h
    rcases List.mem_cons.mp hf with rfl | hf
    · exact hg
    · exact ih hfs hf

theorem nodup_mutexes {prio : ℕ} {fs : List (Frame ι)} (h : FramesOk cfg prio fs) :
    (fs.map Frame.mutex).Nodup := by
  induction fs with
  | nil => exact List.nodup_nil
  | cons f fs ih =>
    obtain ⟨-, -, hm, hfs⟩ := h
    exact List.nodup_cons.mpr ⟨hm, ih hfs⟩

theorem level_lt_of_mem {ccpn : ℕ} {c : Context ι} {cs : List (Context ι)}
    (h : StackOk cfg ccpn (c :: cs)) : ∀ c' ∈ cs, c'.level < c.prio := by
  induction cs generalizing ccpn c with
  | nil => exact fun c' hc' => absurd hc' List.not_mem_nil
  | cons d ds ih =>
    obtain ⟨-, -, hlt, hds⟩ := h
    have hsaved : c.saved.ccpn < c.prio := hlt (List.cons_ne_nil _ _)
    have hd : c.saved.ccpn = d.level := hds.1
    have hprio : d.prio ≤ d.level := (level_le_levelOf hds.2.1).1
    intro c' hc'
    rcases List.mem_cons.mp hc' with rfl | hc'
    · omega
    · have hc' := ih hds c' hc'
      omega

theorem framesOk_of_mem {ccpn : ℕ} {cs : List (Context ι)} (h : StackOk cfg ccpn cs)
    {c : Context ι} (hc : c ∈ cs) : FramesOk cfg c.prio c.frames := by
  induction cs generalizing ccpn with
  | nil => exact absurd hc List.not_mem_nil
  | cons d ds ih =>
    obtain ⟨-, hd, -, hds⟩ := h
    rcases List.mem_cons.mp hc with rfl | hc
    · exact hd
    · exact ih hds hc

/-! ### Exclusion -/

/-- **The ceiling argument.** A context whose priority is above the level of another one is not in
a call on a mutex the other has an active body of: the mutex is contended, since it has two
priorities, and its ceiling, which is at least the higher one, is below the level. -/
theorem mutex_ne_of_level_lt {p p' : ℕ} {fs fs' : List (Frame ι)} (h : FramesOk cfg p fs)
    (h' : FramesOk cfg p' fs') (hlt : levelOf p' fs' < p) {f f' : Frame ι} (hf : f ∈ fs)
    (hf' : f' ∈ fs') (ha : f'.active) : f.mutex ≠ f'.mutex := by
  intro heq
  obtain ⟨hprio, hlevel⟩ := level_le_levelOf h'
  have hle := hlevel f' hf'
  have hreg := (ok_of_mem h hf).registered
  obtain ⟨hreg', hfits⟩ := ok_of_mem h' hf'
  rw [heq] at hreg
  have hsound := register_spec cfg f'.mutex
  cases hx : cfg.state f'.mutex with
  | owned q =>
    rw [hx] at hsound
    have hp := hsound p hreg
    have hp' := hsound p' hreg'
    omega
  | coOwned q =>
    rw [hx] at hsound
    have hp := hsound p hreg
    have hp' := hsound p' hreg'
    omega
  | contended q =>
    rw [hx] at hsound hfits
    have hp : p ≤ q := hsound p hreg
    unfold Frame.active at ha
    unfold Frame.level at hle
    cases hph : f'.phase with
    | body ceiling =>
      rw [hph] at hfits hle
      cases ceiling with
      | none => exact absurd rfl (hfits q)
      | some r =>
        obtain ⟨r, previous⟩ := r
        have hqr : q = r := State.contended.inj hfits.1
        change max f'.entry r ≤ _ at hle
        omega
    | readCeiling q => rw [hph] at ha; exact absurd ha Bool.false_ne_true
    | raiseCeiling q r => rw [hph] at ha; exact absurd ha Bool.false_ne_true
    | restoreCeiling q r => rw [hph] at ha; exact absurd ha Bool.false_ne_true

theorem nodup_bodies {ccpn : ℕ} {cs : List (Context ι)} (h : StackOk cfg ccpn cs) :
    (cs.flatMap fun c => (c.frames.filter Frame.active).map Frame.mutex).Nodup := by
  induction cs generalizing ccpn with
  | nil => exact List.nodup_nil
  | cons c cs ih =>
    have hlt := level_lt_of_mem h
    obtain ⟨-, hc, -, hcs⟩ := h
    rw [List.flatMap_cons, List.nodup_append]
    refine ⟨?_, ih hcs, ?_⟩
    · exact (nodup_mutexes hc).sublist (List.Sublist.map _ List.filter_sublist)
    · intro m hm m' hm' heq
      obtain ⟨f, hf, rfl⟩ := List.mem_map.mp hm
      obtain ⟨c', hc', hm'⟩ := List.mem_flatMap.mp hm'
      obtain ⟨f', hf', rfl⟩ := List.mem_map.mp hm'
      obtain ⟨hf', ha⟩ := List.mem_filter.mp hf'
      have hc'ok : FramesOk cfg c'.prio c'.frames := framesOk_of_mem hcs hc'
      exact mutex_ne_of_level_lt hc hc'ok (hlt c' hc') (List.mem_filter.mp hf).1 hf' ha heq

/-! ### Runs -/

theorem StackOk.replace {ccpn ccpn' prio : ℕ} {saved : Icr} {f f' : Frame ι}
    {fs : List (Frame ι)} {cs : List (Context ι)}
    (h : StackOk cfg ccpn (⟨prio, saved, f :: fs⟩ :: cs))
    (hm : f'.mutex = f.mutex) (he : f'.entry = f.entry)
    (hfits : f'.phase.Fits (cfg.state f.mutex) f.entry) (hl : ccpn' = f'.level) :
    StackOk cfg ccpn' (⟨prio, saved, f' :: fs⟩ :: cs) := by
  obtain ⟨-, ⟨⟨hreg, -⟩, hent, hmem, hfs⟩, hlt, hcs⟩ := h
  have hok : f'.Ok cfg prio := by
    refine ⟨?_, ?_⟩
    · rw [hm]
      exact hreg
    · rw [hm, he]
      exact hfits
  refine ⟨hl, ⟨hok, ?_, ?_, hfs⟩, hlt, hcs⟩
  · rw [he]
    exact hent
  · rw [hm]
    exact hmem

theorem StackOk.pop {ccpn prio : ℕ} {saved : Icr} {f : Frame ι} {fs : List (Frame ι)}
    {cs : List (Context ι)} (h : StackOk cfg ccpn (⟨prio, saved, f :: fs⟩ :: cs)) :
    StackOk cfg f.entry (⟨prio, saved, fs⟩ :: cs) := by
  obtain ⟨-, ⟨-, hent, -, hfs⟩, hlt, hcs⟩ := h
  exact ⟨hent, hfs, hlt, hcs⟩

/-- The innermost call of the core: the CCPN is its level, and it fits the state of its mutex. -/
theorem StackOk.top {ccpn prio : ℕ} {saved : Icr} {f : Frame ι} {fs : List (Frame ι)}
    {cs : List (Context ι)} (h : StackOk cfg ccpn (⟨prio, saved, f :: fs⟩ :: cs)) :
    ccpn = f.level ∧ f.phase.Fits (cfg.state f.mutex) f.entry :=
  ⟨h.1, h.2.1.1.phase⟩

theorem fits_enter (x : State) (entry : ℕ) : x.enter.Fits x entry := by
  cases x with
  | owned p => exact fun q hq => absurd hq (by simp)
  | coOwned p => exact fun q hq => absurd hq (by simp)
  | contended p => exact rfl

theorem level_enter (m : ι) (entry : ℕ) (x : State) :
    (⟨m, entry, x.enter⟩ : Frame ι).level = entry := by
  cases x <;> rfl

theorem stackOk_init : StackOk cfg (Core.init ι).ccpn (Core.init ι).stack :=
  ⟨rfl, trivial, fun h => absurd rfl h, trivial⟩

variable [DecidableEq ι]

theorem StackOk.step {s s' : Core ι} {a : Action ι} (h : StackOk cfg s.ccpn s.stack)
    (hs : step cfg s a = some s') : StackOk cfg s'.ccpn s'.stack := by
  obtain ⟨ccpn, ie, stack⟩ := s
  unfold Srp.step at hs
  cases a with
  | lock m =>
    dsimp only at hs
    split at hs
    · rename_i c cs
      split_ifs at hs with hc
      obtain rfl := Option.some.inj hs
      obtain ⟨hreg, hm, -⟩ := hc
      obtain ⟨hl, hfs, hlt, hcs⟩ := h
      have hok : (⟨m, ccpn, (cfg.state m).enter⟩ : Frame ι).Ok cfg c.prio :=
        ⟨hreg, fits_enter _ _⟩
      exact ⟨(level_enter _ _ _).symm, ⟨hok, hl, hm, hfs⟩, hlt, hcs⟩
    · exact absurd hs (by simp)
  | readCeiling =>
    dsimp only at hs
    split at hs
    · rename_i prio saved m entry p fs cs
      obtain rfl := Option.some.inj hs
      obtain ⟨hl, hf⟩ := h.top
      have hl : ccpn = entry := hl
      exact h.replace rfl rfl ⟨hf, hl⟩ hl
    · exact absurd hs (by simp)
  | raiseCeiling =>
    dsimp only at hs
    split at hs
    · rename_i prio saved m entry p previous fs cs
      obtain rfl := Option.some.inj hs
      obtain ⟨hl, hx, hp⟩ := h.top
      have hl : ccpn = entry := hl
      have hp : previous = entry := hp
      refine h.replace rfl rfl ⟨hx, hp⟩ ?_
      change (if previous < p then p else ccpn) = max entry p
      split_ifs <;> omega
    · exact absurd hs (by simp)
  | endBody =>
    dsimp only at hs
    split at hs
    · rename_i prio saved m entry fs cs
      obtain rfl := Option.some.inj hs
      have hl : ccpn = entry := h.top.1
      rw [hl]
      exact h.pop
    · rename_i prio saved m entry p previous fs cs
      obtain rfl := Option.some.inj hs
      exact h.replace rfl rfl h.top.2 h.top.1
    · exact absurd hs (by simp)
  | restoreCeiling =>
    dsimp only at hs
    split at hs
    · rename_i prio saved m entry p previous fs cs
      obtain rfl := Option.some.inj hs
      have hp : previous = entry := h.top.2.2
      change StackOk cfg previous _
      rw [hp]
      exact h.pop
    · exact absurd hs (by simp)
  | setIe ie' =>
    obtain rfl := Option.some.inj hs
    exact h
  | interrupt q =>
    dsimp only at hs
    split_ifs at hs with hq
    obtain rfl := Option.some.inj hs
    exact ⟨rfl, trivial, fun _ => hq.2, h⟩
  | iret =>
    dsimp only at hs
    split at hs
    · rename_i prio saved c cs
      obtain rfl := Option.some.inj hs
      exact h.2.2.2
    · exact absurd hs (by simp)

theorem ccpn_of_returning {s s' : Core ι} {a : Action ι} {f : Frame ι}
    (h : StackOk cfg s.ccpn s.stack) (hs : step cfg s a = some s')
    (hf : returning s a = some f) : s'.ccpn = f.entry := by
  obtain ⟨ccpn, ie, stack⟩ := s
  unfold returning at hf
  dsimp only at hf
  split at hf
  · rename_i prio saved g fs cs
    split at hf
    · rename_i hph
      obtain rfl := Option.some.inj hf
      obtain ⟨m, entry, phase⟩ := g
      obtain rfl : phase = .body none := hph
      obtain rfl := Option.some.inj hs
      exact h.top.1
    · rename_i p previous hph
      obtain rfl := Option.some.inj hf
      obtain ⟨m, entry, phase⟩ := g
      obtain rfl : phase = .restoreCeiling p previous := hph
      obtain rfl := Option.some.inj hs
      exact h.top.2.2
    · exact absurd hf (by simp)
  · exact absurd hf (by simp)

/-- **Stack-resource-policy mutual exclusion.** For every configuration and every preemption: in no
reachable state are two bodies of one mutex active, and every call of `lock` or `lock_mut` returns
with the CCPN it was made at. -/
theorem exclusion_of_reachable (cfg : Config ι) (s : Core ι)
    (h : Reachable (step cfg) (Core.init ι) s) :
    s.bodies.Nodup ∧ ∀ a s' f, step cfg s a = some s' → returning s a = some f →
      s'.ccpn = f.entry := by
  have hok : StackOk cfg s.ccpn s.stack :=
    h.invariant (I := fun s => StackOk cfg s.ccpn s.stack) stackOk_init
      fun _ _ _ hi hs => hi.step hs
  exact ⟨nodup_bodies hok, fun a s' f hs hf => ccpn_of_returning hok hs hf⟩

/-- Mutex 0 is shared by the thread and the handlers of priority 3 and 5, mutex 1 belongs to the
thread. -/
def exampleConfig : Config ℕ := ⟨fun _ => 0, fun m => if m = 0 then [3, 5, 0, 3] else [0]⟩

/-- The thread holds mutex 1 when interrupt 3 locks mutex 0, and interrupt 7 comes in between. -/
theorem exclusion_of_reachable_nested : ∃ s : Core ℕ,
    runList (step exampleConfig) (Core.init ℕ) [.setIe true, .lock 1, .interrupt 3, .lock 0,
      .readCeiling, .setIe true, .interrupt 7, .iret, .raiseCeiling] = some s ∧
      s.bodies = [0, 1] ∧ s.ccpn = 5 ∧ s.bodies.Nodup := by
  obtain ⟨s, hs, hv⟩ := exists_of_map_runList
    (f := fun s => (s.bodies, s.ccpn)) (s := Core.init ℕ)
    (l := [.setIe true, .lock 1, .interrupt 3, .lock 0, .readCeiling, .setIe true, .interrupt 7,
      .iret, .raiseCeiling]) (b := ([0, 1], 5)) (r := step exampleConfig) (by decide)
  obtain ⟨hb, hc⟩ := Prod.mk.inj hv
  exact ⟨s, hs, hb, hc, (exclusion_of_reachable exampleConfig s (reachable_of_runList hs)).1⟩

end Srp

end AurixAsync
