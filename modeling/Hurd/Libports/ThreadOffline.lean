import Hurd.Libports.DerefDeferred

/-!
# Leaving a thread pool

`_ports_thread_offline` tries again until the thread is of the young generation. It may be sent back
by the flip of the generations that its own call of `_ports_thread_quiescent` makes.
-/

namespace Hurd.Ports

open Option Finset

variable {ι : Type*} [DecidableEq ι] [Fintype ι] {s : Pool ι} {t : ι}

/-- Steps of thread `t` alone -/
def runAlone (t : ι) (n : Nat) (s : Pool ι) : Option (Pool ι) :=
  runLabels poolStep s (List.replicate n (.advance t))

/-- `_ports_thread_offline` comes back without interference. -/
def Returns (t : ι) (s : Pool ι) : Prop := ∃ n s', runAlone t n s = some s' ∧ s'.phase t = .away

theorem Returns.step {s' : Pool ι} (h : Returns t s') (hs : advanceThread t s = some s') :
    Returns t s := by
  obtain ⟨n, u, hrun, hu⟩ := h
  refine ⟨n + 1, u, ?_, hu⟩
  rw [runAlone, List.replicate_succ, runLabels, poolStep, hs, bind_some]
  exact hrun

theorem returns_young (hp : s.phase t = .retrying) (hc : s.color t ≠ some s.pool.color) :
    Returns t s := by
  have hstep : advanceThread t s =
      some (((portsThreadOffline t s).settle t).setPhase t .away) := by
    rw [advanceThread, hp]
    exact if_neg hc
  refine Returns.step ⟨0, _, rfl, ?_⟩ hstep
  simp [Pool.setPhase]

theorem returns_quiescing {l : List Nat} (hp : s.phase t = .quiescing true l)
    (hback : ∀ u : Pool ι, u.phase t = .retrying → u.pool = s.pool → u.color = s.color →
      Returns t u) : Returns t s := by
  induction l generalizing s with
  | nil =>
    have hstep : advanceThread t s = some (s.setPhase t .retrying) := by
      rw [advanceThread, hp]
      rfl
    have hphase : (s.setPhase t .retrying).phase t = .retrying := by simp [Pool.setPhase]
    exact Returns.step (hback _ hphase rfl rfl) hstep
  | cons o l ih =>
    let next : Pool ι := { s.setPhase t (.quiescing true l) with derefed := o :: s.derefed }
    have hstep : advanceThread t s = some next := by rw [advanceThread, hp]
    have hphase : next.phase t = .quiescing true l := by simp [next, Pool.setPhase]
    exact Returns.step (ih hphase hback) hstep

theorem returns_old (hp : s.phase t = .retrying) (hc : s.color t = some s.pool.color)
    (hback : ∀ u : Pool ι, u.phase t = .retrying →
      (s.pool.oldThreads - 1 ≠ 0 → u.color t ≠ some u.pool.color) →
      (s.pool.oldThreads - 1 = 0 → u.color t = some u.pool.color ∧
        u.pool.oldThreads = s.pool.youngThreads + 1) → Returns t u) : Returns t s := by
  have hsent : advanceThread t s = some (s.setPhase t .sentBack) := by
    rw [advanceThread, hp]
    exact if_pos hc
  have hquiet : advanceThread t (s.setPhase t .sentBack) =
      enterQuiescent true t (s.setPhase t .sentBack) := by
    rw [advanceThread]
    simp [Pool.setPhase]
  obtain ⟨u, l, hu, hyoung, hold⟩ : ∃ u l, portsThreadQuiescent t (s.setPhase t .sentBack) =
      some (u, l) ∧ (s.pool.oldThreads - 1 ≠ 0 → u.color t ≠ some u.pool.color) ∧
      (s.pool.oldThreads - 1 = 0 → u.color t = some u.pool.color ∧
        u.pool.oldThreads = s.pool.youngThreads + 1) := by
    have hcolor : (s.setPhase t .sentBack).color t = some s.pool.color := hc
    have hpool : (s.setPhase t .sentBack).pool = s.pool := rfl
    simp only [portsThreadQuiescent, hcolor, hpool, if_true]
    by_cases hlast : s.pool.oldThreads - 1 = 0
    · rw [if_pos hlast, flipGenerations, if_pos ⟨hlast, rfl⟩]
      refine ⟨_, _, rfl, fun hno => absurd hlast hno, fun _ => ⟨?_, rfl⟩⟩
      simp [Pool.setColor, Pool.setPhase]
    · rw [if_neg hlast]
      refine ⟨_, _, rfl, fun _ => ?_, fun hno => absurd hno hlast⟩
      simp [Pool.setColor, Pool.setPhase, flip_ne]
  have henter : enterQuiescent true t (s.setPhase t .sentBack) =
      some ((u.settle t).setPhase t (.quiescing true l)) := by
    rw [enterQuiescent, hu]
    rfl
  refine Returns.step (Returns.step ?_ (hquiet.trans henter)) hsent
  have hphase : ((u.settle t).setPhase t (.quiescing true l)).phase t = .quiescing true l := by
    simp [Pool.setPhase]
  apply returns_quiescing hphase
  intro v hv hpool hcolors
  apply hback v hv
  · rw [hpool, hcolors]
    exact hyoung
  · rw [hpool, hcolors]
    exact hold

/-- The thread is the only one that is online, and it is old. -/
structure LastOld (t : ι) (s : Pool ι) : Prop where
  color : s.color t = some s.pool.color
  old : s.pool.oldThreads = 1
  young : s.pool.youngThreads = 0
  phase : s.phase t = .retrying ∨ s.phase t = .sentBack ∨ ∃ l, s.phase t = .quiescing true l

omit [Fintype ι] in
theorem LastOld.advance {s' : Pool ι} (h : LastOld t s) (hs : advanceThread t s = some s') :
    LastOld t s' := by
  obtain ⟨hcolor, hold, hyoung, hp | hp | ⟨l, hp⟩⟩ := h
  · rw [advanceThread, hp] at hs
    dsimp only at hs
    rw [if_pos hcolor] at hs
    cases hs
    exact ⟨hcolor, hold, hyoung, .inr (.inl (by simp [Pool.setPhase]))⟩
  · rw [advanceThread, hp] at hs
    dsimp only [enterQuiescent, portsThreadQuiescent] at hs
    rw [hcolor] at hs
    simp only [if_true, hold, hyoung, flipGenerations, Nat.sub_self, and_self,
      map_some] at hs
    cases hs
    refine ⟨?_, rfl, rfl, .inr (.inr ⟨s.pool.oldObjects, ?_⟩)⟩
    · simp [Pool.setPhase, Pool.settle, Pool.setColor]
    · simp [Pool.setPhase]
  · rw [advanceThread, hp] at hs
    cases l with
    | nil =>
      cases hs
      exact ⟨hcolor, hold, hyoung, .inl (by simp [Pool.setPhase])⟩
    | cons o l =>
      cases hs
      exact ⟨hcolor, hold, hyoung, .inr (.inr ⟨l, by simp [Pool.setPhase]⟩)⟩

theorem LastOld.not_returns (h : LastOld t s) : ¬ Returns t s := by
  rintro ⟨n, s', hrun, haway⟩
  induction n generalizing s with
  | zero =>
    rw [← some.inj hrun] at haway
    obtain hp | hp | ⟨l, hp⟩ := h.phase <;> rw [hp] at haway <;> cases haway
  | succ n ih =>
    rw [runAlone, List.replicate_succ, runLabels] at hrun
    obtain ⟨u, hu, hrest⟩ := bind_eq_some_iff.mp hrun
    exact ih (h.advance hu) hrest

theorem returns_iff (h : PoolInv s) (hp : s.phase t = .retrying) :
    Returns t s ↔ s.color t ≠ some s.pool.color ∨ 1 < s.pool.oldThreads + s.pool.youngThreads := by
  by_cases hc : s.color t = some s.pool.color
  · have hpos : 0 < s.pool.oldThreads := by
      rw [h.old]
      exact Nat.pos_of_ne_zero fun hzero => ne_of_ofColor_eq_zero hzero t hc
    constructor
    · intro hreturns
      right
      by_contra hfew
      exact LastOld.not_returns ⟨hc, by omega, by omega, .inl hp⟩ hreturns
    · rintro (hno | hmany)
      · exact absurd hc hno
      · apply returns_old hp hc
        intro u hu hyoung hold
        by_cases hlast : s.pool.oldThreads - 1 = 0
        · -- with the threads that were young it is old once more
          obtain ⟨hcu, hcount⟩ := hold hlast
          apply returns_old hu hcu
          intro v hv hyoung' _
          exact returns_young hv (hyoung' (by omega))
        · exact returns_young hu (hyoung hlast)
  · exact ⟨fun _ => .inl hc, fun _ => returns_young hp hc⟩

theorem one_lt_threads_iff (h : PoolInv s) (hc : s.color t = some s.pool.color) :
    1 < s.pool.oldThreads + s.pool.youngThreads ↔ ∃ u, u ≠ t ∧ s.color u ≠ none := by
  have hself : t ∈ Finset.univ.filter fun u => s.color u = some s.pool.color := by simp [hc]
  rw [h.old, h.young]
  constructor
  · intro hmany
    by_contra hnone
    push Not at hnone
    have hold : ofColor s.color s.pool.color ≤ 1 := by
      apply card_le_one.mpr
      have honly : ∀ u ∈ Finset.univ.filter fun u => s.color u = some s.pool.color, u = t := by
        intro u hu
        by_contra hne
        rw [mem_filter, hnone u hne] at hu
        cases hu.2
      intro u hu v hv
      rw [honly u hu, honly v hv]
    have hyoung : ofColor s.color s.pool.color.flip = 0 := by
      apply card_eq_zero.mpr
      apply filter_eq_empty_iff.mpr
      intro u _ hu
      by_cases hut : u = t
      · rw [hut, hc] at hu
        exact flip_ne _ (some.inj hu).symm
      · rw [hnone u hut] at hu
        cases hu
    omega
  · rintro ⟨u, hut, hu⟩
    obtain ⟨c, hcu⟩ := ne_none_iff_exists'.mp hu
    by_cases hsame : c = s.pool.color
    · have htwo : 1 < ofColor s.color s.pool.color :=
        one_lt_card.mpr ⟨u, by simp [hcu, hsame], t, hself, hut⟩
      omega
    · have hyoung : 0 < ofColor s.color s.pool.color.flip :=
        card_pos.mpr ⟨u, by simp [hcu, eq_flip_of_ne hsame]⟩
      have hold : 0 < ofColor s.color s.pool.color := card_pos.mpr ⟨t, hself⟩
      omega

/-- From every reachable state a thread of the pool that leaves it without interference comes back
exactly if it is young or another thread is online. -/
theorem thread_offline_returns (ι : Type*) [DecidableEq ι] [Fintype ι] {s : Pool ι}
    (h : Reach poolStep (fun s e => e.Enabled s) (.init : Pool ι) s) {t : ι}
    (ht : s.phase t = .working) :
    (∃ n s', runLabels poolStep s (.offline t :: List.replicate n (.advance t)) = some s' ∧
      s'.phase t = .away) ↔
      s.color t ≠ some s.pool.color ∨ ∃ u, u ≠ t ∧ s.color u ≠ none := by
  have hinv : PoolInv s := poolInv_reach (fun _ _ he => he) h
  have honline : s.color t ≠ none := by
    rw [ne_eq, ← hinv.away t, ht]
    exact fun hno => by cases hno
  have hstart : poolStep s (.offline t) = some (s.setPhase t .retrying) := if_neg honline
  have hretry : PoolInv (s.setPhase t .retrying) :=
    hinv.setPhase (by simp [honline]) (by rw [ht]; rfl)
  have hreturns := returns_iff hretry (t := t) (by simp [Pool.setPhase])
  have hruns : (∃ n s', runLabels poolStep s (.offline t :: List.replicate n (.advance t)) =
      some s' ∧ s'.phase t = .away) ↔ Returns t (s.setPhase t .retrying) := by
    simp only [runLabels, hstart, bind_some]
    rfl
  rw [hruns, hreturns]
  by_cases hc : s.color t = some s.pool.color
  · have hmany := one_lt_threads_iff hinv hc
    constructor
    · rintro (hno | hlt)
      · exact absurd hc hno
      · exact .inr (hmany.mp hlt)
    · rintro (hno | hother)
      · exact absurd hc hno
      · exact .inr (hmany.mpr hother)
  · exact ⟨fun _ => .inl hc, fun _ => .inl hc⟩

theorem thread_offline_returns_two :
    ∃ s, Reach poolStep (fun s e => e.Enabled s) (.init : Pool Bool) s ∧
      ∃ n s', runLabels poolStep s (.offline true :: List.replicate n (.advance true)) = some s' ∧
        s'.phase true = .away := by
  obtain ⟨s, hs, hview⟩ : ∃ s, runLabels poolStep (.init : Pool Bool)
      [.online true, .online false, .defer true] = some s ∧
        (s.phase true = .working ∧ s.color false ≠ none) := exists_run _ _ (by decide)
  have hreach : Reach poolStep (fun s e => e.Enabled s) (.init : Pool Bool) s :=
    .labels _ .start (by decide) hs
  exact ⟨s, hreach, (thread_offline_returns Bool hreach hview.1).mpr
    (.inr ⟨false, by decide, hview.2⟩)⟩

/-- A thread alone defers a dereference, which flips the generations. It cannot leave then. -/
theorem thread_offline_alone :
    ∃ s, Reach poolStep (fun s e => e.Enabled s) (.init : Pool Unit) s ∧ s.phase () = .working ∧
      ¬ ∃ n s', runLabels poolStep s (.offline () :: List.replicate n (.advance ())) = some s' ∧
        s'.phase () = .away := by
  obtain ⟨s, hs, hview⟩ : ∃ s, runLabels poolStep (.init : Pool Unit)
      [.online (), .defer true] = some s ∧
        (s.phase () = .working ∧ s.color () = some s.pool.color ∧ s.pool.oldThreads = 1 ∧
          s.pool.youngThreads = 0) := exists_run _ _ (by decide)
  obtain ⟨hp, hc, hold, hyoung⟩ := hview
  refine ⟨s, .labels _ .start (by decide) hs, hp, ?_⟩
  have hstart : poolStep s (.offline ()) = some (s.setPhase () .retrying) :=
    if_neg (by rw [hc]; exact fun hno => by cases hno)
  have hlast : LastOld () (s.setPhase () .retrying) :=
    ⟨hc, hold, hyoung, .inl (by simp [Pool.setPhase])⟩
  rintro ⟨n, s', hrun, haway⟩
  rw [runLabels, hstart] at hrun
  exact hlast.not_returns ⟨n, s', hrun, haway⟩

end Hurd.Ports
