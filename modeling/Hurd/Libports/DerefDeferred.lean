import Hurd.Framework.Count
import Hurd.Framework.Run
import Mathlib.Algebra.Order.BigOperators.Group.Finset

/-!
# Deferred dereferences

`_ports_port_deref_deferred` puts off the dereference of an object until every thread that may
still use it has been quiescent. The pool tells two generations of threads and objects apart by a
color: a thread of the color of the pool is old.

The sections under the spin lock of the pool are the atomic steps. A thread gives the lock up
between the check in `_ports_thread_offline` and its call of `_ports_thread_quiescent`, and while
it walks the list of objects that it has taken off the pool.
-/

namespace Hurd.Ports

open List Option Function Finset

/-- The valid colors, `COLOR_BLACK` and `COLOR_WHITE`. -/
inductive Color where
  | black | white
  deriving DecidableEq, Repr

def Color.flip : Color → Color
  | .black => .white
  | .white => .black

/-- `struct ports_threadpool`. An object on its lists is a cell of `struct pi_list`; cells are
numbered as they are allocated. -/
structure Threadpool where
  color : Color
  oldThreads : Nat
  oldObjects : List Nat
  youngThreads : Nat
  youngObjects : List Nat
  deriving DecidableEq, Repr

def Threadpool.init : Threadpool := ⟨.black, 0, [], 0, []⟩

/-- `flip_generations`, or `none` when one of its assertions fails. -/
def flipGenerations (pool : Threadpool) : Option Threadpool :=
  if pool.oldThreads = 0 ∧ pool.oldObjects = [] then
    some {
      color := pool.color.flip
      oldThreads := pool.youngThreads
      oldObjects := pool.youngObjects
      youngThreads := 0
      youngObjects := [] }
  else none

inductive Phase where
  /-- Not in the pool. -/
  | away
  /-- In the pool, outside of the functions of this file. -/
  | working
  /-- In `_ports_thread_quiescent`, behind its critical section, with the rest of `free_list`. The
  flag tells a call by `_ports_thread_offline`. -/
  | quiescing (leaving : Bool) (freeList : List Nat)
  /-- In `_ports_thread_offline`, at the label `retry`. -/
  | retrying
  /-- In `_ports_thread_offline`, about to call `_ports_thread_quiescent`. -/
  | sentBack
  deriving DecidableEq, Repr

def Phase.freeList : Phase → List Nat
  | .quiescing _ freeList => freeList
  | _ => []

/-- A pool with its threads. A thread of no color has `COLOR_INVALID`. The last three fields are
history variables: how many dereferences were deferred, for each of them the threads that were
online at that moment and have been neither quiescent nor offline since, and the dereferences that
have been done. -/
structure Pool (ι : Type*) where
  pool : Threadpool
  color : ι → Option Color
  phase : ι → Phase
  deferred : Nat
  owed : Nat → Finset ι
  derefed : List Nat

section Operations

variable {ι : Type*} [DecidableEq ι]

def Pool.init : Pool ι where
  pool := .init
  color _ := none
  phase _ := .away
  deferred := 0
  owed _ := ∅
  derefed := []

def Pool.setColor (s : Pool ι) (t : ι) (c : Option Color) : Pool ι :=
  { s with color := update s.color t c }

def Pool.setPhase (s : Pool ι) (t : ι) (p : Phase) : Pool ι :=
  { s with phase := update s.phase t p }

/-- Thread `t` has been quiescent or has gone offline. -/
def Pool.settle (s : Pool ι) (t : ι) : Pool ι :=
  { s with owed := fun o => (s.owed o).erase t }

def portsThreadOnline (t : ι) (s : Pool ι) : Pool ι :=
  { s.setColor t (some s.pool.color.flip) with
    pool := { s.pool with youngThreads := s.pool.youngThreads + 1 } }

/-- The critical section of `_ports_thread_quiescent`, with the list of objects it takes. -/
def portsThreadQuiescent (t : ι) (s : Pool ι) : Option (Pool ι × List Nat) :=
  match s.color t with
  | none => none
  | some c =>
      if c = s.pool.color then
        let pool := { s.pool with
          oldThreads := s.pool.oldThreads - 1
          youngThreads := s.pool.youngThreads + 1 }
        let s := s.setColor t (some c.flip)
        if pool.oldThreads = 0 then
          (flipGenerations { pool with oldObjects := [] }).map fun flipped =>
            ({ s with pool := flipped }, pool.oldObjects)
        else some ({ s with pool := pool }, [])
      else some (s, [])

/-- The critical section at `retry` in `_ports_thread_offline`, by a young thread. -/
def portsThreadOffline (t : ι) (s : Pool ι) : Pool ι :=
  { s.setColor t none with
    pool := { s.pool with youngThreads := s.pool.youngThreads - 1 } }

/-- `_ports_port_deref_deferred`, when `malloc` succeeds. -/
def portsPortDerefDeferred [Fintype ι] (s : Pool ι) : Option (Pool ι) :=
  let pool := { s.pool with youngObjects := s.deferred :: s.pool.youngObjects }
  let s := { s with
    deferred := s.deferred + 1
    owed := update s.owed s.deferred (Finset.univ.filter fun t => s.color t ≠ none) }
  if pool.oldThreads = 0 then
    (flipGenerations pool).map fun flipped => { s with pool := flipped }
  else some { s with pool := pool }

/-- What threads do: join the pool, call `_ports_thread_quiescent` or `_ports_thread_offline`, go
on inside of these calls, and, in the pool or not, defer a dereference. -/
inductive PoolEvent (ι : Type*) where
  | online (t : ι)
  | quiescent (t : ι)
  | offline (t : ι)
  | advance (t : ι)
  | defer (malloc : Bool)
  deriving DecidableEq

/-- A thread runs the critical section of `_ports_thread_quiescent`. -/
def enterQuiescent (leaving : Bool) (t : ι) (s : Pool ι) : Option (Pool ι) :=
  (portsThreadQuiescent t s).map fun (s, freeList) =>
    (s.settle t).setPhase t (.quiescing leaving freeList)

/-- The next step of a thread inside of one of the calls. -/
def advanceThread (t : ι) (s : Pool ι) : Option (Pool ι) :=
  match s.phase t with
  | .quiescing leaving (o :: rest) =>
      some { s.setPhase t (.quiescing leaving rest) with derefed := o :: s.derefed }
  | .quiescing leaving [] => some (s.setPhase t (if leaving then .retrying else .working))
  | .retrying =>
      if s.color t = some s.pool.color then some (s.setPhase t .sentBack)
      else some (((portsThreadOffline t s).settle t).setPhase t .away)
  | .sentBack => enterQuiescent true t s
  | .away | .working => none

/-- Whether the event can take place. -/
def PoolEvent.Enabled (s : Pool ι) : PoolEvent ι → Prop
  | .online t => s.phase t = .away
  | .quiescent t | .offline t => s.phase t = .working
  | .advance t => s.phase t ≠ .away ∧ s.phase t ≠ .working
  | .defer _ => True

instance poolEventEnabledDecidable (s : Pool ι) (e : PoolEvent ι) : Decidable (e.Enabled s) :=
  match e with
  | .online t => inferInstanceAs (Decidable (s.phase t = .away))
  | .quiescent t => inferInstanceAs (Decidable (s.phase t = .working))
  | .offline t => inferInstanceAs (Decidable (s.phase t = .working))
  | .advance t => inferInstanceAs (Decidable (s.phase t ≠ .away ∧ s.phase t ≠ .working))
  | .defer _ => .isTrue trivial

/-- One step of the pool, or `none` when an assertion fails. -/
def poolStep [Fintype ι] (s : Pool ι) : PoolEvent ι → Option (Pool ι)
  | .online t => some ((portsThreadOnline t s).setPhase t .working)
  | .quiescent t => enterQuiescent false t s
  | .offline t => if s.color t = none then none else some (s.setPhase t .retrying)
  | .advance t => advanceThread t s
  | .defer malloc => if malloc then portsPortDerefDeferred s else some s

end Operations

section Invariant

variable {ι : Type*} [DecidableEq ι] [Fintype ι]

def ofColor (color : ι → Option Color) (c : Color) : Nat :=
  (Finset.univ.filter fun t => color t = some c).card

/-- How often object `o` is on a list of the pool, on the list of a thread that has taken it off
the pool, and among the dereferenced ones. -/
def Pool.spots (s : Pool ι) (o : Nat) : Nat :=
  s.pool.oldObjects.count o + s.pool.youngObjects.count o
    + ∑ t, (s.phase t).freeList.count o + s.derefed.count o

/-- The threads of each generation are counted, an object has one place, and the threads that it
has to wait for are of a generation that the list it is on waits for. -/
structure PoolInv (s : Pool ι) : Prop where
  old : s.pool.oldThreads = ofColor s.color s.pool.color
  young : s.pool.youngThreads = ofColor s.color s.pool.color.flip
  away : ∀ t, s.phase t = .away ↔ s.color t = none
  placed : ∀ o, s.spots o = if o < s.deferred then 1 else 0
  oldOwed : ∀ o ∈ s.pool.oldObjects, ∀ t ∈ s.owed o, s.color t = some s.pool.color
  youngOwed : ∀ o ∈ s.pool.youngObjects, ∀ t ∈ s.owed o, s.color t ≠ none
  takenOwed : ∀ o, (∃ t, o ∈ (s.phase t).freeList) ∨ o ∈ s.derefed → s.owed o = ∅

omit [Fintype ι] [DecidableEq ι] in
theorem eq_flip_of_ne {c d : Color} (h : c ≠ d) : c = d.flip := by
  cases c <;> cases d <;> simp_all [Color.flip]

theorem ofColor_update (color : ι → Option Color) (t : ι) (b : Option Color) (c : Color) :
    ofColor (update color t b) c + (if color t = some c then 1 else 0) =
      ofColor color c + (if b = some c then 1 else 0) :=
  card_filter_update Finset.univ (· = some c) color (mem_univ t) b

omit [DecidableEq ι] in
theorem ne_of_ofColor_eq_zero {color : ι → Option Color} {c : Color} (h : ofColor color c = 0)
    (t : ι) : color t ≠ some c := by
  intro ht
  have hmem : t ∈ Finset.univ.filter fun t => color t = some c := by simp [ht]
  rw [card_eq_zero.mp h] at hmem
  simp at hmem

theorem flip_ne (c : Color) : c.flip ≠ c := by cases c <;> simp [Color.flip]

@[simp] theorem flip_flip (c : Color) : c.flip.flip = c := by cases c <;> rfl

omit [DecidableEq ι] in
theorem PoolInv.lt_deferred {s : Pool ι} (h : PoolInv s) {o : Nat} (ho : s.spots o ≠ 0) :
    o < s.deferred := by
  have hp := h.placed o
  by_contra hlt
  rw [if_neg hlt] at hp
  exact ho hp

omit [DecidableEq ι] in
theorem Pool.spots_ne_zero (s : Pool ι) {o : Nat}
    (h : o ∈ s.pool.oldObjects ∨ o ∈ s.pool.youngObjects ∨
      (∃ t, o ∈ (s.phase t).freeList) ∨ o ∈ s.derefed) : s.spots o ≠ 0 := by
  simp only [Pool.spots]
  rcases h with h | h | ⟨t, h⟩ | h
  · have hcount := count_pos_iff.mpr h
    omega
  · have hcount := count_pos_iff.mpr h
    omega
  · have hcount := count_pos_iff.mpr h
    have hle := single_le_sum (f := fun t => (s.phase t).freeList.count o)
      (fun _ _ => Nat.zero_le _) (mem_univ t)
    omega
  · have hcount := count_pos_iff.mpr h
    omega

theorem spots_setPhase (s : Pool ι) (t : ι) (p : Phase) (o : Nat) :
    (s.setPhase t p).spots o + (s.phase t).freeList.count o =
      s.spots o + p.freeList.count o := by
  have hsum := sum_update Finset.univ (fun p : Phase => p.freeList.count o) s.phase
    (mem_univ t) p
  simp only [Pool.spots, Pool.setPhase]
  omega

omit [Fintype ι] in
theorem mem_freeList_setPhase {s : Pool ι} {t : ι} {p : Phase} {o : Nat}
    (h : ∃ u, o ∈ ((s.setPhase t p).phase u).freeList) :
    o ∈ p.freeList ∨ ∃ u, o ∈ (s.phase u).freeList := by
  obtain ⟨u, hu⟩ := h
  by_cases hut : u = t
  · subst hut
    left
    simpa [Pool.setPhase] using hu
  · right
    exact ⟨u, by simpa [Pool.setPhase, hut] using hu⟩

omit [Fintype ι] in
theorem away_setPhase {s : Pool ι} (h : ∀ t, s.phase t = .away ↔ s.color t = none) {t : ι}
    {p : Phase} (haway : p = .away ↔ s.color t = none) (u : ι) :
    (s.setPhase t p).phase u = .away ↔ s.color u = none := by
  by_cases hut : u = t
  · subst hut
    simpa [Pool.setPhase] using haway
  · simpa [Pool.setPhase, hut] using h u

theorem PoolInv.setPhase {s : Pool ι} (h : PoolInv s) {t : ι} {p : Phase}
    (haway : p = .away ↔ s.color t = none) (hlist : p.freeList = (s.phase t).freeList) :
    PoolInv (s.setPhase t p) where
  old := h.old
  young := h.young
  away := away_setPhase h.away haway
  placed o := by
    have hs := spots_setPhase s t p o
    rw [hlist] at hs
    exact (Nat.add_right_cancel hs).trans (h.placed o)
  oldOwed := h.oldOwed
  youngOwed := h.youngOwed
  takenOwed o ho := by
    apply h.takenOwed o
    rcases ho with ho | ho
    · rcases mem_freeList_setPhase ho with ho | ho
      · exact .inl ⟨t, hlist ▸ ho⟩
      · exact .inl ho
    · exact .inr ho

theorem PoolInv.settle {s : Pool ι} (h : PoolInv s) (t : ι) : PoolInv (s.settle t) where
  old := h.old
  young := h.young
  away := h.away
  placed := h.placed
  oldOwed o ho u hu := h.oldOwed o ho u (mem_of_mem_erase hu)
  youngOwed o ho u hu := h.youngOwed o ho u (mem_of_mem_erase hu)
  takenOwed o ho := by
    simp [Pool.settle, h.takenOwed o ho]

theorem PoolInv.recolor {s : Pool ι} (h : PoolInv s) (t : ι) (p : Phase) (b : Option Color)
    (pool : Threadpool)
    (hsame : pool.color = s.pool.color ∧ pool.oldObjects = s.pool.oldObjects ∧
      pool.youngObjects = s.pool.youngObjects)
    (hold : pool.oldThreads + (if s.color t = some s.pool.color then 1 else 0) =
      s.pool.oldThreads + (if b = some s.pool.color then 1 else 0))
    (hyoung : pool.youngThreads + (if s.color t = some s.pool.color.flip then 1 else 0) =
      s.pool.youngThreads + (if b = some s.pool.color.flip then 1 else 0))
    (hb : p = .away ↔ b = none) (hlist : p.freeList = (s.phase t).freeList)
    (howed : ∀ o ∈ s.pool.oldObjects ++ s.pool.youngObjects, t ∉ s.owed o) :
    PoolInv { (s.setColor t b).setPhase t p with pool := pool } := by
  obtain ⟨hcolor, hobjects, hyoungs⟩ := hsame
  constructor
  case old =>
    have hcount := ofColor_update s.color t b s.pool.color
    have hinv := h.old
    rw [hcolor]
    simp only [Pool.setPhase, Pool.setColor]
    omega
  case young =>
    have hcount := ofColor_update s.color t b s.pool.color.flip
    have hinv := h.young
    rw [hcolor]
    simp only [Pool.setPhase, Pool.setColor]
    omega
  case away =>
    intro u
    by_cases hut : u = t
    · subst hut
      simpa [Pool.setPhase, Pool.setColor] using hb
    · simpa [Pool.setPhase, Pool.setColor, hut] using h.away u
  case placed =>
    intro o
    have hs := spots_setPhase s t p o
    rw [hlist] at hs
    have heq : Pool.spots { (s.setColor t b).setPhase t p with pool := pool } o =
        (s.setPhase t p).spots o := by
      simp only [Pool.spots, Pool.setPhase, Pool.setColor, hobjects, hyoungs]
    exact heq.trans ((Nat.add_right_cancel hs).trans (h.placed o))
  case oldOwed =>
    intro o ho u hu
    have ho : o ∈ s.pool.oldObjects := hobjects ▸ ho
    have hut : u ≠ t := fun heq => howed o (mem_append_left _ ho) (heq ▸ hu)
    rw [hcolor]
    simpa [Pool.setPhase, Pool.setColor, hut] using h.oldOwed o ho u hu
  case youngOwed =>
    intro o ho u hu
    have ho : o ∈ s.pool.youngObjects := hyoungs ▸ ho
    have hut : u ≠ t := fun heq => howed o (mem_append_right _ ho) (heq ▸ hu)
    simpa [Pool.setPhase, Pool.setColor, hut] using h.youngOwed o ho u hu
  case takenOwed =>
    intro o ho
    apply h.takenOwed o
    rcases ho with ho | ho
    · rcases mem_freeList_setPhase ho with ho | ho
      · exact .inl ⟨t, hlist ▸ ho⟩
      · exact .inl ho
    · exact .inr ho

theorem PoolInv.rejuvenate {s : Pool ι} (h : PoolInv s) {t : ι}
    (ht : s.color t = some s.pool.color) :
    PoolInv { (s.setColor t (some s.pool.color.flip)).settle t with
      pool := { s.pool with
        oldThreads := s.pool.oldThreads - 1
        youngThreads := s.pool.youngThreads + 1 } } := by
  have hpos : 0 < s.pool.oldThreads := by
    rw [h.old]
    exact card_pos.mpr ⟨t, by simp [ht]⟩
  have hrecolor := (h.settle t).recolor t (s.phase t) (some s.pool.color.flip)
    { s.pool with
      oldThreads := s.pool.oldThreads - 1
      youngThreads := s.pool.youngThreads + 1 }
    ⟨rfl, rfl, rfl⟩ (by simp [Pool.settle, ht, flip_ne]; omega)
    (by simp [Pool.settle, ht, (flip_ne _).symm])
    (by simp [h.away, ht]) rfl (by simp [Pool.settle])
  simpa [Pool.setPhase, Pool.settle, Pool.setColor] using hrecolor

theorem PoolInv.takeOld {s : Pool ι} (h : PoolInv s) (hold : s.pool.oldThreads = 0) {t : ι}
    (hlist : (s.phase t).freeList = []) (ht : s.color t ≠ none) (leaving : Bool) :
    PoolInv { s.setPhase t (.quiescing leaving s.pool.oldObjects) with
      pool := { s.pool with oldObjects := [] } } where
  old := h.old
  young := h.young
  away := away_setPhase h.away (by simp [ht])
  placed o := by
    have hs := spots_setPhase s t (.quiescing leaving s.pool.oldObjects) o
    have hmoved : Pool.spots { s.setPhase t (.quiescing leaving s.pool.oldObjects) with
        pool := { s.pool with oldObjects := [] } } o + s.pool.oldObjects.count o =
        (s.setPhase t (.quiescing leaving s.pool.oldObjects)).spots o := by
      simp only [Pool.spots, Pool.setPhase, count_nil]
      omega
    rw [hlist] at hs
    simp only [count_nil, Phase.freeList] at hs
    have heq : Pool.spots { s.setPhase t (.quiescing leaving s.pool.oldObjects) with
        pool := { s.pool with oldObjects := [] } } o = s.spots o := by omega
    exact heq.trans (h.placed o)
  oldOwed o ho := by simp at ho
  youngOwed := h.youngOwed
  takenOwed o ho := by
    rcases ho with ho | ho
    · rcases mem_freeList_setPhase ho with ho | ho
      · have hnone := ne_of_ofColor_eq_zero (h.old ▸ hold)
        exact eq_empty_of_forall_notMem fun u hu => hnone u (h.oldOwed o ho u hu)
      · exact h.takenOwed o (.inl ho)
    · exact h.takenOwed o (.inr ho)

omit [Fintype ι] [DecidableEq ι] in
theorem flipGenerations_eq_some {pool flipped : Threadpool}
    (h : flipGenerations pool = some flipped) :
    pool.oldThreads = 0 ∧ pool.oldObjects = [] ∧
      flipped = ⟨pool.color.flip, pool.youngThreads, pool.youngObjects, 0, []⟩ := by
  unfold flipGenerations at h
  split at h
  · next hempty => exact ⟨hempty.1, hempty.2, (Option.some.inj h).symm⟩
  · cases h

omit [DecidableEq ι] in
theorem PoolInv.flip {s : Pool ι} (h : PoolInv s) {flipped : Threadpool}
    (hf : flipGenerations s.pool = some flipped) : PoolInv { s with pool := flipped } := by
  obtain ⟨hthreads, hobjects, rfl⟩ := flipGenerations_eq_some hf
  have hnone := ne_of_ofColor_eq_zero (h.old ▸ hthreads)
  constructor
  case old => exact h.young
  case young =>
    rw [h.old] at hthreads
    simpa using hthreads.symm
  case away => exact h.away
  case placed =>
    intro o
    have hp := h.placed o
    simp only [Pool.spots, hobjects, count_nil] at hp ⊢
    omega
  case oldOwed =>
    intro o ho u hu
    have hu := h.youngOwed o ho u hu
    cases hc : s.color u with
    | none => exact absurd hc hu
    | some c => rw [eq_flip_of_ne fun heq : c = s.pool.color => hnone u (heq ▸ hc)]
  case youngOwed =>
    intro o ho
    simp at ho
  case takenOwed => exact h.takenOwed

/-- What the critical section of `_ports_thread_quiescent` does. -/
inductive Quiesced (t : ι) (s : Pool ι) : Pool ι → List Nat → Prop
  | young : s.color t = some s.pool.color.flip → Quiesced t s s []
  | old : s.color t = some s.pool.color → s.pool.oldThreads - 1 ≠ 0 →
      Quiesced t s
        { s.setColor t (some s.pool.color.flip) with
          pool := { s.pool with
            oldThreads := s.pool.oldThreads - 1
            youngThreads := s.pool.youngThreads + 1 } } []
  | last {flipped : Threadpool} : s.color t = some s.pool.color → s.pool.oldThreads - 1 = 0 →
      flipGenerations { s.pool with
        oldThreads := s.pool.oldThreads - 1
        oldObjects := []
        youngThreads := s.pool.youngThreads + 1 } = some flipped →
      Quiesced t s { s.setColor t (some s.pool.color.flip) with pool := flipped }
        s.pool.oldObjects

omit [Fintype ι] in
theorem portsThreadQuiescent_spec {t : ι} {s s' : Pool ι} {freeList : List Nat}
    (h : portsThreadQuiescent t s = some (s', freeList)) : Quiesced t s s' freeList := by
  unfold portsThreadQuiescent at h
  cases hc : s.color t with
  | none =>
    rw [hc] at h
    cases h
  | some c =>
    simp only [hc] at h
    split_ifs at h with hcolor hlast
    · subst hcolor
      obtain ⟨flipped, hflip, heq⟩ := map_eq_some_iff.mp h
      cases heq
      exact .last hc hlast hflip
    · subst hcolor
      cases h
      exact .old hc hlast
    · cases h
      exact .young (by rw [hc, eq_flip_of_ne hcolor])

theorem PoolInv.enterQuiescent {s s' : Pool ι} (h : PoolInv s) {t : ι} {leaving : Bool}
    (hlist : (s.phase t).freeList = []) (hs : enterQuiescent leaving t s = some s') :
    PoolInv s' := by
  obtain ⟨⟨u, freeList⟩, hq, rfl⟩ := map_eq_some_iff.mp hs
  cases portsThreadQuiescent_spec hq with
  | young hc =>
    exact (h.settle t).setPhase (by simp [Pool.settle, hc]) hlist.symm
  | old hc _ =>
    exact (h.rejuvenate hc).setPhase (by simp [Pool.settle, Pool.setColor]) hlist.symm
  | last hc hlast hflip =>
    exact ((h.rejuvenate hc).takeOld hlast hlist (by simp [Pool.settle, Pool.setColor])
      leaving).flip hflip

theorem PoolInv.deref {s : Pool ι} (h : PoolInv s) {t : ι} {leaving : Bool} {o : Nat}
    {rest : List Nat} (hp : s.phase t = .quiescing leaving (o :: rest)) :
    PoolInv { s.setPhase t (.quiescing leaving rest) with derefed := o :: s.derefed } where
  old := h.old
  young := h.young
  away := away_setPhase h.away (by rw [← h.away t, hp]; simp)
  placed o' := by
    have hs := spots_setPhase s t (.quiescing leaving rest) o'
    rw [hp] at hs
    have hmoved : Pool.spots { s.setPhase t (.quiescing leaving rest) with
        derefed := o :: s.derefed } o' + rest.count o' =
        (s.setPhase t (.quiescing leaving rest)).spots o' + (o :: rest).count o' := by
      simp only [Pool.spots, Pool.setPhase, count_cons]
      omega
    simp only [Phase.freeList] at hs
    have heq : Pool.spots { s.setPhase t (.quiescing leaving rest) with
        derefed := o :: s.derefed } o' = s.spots o' := by omega
    exact heq.trans (h.placed o')
  oldOwed := h.oldOwed
  youngOwed := h.youngOwed
  takenOwed o' ho' := by
    apply h.takenOwed o'
    rcases ho' with ho' | ho'
    · rcases mem_freeList_setPhase ho' with ho' | ho'
      · exact .inl ⟨t, by rw [hp]; exact mem_cons_of_mem o ho'⟩
      · exact .inl ho'
    · rcases mem_cons.mp ho' with rfl | ho'
      · exact .inl ⟨t, by rw [hp]; exact mem_cons_self⟩
      · exact .inr ho'

theorem PoolInv.leave {s : Pool ι} (h : PoolInv s) {t : ι}
    (ht : s.color t = some s.pool.color.flip) (hlist : (s.phase t).freeList = []) :
    PoolInv (((portsThreadOffline t s).settle t).setPhase t .away) := by
  have hpos : 0 < s.pool.youngThreads := by
    rw [h.young]
    exact card_pos.mpr ⟨t, by simp [ht]⟩
  exact (h.settle t).recolor t .away none
    { s.pool with youngThreads := s.pool.youngThreads - 1 } ⟨rfl, rfl, rfl⟩
    (by simp [Pool.settle, ht, flip_ne]) (by simp [Pool.settle, ht]; omega)
    (by simp) hlist.symm (by simp [Pool.settle])

theorem PoolInv.advanceThread {s s' : Pool ι} (h : PoolInv s) {t : ι}
    (hs : advanceThread t s = some s') : PoolInv s' := by
  have haway := h.away t
  unfold Ports.advanceThread at hs
  split at hs
  next leaving o rest hp =>
    cases hs
    exact h.deref hp
  next leaving hp =>
    cases hs
    apply h.setPhase
    · rw [← haway, hp]
      cases leaving <;> simp
    · rw [hp]
      cases leaving <;> rfl
  next hp =>
    split at hs
    next =>
      cases hs
      exact h.setPhase (by rw [← haway, hp]; simp) (by rw [hp]; rfl)
    next hcolor =>
      cases hs
      cases hc : s.color t with
      | none =>
        rw [← haway, hp] at hc
        cases hc
      | some c =>
        rw [hc, Option.some.injEq] at hcolor
        exact h.leave (by rw [hc, eq_flip_of_ne hcolor]) (by rw [hp]; rfl)
  next hp => exact h.enterQuiescent (by rw [hp]; rfl) hs
  next => cases hs
  next => cases hs

theorem PoolInv.online {s : Pool ι} (h : PoolInv s) {t : ι} (hp : s.phase t = .away) :
    PoolInv ((portsThreadOnline t s).setPhase t .working) := by
  have hc := (h.away t).mp hp
  have howed : ∀ o ∈ s.pool.oldObjects ++ s.pool.youngObjects, t ∉ s.owed o := by
    intro o ho hmem
    rcases mem_append.mp ho with ho | ho
    · have hold := h.oldOwed o ho t hmem
      rw [hc] at hold
      cases hold
    · exact h.youngOwed o ho t hmem hc
  exact h.recolor t .working (some s.pool.color.flip)
    { s.pool with youngThreads := s.pool.youngThreads + 1 } ⟨rfl, rfl, rfl⟩
    (by simp [hc, flip_ne]) (by simp [hc]) (by simp) (by rw [hp]; rfl) howed

omit [DecidableEq ι] in
theorem PoolInv.enlist {s : Pool ι} (h : PoolInv s) :
    PoolInv { s with
      pool := { s.pool with youngObjects := s.deferred :: s.pool.youngObjects }
      deferred := s.deferred + 1
      owed := update s.owed s.deferred
        (Finset.univ.filter fun t => s.color t ≠ none) } := by
  have hsame : ∀ o, s.spots o ≠ 0 → update s.owed s.deferred
      (Finset.univ.filter fun t => s.color t ≠ none) o = s.owed o := by
    intro o ho
    exact update_of_ne (h.lt_deferred ho).ne _ _
  constructor
  case old => exact h.old
  case young => exact h.young
  case away => exact h.away
  case placed =>
    intro o
    have hp := h.placed o
    simp only [Pool.spots, count_cons, beq_iff_eq] at hp ⊢
    split_ifs at hp ⊢ <;> omega
  case oldOwed =>
    intro o ho u hu
    have hu : u ∈ s.owed o := by
      rw [← hsame o (s.spots_ne_zero (.inl ho))]
      exact hu
    exact h.oldOwed o ho u hu
  case youngOwed =>
    intro o ho u hu
    rcases mem_cons.mp ho with rfl | ho
    · simpa using hu
    · have hu : u ∈ s.owed o := by
        rw [← hsame o (s.spots_ne_zero (.inr (.inl ho)))]
        exact hu
      exact h.youngOwed o ho u hu
  case takenOwed =>
    intro o ho
    exact (hsame o (s.spots_ne_zero (.inr (.inr ho)))).trans (h.takenOwed o ho)

omit [DecidableEq ι] in
theorem PoolInv.defer {s s' : Pool ι} (h : PoolInv s)
    (hs : portsPortDerefDeferred s = some s') : PoolInv s' := by
  simp only [portsPortDerefDeferred] at hs
  split at hs
  · obtain ⟨flipped, hflip, rfl⟩ := map_eq_some_iff.mp hs
    exact h.enlist.flip hflip
  · cases hs
    exact h.enlist

omit [DecidableEq ι] in
theorem poolInv_init : PoolInv (.init : Pool ι) := by
  constructor <;> simp [Pool.init, Threadpool.init, ofColor, Pool.spots, Phase.freeList]

theorem poolInv_step {s s' : Pool ι} {e : PoolEvent ι} (h : PoolInv s) (he : e.Enabled s)
    (hs : poolStep s e = some s') : PoolInv s' := by
  cases e with
  | online t =>
    cases hs
    exact h.online he
  | quiescent t => exact h.enterQuiescent (by rw [he]; rfl) hs
  | offline t =>
    simp only [poolStep] at hs
    split at hs
    · cases hs
    · next hc =>
      cases hs
      exact h.setPhase (by simp [hc]) (by rw [he]; rfl)
  | advance t => exact h.advanceThread hs
  | defer malloc =>
    simp only [poolStep] at hs
    split at hs
    · exact h.defer hs
    · cases hs
      exact h

theorem poolInv_reach {ok : Pool ι → PoolEvent ι → Prop} (hok : ∀ s e, ok s e → e.Enabled s)
    {s : Pool ι} (h : Reach poolStep ok .init s) : PoolInv s :=
  h.invariant PoolInv poolInv_init fun s e _ hs he => poolInv_step hs (hok s e he)

/-- In every run a dereference that has been done waits for no thread any more, and the counts of
the pool are the numbers of its online threads of the two generations. -/
theorem deref_deferred_grace (ι : Type*) [DecidableEq ι] [Fintype ι] {s : Pool ι}
    (h : Reach poolStep (fun s e => PoolEvent.Enabled s e) .init s) :
    (∀ o ∈ s.derefed, s.owed o = ∅) ∧
      s.pool.oldThreads = (Finset.univ.filter fun t =>
        s.phase t ≠ .away ∧ s.color t = some s.pool.color).card ∧
      s.pool.youngThreads = (Finset.univ.filter fun t =>
        s.phase t ≠ .away ∧ s.color t ≠ some s.pool.color).card := by
  have hinv := poolInv_reach (fun _ _ he => he) h
  refine ⟨fun o ho => hinv.takenOwed o (.inr ho), ?_, ?_⟩
  · rw [hinv.old, ofColor]
    congr 1
    ext t
    have haway := hinv.away t
    simp only [Finset.mem_filter, Finset.mem_univ, true_and]
    constructor
    · intro hc
      exact ⟨by rw [ne_eq, haway, hc]; simp, hc⟩
    · exact And.right
  · rw [hinv.young, ofColor]
    congr 1
    ext t
    have haway := hinv.away t
    simp only [Finset.mem_filter, Finset.mem_univ, true_and, ne_eq, haway]
    cases hc : s.color t with
    | none => simp
    | some c =>
      have hflip : c = s.pool.color.flip ↔ c ≠ s.pool.color :=
        ⟨fun heq => heq ▸ flip_ne _, eq_flip_of_ne⟩
      simpa using hflip

/-- Two threads join, a dereference is deferred, both threads are quiescent, and the second one
dereferences the object. -/
def graceSchedule {ι : Type} (t u : ι) : List (PoolEvent ι) :=
  [.online t, .online u, .defer true, .quiescent t, .advance t, .defer true, .quiescent u,
    .advance u]

theorem deref_deferred_grace_two :
    ∃ s : Pool (Fin 2), s.derefed = [0] ∧ s.owed 0 = ∅ ∧ s.pool.oldThreads = 2 := by
  have hrun : (runLabels poolStep (Pool.init : Pool (Fin 2)) (graceSchedule 0 1)).isSome := by
    decide
  obtain ⟨s, hs⟩ := isSome_iff_exists.mp hrun
  have hview : (runLabels poolStep (Pool.init : Pool (Fin 2)) (graceSchedule 0 1)).map
      (fun s => (s.derefed, s.pool.oldThreads)) = some ([0], 2) := by decide
  rw [hs] at hview
  have hreach : Reach poolStep (fun s e => PoolEvent.Enabled s e) .init s :=
    Reach.labels (graceSchedule 0 1) .start (by decide) hs
  have hgrace := deref_deferred_grace (Fin 2) hreach
  simp only [map_some, Option.some.injEq, Prod.mk.injEq] at hview
  exact ⟨s, hview.1, hgrace.1 0 (by simp [hview.1]), hview.2⟩

/-- Dereferences are deferred only while some thread is in the pool. -/
def DefersOnline (s : Pool ι) : PoolEvent ι → Prop
  | .defer true => ∃ t, s.phase t ≠ .away
  | _ => True

instance (s : Pool ι) (e : PoolEvent ι) : Decidable (DefersOnline s e) :=
  match e with
  | .defer true => inferInstanceAs (Decidable (∃ t, s.phase t ≠ .away))
  | .defer false | .online _ | .quiescent _ | .offline _ | .advance _ => .isTrue trivial

/-- The old objects wait for some thread. -/
def Pool.Attended (s : Pool ι) : Prop := s.pool.oldThreads = 0 → s.pool.oldObjects = []

omit [Fintype ι] [DecidableEq ι] in
theorem flipGenerations_isSome {pool : Threadpool} (hthreads : pool.oldThreads = 0)
    (hobjects : pool.oldObjects = []) :
    flipGenerations pool =
      some ⟨pool.color.flip, pool.youngThreads, pool.youngObjects, 0, []⟩ := by
  simp [flipGenerations, hthreads, hobjects]

omit [Fintype ι] in
theorem enterQuiescent_attended {s : Pool ι} (hatt : s.Attended) {t : ι} {leaving : Bool}
    (hc : s.color t ≠ none) : ∃ s', enterQuiescent leaving t s = some s' ∧ s'.Attended := by
  obtain ⟨c, hc⟩ := ne_none_iff_exists'.mp hc
  by_cases hcolor : c = s.pool.color
  · by_cases hlast : s.pool.oldThreads - 1 = 0
    · refine ⟨_, by simp [enterQuiescent, portsThreadQuiescent, hc, hcolor, hlast,
        flipGenerations_isSome]; rfl, ?_⟩
      intro hzero
      simp [Pool.setPhase, Pool.settle] at hzero
    · refine ⟨_, by simp [enterQuiescent, portsThreadQuiescent, hc, hcolor, hlast]; rfl, ?_⟩
      intro hzero
      exact absurd hzero hlast
  · refine ⟨_, by simp [enterQuiescent, portsThreadQuiescent, hc, hcolor]; rfl, ?_⟩
    exact hatt

theorem poolStep_attended {s : Pool ι} {e : PoolEvent ι} (h : PoolInv s) (hatt : s.Attended)
    (he : e.Enabled s) (hon : DefersOnline s e) : ∃ s', poolStep s e = some s' ∧ s'.Attended := by
  cases e with
  | online t => exact ⟨_, rfl, hatt⟩
  | quiescent t =>
    apply enterQuiescent_attended hatt
    rw [ne_eq, ← h.away, he]
    simp
  | offline t =>
    have hc : s.color t ≠ none := by
      rw [ne_eq, ← h.away, he]
      simp
    exact ⟨_, if_neg hc, hatt⟩
  | advance t =>
    have haway := h.away t
    simp only [poolStep, advanceThread]
    cases hp : s.phase t with
    | away => exact absurd hp he.1
    | working => exact absurd hp he.2
    | quiescing leaving freeList =>
      cases freeList with
      | nil => exact ⟨_, rfl, hatt⟩
      | cons o rest => exact ⟨_, rfl, hatt⟩
    | retrying =>
      by_cases hc : s.color t = some s.pool.color
      · exact ⟨_, if_pos hc, hatt⟩
      · exact ⟨_, if_neg hc, hatt⟩
    | sentBack =>
      apply enterQuiescent_attended hatt
      rw [ne_eq, ← haway, hp]
      simp
  | defer malloc =>
    cases malloc with
    | false => exact ⟨s, rfl, hatt⟩
    | true =>
      by_cases hold : s.pool.oldThreads = 0
      · refine ⟨_, by simp [poolStep, portsPortDerefDeferred, hold, hatt hold,
          flipGenerations_isSome]; rfl, ?_⟩
        obtain ⟨t, ht⟩ := hon
        -- every thread in the pool is young, so that the flip makes some thread old
        have hyoung : s.color t = some s.pool.color.flip := by
          cases hc : s.color t with
          | none => exact absurd ((h.away t).mpr hc) ht
          | some c =>
            rw [eq_flip_of_ne fun heq : c = s.pool.color =>
              ne_of_ofColor_eq_zero (h.old ▸ hold) t (heq ▸ hc)]
        intro hzero
        have hnone : ofColor s.color s.pool.color.flip = 0 := h.young ▸ hzero
        exact absurd hyoung (ne_of_ofColor_eq_zero hnone t)
      · exact ⟨_, if_neg hold, fun hzero => absurd hzero hold⟩

/-- In every run that defers dereferences only while a thread is in the pool, no assertion fails,
and an object is on one list of the pool, or on that of one thread, until it is dereferenced
once. -/
theorem deref_deferred_placed (ι : Type*) [DecidableEq ι] [Fintype ι] {s : Pool ι}
    (h : Reach poolStep (fun s e => PoolEvent.Enabled s e ∧ DefersOnline s e) .init s) :
    (∀ e : PoolEvent ι, e.Enabled s → DefersOnline s e → (poolStep s e).isSome) ∧
      ∀ o < s.deferred, s.spots o = 1 := by
  have hinv := poolInv_reach (fun _ _ he => he.1) h
  have hatt : s.Attended := by
    have hboth := h.invariant (fun s => PoolInv s ∧ s.Attended) ⟨poolInv_init, fun _ => rfl⟩
      fun s e t hs he ht => by
        obtain ⟨u, hu, hatt⟩ := poolStep_attended hs.1 hs.2 he.1 he.2
        rw [ht, Option.some.injEq] at hu
        exact ⟨poolInv_step hs.1 he.1 ht, hu ▸ hatt⟩
    exact hboth.2
  constructor
  · intro e he hon
    obtain ⟨t, ht, _⟩ := poolStep_attended hinv hatt he hon
    simp [ht]
  · intro o ho
    simpa [ho] using hinv.placed o

theorem deref_deferred_placed_two :
    ∃ s : Pool (Fin 2), s.deferred = 2 ∧ s.spots 0 = 1 ∧ s.spots 1 = 1 := by
  have hrun : (runLabels poolStep (Pool.init : Pool (Fin 2)) (graceSchedule 0 1)).map
      (fun s => s.deferred) = some 2 := by decide
  obtain ⟨s, hs, hdeferred⟩ := map_eq_some_iff.mp hrun
  have hreach : Reach poolStep (fun s e => PoolEvent.Enabled s e ∧ DefersOnline s e) .init s :=
    Reach.labels (graceSchedule 0 1) .start (by decide) hs
  have hplaced := (deref_deferred_placed (Fin 2) hreach).2
  exact ⟨s, hdeferred, hplaced 0 (by omega), hplaced 1 (by omega)⟩

/-- Two dereferences are deferred while no thread is in the pool: the second one fails the
assertion that there are no old objects. -/
theorem deref_deferred_twice_aborts :
    ∃ s : Pool (Fin 1), Reach poolStep (fun s e => PoolEvent.Enabled s e) .init s ∧
      PoolEvent.Enabled s (.defer true) ∧ poolStep s (.defer true) = none := by
  have hrun : (runLabels poolStep (Pool.init : Pool (Fin 1)) [.defer true]).map
      (fun s => (poolStep s (.defer true)).isSome) = some false := by decide
  obtain ⟨s, hs, hstep⟩ := map_eq_some_iff.mp hrun
  exact ⟨s, Reach.labels [.defer true] .start (by decide) hs, trivial,
    not_isSome_iff_eq_none.mp (by simp [hstep])⟩

end Invariant

end Hurd.Ports
