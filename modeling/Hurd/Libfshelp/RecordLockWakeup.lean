import Hurd.Libfshelp.RecordLockRun

/-!
# No lost wake-up on a record lock

A blocked request sleeps on one record. As long as it sleeps the record is in its way, provided that
no record is cut back in place while a request sleeps on it.
-/

namespace Hurd.Fshelp

open List

/-- Every sleeping request sleeps on a record of the box that is in its way and knows of it. -/
def Parked (s : RlockBox) : Prop :=
  ∀ w ∈ s.waiters, w.record ∈ s.locks ∧ (s.heap w.record).waiting = true ∧
    conflicts w.po w.start w.len w.type (s.heap w.record) = true

theorem conflicts_extends {po : Nat} {start len : Int} {type : LockType} {r₀ r : RlockList}
    (h : Extends r₀ r) (hc : conflicts po start len type r₀ = true) :
    conflicts po start len type r = true := by
  obtain ⟨hpo, htype, hstart, hend⟩ := h
  simp only [conflicts, Bool.and_eq_true, Bool.or_eq_true, decide_eq_true_eq, beq_iff_eq] at hc ⊢
  obtain ⟨⟨hne, ht⟩, hover⟩ := hc
  have hover' : overlap start len r = true := by
    simp only [overlap, Bool.and_eq_true, Bool.or_eq_true, decide_eq_true_eq, beq_iff_eq]
      at hover ⊢
    omega
  exact ⟨⟨by rwa [hpo], ht.imp_left htype⟩, hover'⟩

section Edits

variable {s : RlockBox} {l : Nat}

theorem Parked.generated {po n : Nat} {start len : Int} {type : LockType} {s' : RlockBox}
    (h : Parked s) (hw : WellLinked s) (hg : Generated po start len type s n s') : Parked s' := by
  intro w hmem
  rw [hg.waiters] at hmem
  obtain ⟨hl, hwait, hc⟩ := h w hmem
  rw [hg.heap_old (hw.below _ hl), hg.locks, mem_listLink]
  exact ⟨.inr hl, hwait, hc⟩

theorem Parked.erase (h : Parked s) (hawake : ¬ s.SleptOn l) :
    Parked { s with locks := s.locks.erase l } := by
  intro w hmem
  obtain ⟨hl, hrest⟩ := h w hmem
  have hne : w.record ≠ l := fun he => hawake ⟨w, hmem, he⟩
  exact ⟨(mem_erase_of_ne hne).mpr hl, hrest⟩

theorem Parked.setRecord {r : RlockList} (h : Parked s)
    (hr : s.SleptOn l → r.waiting = (s.heap l).waiting ∧ Extends (s.heap l) r) :
    Parked (s.setRecord l r) := by
  intro w hmem
  obtain ⟨hl, hwait, hc⟩ := h w hmem
  refine ⟨hl, ?_⟩
  by_cases he : w.record = l
  · obtain ⟨hrw, hext⟩ := hr ⟨w, hmem, he⟩
    subst l
    rw [setRecord_heap_self]
    exact ⟨hrw.trans hwait, conflicts_extends hext hc⟩
  · rw [setRecord_heap_ne _ _ he]
    exact ⟨hwait, hc⟩

theorem not_sleptOn_broadcast (s : RlockBox) (l : Nat) : ¬ (s.broadcast l).SleptOn l := by
  rintro ⟨w, hmem, he⟩
  have h := (mem_filter.mp hmem).2
  simp [he] at h

theorem not_sleptOn_of_not_waiting (h : Parked s) (hw : (s.heap l).waiting = false) :
    ¬ s.SleptOn l := by
  rintro ⟨w, hmem, rfl⟩
  simp [(h w hmem).2.1] at hw

theorem mem_waiters_broadcast {w : Waiter} (hw : w ∈ (s.broadcast l).waiters) :
    w ∈ s.waiters ∧ w.record ≠ l := by
  have h := mem_filter.mp hw
  exact ⟨h.1, by simpa using h.2⟩

theorem Parked.setWake {r : RlockList} (h : Parked s) (hr : r.waiting = (s.heap l).waiting) :
    Parked ((s.setRecord l r).wakeWaiters l) := by
  unfold RlockBox.wakeWaiters
  rw [setRecord_heap_self]
  split
  · intro w hmem
    obtain ⟨hmem, hne⟩ := mem_waiters_broadcast hmem
    obtain ⟨hl, hrest⟩ := h w hmem
    refine ⟨hl, ?_⟩
    have hsame : (s.setRecord l r).heap w.record = s.heap w.record := setRecord_heap_ne _ _ hne
    simp only [RlockBox.broadcast]
    rw [setRecord_heap_ne _ _ hne, hsame]
    exact hrest
  · rename_i hwait
    have hawake : ¬ s.SleptOn l := by
      apply not_sleptOn_of_not_waiting h
      rw [← hr]
      simpa using hwait
    exact h.setRecord fun hs => absurd hs hawake

theorem Parked.setRele {r : RlockList} (h : Parked s) (hr : r.waiting = (s.heap l).waiting) :
    Parked (releLock l true (s.setRecord l r)) := by
  unfold releLock
  simp only [setRecord_heap_self, Bool.true_and]
  split
  · intro w hmem
    obtain ⟨hmem, hne⟩ := mem_waiters_broadcast hmem
    obtain ⟨hl, hrest⟩ := h w hmem
    refine ⟨(mem_erase_of_ne hne).mpr hl, ?_⟩
    have hsame : (s.setRecord l r).heap w.record = s.heap w.record := setRecord_heap_ne _ _ hne
    simp only [RlockBox.broadcast, RlockBox.unlink]
    rw [hsame]
    exact hrest
  · rename_i hwait
    have hawake : ¬ s.SleptOn l := by
      apply not_sleptOn_of_not_waiting h
      rw [← hr]
      simpa using hwait
    exact Parked.erase (h.setRecord fun hs => absurd hs hawake) hawake

theorem Parked.rele {w : Bool} (h : Parked s) (hw : w = true ∨ (s.heap l).waiting = false) :
    Parked (releLock l w s) := by
  have hsame : s.setRecord l (s.heap l) = s := by
    simp [RlockBox.setRecord]
  rcases hw with rfl | hw
  · have hset := h.setRele (show (s.heap l).waiting = (s.heap l).waiting from rfl)
    rwa [hsame] at hset
  · have hkeep : releLock l w s = s.unlink l := by
      simp [releLock, hw]
    rw [hkeep]
    exact h.erase (not_sleptOn_of_not_waiting h hw)

theorem Edit.parked {po : Nat} {keep : List Nat} {t : RlockBox} (he : Edit po keep True s t)
    (hw : WellLinked s) (h : Parked s) : Parked t := by
  induction he with
  | refl => exact h
  | gen he _ hg ih => exact ih.generated (he.wellLinked hw) hg
  | rele l w _ _ _ hwake ih => exact ih.rele hwake
  | set l r _ _ _ _ hr hq ih =>
    refine ih.setRecord fun hs => ⟨hr, ?_⟩
    rcases hq trivial with hawake | hext
    · exact absurd hs hawake
    · exact hext
  | setWake l r _ _ _ _ hr ih => exact ih.setWake hr
  | setRele l r _ _ _ _ _ hr ih => exact ih.setRele hr

theorem Parked.sleepOn {w : Waiter} (h : Parked s)
    (hf : findConflict w.po w.start w.len w.type s = some w.record) : Parked (s.sleepOn w) := by
  have hl : w.record ∈ s.locks := mem_of_find?_eq_some hf
  have hc : conflicts w.po w.start w.len w.type (s.heap w.record) = true := by
    have hfound := List.find?_some hf
    exact hfound
  intro w' hmem
  rcases mem_append.mp hmem with hmem | hmem
  · obtain ⟨hl', hwait, hc'⟩ := h w' hmem
    refine ⟨hl', ?_⟩
    by_cases he : w'.record = w.record
    · have hrec : (s.sleepOn w).heap w'.record = { s.heap w.record with waiting := true } := by
        rw [he]
        simp [RlockBox.sleepOn]
      rw [hrec]
      rw [he] at hc'
      exact ⟨rfl, hc'⟩
    · have hrec : (s.sleepOn w).heap w'.record = s.heap w'.record := by
        simp [RlockBox.sleepOn, RlockBox.setRecord, he]
      rw [hrec]
      exact ⟨hwait, hc'⟩
  · have he : w' = w := by simpa using hmem
    subst w'
    have hrec : (s.sleepOn w).heap w.record = { s.heap w.record with waiting := true } := by
      simp [RlockBox.sleepOn]
    rw [hrec]
    exact ⟨hl, rfl, hc⟩

theorem Parked.dropRecord (h : Parked s) (l : Nat) : Parked (dropRecord s l) := by
  have hsame : s.setRecord l (s.heap l) = s := by
    simp [RlockBox.setRecord]
  have hwake : Parked (s.wakeWaiters l) := by
    have hset := h.setWake (show (s.heap l).waiting = (s.heap l).waiting from rfl)
    rwa [hsame] at hset
  refine hwake.erase ?_
  unfold RlockBox.wakeWaiters
  split
  · exact not_sleptOn_broadcast _ l
  · rename_i hwait
    exact not_sleptOn_of_not_waiting h (by simpa using hwait)

theorem Parked.drop (h : Parked s) (po : Nat) : Parked (fshelpRlockDropPeropen po s) := by
  have hloop : ∀ (ls : List Nat) (s : RlockBox), Parked s →
      Parked (ls.foldl Fshelp.dropRecord s) := by
    intro ls
    induction ls with
    | nil => exact fun s h => h
    | cons l ls ih => exact fun s h => ih _ (h.dropRecord l)
  exact hloop (s.poLocks po) s h

end Edits

/-- The unlock carves no record that a request sleeps on. -/
def UnlockSparesSleepers (po : Nat) (malloc : Nat → Bool) (start len : Int) (s : RlockBox) :
    Prop :=
  ScanVisits (fun l t => ¬ (UnlockCarves start len (t.heap l) ∧ t.SleptOn l))
    (unlockBody po malloc start len) (s.poLocks po) s

/-- The grant cuts back no record that a request sleeps on. -/
def GrantSparesSleepers (po : Nat) (malloc : Nat → Bool) (start len : Int) (type : LockType)
    (s : RlockBox) : Prop :=
  ScanVisits (fun l v => ¬ (MergeCuts type v.start v.len (v.box.heap l) ∧ v.box.SleptOn l))
    (mergeBody po malloc type) (s.poLocks po) { start := start, len := len, box := s }

/-- The step takes none of the branches that cut a record without a broadcast while a request
sleeps on it. -/
def SparesSleepers (s : RlockBox) (e : RlockEvent) : Prop :=
  CallMeets UnlockSparesSleepers GrantSparesSleepers s e

theorem parked_survives : Survives UnlockSparesSleepers GrantSparesSleepers Parked where
  init w hw := by simp [RlockBox.init] at hw
  unlock po malloc start len s h hp hlen hspare := by
    have he : Edit po [] True s (unlockRegion po malloc start len s).1 :=
      unlockRegion_edits h.linked hlen (hspare.imp fun _ _ hs _ => hs)
    exact he.parked h.linked hp
  grant po malloc start len type s h hp hlen _ hspare := by
    have he : Edit po [] True s (mergeIn po malloc start len type s).1 :=
      mergeIn_edits h.linked hlen (hspare.imp fun _ _ hs _ => hs)
    exact he.parked h.linked hp
  sleep w s _ hp hf := hp.sleepOn hf
  drop po s _ hp := hp.drop po
  requests s ws ws' hp hsub w hw := hp w (hsub w hw)

/-- In every run that spares sleepers, each request that sleeps on a record, not woken since, is
still in conflict with it. -/
theorem rlock_sleepers_conflict {s : RlockBox}
    (h : Reach rlockStep (fun s e => NoOverflow e ∧ SparesSleepers s e) RlockBox.init s) :
    ∀ w ∈ s.waiters, w.record ∈ s.locks ∧
      conflicts w.po w.start w.len w.type (s.heap w.record) = true := by
  have hp : Parked s := parked_survives.reach h
  intro w hw
  exact ⟨(hp w hw).1, (hp w hw).2.2⟩

instance (s : RlockBox) (l : Nat) : Decidable (s.SleptOn l) :=
  inferInstanceAs (Decidable (∃ w ∈ s.waiters, w.record = l))

instance (start len : Int) (r : RlockList) : Decidable (UnlockCarves start len r) :=
  inferInstanceAs (Decidable (_ ∧ _ ∧ _))

instance (type : LockType) (start len : Int) (r : RlockList) :
    Decidable (MergeCuts type start len r) :=
  inferInstanceAs (Decidable (_ ∧ _ ∧ _))

instance (po : Nat) (malloc : Nat → Bool) (start len : Int) (s : RlockBox) :
    Decidable (UnlockSparesSleepers po malloc start len s) :=
  scanVisitsDecidable _ _ _ _

instance (po : Nat) (malloc : Nat → Bool) (start len : Int) (type : LockType) (s : RlockBox) :
    Decidable (GrantSparesSleepers po malloc start len type s) :=
  scanVisitsDecidable _ _ _ _

instance (s : RlockBox) (e : RlockEvent) : Decidable (SparesSleepers s e) :=
  inferInstanceAs (Decidable (CallMeets _ _ s e))

/-- A request sleeps on a record whose head is unlocked, tries again and sleeps once more. -/
def headSchedule : List RlockEvent :=
  [.tweak 0 (fun _ => true) (setRequest .setlk64 (.lock .wrlck) 0 30),
   .tweak 1 (fun _ => true) (setRequest .setlkw64 (.lock .wrlck) 20 10),
   .tweak 0 (fun _ => true) (setRequest .setlk64 .unlck 0 10),
   .resume 0 (fun _ => true)]

theorem rlock_sleepers_conflict_head :
    ∃ s, runLabels rlockStep RlockBox.init headSchedule = some s ∧
      s.waiters = [⟨0, 1, 20, 10, .wrlck⟩] ∧
      ∀ w ∈ s.waiters, w.record ∈ s.locks ∧
        conflicts w.po w.start w.len w.type (s.heap w.record) = true :=
  ⟨_, rfl, by decide, rlock_sleepers_conflict (.labels headSchedule .start (by decide) rfl)⟩

/-- A request for bytes 20 to 29 sleeps on a lock of bytes 0 to 29, of which first the middle and
then the rest of the request's region is unlocked. -/
def carveSchedule : List RlockEvent :=
  [.tweak 0 (fun _ => true) (setRequest .setlk64 (.lock .wrlck) 0 30),
   .tweak 1 (fun _ => true) (setRequest .setlkw64 (.lock .wrlck) 20 10),
   .tweak 0 (fun _ => true) (setRequest .setlk64 .unlck 10 10),
   .tweak 0 (fun _ => true) (setRequest .setlk64 .unlck 20 10)]

/-- The carving of `carveSchedule` leaves the request asleep on a record it does not conflict
with; after the last unlock nothing is in its way any more. -/
theorem rlock_carve_loses_wakeup :
    ∃ s, Reach rlockStep (fun _ e => NoOverflow e) RlockBox.init s ∧
      ∃ w ∈ s.waiters, conflicts w.po w.start w.len w.type (s.heap w.record) = false ∧
        findConflict w.po w.start w.len w.type s = none := by
  refine ⟨_, Reach.labels carveSchedule .start (by decide) rfl, ⟨0, 1, 20, 10, .wrlck⟩, ?_⟩
  decide

end Hurd.Fshelp
