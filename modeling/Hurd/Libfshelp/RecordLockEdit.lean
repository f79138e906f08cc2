import Hurd.Libfshelp.RecordLock
import Mathlib.Data.List.Perm.Basic
import Mathlib.Data.List.Nodup

/-!
# What one round of a lock loop does to the box

Every branch of `unlock_region` and `merge_in` is a short sequence of four elementary edits of the
records of one open: generate a record, release one, change one in place, change one in place and
wake its waiters.
-/

namespace Hurd.Fshelp

open Function List

/-- Both lists reach the same records, each once, and no record has a negative length. -/
structure WellLinked (s : RlockBox) : Prop where
  locksNodup : s.locks.Nodup
  poNodup : ∀ p, (s.poLocks p).Nodup
  mem_iff : ∀ p i, i ∈ s.poLocks p ↔ i ∈ s.locks ∧ (s.heap i).poId = p
  below : ∀ i ∈ s.locks, i < s.brk
  nonneg : ∀ i ∈ s.locks, 0 ≤ (s.heap i).len

theorem wellLinked_init : WellLinked RlockBox.init where
  locksNodup := nodup_nil
  poNodup _ := nodup_nil
  mem_iff p i := by simp [RlockBox.init]
  below i hi := by simp [RlockBox.init] at hi
  nonneg i hi := by simp [RlockBox.init] at hi

theorem listLink_perm (heap : Nat → RlockList) (node : Nat) (es : List Nat) :
    (listLink heap node es).Perm (node :: es) := by
  induction es with
  | nil => exact List.Perm.refl _
  | cons e es ih =>
    rw [listLink]
    split
    · exact (ih.cons e).trans (List.Perm.swap node e es)
    · exact List.Perm.refl _

@[simp] theorem mem_listLink (heap : Nat → RlockList) (node : Nat) (es : List Nat) (x : Nat) :
    x ∈ listLink heap node es ↔ x = node ∨ x ∈ es := by
  rw [(listLink_perm heap node es).mem_iff, mem_cons]

@[simp] theorem setRecord_locks (s : RlockBox) (l : Nat) (r : RlockList) :
    (s.setRecord l r).locks = s.locks := rfl

@[simp] theorem setRecord_poLocks (s : RlockBox) (l : Nat) (r : RlockList) :
    (s.setRecord l r).poLocks = s.poLocks := rfl

@[simp] theorem setRecord_brk (s : RlockBox) (l : Nat) (r : RlockList) :
    (s.setRecord l r).brk = s.brk := rfl

@[simp] theorem setRecord_heap_self (s : RlockBox) (l : Nat) (r : RlockList) :
    (s.setRecord l r).heap l = r := by
  simp [RlockBox.setRecord]

theorem setRecord_heap_ne (s : RlockBox) {l i : Nat} (r : RlockList) (h : i ≠ l) :
    (s.setRecord l r).heap i = s.heap i := by
  simp [RlockBox.setRecord, h]

@[simp] theorem wakeWaiters_locks (s : RlockBox) (l : Nat) :
    (s.wakeWaiters l).locks = s.locks := by
  unfold RlockBox.wakeWaiters
  split <;> rfl

@[simp] theorem wakeWaiters_poLocks (s : RlockBox) (l : Nat) :
    (s.wakeWaiters l).poLocks = s.poLocks := by
  unfold RlockBox.wakeWaiters
  split <;> rfl

@[simp] theorem wakeWaiters_brk (s : RlockBox) (l : Nat) :
    (s.wakeWaiters l).brk = s.brk := by
  unfold RlockBox.wakeWaiters
  split <;> rfl

theorem wakeWaiters_heap (s : RlockBox) (l i : Nat) :
    ∃ w, (s.wakeWaiters l).heap i = { s.heap i with waiting := w } := by
  unfold RlockBox.wakeWaiters
  split
  · by_cases hi : i = l
    · subst i
      exact ⟨false, by simp [RlockBox.broadcast]⟩
    · exact ⟨(s.heap i).waiting, by simp [RlockBox.broadcast, setRecord_heap_ne _ _ hi]⟩
  · exact ⟨(s.heap i).waiting, rfl⟩

/-- `w` is a request asleep or on its way back from its sleep. -/
def RlockBox.Pending (s : RlockBox) (w : Waiter) : Prop := w ∈ s.waiters ∨ w ∈ s.woken

/-- Some request sleeps on the record. -/
def RlockBox.SleptOn (s : RlockBox) (l : Nat) : Prop := ∃ w ∈ s.waiters, w.record = l

theorem pending_broadcast {s : RlockBox} {l : Nat} {w : Waiter}
    (h : (s.broadcast l).Pending w) : s.Pending w := by
  rcases h with h | h
  · exact .inl (mem_of_mem_filter h)
  · rcases mem_append.mp h with h | h
    · exact .inr h
    · exact .inl (mem_of_mem_filter h)

theorem pending_wakeWaiters {s : RlockBox} {l : Nat} {w : Waiter}
    (h : (s.wakeWaiters l).Pending w) : s.Pending w := by
  unfold RlockBox.wakeWaiters at h
  split at h
  · exact pending_broadcast h
  · exact h

theorem pending_releLock {s : RlockBox} {l : Nat} {b : Bool} {w : Waiter}
    (h : (releLock l b s).Pending w) : s.Pending w := by
  unfold releLock at h
  dsimp only at h
  split at h
  · exact pending_broadcast h
  · exact h

@[simp] theorem releLock_heap (l : Nat) (w : Bool) (s : RlockBox) :
    (releLock l w s).heap = s.heap := by
  unfold releLock
  dsimp only
  split <;> rfl

@[simp] theorem releLock_locks (l : Nat) (w : Bool) (s : RlockBox) :
    (releLock l w s).locks = s.locks.erase l := by
  unfold releLock
  dsimp only
  split <;> rfl

@[simp] theorem releLock_poLocks (l : Nat) (w : Bool) (s : RlockBox) :
    (releLock l w s).poLocks = update s.poLocks (s.heap l).poId
      ((s.poLocks (s.heap l).poId).erase l) := by
  unfold releLock
  dsimp only
  split <;> rfl

@[simp] theorem releLock_brk (l : Nat) (w : Bool) (s : RlockBox) :
    (releLock l w s).brk = s.brk := by
  unfold releLock
  dsimp only
  split <;> rfl

/-- The record `gen_lock` makes. -/
def newRecord (po : Nat) (start len : Int) (type : LockType) : RlockList where
  start := start
  len := len
  type := type
  waiting := false
  poId := po

/-- Everything a successful `gen_lock` does. -/
structure Generated (po : Nat) (start len : Int) (type : LockType) (s : RlockBox)
    (n : Nat) (s' : RlockBox) : Prop where
  addr : n = s.brk
  heap : s'.heap = update s.heap s.brk (newRecord po start len type)
  brk : s'.brk = s.brk + 1
  locks : s'.locks = listLink s'.heap s.brk s.locks
  poLocks : s'.poLocks = update s.poLocks po
    (listLink s'.heap s.brk (s.poLocks po))
  waiters : s'.waiters = s.waiters
  woken : s'.woken = s.woken

theorem genLock_generated {po : Nat} {malloc : Nat → Bool} {start len : Int} {type : LockType}
    {s : RlockBox} {p : Nat × RlockBox} (h : genLock po malloc start len type s = some p) :
    Generated po start len type s p.1 p.2 := by
  unfold genLock at h
  split at h
  · cases h
    exact ⟨rfl, rfl, rfl, rfl, rfl, rfl, rfl⟩
  · cases h

theorem Generated.heap_old {po : Nat} {start len : Int} {type : LockType} {s s' : RlockBox}
    {n i : Nat} (h : Generated po start len type s n s') (hi : i < s.brk) :
    s'.heap i = s.heap i := by
  rw [h.heap, update_of_ne (Nat.ne_of_lt hi)]

theorem Generated.heap_new {po : Nat} {start len : Int} {type : LockType} {s s' : RlockBox}
    {n : Nat} (h : Generated po start len type s n s') :
    s'.heap s.brk = newRecord po start len type := by
  rw [h.heap, update_self]

theorem Generated.wellLinked {po : Nat} {start len : Int} {type : LockType} {s s' : RlockBox}
    {n : Nat} (h : Generated po start len type s n s') (hw : WellLinked s) (hlen : 0 ≤ len) :
    WellLinked s' := by
  have hnew : s.brk ∉ s.locks := fun hm => Nat.lt_irrefl _ (hw.below _ hm)
  have hold : ∀ i ∈ s.locks, s'.heap i = s.heap i := fun i hi => h.heap_old (hw.below i hi)
  have hmem : ∀ i, i ∈ s'.locks ↔ i = s.brk ∨ i ∈ s.locks := by
    intro i
    rw [h.locks, mem_listLink]
  constructor
  · rw [h.locks, (listLink_perm _ _ _).nodup_iff]
    exact nodup_cons.mpr ⟨hnew, hw.locksNodup⟩
  · intro p
    rw [h.poLocks]
    by_cases hp : p = po
    · subst p
      rw [update_self, (listLink_perm _ _ _).nodup_iff]
      refine nodup_cons.mpr ⟨?_, hw.poNodup po⟩
      exact fun hm => hnew ((hw.mem_iff _ _).mp hm).1
    · rw [update_of_ne hp]
      exact hw.poNodup p
  · intro p i
    rw [hmem]
    have hpo : i ∈ s'.poLocks p ↔ (i = s.brk ∧ p = po) ∨ i ∈ s.poLocks p := by
      rw [h.poLocks]
      by_cases hp : p = po
      · subst p
        simp
      · simp [hp]
    rw [hpo, hw.mem_iff]
    constructor
    · rintro (⟨rfl, rfl⟩ | ⟨hi, hp⟩)
      · exact ⟨.inl rfl, by rw [h.heap_new]; rfl⟩
      · exact ⟨.inr hi, by rw [hold i hi]; exact hp⟩
    · rintro ⟨rfl | hi, hp⟩
      · left
        rw [h.heap_new] at hp
        exact ⟨rfl, hp.symm⟩
      · right
        rw [hold i hi] at hp
        exact ⟨hi, hp⟩
  · intro i hi
    rw [h.brk]
    rcases (hmem i).mp hi with rfl | hi
    · omega
    · exact Nat.lt_succ_of_lt (hw.below i hi)
  · intro i hi
    rcases (hmem i).mp hi with rfl | hi
    · rw [h.heap_new]
      exact hlen
    · rw [hold i hi]
      exact hw.nonneg i hi

theorem wellLinked_releLock {s : RlockBox} (hw : WellLinked s) (l : Nat) (w : Bool) :
    WellLinked (releLock l w s) := by
  constructor
  · rw [releLock_locks]
    exact hw.locksNodup.erase l
  · intro p
    rw [releLock_poLocks]
    by_cases hp : p = (s.heap l).poId
    · subst p
      rw [update_self]
      exact (hw.poNodup _).erase l
    · rw [update_of_ne hp]
      exact hw.poNodup p
  · intro p i
    rw [releLock_poLocks, releLock_locks, releLock_heap, hw.locksNodup.mem_erase_iff]
    by_cases hp : p = (s.heap l).poId
    · subst p
      rw [update_self, (hw.poNodup _).mem_erase_iff, hw.mem_iff]
      tauto
    · rw [update_of_ne hp, hw.mem_iff]
      constructor
      · rintro ⟨hi, he⟩
        exact ⟨⟨fun h => hp (by rw [← he, h]), hi⟩, he⟩
      · rintro ⟨⟨-, hi⟩, he⟩
        exact ⟨hi, he⟩
  · intro i hi
    rw [releLock_brk]
    rw [releLock_locks] at hi
    exact hw.below i (mem_of_mem_erase hi)
  · intro i hi
    rw [releLock_heap]
    rw [releLock_locks] at hi
    exact hw.nonneg i (mem_of_mem_erase hi)

theorem WellLinked.congr {s t : RlockBox} (hw : WellLinked s) (hl : t.locks = s.locks)
    (hp : t.poLocks = s.poLocks) (hb : t.brk = s.brk)
    (ho : ∀ i, (t.heap i).poId = (s.heap i).poId) (hn : ∀ i ∈ s.locks, 0 ≤ (t.heap i).len) :
    WellLinked t where
  locksNodup := hl ▸ hw.locksNodup
  poNodup p := hp ▸ hw.poNodup p
  mem_iff p i := by rw [hp, hl, ho]; exact hw.mem_iff p i
  below i hi := by rw [hb]; exact hw.below i (hl ▸ hi)
  nonneg i hi := hn i (hl ▸ hi)

theorem wellLinked_setRecord {s : RlockBox} (hw : WellLinked s) {l : Nat} {r : RlockList}
    (hpo : r.poId = (s.heap l).poId) (hlen : 0 ≤ r.len) : WellLinked (s.setRecord l r) := by
  refine hw.congr (setRecord_locks s l r) (setRecord_poLocks s l r) (setRecord_brk s l r) ?_ ?_
  · intro i
    by_cases hi : i = l
    · subst i
      simpa using hpo
    · rw [setRecord_heap_ne _ _ hi]
  · intro i hm
    by_cases hi : i = l
    · subst i
      simpa using hlen
    · rw [setRecord_heap_ne _ _ hi]
      exact hw.nonneg i hm

theorem wellLinked_sleepOn {s : RlockBox} (hw : WellLinked s) (w : Waiter)
    (hr : w.record ∈ s.locks) : WellLinked (s.sleepOn w) := by
  have hset : WellLinked (s.setRecord w.record { s.heap w.record with waiting := true }) :=
    wellLinked_setRecord hw rfl (hw.nonneg _ hr)
  exact ⟨hset.locksNodup, hset.poNodup, hset.mem_iff, hset.below, hset.nonneg⟩

theorem pending_sleepOn {s : RlockBox} {w w' : Waiter} (h : (s.sleepOn w).Pending w') :
    s.Pending w' ∨ w' = w := by
  rcases h with h | h
  · rcases mem_append.mp h with h | h
    · exact .inl (.inl h)
    · exact .inr (by simpa using h)
  · exact .inl (.inr h)

theorem wellLinked_wakeWaiters {s : RlockBox} (hw : WellLinked s) (l : Nat) :
    WellLinked (s.wakeWaiters l) := by
  apply hw.congr (wakeWaiters_locks s l) (wakeWaiters_poLocks s l) (wakeWaiters_brk s l)
  · intro i
    obtain ⟨w, h⟩ := wakeWaiters_heap s l i
    rw [h]
  · intro i hm
    obtain ⟨w, h⟩ := wakeWaiters_heap s l i
    rw [h]
    exact hw.nonneg i hm

/-- `r` locks at least what `r₀` locks, for the same open. -/
def Extends (r₀ r : RlockList) : Prop :=
  r.poId = r₀.poId ∧ (r₀.type = .wrlck → r.type = .wrlck) ∧
    r.start ≤ r₀.start ∧ (r.len = 0 ∨ (r₀.len ≠ 0 ∧ r₀.start + r₀.len ≤ r.start + r.len))

/-- A sequence of elementary edits of records of `po` that releases none of `keep`. When `quiet`
holds, no record with waiters is cut back without waking them. -/
inductive Edit (po : Nat) (keep : List Nat) (quiet : Prop) : RlockBox → RlockBox → Prop
  | refl (s : RlockBox) : Edit po keep quiet s s
  | gen {s t u : RlockBox} {start len : Int} {type : LockType} {n : Nat} :
      Edit po keep quiet s t → 0 ≤ len → Generated po start len type t n u →
      Edit po keep quiet s u
  | rele {s t : RlockBox} (l : Nat) (w : Bool) :
      Edit po keep quiet s t → l ∈ t.poLocks po → l ∉ keep →
      (w = true ∨ (t.heap l).waiting = false) → Edit po keep quiet s (releLock l w t)
  | set {s t : RlockBox} (l : Nat) (r : RlockList) :
      Edit po keep quiet s t → l ∈ t.poLocks po → r.poId = po → 0 ≤ r.len →
      r.waiting = (t.heap l).waiting →
      (quiet → ¬ t.SleptOn l ∨ Extends (t.heap l) r) →
      Edit po keep quiet s (t.setRecord l r)
  | setWake {s t : RlockBox} (l : Nat) (r : RlockList) :
      Edit po keep quiet s t → l ∈ t.poLocks po → r.poId = po → 0 ≤ r.len →
      r.waiting = (t.heap l).waiting →
      Edit po keep quiet s ((t.setRecord l r).wakeWaiters l)
  | setRele {s t : RlockBox} (l : Nat) (r : RlockList) :
      Edit po keep quiet s t → l ∈ t.poLocks po → l ∉ keep → r.poId = po → 0 ≤ r.len →
      r.waiting = (t.heap l).waiting →
      Edit po keep quiet s (releLock l true (t.setRecord l r))

theorem Edit.wellLinked {po : Nat} {keep : List Nat} {quiet : Prop} {s t : RlockBox}
    (h : Edit po keep quiet s t) (hw : WellLinked s) : WellLinked t := by
  induction h with
  | refl => exact hw
  | gen _ hlen hg ih => exact hg.wellLinked ih hlen
  | rele l w _ _ _ _ ih => exact wellLinked_releLock ih l w
  | set l r _ hl hpo hlen _ _ ih =>
    exact wellLinked_setRecord ih (hpo.trans ((ih.mem_iff _ _).mp hl).2.symm) hlen
  | setWake l r _ hl hpo hlen _ ih =>
    exact wellLinked_wakeWaiters
      (wellLinked_setRecord ih (hpo.trans ((ih.mem_iff _ _).mp hl).2.symm) hlen) l
  | setRele l r _ hl _ hpo hlen _ ih =>
    exact wellLinked_releLock
      (wellLinked_setRecord ih (hpo.trans ((ih.mem_iff _ _).mp hl).2.symm) hlen) l true

theorem Edit.pending {po : Nat} {keep : List Nat} {quiet : Prop} {s t : RlockBox}
    (h : Edit po keep quiet s t) {w : Waiter} (hw : t.Pending w) : s.Pending w := by
  induction h with
  | refl => exact hw
  | gen _ _ hg ih =>
    unfold RlockBox.Pending at hw
    rw [hg.waiters, hg.woken] at hw
    exact ih hw
  | rele l b _ _ _ _ ih => exact ih (pending_releLock hw)
  | set l r _ _ _ _ _ _ ih => exact ih hw
  | setWake l r _ _ _ _ _ ih =>
    have h := pending_wakeWaiters hw
    exact ih h
  | setRele l r _ _ _ _ _ _ ih =>
    have h := pending_releLock hw
    exact ih h

private theorem mem_poLocks_releLock {t : RlockBox} {po l i : Nat} (w : Bool) (hne : i ≠ l)
    (hi : i ∈ t.poLocks po) : i ∈ (releLock l w t).poLocks po := by
  rw [releLock_poLocks]
  by_cases hp : po = (t.heap l).poId
  · rw [← hp, update_self]
    exact (mem_erase_of_ne hne).mpr hi
  · rw [update_of_ne hp]
    exact hi

theorem Edit.keeps {po : Nat} {keep : List Nat} {quiet : Prop} {s t : RlockBox}
    (h : Edit po keep quiet s t) (hk : ∀ i ∈ keep, i ∈ s.poLocks po) :
    ∀ i ∈ keep, i ∈ t.poLocks po := by
  induction h with
  | refl => exact hk
  | gen _ _ hg ih =>
    intro i hi
    rw [hg.poLocks, update_self, mem_listLink]
    exact .inr (ih i hi)
  | rele l w _ _ hnot _ ih =>
    intro i hi
    exact mem_poLocks_releLock w (fun he => hnot (he ▸ hi)) (ih i hi)
  | set l r _ _ _ _ _ _ ih => exact ih
  | setWake l r _ _ _ _ _ ih =>
    intro i hi
    rw [wakeWaiters_poLocks]
    exact ih i hi
  | setRele l r _ _ hnot _ _ _ ih =>
    intro i hi
    exact mem_poLocks_releLock true (fun he => hnot (he ▸ hi)) (ih i hi)

theorem Edit.trans {po : Nat} {keep : List Nat} {quiet : Prop} {s t u : RlockBox}
    (h : Edit po keep quiet s t) (h' : Edit po keep quiet t u) : Edit po keep quiet s u := by
  induction h' with
  | refl => exact h
  | gen _ hlen hg ih => exact .gen ih hlen hg
  | rele l w _ hl hk hw ih => exact .rele l w ih hl hk hw
  | set l r _ hl hpo hlen hw hq ih => exact .set l r ih hl hpo hlen hw hq
  | setWake l r _ hl hpo hlen hw ih => exact .setWake l r ih hl hpo hlen hw
  | setRele l r _ hl hk hpo hlen hw ih => exact .setRele l r ih hl hk hpo hlen hw

theorem Edit.forget {po : Nat} {keep : List Nat} {quiet : Prop} {s t : RlockBox}
    (h : Edit po keep quiet s t) : Edit po [] quiet s t := by
  induction h with
  | refl => exact .refl _
  | gen _ hlen hg ih => exact .gen ih hlen hg
  | rele l w _ hl _ hw ih => exact .rele l w ih hl not_mem_nil hw
  | set l r _ hl hpo hlen hw hq ih => exact .set l r ih hl hpo hlen hw hq
  | setWake l r _ hl hpo hlen hw ih => exact .setWake l r ih hl hpo hlen hw
  | setRele l r _ hl _ hpo hlen hw ih => exact .setRele l r ih hl not_mem_nil hpo hlen hw

/-- A record is carved in two by an unlock that lies strictly inside it. -/
def UnlockCarves (start len : Int) (r : RlockList) : Prop :=
  r.start < start ∧ len ≠ 0 ∧ (r.len = 0 ∨ start + len < r.start + r.len)

/-- A read-lock record is cut back in place by a write-lock request of its own open: the request
leaves its tail, takes its tail, or takes its head. -/
def MergeCuts (type : LockType) (start len : Int) (r : RlockList) : Prop :=
  type = .wrlck ∧ r.type = .rdlck ∧
    ((r.start ≤ start ∧ len ≠ 0 ∧ (r.len = 0 ∨ start + len < r.start + r.len)) ∨
      (r.start < start ∧ start < r.start + r.len ∧
        (len = 0 ∨ r.start + r.len < start + len)) ∨
      (start < r.start ∧ len ≠ 0 ∧ r.start < start + len ∧
        (r.len = 0 ∨ start + len < r.start + r.len)))

section Rounds

variable {po : Nat} {malloc : Nat → Bool} {keep : List Nat} {quiet : Prop} {l : Nat}

/-- The box a round of `unlock_region` leaves. -/
def UnlockEdits (po : Nat) (keep : List Nat) (quiet : Prop) (s : RlockBox) :
    Round RlockBox (RlockBox × Outcome) → Prop
  | .next t => Edit po keep quiet s t
  | .stop (t, _) => Edit po keep quiet s t

/-- What a round of `unlock_region` can do. -/
inductive UnlockStep (po : Nat) (malloc : Nat → Bool) (start len : Int) (l : Nat) (s : RlockBox) :
    Round RlockBox (RlockBox × Outcome) → Prop
  | pass : UnlockStep po malloc start len l s (.next s)
  | finish (o : Outcome) : UnlockStep po malloc start len l s (.stop (s, o))
  | consume : UnlockStep po malloc start len l s (.next (releLock l true s))
  | head (hbefore : start ≤ (s.heap l).start) (hmeets : (s.heap l).start < start + len)
      (hrest : (s.heap l).len = 0 ∨ start + len < (s.heap l).start + (s.heap l).len) :
      UnlockStep po malloc start len l s (.next ((s.setRecord l
        { s.heap l with
          len := lenAdd (s.heap l).len (-(start + len - (s.heap l).start))
          start := start + len }).wakeWaiters l))
  | tail (hbefore : (s.heap l).start < start)
      (hmeets : (s.heap l).len = 0 ∨ start < (s.heap l).start + (s.heap l).len) :
      UnlockStep po malloc start len l s (.next ((s.setRecord l
        { s.heap l with len := start - (s.heap l).start }).wakeWaiters l))
  | carve {p : Nat × RlockBox} (hcarves : UnlockCarves start len (s.heap l))
      (hgen : genLock po malloc (start + len) ((s.heap l).tailLen (start + len))
        (s.heap l).type s = some p) :
      UnlockStep po malloc start len l s (.stop (p.2.setRecord l
        { s.heap l with len := start - (s.heap l).start }, .ret .success))

theorem unlockBody_step {start len : Int} {s : RlockBox} (hlen : 0 ≤ len)
    (hnn : 0 ≤ (s.heap l).len) :
    UnlockStep po malloc start len l s (unlockBody po malloc start len l s) := by
  unfold unlockBody
  dsimp only
  refine iteInduction (fun _ => .pass) fun h₁ => ?_
  refine iteInduction (fun _ => .finish _) fun h₂ => ?_
  refine iteInduction (fun _ => .consume) fun h₃ => ?_
  refine iteInduction (fun h₄ => ?head) fun h₄ => ?_
  case head =>
    refine iteInduction (fun _ => .finish _) fun h₅ => ?_
    exact .head h₄.1 (by omega) (by omega)
  refine iteInduction (fun h₅ => ?tail) fun h₅ => ?_
  case tail =>
    refine iteInduction (fun _ => .finish _) fun h₆ => ?_
    exact .tail h₅.1 (by omega)
  refine iteInduction (fun h₆ => ?carve) fun h₆ => ?_
  case carve =>
    refine iteInduction (fun _ => .finish _) fun h₇ => ?_
    cases hg : genLock po malloc (start + len) ((s.heap l).tailLen (start + len))
        (s.heap l).type s with
    | none => exact .finish _
    | some p => exact .carve ⟨h₆.1, not_not.mp h₇, by omega⟩ hg
  exact iteInduction (fun _ => .finish _) fun _ => .finish _

theorem unlockBody_edits {start len : Int} {s : RlockBox} (hw : WellLinked s) (hlen : 0 ≤ len)
    (hl : l ∈ s.poLocks po) (hk : l ∉ keep)
    (hq : quiet → ¬ (UnlockCarves start len (s.heap l) ∧ s.SleptOn l)) :
    UnlockEdits po keep quiet s (unlockBody po malloc start len l s) := by
  have hlocks := (hw.mem_iff po l).mp hl
  have hnn := hw.nonneg l hlocks.1
  have hround : UnlockStep po malloc start len l s (unlockBody po malloc start len l s) :=
    unlockBody_step hlen hnn
  generalize unlockBody po malloc start len l s = round at hround
  cases hround with
  | pass => exact Edit.refl s
  | finish => exact Edit.refl s
  | consume => exact Edit.rele l true (.refl s) hl hk (.inl rfl)
  | head hbefore hmeets hrest =>
    refine Edit.setWake l _ (.refl s) hl hlocks.2 ?_ rfl
    dsimp only
    unfold lenAdd
    split_ifs <;> omega
  | tail hbefore =>
    refine Edit.setWake l _ (.refl s) hl hlocks.2 ?_ rfl
    dsimp only
    omega
  | carve hcarves hg =>
    have hbefore := hcarves.1
    have hrest := hcarves.2.2
    have hgen := genLock_generated hg
    have hold := hgen.heap_old (hw.below l hlocks.1)
    refine Edit.set l _ (.gen (.refl s) ?_ hgen) ?_ hlocks.2 ?_ ?_ ?_
    · unfold RlockList.tailLen
      split_ifs <;> omega
    · rw [hgen.poLocks, update_self, mem_listLink]
      exact .inr hl
    · dsimp only
      omega
    · rw [hold]
    · intro hquiet
      refine .inl fun hsleep => hq hquiet ⟨hcarves, ?_⟩
      unfold RlockBox.SleptOn at *
      rwa [hgen.waiters] at hsleep

/-- The box and the region a round of `merge_in` leaves. -/
def MergeEdits (po : Nat) (keep : List Nat) (quiet : Prop) (s : RlockBox) :
    Round MergeVars (RlockBox × Outcome) → Prop
  | .next v => Edit po keep quiet s v.box ∧ 0 ≤ v.len
  | .stop (t, _) => Edit po keep quiet s t

theorem mergeFinish_edits {type : LockType} {v : MergeVars} (hv : 0 ≤ v.len) :
    Edit po keep quiet v.box (mergeFinish po malloc type v).1 := by
  unfold mergeFinish
  cases hg : genLock po malloc v.start v.len type v.box with
  | none => exact .refl _
  | some p => exact .gen (.refl _) hv (genLock_generated hg)

theorem genLockIf_edits {needed : Bool} {start len : Int} {type : LockType} {s t : RlockBox}
    {q : Option Nat × RlockBox} (h : Edit po keep quiet s t) (hlen : needed = true → 0 ≤ len)
    (hg : genLockIf needed po malloc start len type t = some q) :
    Edit po keep quiet s q.2 ∧ (∀ i ∈ t.poLocks po, i ∈ q.2.poLocks po) ∧
      (∀ i < t.brk, q.2.heap i = t.heap i) ∧ t.brk ≤ q.2.brk ∧ q.2.waiters = t.waiters ∧
      q.1.isSome = needed ∧
      ∀ n ∈ q.1, n = t.brk ∧ n ∈ q.2.poLocks po ∧ q.2.heap n = newRecord po start len type := by
  unfold genLockIf at hg
  cases needed with
  | false =>
    cases hg
    exact ⟨h, fun i hi => hi, fun i _ => rfl, Nat.le_refl _, rfl, rfl, by simp⟩
  | true =>
    obtain ⟨p, hp, rfl⟩ := Option.map_eq_some_iff.mp hg
    have hgen := genLock_generated hp
    have hpo : ∀ i, i ∈ p.2.poLocks po ↔ i = t.brk ∨ i ∈ t.poLocks po := by
      intro i
      rw [hgen.poLocks, update_self, mem_listLink]
    refine ⟨.gen h (hlen rfl) hgen, fun i hi => (hpo i).mpr (.inr hi),
      fun i hi => hgen.heap_old hi, ?_, hgen.waiters, rfl, ?_⟩
    · have := hgen.brk
      dsimp only
      omega
    · intro n hn
      have hn : p.1 = n := by simpa using hn
      subst n
      refine ⟨hgen.addr, (hpo _).mpr (.inl hgen.addr), ?_⟩
      rw [hgen.addr]
      exact hgen.heap_new

theorem splitHead_fields {head : Option Nat} {start : Int} {r : RlockList}
    (hsome : head.isSome = decide (r.start < start)) (hle : r.start ≤ start) :
    let r₁ := if head.isSome then
        { r with len := lenAdd r.len (-(start - r.start)), start := r.start + (start - r.start) }
      else r
    r₁.poId = r.poId ∧ r₁.waiting = r.waiting ∧ r₁.type = r.type ∧ r₁.start = start ∧
      r₁.len = lenAdd r.len (-(start - r.start)) := by
  dsimp only
  by_cases hlt : r.start < start
  · rw [hsome, decide_eq_true hlt, if_pos rfl]
    refine ⟨rfl, rfl, rfl, ?_, rfl⟩
    dsimp only
    omega
  · have heq : r.start = start := by omega
    rw [hsome, decide_eq_false hlt, if_neg Bool.false_ne_true]
    refine ⟨rfl, rfl, rfl, heq, ?_⟩
    unfold lenAdd
    split_ifs <;> omega

theorem mergeWrapped_edits {type : LockType} {v : MergeVars} (hw : WellLinked v.box)
    (hv : 0 ≤ v.len) (hl : l ∈ v.box.poLocks po) (hk : l ∉ keep)
    (hkeep : ∀ i ∈ keep, i ∈ v.box.poLocks po)
    (hin : (v.box.heap l).start ≤ v.start ∧ ((v.box.heap l).len = 0 ∨
      (v.len ≠ 0 ∧ v.start + v.len ≤ (v.box.heap l).start + (v.box.heap l).len)))
    (hq : quiet → ¬ (MergeCuts type v.start v.len (v.box.heap l) ∧ v.box.SleptOn l)) :
    MergeEdits po keep quiet v.box (mergeWrapped po malloc type l v) := by
  have hlocks := (hw.mem_iff po l).mp hl
  have hnn := hw.nonneg l hlocks.1
  have hbelow := hw.below l hlocks.1
  have hfresh : v.box.brk ∉ keep := fun hm =>
    Nat.lt_irrefl _ (hw.below _ ((hw.mem_iff po _).mp (hkeep _ hm)).1)
  unfold mergeWrapped
  dsimp only
  split_ifs with h₁ h₂
  · exact Edit.refl _
  · split
    · exact Edit.refl _
    · rename_i head s₁ hhead
      obtain ⟨he₁, hpo₁, hheap₁, hbrk₁, hwait₁, hsome₁, hnew₁⟩ :=
        genLockIf_edits (show Edit po keep quiet v.box v.box from .refl _)
          (by simp only [decide_eq_true_eq]; omega) hhead
      dsimp only at he₁ hpo₁ hheap₁ hbrk₁ hwait₁ hsome₁ hnew₁
      split
      · cases head with
        | none => exact he₁
        | some h =>
          obtain ⟨haddr, hmem, hrec⟩ := hnew₁ h rfl
          exact Edit.rele h false he₁ hmem (haddr ▸ hfresh) (.inr (by rw [hrec]; rfl))
      · rename_i tail s₂ htail
        obtain ⟨he₂, hpo₂, hheap₂, hbrk₂, hwait₂, hsome₂, hnew₂⟩ :=
          genLockIf_edits he₁ (by
            simp only [decide_eq_true_eq]
            unfold RlockList.tailLen
            split_ifs <;> omega) htail
        dsimp only at he₂ hpo₂ hheap₂ hbrk₂ hwait₂ hsome₂ hnew₂
        have hl₂ : l ∈ s₂.poLocks po := hpo₂ l (hpo₁ l hl)
        have hrec₂ : s₂.heap l = v.box.heap l := by
          rw [hheap₂ l (Nat.lt_of_lt_of_le hbelow hbrk₁), hheap₁ l hbelow]
        obtain ⟨hpo, hwait, -, hstart, hlen⟩ := splitHead_fields hsome₁ hin.1
        split
        · have hfit : 0 ≤ lenAdd (v.box.heap l).len (-(v.start - (v.box.heap l).start)) := by
            unfold lenAdd
            split_ifs <;> omega
          refine ⟨Edit.setRele l _ he₂ hl₂ hk (hpo.trans hlocks.2) ?_ ?_, ?_⟩
          · rw [hlen]
            exact hfit
          · rw [hwait, hrec₂]
          · dsimp only
            rw [hlen]
            exact hfit
        · have hcut : MergeCuts type v.start v.len (v.box.heap l) := by
            refine ⟨h₂.1, h₂.2, .inl ⟨hin.1, ?_⟩⟩
            have hneed := hsome₂.symm
            simp only [Option.isSome_some, decide_eq_true_eq] at hneed
            omega
          refine Edit.set l _ he₂ hl₂ (hpo.trans hlocks.2) ?_ ?_ ?_
          · dsimp only
            rw [hstart]
            omega
          · rw [hrec₂]
            exact hwait
          · intro hquiet
            refine .inl fun hsleep => hq hquiet ⟨hcut, ?_⟩
            unfold RlockBox.SleptOn at *
            rwa [hwait₂, hwait₁] at hsleep
  · exact Edit.refl _

theorem mergeWraps_edits {type : LockType} {v : MergeVars}
    (hv : 0 ≤ v.len) (hl : l ∈ v.box.poLocks po) (hk : l ∉ keep) :
    MergeEdits po keep quiet v.box (mergeWraps po malloc type l v) := by
  unfold mergeWraps
  dsimp only
  split
  · exact ⟨Edit.rele l true (.refl _) hl hk (.inl rfl), hv⟩
  · split
    · exact Edit.refl _
    · split
      · exact Edit.refl _
      · rename_i head s₁ hhead
        obtain ⟨he₁, -⟩ := genLockIf_edits (show Edit po keep quiet v.box v.box from .refl _)
          (by simp only [decide_eq_true_eq]; omega) hhead
        split
        · refine ⟨he₁, ?_⟩
          dsimp only
          unfold lenAdd
          split_ifs <;> omega
        · split <;> exact he₁

theorem mergeAfter_edits {type : LockType} {v : MergeVars} (hw : WellLinked v.box)
    (hv : 0 ≤ v.len) (hl : l ∈ v.box.poLocks po) (hk : l ∉ keep)
    (hin : (v.box.heap l).start < v.start ∧
      v.start ≤ (v.box.heap l).start + (v.box.heap l).len ∧
      (v.len = 0 ∨ v.start + v.len > (v.box.heap l).start + (v.box.heap l).len))
    (hq : quiet → ¬ (MergeCuts type v.start v.len (v.box.heap l) ∧ v.box.SleptOn l)) :
    MergeEdits po keep quiet v.box (mergeAfter type l v) := by
  have hlocks := (hw.mem_iff po l).mp hl
  unfold mergeAfter
  dsimp only
  split_ifs with h₁ h₂ h₃ h₄ h₅ h₆
  · refine ⟨Edit.rele l true (.refl _) hl hk (.inl rfl), ?_⟩
    dsimp only
    unfold lenAdd
    split_ifs <;> omega
  · exact ⟨Edit.refl _, hv⟩
  · have hcut : MergeCuts type v.start v.len (v.box.heap l) :=
      ⟨h₄, h₅, .inr (.inl ⟨hin.1, by omega, by omega⟩)⟩
    refine ⟨Edit.set l _ (.refl _) hl hlocks.2 ?_ rfl ?_, hv⟩
    · dsimp only
      omega
    · exact fun hquiet => .inl fun hsleep => hq hquiet ⟨hcut, hsleep⟩
  · exact Edit.refl _
  · refine ⟨Edit.refl _, ?_⟩
    dsimp only
    unfold lenAdd
    split_ifs <;> omega
  · exact Edit.refl _
  · exact Edit.refl _

theorem mergeBefore_edits {type : LockType} {v : MergeVars} (hw : WellLinked v.box)
    (hv : 0 ≤ v.len) (hl : l ∈ v.box.poLocks po)
    (hbefore : v.start < (v.box.heap l).start)
    (hq : quiet → ¬ (MergeCuts type v.start v.len (v.box.heap l) ∧ v.box.SleptOn l)) :
    MergeEdits po keep quiet v.box (mergeBefore po malloc type l v) := by
  have hlocks := (hw.mem_iff po l).mp hl
  have hnn := hw.nonneg l hlocks.1
  unfold mergeBefore
  dsimp only
  split_ifs with h₁ h₂ h₃ h₄ h₅ h₆
  · refine Edit.set l _ (.refl _) hl hlocks.2 ?_ rfl fun _ => .inr ⟨rfl, id, ?_, ?_⟩
    · dsimp only
      unfold lenAdd
      split_ifs <;> omega
    · dsimp only
      omega
    · dsimp only
      unfold lenAdd
      split_ifs <;> omega
  · exact ⟨Edit.refl _, hv⟩
  · cases hg : genLock po malloc v.start v.len .wrlck v.box with
    | none => exact Edit.refl _
    | some p =>
      have hgen := genLock_generated hg
      have hold := hgen.heap_old (hw.below l hlocks.1)
      refine Edit.set l _ (.gen (.refl _) hv hgen) ?_ hlocks.2 ?_ ?_ ?_
      · rw [hgen.poLocks, update_self, mem_listLink]
        exact .inr hl
      · dsimp only
        unfold lenAdd
        split_ifs <;> omega
      · rw [hold]
      · intro hquiet
        -- Either the request reaches into the record and cuts its head, or it ends short of a
        -- record that runs to the end of the file, which then grows downwards.
        by_cases hreach : (v.box.heap l).start < v.start + v.len
        · left
          have hcut : MergeCuts type v.start v.len (v.box.heap l) :=
            ⟨h₄, h₅, .inr (.inr ⟨hbefore, h₁.1, hreach, h₁.2⟩)⟩
          intro hsleep
          refine hq hquiet ⟨hcut, ?_⟩
          unfold RlockBox.SleptOn at *
          rwa [hgen.waiters] at hsleep
        · right
          rw [hold]
          refine ⟨rfl, id, ?_, ?_⟩
          · dsimp only
            omega
          · dsimp only
            unfold lenAdd
            split_ifs <;> omega
  · exact Edit.refl _
  · cases hg : genLock po malloc v.start ((v.box.heap l).start - v.start) .rdlck v.box with
    | none => exact Edit.refl _
    | some p => exact Edit.gen (.refl _) (by omega) (genLock_generated hg)
  · exact Edit.refl _
  · exact Edit.refl _

theorem mergeBody_edits {type : LockType} {v : MergeVars} (hw : WellLinked v.box)
    (hv : 0 ≤ v.len) (hl : l ∈ v.box.poLocks po) (hk : l ∉ keep)
    (hkeep : ∀ i ∈ keep, i ∈ v.box.poLocks po)
    (hq : quiet → ¬ (MergeCuts type v.start v.len (v.box.heap l) ∧ v.box.SleptOn l)) :
    MergeEdits po keep quiet v.box (mergeBody po malloc type l v) := by
  unfold mergeBody
  dsimp only
  split_ifs with h₁ h₂ h₃ h₄ h₅ h₆
  · exact mergeWrapped_edits hw hv hl hk hkeep h₁ hq
  · exact mergeWraps_edits hv hl hk
  · exact mergeAfter_edits hw hv hl hk h₃ hq
  · exact mergeBefore_edits hw hv hl h₄.1 hq
  · exact mergeFinish_edits hv
  · exact ⟨Edit.refl _, hv⟩
  · exact Edit.refl _

/-- The loop of a lock call in the middle: the box so far and the records still to be visited. -/
structure Underway (po : Nat) (quiet : Prop) (s : RlockBox) (ls : List Nat) (t : RlockBox) :
    Prop where
  edited : Edit po [] quiet s t
  linked : WellLinked t
  nodup : ls.Nodup
  listed : ∀ i ∈ ls, i ∈ t.poLocks po

theorem underway_start {s : RlockBox} (hw : WellLinked s) :
    Underway po quiet s (s.poLocks po) s :=
  ⟨.refl s, hw, hw.poNodup po, fun _ hi => hi⟩

theorem Underway.next {s t u : RlockBox} {ls : List Nat} (h : Underway po quiet s (l :: ls) t)
    (he : Edit po ls quiet t u) : Underway po quiet s ls u where
  edited := h.edited.trans he.forget
  linked := he.wellLinked h.linked
  nodup := (nodup_cons.mp h.nodup).2
  listed := he.keeps fun i hi => h.listed i (mem_cons_of_mem l hi)

theorem unlockRegion_edits {start len : Int} {s : RlockBox} (hw : WellLinked s) (hlen : 0 ≤ len)
    (hv : ScanVisits (fun l t => quiet → ¬ (UnlockCarves start len (t.heap l) ∧ t.SleptOn l))
      (unlockBody po malloc start len) (s.poLocks po) s) :
    Edit po [] quiet s (unlockRegion po malloc start len s).1 := by
  have hround : ∀ x xs t, Underway po quiet s (x :: xs) t →
      (quiet → ¬ (UnlockCarves start len (t.heap x) ∧ t.SleptOn x)) →
      UnlockEdits po xs quiet t (unlockBody po malloc start len x t) := by
    intro x xs t hinv hq
    exact unlockBody_edits hinv.linked hlen (hinv.listed x mem_cons_self)
      (nodup_cons.mp hinv.nodup).1 hq
  refine scan_rule _ (Underway po quiet s) (fun p => Edit po [] quiet s p.1)
    ?_ ?_ ?_ hv (underway_start hw)
  · intro x xs t u hinv hq hb
    have he := hround x xs t hinv hq
    rw [hb] at he
    exact hinv.next he
  · intro x xs t p hinv hq hb
    have he := hround x xs t hinv hq
    rw [hb] at he
    exact hinv.edited.trans (Edit.forget he)
  · intro t hinv
    exact hinv.edited

theorem mergeIn_edits {start len : Int} {type : LockType} {s : RlockBox} (hw : WellLinked s)
    (hlen : 0 ≤ len)
    (hv : ScanVisits (fun l v => quiet → ¬ (MergeCuts type v.start v.len (v.box.heap l) ∧
      v.box.SleptOn l)) (mergeBody po malloc type) (s.poLocks po)
      { start := start, len := len, box := s }) :
    Edit po [] quiet s (mergeIn po malloc start len type s).1 := by
  have hround : ∀ x xs v, Underway po quiet s (x :: xs) v.box ∧ 0 ≤ v.len →
      (quiet → ¬ (MergeCuts type v.start v.len (v.box.heap x) ∧ v.box.SleptOn x)) →
      MergeEdits po xs quiet v.box (mergeBody po malloc type x v) := by
    intro x xs v hinv hq
    exact mergeBody_edits hinv.1.linked hinv.2 (hinv.1.listed x mem_cons_self)
      (nodup_cons.mp hinv.1.nodup).1
      (fun i hi => hinv.1.listed i (mem_cons_of_mem x hi)) hq
  refine scan_rule _ (fun ls v => Underway po quiet s ls v.box ∧ 0 ≤ v.len)
    (fun p => Edit po [] quiet s p.1) ?_ ?_ ?_ hv ⟨underway_start hw, hlen⟩
  · intro x xs v v' hinv hq hb
    have he := hround x xs v hinv hq
    rw [hb] at he
    exact ⟨hinv.1.next he.1, he.2⟩
  · intro x xs v p hinv hq hb
    have he := hround x xs v hinv hq
    rw [hb] at he
    exact hinv.1.edited.trans (Edit.forget he)
  · intro v hinv
    exact hinv.1.edited.trans (mergeFinish_edits hinv.2)

end Rounds

/-- The region a request is left with has no negative length. -/
def Checked.LenOk : Checked → Prop
  | .unlock _ len => 0 ≤ len
  | .set _ _ len _ => 0 ≤ len
  | _ => True

theorem checkRange_lenOk (a : TweakArgs) {k : Int → Int → Checked}
    (hk : ∀ start len, 0 ≤ len → (k start len).LenOk) : (checkRange a k).LenOk := by
  have hfinish : ∀ start : Int, (if start < 0 then Checked.fail .einval
      else if a.lock.len < 0 then .fail .einval else k start a.lock.len).LenOk := by
    intro start
    split_ifs
    · trivial
    · trivial
    · exact hk _ _ (by omega)
  unfold checkRange
  cases a.lock.whence with
  | seekSet => exact hfinish _
  | seekCur => exact hfinish _
  | seekEnd => exact hfinish _
  | other => trivial

theorem checkArgs_lenOk (a : TweakArgs) : (checkArgs a).LenOk := by
  unfold checkArgs
  split
  · trivial
  · split
    · trivial
    · trivial
    · trivial
    · exact checkRange_lenOk a fun _ _ h => h
    · exact checkRange_lenOk a fun _ _ h => h
    · exact checkRange_lenOk a fun _ _ _ => trivial
    · split
      · trivial
      · exact checkRange_lenOk a fun _ _ h => h
    · split
      · trivial
      · exact checkRange_lenOk a fun _ _ h => h

section Drop

variable {s : RlockBox} {po : Nat}

theorem foldl_dropRecord (ls : List Nat) (s : RlockBox) :
    (ls.foldl dropRecord s).locks = s.locks.diff ls ∧
      (ls.foldl dropRecord s).poLocks = s.poLocks ∧ (ls.foldl dropRecord s).brk = s.brk ∧
      (∀ i, ∃ w, (ls.foldl dropRecord s).heap i = { s.heap i with waiting := w }) ∧
      ∀ w, (ls.foldl dropRecord s).Pending w → s.Pending w := by
  induction ls generalizing s with
  | nil => exact ⟨rfl, rfl, rfl, fun i => ⟨(s.heap i).waiting, rfl⟩, fun w h => h⟩
  | cons l ls ih =>
    obtain ⟨hl, hp, hb, hh, hw⟩ := ih (dropRecord s l)
    rw [foldl_cons, hl, hp, hb]
    refine ⟨?_, ?_, ?_, ?_, ?_⟩
    · simp [dropRecord, diff_cons]
    · simp [dropRecord]
    · simp [dropRecord]
    · intro i
      obtain ⟨w, hw⟩ := hh i
      obtain ⟨w', hw'⟩ := wakeWaiters_heap s l i
      refine ⟨w, ?_⟩
      rw [hw]
      change { (s.wakeWaiters l).heap i with waiting := w } = _
      rw [hw']
    · exact fun w h => pending_wakeWaiters (hw w h)

theorem wellLinked_drop (hw : WellLinked s) : WellLinked (fshelpRlockDropPeropen po s) := by
  obtain ⟨hl, hp, hb, hh, -⟩ := foldl_dropRecord (s.poLocks po) s
  have hmem : ∀ i, i ∈ ((s.poLocks po).foldl dropRecord s).locks ↔
      i ∈ s.locks ∧ i ∉ s.poLocks po := by
    intro i
    rw [hl, hw.locksNodup.mem_sdiff_iff]
  have howner : ∀ i, (((s.poLocks po).foldl dropRecord s).heap i).poId = (s.heap i).poId := by
    intro i
    obtain ⟨w, h⟩ := hh i
    rw [h]
  unfold fshelpRlockDropPeropen
  constructor
  · change ((s.poLocks po).foldl dropRecord s).locks.Nodup
    rw [hl]
    exact hw.locksNodup.diff
  · intro p
    dsimp only
    rw [hp]
    by_cases hpo : p = po
    · subst p
      rw [update_self]
      exact nodup_nil
    · rw [update_of_ne hpo]
      exact hw.poNodup p
  · intro p i
    dsimp only
    rw [hp, hmem, howner]
    by_cases hpo : p = po
    · subst p
      rw [update_self, hw.mem_iff]
      simp only [not_mem_nil, false_iff]
      tauto
    · rw [update_of_ne hpo, hw.mem_iff, hw.mem_iff]
      constructor
      · rintro ⟨hi, he⟩
        exact ⟨⟨hi, fun hne => hpo (he.symm.trans hne.2)⟩, he⟩
      · rintro ⟨⟨hi, -⟩, he⟩
        exact ⟨hi, he⟩
  · intro i hi
    dsimp only at hi ⊢
    rw [hb]
    exact hw.below i ((hmem i).mp hi).1
  · intro i hi
    dsimp only at hi ⊢
    obtain ⟨w, h⟩ := hh i
    rw [h]
    exact hw.nonneg i ((hmem i).mp hi).1

end Drop

end Hurd.Fshelp
