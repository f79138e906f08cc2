import Hurd.Libfshelp.RecordLockExclusion

/-!
# The records of one open as a list

The loops of `unlock_region` and `merge_in` walk along the records of one open and change them on
the way.
-/

namespace Hurd.Fshelp

open List Function

/-- The records of open `po`, in the order of its list. -/
def RlockBox.records (s : RlockBox) (po : Nat) : List RlockList := (s.poLocks po).map s.heap

/-- `list_link` on the records themselves. -/
def linkRecord (n : RlockList) : List RlockList → List RlockList
  | [] => [n]
  | e :: es => if e.start < n.start then e :: linkRecord n es else n :: e :: es

def enter (gens es : List RlockList) : List RlockList := gens.foldl (fun es n => linkRecord n es) es

/-- What a round does to the list of an open. The records `gens` are generated first. -/
inductive Turn where
  /-- The region becomes `start` and `len`, and `keep` takes the place of the record. -/
  | next (start len : Int) (gens keep : List RlockList)
  /-- The record becomes `r` and the loop ends. -/
  | stop (gens : List RlockList) (r : RlockList)
  | abort
  deriving DecidableEq, Repr

/-- All records of `gens` can be allocated, from address `brk` on. -/
def Granted (malloc : Nat → Bool) (brk : Nat) (gens : List RlockList) : Prop :=
  ∀ i < gens.length, malloc (brk + i) = true

instance (malloc : Nat → Bool) (brk : Nat) (gens : List RlockList) :
    Decidable (Granted malloc brk gens) :=
  inferInstanceAs (Decidable (∀ i < _, _))

section Turns

variable (turn : Int → Int → RlockList → Turn) (last : Int → Int → List RlockList)
  (malloc : Nat → Bool)

/-- The loop with `ds` behind it. At the end of the list it generates `last`. -/
def runTurns : List RlockList → List RlockList → Int → Int → Nat → List RlockList × Outcome
  | [], ds, start, len, brk =>
      if Granted malloc brk (last start len) then
        (enter (last start len) ds, .ret .success)
      else
        (ds, .ret .enomem)
  | r :: rs, ds, start, len, brk =>
      match turn start len r with
      | .next start' len' gens keep =>
          if Granted malloc brk gens then
            runTurns rs (enter gens ds ++ keep) start' len' (brk + gens.length)
          else
            (ds ++ r :: rs, .ret .enomem)
      | .stop gens r' =>
          if Granted malloc brk gens then
            (enter gens (ds ++ r' :: rs), .ret .success)
          else
            (ds ++ r :: rs, .ret .enomem)
      | .abort => (ds ++ r :: rs, .abort)

end Turns

section Link

variable {n r : RlockList} {es ds rs : List RlockList}

@[simp] theorem enter_nil (es : List RlockList) : enter [] es = es := rfl

@[simp] theorem enter_cons (n : RlockList) (gens es : List RlockList) :
    enter (n :: gens) es = enter gens (linkRecord n es) := rfl

@[simp] theorem newRecord_start (po : Nat) (start len : Int) (type : LockType) :
    (newRecord po start len type).start = start := rfl

@[simp] theorem newRecord_len (po : Nat) (start len : Int) (type : LockType) :
    (newRecord po start len type).len = len := rfl

@[simp] theorem newRecord_type (po : Nat) (start len : Int) (type : LockType) :
    (newRecord po start len type).type = type := rfl

theorem enter_append (gens gens' es : List RlockList) :
    enter (gens ++ gens') es = enter gens' (enter gens es) :=
  foldl_append

theorem map_listLink (heap : Nat → RlockList) (node : Nat) (es : List Nat) :
    (listLink heap node es).map heap = linkRecord (heap node) (es.map heap) := by
  induction es with
  | nil => rfl
  | cons e es ih =>
    rw [listLink, map_cons, linkRecord]
    split
    · rw [map_cons, ih]
    · rfl

theorem listLink_congr {heap heap' : Nat → RlockList} {node : Nat} {es : List Nat}
    (h : ∀ i ∈ es, (heap i).start < (heap node).start ↔ (heap' i).start < (heap' node).start) :
    listLink heap node es = listLink heap' node es := by
  induction es with
  | nil => rfl
  | cons e es ih =>
    simp only [listLink]
    by_cases he : (heap e).start < (heap node).start
    · have he' := (h e mem_cons_self).mp he
      rw [if_pos he, if_pos he', ih fun i hi => h i (mem_cons_of_mem e hi)]
    · have he' := mt (h e mem_cons_self).mpr he
      rw [if_neg he, if_neg he']

theorem listLink_before {heap : Nat → RlockList} {node l : Nat} {R : List Nat}
    (h : (heap node).start ≤ (heap l).start) (D : List Nat) :
    listLink heap node (D ++ l :: R) = listLink heap node D ++ l :: R := by
  induction D with
  | nil => simp [listLink, Int.not_lt.mpr h]
  | cons d D ih =>
    rw [cons_append, listLink, listLink]
    split
    · rw [ih, cons_append]
    · rfl

theorem linkRecord_append (h : ∀ x ∈ ds, x.start < n.start) :
    linkRecord n (ds ++ rs) = ds ++ linkRecord n rs := by
  induction ds with
  | nil => rfl
  | cons x ds ih =>
    rw [cons_append, linkRecord, if_pos (h x mem_cons_self),
      ih fun y hy => h y (mem_cons_of_mem x hy), cons_append]

theorem linkRecord_of_le (h : ∀ x ∈ rs, n.start ≤ x.start) : linkRecord n rs = n :: rs := by
  cases rs with
  | nil => rfl
  | cons x rs =>
    have hle := h x mem_cons_self
    rw [linkRecord, if_neg (by omega)]

end Link

theorem WellLinked.records_nonneg {s : RlockBox} (hw : WellLinked s) (po : Nat) :
    ∀ x ∈ s.records po, 0 ≤ x.len := by
  intro x hx
  obtain ⟨i, hi, rfl⟩ := mem_map.mp hx
  exact hw.nonneg i ((hw.mem_iff po i).mp hi).1

/-- The list of the open is `D`, with the records `ds`, and then `R`, with the records `rs`. -/
structure Cursor (s : RlockBox) (po : Nat) (D R : List Nat) (ds rs : List RlockList) : Prop where
  linked : WellLinked s
  list : s.poLocks po = D ++ R
  before : D.map s.heap = ds
  after : R.map s.heap = rs

/-- The records of `gens` are generated one after the other. -/
inductive Generates (po : Nat) : List RlockList → RlockBox → RlockBox → Prop
  | nil (s : RlockBox) : Generates po [] s s
  | cons {s t u : RlockBox} {n : Nat} {start len : Int} {type : LockType} {gens : List RlockList} :
      Generated po start len type s n t → 0 ≤ len → Generates po gens t u →
      Generates po (newRecord po start len type :: gens) s u

section Cursor

variable {s t : RlockBox} {po l n : Nat} {D R : List Nat} {ds rs gens : List RlockList}
  {r r' : RlockList} {start len : Int} {type : LockType}

namespace Cursor

theorem records (h : Cursor s po D R ds rs) : s.records po = ds ++ rs := by
  rw [RlockBox.records, h.list, map_append, h.before, h.after]

theorem here (h : Cursor s po D (l :: R) ds (r :: rs)) : s.heap l = r :=
  (List.cons.inj h.after).1

theorem mem (h : Cursor s po D (l :: R) ds (r :: rs)) : l ∈ s.poLocks po := by
  rw [h.list]
  exact mem_append_right _ mem_cons_self

theorem mem_locks (h : Cursor s po D (l :: R) ds (r :: rs)) : l ∈ s.locks :=
  ((h.linked.mem_iff po l).mp h.mem).1

theorem poId_eq (h : Cursor s po D (l :: R) ds (r :: rs)) : r.poId = po := by
  rw [← h.here]
  exact ((h.linked.mem_iff po l).mp h.mem).2

theorem len_nonneg (h : Cursor s po D (l :: R) ds (r :: rs)) : 0 ≤ r.len := by
  rw [← h.here]
  exact h.linked.nonneg l h.mem_locks

theorem notMem (h : Cursor s po D (l :: R) ds (r :: rs)) : l ∉ D ∧ l ∉ R := by
  have hnodup := h.linked.poNodup po
  rw [h.list, nodup_middle, nodup_cons, mem_append, not_or] at hnodup
  exact hnodup.1

theorem set (h : Cursor s po D (l :: R) ds (r :: rs)) (hpo : r'.poId = r.poId) (hlen : 0 ≤ r'.len) :
    Cursor (s.setRecord l r') po D (l :: R) ds (r' :: rs) where
  linked := wellLinked_setRecord h.linked (by rw [hpo, h.here]) hlen
  list := h.list
  before := by
    rw [← h.before]
    exact map_congr_left fun i hi => setRecord_heap_ne s r' fun heq => h.notMem.1 (heq ▸ hi)
  after := by
    rw [map_cons, setRecord_heap_self, ← (List.cons.inj h.after).2]
    congr 1
    exact map_congr_left fun i hi => setRecord_heap_ne s r' fun heq => h.notMem.2 (heq ▸ hi)

theorem wake (h : Cursor s po D (l :: R) ds (r :: rs)) :
    Cursor (s.wakeWaiters l) po D (l :: R) ds ({ r with waiting := false } :: rs) := by
  have hset : Cursor (s.setRecord l { r with waiting := false }) po D (l :: R) ds
      ({ r with waiting := false } :: rs) := h.set rfl h.len_nonneg
  unfold RlockBox.wakeWaiters
  rw [h.here]
  split
  · exact ⟨⟨hset.linked.locksNodup, hset.linked.poNodup, hset.linked.mem_iff, hset.linked.below,
      hset.linked.nonneg⟩, hset.list, hset.before, hset.after⟩
  · rename_i hwait
    have hrec : ({ r with waiting := false } : RlockList) = r := by
      cases r
      simpa using hwait
    rw [hrec]
    exact h

theorem rele (h : Cursor s po D (l :: R) ds (r :: rs)) (w : Bool) :
    Cursor (releLock l w s) po D R ds rs where
  linked := wellLinked_releLock h.linked l w
  list := by
    rw [releLock_poLocks, h.here, h.poId_eq, update_self, h.list,
      erase_append_right _ h.notMem.1, erase_cons_head]
  before := by rw [releLock_heap, h.before]
  after := by rw [releLock_heap, (List.cons.inj h.after).2]

theorem pass (h : Cursor s po D (l :: R) ds (r :: rs)) :
    Cursor s po (D ++ [l]) R (ds ++ [r]) rs where
  linked := h.linked
  list := by rw [h.list, append_assoc, singleton_append]
  before := by rw [map_append, h.before, map_singleton, h.here]
  after := (List.cons.inj h.after).2

end Cursor

theorem Generated.map_old (hg : Generated po start len type s n t) (hw : WellLinked s) {q : Nat}
    (hD : ∀ i ∈ D, i ∈ s.poLocks q) : D.map t.heap = D.map s.heap :=
  map_congr_left fun i hi => hg.heap_old (hw.below i ((hw.mem_iff q i).mp (hD i hi)).1)

theorem Generated.records_eq (hg : Generated po start len type s n t) (hw : WellLinked s) :
    t.records po = linkRecord (newRecord po start len type) (s.records po) := by
  unfold RlockBox.records
  rw [hg.poLocks, update_self, map_listLink, hg.heap_new, hg.map_old hw fun i hi => hi]

theorem Cursor.gen (h : Cursor s po D (l :: R) ds (r :: rs))
    (hg : Generated po start len type s n t) (hlen : 0 ≤ len) (hle : start ≤ r.start) :
    Cursor t po (listLink t.heap s.brk D) (l :: R)
      (linkRecord (newRecord po start len type) ds) (r :: rs) := by
  have hmem : ∀ i ∈ D ++ l :: R, i ∈ s.poLocks po := fun i hi => h.list ▸ hi
  have hD := hg.map_old h.linked fun i hi => hmem i (mem_append_left _ hi)
  have hR := hg.map_old h.linked fun i hi => hmem i (mem_append_right D hi)
  have hl : t.heap l = r := by
    rw [← h.here]
    exact (List.cons.inj hR).1
  refine ⟨hg.wellLinked h.linked hlen, ?_, ?_, by rw [hR, h.after]⟩
  · rw [hg.poLocks, update_self, h.list, listLink_before]
    rw [hg.heap_new, hl]
    exact hle
  · rw [map_listLink, hg.heap_new, hD, h.before]

namespace Generates

theorem nil_eq (hg : Generates po [] s t) : t = s := by
  cases hg
  rfl

theorem brk (hg : Generates po gens s t) : t.brk = s.brk + gens.length := by
  induction hg with
  | nil s => rfl
  | cons hg _ _ ih =>
    rw [ih, hg.brk, length_cons]
    omega

theorem records_eq (hg : Generates po gens s t) (hw : WellLinked s) :
    t.records po = enter gens (s.records po) := by
  induction hg with
  | nil s => rfl
  | cons hg hlen _ ih => rw [ih (hg.wellLinked hw hlen), hg.records_eq hw, enter_cons]

theorem cursor (hg : Generates po gens s t) (h : Cursor s po D (l :: R) ds (r :: rs))
    (hle : ∀ n ∈ gens, n.start ≤ r.start) :
    ∃ D', Cursor t po D' (l :: R) (enter gens ds) (r :: rs) := by
  induction hg generalizing D ds with
  | nil s => exact ⟨D, h⟩
  | cons hg hlen _ ih =>
    apply ih (h.gen hg hlen (hle _ mem_cons_self))
    exact fun n hn => hle n (mem_cons_of_mem _ hn)

theorem records_set (hg : Generates po gens s t) (hw : WellLinked s) (hl : l ∈ s.poLocks po)
    (hiff : ∀ n ∈ gens, (s.heap l).start < n.start ↔ r'.start < n.start) :
    (t.setRecord l r').records po = enter gens ((s.setRecord l r').records po) := by
  induction hg with
  | nil s => rfl
  | @cons s t u n start len type gens hg hlen _ ih =>
    have hbelow := hw.below l ((hw.mem_iff po l).mp hl).1
    have hold := hg.heap_old hbelow
    have hmem : l ∈ t.poLocks po := by
      rw [hg.poLocks, update_self, mem_listLink]
      exact .inr hl
    rw [ih (hg.wellLinked hw hlen) hmem fun m hm => by
      rw [hold]
      exact hiff m (mem_cons_of_mem _ hm)]
    rw [enter_cons]
    congr 1
    have hnew : (t.setRecord l r').heap s.brk = newRecord po start len type := by
      rw [setRecord_heap_ne t r' (Nat.ne_of_gt hbelow), hg.heap_new]
    -- Away from the new record, changing the visited one and linking commute.
    have hsame : ∀ i ∈ s.poLocks po, (t.setRecord l r').heap i = (s.setRecord l r').heap i := by
      intro i hi
      by_cases hil : i = l
      · rw [hil, setRecord_heap_self, setRecord_heap_self]
      · rw [setRecord_heap_ne _ _ hil, setRecord_heap_ne _ _ hil]
        exact hg.heap_old (hw.below i ((hw.mem_iff po i).mp hi).1)
    have hlink : listLink t.heap s.brk (s.poLocks po) =
        listLink (t.setRecord l r').heap s.brk (s.poLocks po) := by
      apply listLink_congr
      intro i hi
      rw [hnew, hg.heap_new]
      by_cases hil : i = l
      · rw [hil, setRecord_heap_self, hold]
        exact hiff _ mem_cons_self
      · rw [setRecord_heap_ne t r' hil]
    unfold RlockBox.records
    rw [setRecord_poLocks, hg.poLocks, update_self, hlink, map_listLink, hnew,
      setRecord_poLocks]
    congr 1
    exact map_congr_left hsame

end Generates

end Cursor

end Hurd.Fshelp
