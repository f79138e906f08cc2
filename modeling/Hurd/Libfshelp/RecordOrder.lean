import Hurd.Libfshelp.RecordList

/-!
# Sorted lists of records

What the records of an open lock byte by byte, and lists of records that are sorted by start and
share no byte. Linking a record in, cutting one back and changing one at its place keep the order.
-/

namespace Hurd.Fshelp

open List

/-- `r` ends before `r'` starts; when `apart`, records of one type do not touch either. -/
def Before (apart : Prop) (r r' : RlockList) : Prop :=
  0 < r.len ∧ r.start + r.len ≤ r'.start ∧
    (apart → r.start + r.len = r'.start → r.type ≠ r'.type)

/-- Some record of the list is at least of type `t` and covers byte `b`. -/
def Locks (rs : List RlockList) (t : LockType) (b : Int) : Prop :=
  ∃ r ∈ rs, AtLeast t r.type ∧ r.Covers b

instance (t t' : LockType) : Decidable (AtLeast t t') :=
  inferInstanceAs (Decidable (_ ∨ _))

instance (rs : List RlockList) (t : LockType) (b : Int) : Decidable (Locks rs t b) :=
  inferInstanceAs (Decidable (∃ r ∈ rs, _))

instance (start len b : Int) : Decidable (InRange start len b) :=
  inferInstanceAs (Decidable (_ ∧ _))

/-- The strongest lock of the list on byte `b`. -/
def lockAt (rs : List RlockList) (b : Int) : Option LockType :=
  if Locks rs .wrlck b then some .wrlck else if Locks rs .rdlck b then some .rdlck else none

/-- The stronger of a lock that may be there and one of type `t`. -/
def strongest : Option LockType → LockType → LockType
  | some .wrlck, _ => .wrlck
  | _, t => t

section Before

variable {apart : Prop} {a m n r r' x : RlockList} {ds rs : List RlockList}

theorem Before.left (h : Before apart a r) (hstart : r.start ≤ r'.start)
    (htype : r.start = r'.start → r'.type = r.type) : Before apart a r' := by
  obtain ⟨hpos, hle, hapart⟩ := h
  refine ⟨hpos, by omega, fun hap htouch => ?_⟩
  rw [htype (by omega)]
  exact hapart hap (by omega)

theorem Before.right (h : Before apart r x) (hpos : 0 < r'.len)
    (hend : r'.start + r'.len ≤ r.start + r.len)
    (htype : r'.start + r'.len = r.start + r.len → r'.type = r.type) : Before apart r' x := by
  obtain ⟨-, hle, hapart⟩ := h
  refine ⟨hpos, by omega, fun hap htouch => ?_⟩
  rw [htype (by omega)]
  exact hapart hap (by omega)

theorem Before.trans (h : Before apart a r) (h' : Before apart r x) : Before apart a x := by
  obtain ⟨hpos, hle, -⟩ := h
  obtain ⟨hpos', hle', -⟩ := h'
  exact ⟨hpos, by omega, fun _ htouch => by omega⟩

theorem Before.start_lt (h : Before apart a r) : a.start < r.start := by
  obtain ⟨hpos, hle, -⟩ := h
  omega

theorem Before.touching (hpos : 0 < r.len) (hend : r.start + r.len = r'.start)
    (htype : r.type ≠ r'.type) : Before apart r r' :=
  ⟨hpos, Int.le_of_eq hend, fun _ _ => htype⟩

theorem Before.of_lt (hpos : 0 < r.len) (hend : r.start + r.len < r'.start) : Before apart r r' :=
  ⟨hpos, Int.le_of_lt hend, fun _ htouch => by omega⟩

theorem sorted_cons (h : Before apart m r) (hp : (r :: rs).Pairwise (Before apart)) :
    (m :: r :: rs).Pairwise (Before apart) := by
  rw [pairwise_cons]
  refine ⟨fun x hx => ?_, hp⟩
  rcases mem_cons.mp hx with rfl | hx
  · exact h
  · exact h.trans ((pairwise_cons.mp hp).1 x hx)

theorem sorted_append (hds : ds.Pairwise (Before apart)) (hm : ∀ a ∈ ds, Before apart a m)
    (hp : (m :: rs).Pairwise (Before apart)) : (ds ++ m :: rs).Pairwise (Before apart) := by
  rw [pairwise_append]
  refine ⟨hds, hp, fun a ha x hx => ?_⟩
  rcases mem_cons.mp hx with rfl | hx
  · exact hm a ha
  · exact (hm a ha).trans ((pairwise_cons.mp hp).1 x hx)

theorem sorted_right (hp : (r :: rs).Pairwise (Before apart)) (hpos : 0 < r.len → 0 < r'.len)
    (hend : 0 < r.len → r'.start + r'.len ≤ r.start + r.len)
    (htype : r'.start + r'.len = r.start + r.len → r'.type = r.type) :
    (r' :: rs).Pairwise (Before apart) := by
  rw [pairwise_cons] at hp ⊢
  refine ⟨fun x hx => ?_, hp.2⟩
  have hx' := hp.1 x hx
  exact hx'.right (hpos hx'.1) (hend hx'.1) htype

theorem sorted_middle (h : (ds ++ r :: rs).Pairwise (Before apart)) :
    ds.Pairwise (Before apart) ∧ (∀ a ∈ ds, Before apart a r) ∧
      (r :: rs).Pairwise (Before apart) := by
  rw [pairwise_append] at h
  exact ⟨h.1, fun a ha => h.2.2 a ha r mem_cons_self, h.2.1⟩

theorem sorted_rele (h : (ds ++ r :: rs).Pairwise (Before apart)) :
    (ds ++ rs).Pairwise (Before apart) :=
  h.sublist ((sublist_cons_self r rs).append_left ds)

theorem sorted_disjoint (h : rs.Pairwise (Before apart)) :
    rs.Pairwise fun x y => ∀ b, ¬ (x.Covers b ∧ y.Covers b) := by
  refine h.imp fun hxy b hb => ?_
  have hpos := hxy.1
  have hle := hxy.2.1
  unfold RlockList.Covers InRange at hb
  omega

theorem linkRecord_between (hds : ∀ a ∈ ds, Before apart a n) (hle : n.start ≤ r.start) :
    linkRecord n (ds ++ r :: rs) = ds ++ n :: r :: rs := by
  rw [linkRecord_append fun a ha => (hds a ha).start_lt, linkRecord, if_neg (by omega)]

theorem linkRecord_after (hds : ∀ a ∈ ds, Before apart a m) (hm : Before apart m n)
    (hrs : ∀ x ∈ rs, n.start ≤ x.start) : linkRecord n (ds ++ m :: rs) = ds ++ m :: n :: rs := by
  have hbefore : ∀ a ∈ ds ++ [m], a.start < n.start := by
    intro a ha
    rcases mem_append.mp ha with ha | ha
    · exact ((hds a ha).trans hm).start_lt
    · rw [mem_singleton.mp ha]
      exact hm.start_lt
  rw [append_cons, linkRecord_append hbefore, linkRecord_of_le hrs, ← append_cons]

theorem linkRecord_last (hds : ∀ a ∈ ds, Before apart a n) : linkRecord n ds = ds ++ [n] := by
  have hlink : linkRecord n (ds ++ []) = ds ++ linkRecord n [] :=
    linkRecord_append fun a ha => (hds a ha).start_lt
  simpa [linkRecord] using hlink

end Before

section Locks

variable {rs rs' gens : List RlockList} {n r : RlockList} {t : LockType} {b : Int}

@[simp] theorem locks_nil : Locks [] t b ↔ False := by
  simp [Locks]

@[simp] theorem locks_cons :
    Locks (r :: rs) t b ↔ (AtLeast t r.type ∧ r.Covers b) ∨ Locks rs t b := by
  simp [Locks]

@[simp] theorem locks_append : Locks (rs ++ rs') t b ↔ Locks rs t b ∨ Locks rs' t b := by
  simp only [Locks, mem_append, or_and_right, exists_or]

theorem linkRecord_perm (n : RlockList) (es : List RlockList) :
    (linkRecord n es).Perm (n :: es) := by
  induction es with
  | nil => exact List.Perm.refl _
  | cons e es ih =>
    rw [linkRecord]
    split
    · exact (ih.cons e).trans (List.Perm.swap n e es)
    · exact List.Perm.refl _

theorem enter_perm (gens es : List RlockList) : (enter gens es).Perm (gens ++ es) := by
  induction gens generalizing es with
  | nil => exact List.Perm.refl _
  | cons n gens ih =>
    rw [enter_cons]
    exact ((ih _).trans ((linkRecord_perm n es).append_left gens)).trans perm_middle

theorem locks_perm (h : rs.Perm rs') : Locks rs t b ↔ Locks rs' t b := by
  unfold Locks
  simp only [h.mem_iff]

@[simp] theorem locks_linkRecord :
    Locks (linkRecord n rs) t b ↔ (AtLeast t n.type ∧ n.Covers b) ∨ Locks rs t b := by
  rw [locks_perm (linkRecord_perm n rs), locks_cons]

@[simp] theorem locks_enter : Locks (enter gens rs) t b ↔ Locks gens t b ∨ Locks rs t b := by
  rw [locks_perm (enter_perm gens rs), locks_append]

theorem Locks.weaken (h : Locks rs t b) : Locks rs .rdlck b := by
  obtain ⟨r, hr, -, hb⟩ := h
  exact ⟨r, hr, .inl rfl, hb⟩

theorem lockAt_congr (h : ∀ t, Locks rs t b ↔ Locks rs' t b) : lockAt rs b = lockAt rs' b := by
  simp only [lockAt, h]

theorem locks_iff_lockAt :
    Locks rs t b ↔ lockAt rs b = some .wrlck ∨ (t = .rdlck ∧ lockAt rs b = some .rdlck) := by
  unfold lockAt
  by_cases hw : Locks rs .wrlck b
  · have hr := hw.weaken
    cases t <;> simp [hw, hr]
  · by_cases hr : Locks rs .rdlck b <;> cases t <;> simp [hw, hr]

theorem lockAt_eq_iff : lockAt rs b = lockAt rs' b ↔ ∀ t, Locks rs t b ↔ Locks rs' t b := by
  refine ⟨fun h t => ?_, lockAt_congr⟩
  rw [locks_iff_lockAt, locks_iff_lockAt, h]

theorem lockAt_eq_strongest {type : LockType} :
    lockAt rs b = some (strongest (lockAt rs' b) type) ↔
      ∀ t, Locks rs t b ↔ Locks rs' t b ∨ AtLeast t type := by
  constructor
  · intro h t
    rw [locks_iff_lockAt, h, locks_iff_lockAt]
    rcases lockAt rs' b with _ | (_ | _) <;> cases type <;> cases t <;> simp [strongest, AtLeast]
  · intro h
    have hw := h .wrlck
    have hr := h .rdlck
    rw [locks_iff_lockAt] at hw hr
    rw [locks_iff_lockAt] at hw hr
    revert hw hr
    rcases lockAt rs b with _ | (_ | _) <;> rcases lockAt rs' b with _ | (_ | _) <;> cases type <;>
      simp [strongest, AtLeast]

end Locks

section Other

variable {s t : RlockBox} {po q l : Nat} {r : RlockList}

theorem wakeWaiters_heap_ne {i : Nat} (h : i ≠ l) : (s.wakeWaiters l).heap i = s.heap i := by
  unfold RlockBox.wakeWaiters
  split
  · exact setRecord_heap_ne s _ h
  · rfl

theorem records_other (hw : WellLinked s) (hl : l ∈ s.poLocks po) (hq : q ≠ po)
    (hlist : t.poLocks q = s.poLocks q) (hheap : ∀ i, i ≠ l → t.heap i = s.heap i) :
    t.records q = s.records q := by
  unfold RlockBox.records
  rw [hlist]
  apply map_congr_left
  intro i hi
  apply hheap
  rintro rfl
  exact hq (((hw.mem_iff q i).mp hi).2.symm.trans ((hw.mem_iff po i).mp hl).2)

theorem records_other_releLock (hw : WellLinked s) (hl : l ∈ s.poLocks po) (hq : q ≠ po)
    (w : Bool) : (releLock l w s).records q = s.records q := by
  have hpo : (s.heap l).poId = po := ((hw.mem_iff po l).mp hl).2
  apply records_other hw hl hq
  · rw [releLock_poLocks, hpo, Function.update_of_ne hq]
  · intro i _
    rw [releLock_heap]

theorem Edit.records_other {keep : List Nat} {quiet : Prop} (h : Edit po keep quiet s t)
    (hw : WellLinked s) (hq : q ≠ po) : t.records q = s.records q := by
  induction h with
  | refl => rfl
  | @gen t u start len type n he hlen hg ih =>
    rw [← ih]
    unfold RlockBox.records
    rw [hg.poLocks, Function.update_of_ne hq]
    exact hg.map_old (he.wellLinked hw) fun i hi => hi
  | rele l w he hl _ _ ih =>
    rw [← ih]
    exact records_other_releLock (he.wellLinked hw) hl hq w
  | set l r he hl _ _ _ _ ih =>
    rw [← ih]
    exact Fshelp.records_other (he.wellLinked hw) hl hq rfl fun i hi => setRecord_heap_ne _ r hi
  | setWake l r he hl _ _ _ ih =>
    rw [← ih]
    apply Fshelp.records_other (he.wellLinked hw) hl hq
    · rw [wakeWaiters_poLocks, setRecord_poLocks]
    · intro i hi
      rw [wakeWaiters_heap_ne hi, setRecord_heap_ne _ r hi]
  | setRele l r he hl _ hpo hlen _ ih =>
    have hlinked := he.wellLinked hw
    have howner := ((hlinked.mem_iff po l).mp hl).2
    rw [← ih, records_other_releLock
      (wellLinked_setRecord hlinked (hpo.trans howner.symm) hlen) hl hq true]
    exact Fshelp.records_other hlinked hl hq rfl fun i hi => setRecord_heap_ne _ r hi

end Other

end Hurd.Fshelp
