import Hurd.Libfshelp.RecordLockRun

/-!
# Mutual exclusion of record locks

A lock request is checked against the other opens on its own region only.
-/

namespace Hurd.Fshelp

open List

/-- Byte `b` lies in the region; length 0 is to the end of the file. -/
def InRange (start len b : Int) : Prop := start ≤ b ∧ (len = 0 ∨ b < start + len)

def RlockList.Covers (r : RlockList) (b : Int) : Prop := InRange r.start r.len b

/-- A lock of type `t'` is at least one of type `t`. -/
def AtLeast (t t' : LockType) : Prop := t = .rdlck ∨ t' = .wrlck

/-- Open `q` has a record of type at least `t` on byte `b`. -/
def RlockBox.Holds (s : RlockBox) (q : Nat) (t : LockType) (b : Int) : Prop :=
  ∃ i ∈ s.locks, (s.heap i).poId = q ∧ AtLeast t (s.heap i).type ∧ (s.heap i).Covers b

/-- What `q` holds, together with what a request of `po` still has to enter. -/
def Entitled (po : Nat) (type : LockType) (v : MergeVars) (q : Nat) (t : LockType) (b : Int) :
    Prop :=
  v.box.Holds q t b ∨ (q = po ∧ AtLeast t type ∧ InRange v.start v.len b)

/-- No byte is write-locked by one open and locked by another. -/
def Exclusive (s : RlockBox) : Prop :=
  ∀ i ∈ s.locks, ∀ j ∈ s.locks, (s.heap i).poId ≠ (s.heap j).poId →
    (s.heap i).type = .wrlck → ∀ b, (s.heap i).Covers b → ¬ (s.heap j).Covers b

theorem exclusive_iff (s : RlockBox) :
    Exclusive s ↔ ∀ p q b, p ≠ q → s.Holds p .wrlck b → ¬ s.Holds q .rdlck b := by
  constructor
  · rintro h p q b hpq ⟨i, hi, rfl, ht, hb⟩ ⟨j, hj, rfl, -, hb'⟩
    have ht : (s.heap i).type = .wrlck := by simpa [AtLeast] using ht
    exact h i hi j hj hpq ht b hb hb'
  · intro h i hi j hj hpo ht b hb hb'
    exact h _ _ b hpo ⟨i, hi, rfl, .inr ht, hb⟩ ⟨j, hj, rfl, .inl rfl, hb'⟩

section Holds

variable {s s' : RlockBox} {q l : Nat} {t : LockType} {b : Int}

theorem holds_generated {po n : Nat} {start len : Int} {type : LockType} (hw : WellLinked s)
    (hg : Generated po start len type s n s') (h : s'.Holds q t b) :
    s.Holds q t b ∨ (q = po ∧ AtLeast t type ∧ InRange start len b) := by
  obtain ⟨i, hi, hpo, ht, hb⟩ := h
  rw [hg.locks, mem_listLink] at hi
  rcases hi with rfl | hi
  · rw [hg.heap_new] at hpo ht hb
    exact .inr ⟨hpo.symm, ht, hb⟩
  · rw [hg.heap_old (hw.below i hi)] at hpo ht hb
    exact .inl ⟨i, hi, hpo, ht, hb⟩

theorem holds_releLock {w : Bool} (h : (releLock l w s).Holds q t b) : s.Holds q t b := by
  obtain ⟨i, hi, hr⟩ := h
  rw [releLock_locks] at hi
  rw [releLock_heap] at hr
  exact ⟨i, mem_of_mem_erase hi, hr⟩

theorem holds_setRecord {r : RlockList} (h : (s.setRecord l r).Holds q t b) :
    s.Holds q t b ∨ (q = r.poId ∧ AtLeast t r.type ∧ r.Covers b) := by
  obtain ⟨i, hi, hr⟩ := h
  by_cases hil : i = l
  · subst i
    rw [setRecord_heap_self] at hr
    exact .inr ⟨hr.1.symm, hr.2⟩
  · rw [setRecord_heap_ne _ _ hil] at hr
    exact .inl ⟨i, hi, hr⟩

theorem holds_sleepOn {w : Waiter} (hr : w.record ∈ s.locks) (h : (s.sleepOn w).Holds q t b) :
    s.Holds q t b := by
  have hset : (s.setRecord w.record { s.heap w.record with waiting := true }).Holds q t b := h
  rcases holds_setRecord hset with h | ⟨hq, ht, hb⟩
  · exact h
  · exact ⟨w.record, hr, hq.symm, ht, hb⟩

theorem holds_wakeWaiters : (s.wakeWaiters l).Holds q t b ↔ s.Holds q t b := by
  unfold RlockBox.Holds
  rw [wakeWaiters_locks]
  constructor
  · rintro ⟨i, hi, hr⟩
    obtain ⟨w, he⟩ := wakeWaiters_heap s l i
    rw [he] at hr
    exact ⟨i, hi, hr⟩
  · rintro ⟨i, hi, hr⟩
    obtain ⟨w, he⟩ := wakeWaiters_heap s l i
    refine ⟨i, hi, ?_⟩
    rw [he]
    exact hr

theorem holds_genLockIf {needed : Bool} {po : Nat} {malloc : Nat → Bool} {start len : Int}
    {type : LockType} {p : Option Nat × RlockBox} (hw : WellLinked s)
    (hg : genLockIf needed po malloc start len type s = some p) (h : p.2.Holds q t b) :
    s.Holds q t b ∨ (needed = true ∧ q = po ∧ AtLeast t type ∧ InRange start len b) := by
  unfold genLockIf at hg
  cases needed with
  | false =>
    cases hg
    exact .inl h
  | true =>
    obtain ⟨p', hp, rfl⟩ := Option.map_eq_some_iff.mp hg
    exact (holds_generated hw (genLock_generated hp) h).imp_right fun hr => ⟨rfl, hr⟩

end Holds

section Unlock

variable {po l : Nat} {malloc : Nat → Bool} {start len : Int} {s : RlockBox}

/-- A round of `unlock_region` gives no open a lock it did not have. -/
def UnlockShrinks (s : RlockBox) : Round RlockBox (RlockBox × Outcome) → Prop
  | .next s' => ∀ q t b, s'.Holds q t b → s.Holds q t b
  | .stop (s', _) => ∀ q t b, s'.Holds q t b → s.Holds q t b

theorem unlockBody_shrinks (hw : WellLinked s) (hlen : 0 ≤ len) (hl : l ∈ s.poLocks po) :
    UnlockShrinks s (unlockBody po malloc start len l s) := by
  have hlocks := (hw.mem_iff po l).mp hl
  have hnn := hw.nonneg l hlocks.1
  -- A part of record `l`, with its type, is locked already.
  have hpart : ∀ q t b, q = (s.heap l).poId → AtLeast t (s.heap l).type →
      (s.heap l).Covers b → s.Holds q t b := by
    intro q t b hq ht hb
    exact ⟨l, hlocks.1, hq.symm, ht, hb⟩
  have hround : UnlockStep po malloc start len l s (unlockBody po malloc start len l s) :=
    unlockBody_step hlen hnn
  generalize unlockBody po malloc start len l s = round at hround
  cases hround with
  | pass => exact fun q t b h => h
  | finish => exact fun q t b h => h
  | consume => exact fun q t b h => holds_releLock h
  | head hbefore hmeets hrest =>
    intro q t b h
    rcases holds_setRecord (holds_wakeWaiters.mp h) with h | ⟨hq, ht, hb⟩
    · exact h
    · refine hpart q t b hq ht ?_
      unfold RlockList.Covers InRange lenAdd at *
      dsimp only at hb
      split_ifs at hb <;> omega
  | tail hbefore hmeets =>
    intro q t b h
    rcases holds_setRecord (holds_wakeWaiters.mp h) with h | ⟨hq, ht, hb⟩
    · exact h
    · refine hpart q t b hq ht ?_
      unfold RlockList.Covers InRange at *
      dsimp only at hb
      omega
  | carve hcarves hg =>
    have hbefore := hcarves.1
    have hrest := hcarves.2.2
    intro q t b h
    rcases holds_setRecord h with h | ⟨hq, ht, hb⟩
    · rcases holds_generated hw (genLock_generated hg) h with h | ⟨hq, ht, hb⟩
      · exact h
      · refine hpart q t b (hq.trans hlocks.2.symm) ht ?_
        unfold RlockList.Covers InRange RlockList.tailLen at *
        split_ifs at hb <;> omega
    · refine hpart q t b hq ht ?_
      unfold RlockList.Covers InRange at *
      dsimp only at hb
      omega

theorem unlockRegion_shrinks (hw : WellLinked s) (hlen : 0 ≤ len) (q : Nat) (t : LockType)
    (b : Int) (h : (unlockRegion po malloc start len s).1.Holds q t b) : s.Holds q t b := by
  have hround : ∀ x xs u, Underway po False s (x :: xs) u →
      UnlockShrinks u (unlockBody po malloc start len x u) ∧
        UnlockEdits po xs False u (unlockBody po malloc start len x u) := by
    intro x xs u hinv
    have hx := hinv.listed x mem_cons_self
    exact ⟨unlockBody_shrinks hinv.linked hlen hx,
      unlockBody_edits hinv.linked hlen hx (nodup_cons.mp hinv.nodup).1 False.elim⟩
  refine scan_rule (fun _ _ => True)
    (fun ls u => Underway po False s ls u ∧ ∀ q t b, u.Holds q t b → s.Holds q t b)
    (fun p : RlockBox × Outcome => ∀ q t b, p.1.Holds q t b → s.Holds q t b) ?_ ?_ ?_ ?_
    ⟨underway_start hw, fun _ _ _ h => h⟩ q t b h
  · intro x xs u u' hinv _ hb
    obtain ⟨hs, he⟩ := hround x xs u hinv.1
    rw [hb] at hs he
    exact ⟨hinv.1.next he, fun q t b h => hinv.2 q t b (hs q t b h)⟩
  · intro x xs u p hinv _ hb
    have hs := (hround x xs u hinv.1).1
    rw [hb] at hs
    exact fun q t b h => hinv.2 q t b (hs q t b h)
  · exact fun u hinv => hinv.2
  · exact scanVisits_of_forall _ (fun _ _ => trivial) _ _

end Unlock

/-- The record reaches to the end of the file and starts beyond the end of the request, the case
the fourth branch of `merge_in` does not tell from a touching record. -/
def BeyondGap (start len : Int) (r : RlockList) : Prop :=
  r.len = 0 ∧ len ≠ 0 ∧ start + len < r.start

section Merge

variable {po l : Nat} {malloc : Nat → Bool} {type : LockType} {v : MergeVars}

/-- A round of `merge_in` enters only what the request asked for. -/
def MergeGrants (po : Nat) (type : LockType) (v : MergeVars) :
    Round MergeVars (RlockBox × Outcome) → Prop
  | .next v' => ∀ q t b, Entitled po type v' q t b → Entitled po type v q t b
  | .stop (s, _) => ∀ q t b, s.Holds q t b → Entitled po type v q t b

theorem mergeFinish_grants (hw : WellLinked v.box) (q : Nat) (t : LockType) (b : Int)
    (h : (mergeFinish po malloc type v).1.Holds q t b) : Entitled po type v q t b := by
  unfold mergeFinish at h
  cases hg : genLock po malloc v.start v.len type v.box with
  | none =>
    rw [hg] at h
    exact .inl h
  | some p =>
    rw [hg] at h
    exact holds_generated hw (genLock_generated hg) h

theorem entitled_of_record (hw : WellLinked v.box) (hl : l ∈ v.box.poLocks po) {q : Nat}
    {t : LockType} {b : Int} (hq : q = po) (ht : AtLeast t (v.box.heap l).type)
    (hb : (v.box.heap l).Covers b) : Entitled po type v q t b := by
  have hlocks := (hw.mem_iff po l).mp hl
  exact .inl ⟨l, hlocks.1, hlocks.2.trans hq.symm, ht, hb⟩

theorem mergeWrapped_grants (hw : WellLinked v.box) (hv : 0 ≤ v.len)
    (hl : l ∈ v.box.poLocks po)
    (hin : (v.box.heap l).start ≤ v.start ∧ ((v.box.heap l).len = 0 ∨
      (v.len ≠ 0 ∧ v.start + v.len ≤ (v.box.heap l).start + (v.box.heap l).len))) :
    MergeGrants po type v (mergeWrapped po malloc type l v) := by
  have hlocks := (hw.mem_iff po l).mp hl
  have hnn := hw.nonneg l hlocks.1
  unfold mergeWrapped
  dsimp only
  split
  · exact fun q t b h => .inl h
  · split
    · exact fun q t b h => .inl h
    · rename_i h₁ h₂
      simp only [not_not] at h₂
      split
      · exact fun q t b h => .inl h
      · rename_i head s₁ hhead
        -- The head and the tail split off are parts of the record, with its own type.
        have hw₁ : WellLinked s₁ := (genLockIf_edits
          (show Edit po [] False v.box v.box from .refl _)
          (by simp only [decide_eq_true_eq]; omega) hhead).1.wellLinked hw
        have hold₁ : ∀ q t b, s₁.Holds q t b → Entitled po type v q t b := by
          intro q t b h
          rcases holds_genLockIf hw hhead h with h | ⟨hn, hq, ht, hb⟩
          · exact .inl h
          · have hn := of_decide_eq_true hn
            refine entitled_of_record hw hl hq (by rw [h₂.2]; exact ht) ?_
            unfold RlockList.Covers InRange at *
            omega
        split
        · cases head with
          | none => exact hold₁
          | some h => exact fun q t b hh => hold₁ q t b (holds_releLock hh)
        · rename_i tail s₂ htail
          have hold₂ : ∀ q t b, s₂.Holds q t b → Entitled po type v q t b := by
            intro q t b h
            rcases holds_genLockIf hw₁ htail h with h | ⟨hn, hq, ht, hb⟩
            · exact hold₁ q t b h
            · have hn := of_decide_eq_true hn
              refine entitled_of_record hw hl hq (by rw [h₂.2]; exact ht) ?_
              unfold RlockList.Covers InRange RlockList.tailLen at *
              split_ifs at hb <;> omega
          obtain ⟨-, -, -, -, -, hsome₁, -⟩ := genLockIf_edits
            (show Edit po [] False v.box v.box from .refl _)
            (by simp only [decide_eq_true_eq]; omega) hhead
          obtain ⟨-, -, -, -, -, hsome₂, -⟩ := genLockIf_edits
            (show Edit po [] False s₁ s₁ from .refl _) (by
              simp only [decide_eq_true_eq]
              unfold RlockList.tailLen
              split_ifs <;> omega) htail
          obtain ⟨hpo, -, htype, hstart, hlen⟩ := splitHead_fields hsome₁ hin.1
          split
          · have hend : ¬ (((v.box.heap l).len = 0 ∧ v.len ≠ 0) ∨
                v.start + v.len < (v.box.heap l).start + (v.box.heap l).len) := by
              simpa using hsome₂.symm
            rintro q t b (h | ⟨hq, ht, hb⟩)
            · rcases holds_setRecord (holds_releLock h) with h | ⟨hq, ht, hb⟩
              · exact hold₂ q t b h
              · refine entitled_of_record hw hl ((hq.trans hpo).trans hlocks.2)
                  (htype ▸ ht) ?_
                unfold RlockList.Covers InRange at *
                rw [hstart, hlen] at hb
                unfold lenAdd at hb
                split_ifs at hb <;> omega
            · refine .inr ⟨hq, ht, ?_⟩
              unfold InRange at *
              dsimp only at hb
              rw [hstart, hlen] at hb
              unfold lenAdd at hb
              split_ifs at hb <;> omega
          · have hend : ((v.box.heap l).len = 0 ∧ v.len ≠ 0) ∨
                v.start + v.len < (v.box.heap l).start + (v.box.heap l).len := by
              simpa using hsome₂.symm
            intro q t b h
            rcases holds_setRecord h with h | ⟨hq, ht, hb⟩
            · exact hold₂ q t b h
            · refine .inr ⟨(hq.trans hpo).trans hlocks.2, .inr h₂.1, ?_⟩
              unfold RlockList.Covers InRange at *
              dsimp only at hb
              rw [hstart] at hb
              omega

theorem mergeWraps_grants (hw : WellLinked v.box) (hv : 0 ≤ v.len)
    (hl : l ∈ v.box.poLocks po)
    (hout : v.start ≤ (v.box.heap l).start ∧ (v.len = 0 ∨ ((v.box.heap l).len ≠ 0 ∧
      (v.box.heap l).start + (v.box.heap l).len ≤ v.start + v.len))) :
    MergeGrants po type v (mergeWraps po malloc type l v) := by
  have hnn := hw.nonneg l ((hw.mem_iff po l).mp hl).1
  unfold mergeWraps
  dsimp only
  split
  · exact fun q t b h => h.imp_left holds_releLock
  · split
    · exact fun q t b h => .inl h
    · rename_i h₁ h₂
      simp only [not_not] at h₂
      split
      · exact fun q t b h => .inl h
      · rename_i head s₁ hhead
        have hold₁ : ∀ q t b, s₁.Holds q t b → Entitled po type v q t b := by
          intro q t b h
          rcases holds_genLockIf hw hhead h with h | ⟨hn, hq, ht, hb⟩
          · exact .inl h
          · have hn := of_decide_eq_true hn
            refine .inr ⟨hq, by rw [h₂.1]; exact ht, ?_⟩
            unfold InRange at *
            omega
        split
        · rintro q t b (h | ⟨hq, ht, hb⟩)
          · exact hold₁ q t b h
          · refine .inr ⟨hq, ht, ?_⟩
            unfold InRange lenAdd at *
            dsimp only at hb
            split_ifs at hb <;> omega
        · split <;> exact hold₁

theorem mergeAfter_grants (hw : WellLinked v.box) (hv : 0 ≤ v.len)
    (hl : l ∈ v.box.poLocks po)
    (hin : (v.box.heap l).start < v.start ∧
      v.start ≤ (v.box.heap l).start + (v.box.heap l).len ∧
      (v.len = 0 ∨ v.start + v.len > (v.box.heap l).start + (v.box.heap l).len)) :
    MergeGrants po type v (mergeAfter type l v) := by
  have hlocks := (hw.mem_iff po l).mp hl
  unfold mergeAfter
  dsimp only
  split_ifs with h₁ h₂ h₃ h₄ h₅ h₆
  · rintro q t b (h | ⟨hq, ht, hb⟩)
    · exact .inl (holds_releLock h)
    · -- The joined region is the record followed by the request.
      by_cases hbs : b < v.start
      · refine entitled_of_record hw hl hq (h₂ ▸ ht) ?_
        unfold RlockList.Covers InRange at *
        dsimp only at hb
        omega
      · refine .inr ⟨hq, ht, ?_⟩
        unfold InRange lenAdd at *
        dsimp only at hb
        split_ifs at hb <;> omega
  · exact fun q t b h => h
  · rintro q t b (h | h)
    · rcases holds_setRecord h with h | ⟨hq, ht, hb⟩
      · exact .inl h
      · refine entitled_of_record hw hl (hq.trans hlocks.2) ht ?_
        unfold RlockList.Covers InRange at *
        dsimp only at hb
        omega
    · exact .inr h
  · exact fun q t b h => .inl h
  · rintro q t b (h | ⟨hq, ht, hb⟩)
    · exact .inl h
    · refine .inr ⟨hq, ht, ?_⟩
      unfold InRange lenAdd at *
      dsimp only at hb
      split_ifs at hb <;> omega
  · exact fun q t b h => .inl h
  · exact fun q t b h => .inl h

theorem mergeBefore_grants (hw : WellLinked v.box) (hv : 0 ≤ v.len)
    (hl : l ∈ v.box.poLocks po)
    (hbefore : v.start < (v.box.heap l).start ∧
      ((v.box.heap l).len = 0 ∨ (v.box.heap l).start ≤ v.start + v.len))
    (hgap : ¬ BeyondGap v.start v.len (v.box.heap l)) :
    MergeGrants po type v (mergeBefore po malloc type l v) := by
  have hlocks := (hw.mem_iff po l).mp hl
  have hnn := hw.nonneg l hlocks.1
  unfold BeyondGap at hgap
  unfold mergeBefore
  dsimp only
  split_ifs with h₁ h₂ h₃ h₄ h₅ h₆
  · have hreach : (v.box.heap l).start ≤ v.start + v.len := by omega
    intro q t b h
    rcases holds_setRecord h with h | ⟨hq, ht, hb⟩
    · exact .inl h
    · by_cases hbs : b < (v.box.heap l).start
      · refine .inr ⟨hq.trans hlocks.2, h₂ ▸ ht, ?_⟩
        unfold RlockList.Covers InRange at *
        dsimp only at hb
        omega
      · refine entitled_of_record hw hl (hq.trans hlocks.2) ht ?_
        unfold RlockList.Covers InRange lenAdd at *
        dsimp only at hb
        split_ifs at hb <;> omega
  · exact fun q t b h => h
  · have hreach : (v.box.heap l).start ≤ v.start + v.len := by omega
    cases hg : genLock po malloc v.start v.len .wrlck v.box with
    | none => exact fun q t b h => .inl h
    | some p =>
      intro q t b h
      rcases holds_setRecord h with h | ⟨hq, ht, hb⟩
      · rw [h₄]
        exact holds_generated hw (genLock_generated hg) h
      · refine entitled_of_record hw hl (hq.trans hlocks.2) ht ?_
        unfold RlockList.Covers InRange lenAdd at *
        dsimp only at hb
        split_ifs at hb <;> omega
  · exact fun q t b h => .inl h
  · have hreach : (v.box.heap l).start ≤ v.start + v.len := by omega
    cases hg : genLock po malloc v.start ((v.box.heap l).start - v.start) .rdlck v.box with
    | none => exact fun q t b h => .inl h
    | some p =>
      intro q t b h
      rcases holds_generated hw (genLock_generated hg) h with h | ⟨hq, ht, hb⟩
      · exact .inl h
      · refine .inr ⟨hq, h₆.1 ▸ ht, ?_⟩
        unfold InRange at *
        omega
  · exact fun q t b h => .inl h
  · exact fun q t b h => .inl h

theorem mergeBody_grants (hw : WellLinked v.box) (hv : 0 ≤ v.len) (hl : l ∈ v.box.poLocks po)
    (hgap : ¬ BeyondGap v.start v.len (v.box.heap l)) :
    MergeGrants po type v (mergeBody po malloc type l v) := by
  unfold mergeBody
  dsimp only
  split_ifs with h₁ h₂ h₃ h₄ h₅ h₆
  · exact mergeWrapped_grants hw hv hl h₁
  · exact mergeWraps_grants hw hv hl h₂
  · exact mergeAfter_grants hw hv hl h₃
  · exact mergeBefore_grants hw hv hl h₄ hgap
  · exact mergeFinish_grants hw
  · exact fun q t b h => h
  · exact fun q t b h => .inl h

/-- No record the scan of `merge_in` visits lies beyond a gap. -/
def AvoidsGap (po : Nat) (malloc : Nat → Bool) (start len : Int) (type : LockType)
    (s : RlockBox) : Prop :=
  ScanVisits (fun l v => ¬ BeyondGap v.start v.len (v.box.heap l)) (mergeBody po malloc type)
    (s.poLocks po) { start := start, len := len, box := s }

theorem mergeIn_grants {start len : Int} {s : RlockBox} (hw : WellLinked s) (hlen : 0 ≤ len)
    (hgap : AvoidsGap po malloc start len type s) (q : Nat) (t : LockType) (b : Int)
    (h : (mergeIn po malloc start len type s).1.Holds q t b) :
    Entitled po type { start := start, len := len, box := s } q t b := by
  have hround : ∀ x xs v, Underway po False s (x :: xs) v.box → 0 ≤ v.len →
      MergeEdits po xs False v.box (mergeBody po malloc type x v) := by
    intro x xs v hinv hv
    exact mergeBody_edits hinv.linked hv (hinv.listed x mem_cons_self)
      (nodup_cons.mp hinv.nodup).1
      (fun i hi => hinv.listed i (mem_cons_of_mem x hi)) False.elim
  refine scan_rule _
    (fun ls v => Underway po False s ls v.box ∧ 0 ≤ v.len ∧ ∀ q t b, Entitled po type v q t b →
      Entitled po type { start := start, len := len, box := s } q t b)
    (fun p : RlockBox × Outcome => ∀ q t b, p.1.Holds q t b →
      Entitled po type { start := start, len := len, box := s } q t b) ?_ ?_ ?_ hgap
    ⟨underway_start hw, hlen, fun _ _ _ h => h⟩ q t b h
  · intro x xs v v' hinv hg hb
    have he := hround x xs v hinv.1 hinv.2.1
    have hgr : MergeGrants po type v (mergeBody po malloc type x v) :=
      mergeBody_grants hinv.1.linked hinv.2.1 (hinv.1.listed x mem_cons_self) hg
    rw [hb] at he hgr
    exact ⟨hinv.1.next he.1, he.2, fun q t b h => hinv.2.2 q t b (hgr q t b h)⟩
  · intro x xs v p hinv hg hb
    have hgr : MergeGrants po type v (mergeBody po malloc type x v) :=
      mergeBody_grants hinv.1.linked hinv.2.1 (hinv.1.listed x mem_cons_self) hg
    rw [hb] at hgr
    exact fun q t b h => hinv.2.2 q t b (hgr q t b h)
  · intro v hinv q t b h
    exact hinv.2.2 q t b (mergeFinish_grants hinv.1.linked q t b h)

end Merge

theorem not_covers_of_not_conflicts {po : Nat} {start len b : Int} {type : LockType}
    {r : RlockList} (h : conflicts po start len type r = false) (hpo : r.poId ≠ po)
    (ht : r.type = .wrlck ∨ type = .wrlck) (hb : InRange start len b) : ¬ r.Covers b := by
  have hover : overlap start len r = false := by
    rcases ht with ht | ht <;> simpa [conflicts, hpo, ht] using h
  simp only [overlap, Bool.or_eq_false_iff, Bool.and_eq_false_iff, beq_eq_false_iff_ne,
    decide_eq_false_iff_not] at hover
  unfold RlockList.Covers
  unfold InRange at *
  omega

theorem mergeIn_exclusive {po : Nat} {malloc : Nat → Bool} {start len : Int} {type : LockType}
    {s : RlockBox} (hw : WellLinked s) (hlen : 0 ≤ len) (hex : Exclusive s)
    (hfree : findConflict po start len type s = none)
    (hgap : AvoidsGap po malloc start len type s) :
    Exclusive (mergeIn po malloc start len type s).1 := by
  have hclear : ∀ i ∈ s.locks, conflicts po start len type (s.heap i) = false := by
    simpa [findConflict] using hfree
  have hgrant := mergeIn_grants hw hlen hgap
  rw [exclusive_iff] at hex ⊢
  intro p q b hpq hp hq
  rcases hgrant p .wrlck b hp with hp' | ⟨rfl, htp, hbp⟩
  · rcases hgrant q .rdlck b hq with hq' | ⟨rfl, -, hbq⟩
    · exact hex p q b hpq hp' hq'
    · obtain ⟨i, hi, hpo, ht, hb⟩ := hp'
      have ht : (s.heap i).type = .wrlck := by simpa [AtLeast] using ht
      exact not_covers_of_not_conflicts (hclear i hi) (by rw [hpo]; exact hpq) (.inl ht) hbq hb
  · rcases hgrant q .rdlck b hq with hq' | ⟨rfl, -, -⟩
    · obtain ⟨i, hi, hpo, -, hb⟩ := hq'
      have htp : type = .wrlck := by simpa [AtLeast] using htp
      exact not_covers_of_not_conflicts (hclear i hi) (by rw [hpo]; exact hpq.symm)
        (.inr htp) hbp hb
    · exact hpq rfl

theorem Exclusive.shrink {s s' : RlockBox} (hex : Exclusive s)
    (h : ∀ q t b, s'.Holds q t b → s.Holds q t b) : Exclusive s' := by
  rw [exclusive_iff] at hex ⊢
  intro p q b hpq hp hq
  exact hex p q b hpq (h p _ b hp) (h q _ b hq)

theorem drop_shrinks {s : RlockBox} {po q : Nat} {t : LockType} {b : Int}
    (h : (fshelpRlockDropPeropen po s).Holds q t b) : s.Holds q t b := by
  obtain ⟨hl, -, -, hh, -⟩ := foldl_dropRecord (s.poLocks po) s
  have h : ((s.poLocks po).foldl dropRecord s).Holds q t b := h
  obtain ⟨i, hi, hr⟩ := h
  obtain ⟨w, he⟩ := hh i
  rw [hl] at hi
  rw [he] at hr
  exact ⟨i, (diff_sublist _ _).subset hi, hr⟩

/-- The step does not enter the fourth branch of `merge_in` across a gap. -/
def GapFree (s : RlockBox) (e : RlockEvent) : Prop :=
  CallMeets (fun _ _ _ _ _ => True) AvoidsGap s e

theorem exclusive_survives : Survives (fun _ _ _ _ _ => True) AvoidsGap Exclusive where
  init i hi := by simp [RlockBox.init] at hi
  unlock po malloc start len s h hex hlen _ := hex.shrink (unlockRegion_shrinks h.linked hlen)
  grant po malloc start len type s h hex hlen hfree hgap :=
    mergeIn_exclusive h.linked hlen hex hfree hgap
  sleep w s _ hex hf :=
    hex.shrink fun _ _ _ hq => holds_sleepOn (mem_of_find?_eq_some hf) hq
  drop po s _ hex := hex.shrink fun _ _ _ hq => drop_shrinks hq
  requests _ _ _ hex _ := hex

/-- In every run whose grants avoid gaps, no byte is write-locked by one open and locked by
another. -/
theorem rlock_exclusive_of_gapFree {s : RlockBox}
    (h : Reach rlockStep (fun s e => NoOverflow e ∧ GapFree s e) RlockBox.init s) :
    ∀ i ∈ s.locks, ∀ j ∈ s.locks, (s.heap i).poId ≠ (s.heap j).poId →
      (s.heap i).type = .wrlck → ∀ b, (s.heap i).Covers b → ¬ (s.heap j).Covers b :=
  exclusive_survives.reach h

instance (start len : Int) (r : RlockList) : Decidable (BeyondGap start len r) :=
  inferInstanceAs (Decidable (_ ∧ _ ∧ _))

instance (po : Nat) (malloc : Nat → Bool) (start len : Int) (type : LockType) (s : RlockBox) :
    Decidable (AvoidsGap po malloc start len type s) :=
  scanVisitsDecidable _ _ _ _

instance (s : RlockBox) (e : RlockEvent) : Decidable (GapFree s e) :=
  inferInstanceAs (Decidable (CallMeets _ _ s e))

instance (r : RlockList) (b : Int) : Decidable (r.Covers b) :=
  inferInstanceAs (Decidable (_ ∧ _))

/-- Two opens write-lock neighbouring regions and the first then unlocks part of its own. -/
def apartSchedule : List RlockEvent :=
  [.tweak 0 (fun _ => true) (setRequest .setlk64 (.lock .wrlck) 0 10),
   .tweak 1 (fun _ => true) (setRequest .setlk64 (.lock .wrlck) 10 0),
   .tweak 0 (fun _ => true) (setRequest .setlk64 .unlck 4 2)]

theorem rlock_exclusive_apart :
    ∃ s, runLabels rlockStep RlockBox.init apartSchedule = some s ∧ s.locks = [0, 2, 1] ∧
      ∀ i ∈ s.locks, ∀ j ∈ s.locks, (s.heap i).poId ≠ (s.heap j).poId →
        (s.heap i).type = .wrlck → ∀ b, (s.heap i).Covers b → ¬ (s.heap j).Covers b :=
  ⟨_, rfl, by decide, rlock_exclusive_of_gapFree (.labels apartSchedule .start (by decide) rfl)⟩

/-- An open with a write lock from byte 100 on locks bytes 0 to 9 as well, while another open has
bytes 50 to 59. -/
def gapSchedule : List RlockEvent :=
  [.tweak 0 (fun _ => true) (setRequest .setlk64 (.lock .wrlck) 100 0),
   .tweak 1 (fun _ => true) (setRequest .setlk64 (.lock .wrlck) 50 10),
   .tweak 0 (fun _ => true) (setRequest .setlk64 (.lock .wrlck) 0 10)]

/-- The third request of `gapSchedule` is granted and turns the open's record into one from byte
0 to the end of the file, over the other open's write lock. -/
theorem rlock_gap_not_exclusive :
    ∃ s, Reach rlockStep (fun _ e => NoOverflow e) RlockBox.init s ∧
      ∃ i ∈ s.locks, ∃ j ∈ s.locks, (s.heap i).poId ≠ (s.heap j).poId ∧
        (s.heap i).type = .wrlck ∧ (s.heap i).Covers 55 ∧ (s.heap j).Covers 55 := by
  refine ⟨_, Reach.labels gapSchedule .start (by decide) rfl, 0, ?_, 1, ?_⟩
  · decide
  · decide

end Hurd.Fshelp
