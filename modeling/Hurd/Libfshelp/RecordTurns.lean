import Hurd.Libfshelp.RecordList

/-!
# The rounds of the lock loops

`mergeTurn` and `unlockTurn` say what a round of `merge_in` and of `unlock_region` does to the list
of the open, from the region and the visited record alone. The loops run these turns, in every
well linked box and whichever allocations succeed.
-/

namespace Hurd.Fshelp

open List

/-- A record that is generated only when `needed`. -/
def genIf (needed : Prop) [Decidable needed] (n : RlockList) : List RlockList :=
  if needed then [n] else []

/-- A round of `merge_in` for the region `start`, `len` at record `r`. -/
def mergeTurn (po : Nat) (type : LockType) (start len : Int) (r : RlockList) : Turn :=
  if r.start ≤ start ∧ (r.len = 0 ∨ (len ≠ 0 ∧ start + len ≤ r.start + r.len)) then
    -- The record wraps the region.
    if type = r.type ∨ type = .rdlck then .stop [] r
    else
      let head := genIf (r.start < start) (newRecord po r.start (start - r.start) .rdlck)
      if (r.len = 0 ∧ len ≠ 0) ∨ start + len < r.start + r.len then
        .stop (head ++ [newRecord po (start + len) (r.tailLen (start + len)) .rdlck])
          { r with start := start, len := len, type := .wrlck }
      else .next start (lenAdd r.len (-(start - r.start))) head []
  else if start ≤ r.start ∧ (len = 0 ∨ (r.len ≠ 0 ∧ r.start + r.len ≤ start + len)) then
    -- The region wraps the record.
    if type = r.type ∨ type = .wrlck then .next start len [] []
    else
      let head := genIf (start < r.start) (newRecord po start (r.start - start) .rdlck)
      if r.len ≠ 0 ∧ (len = 0 ∨ r.start + r.len < start + len) then
        .next (r.start + r.len) (lenAdd len (start - (r.start + r.len))) head [r]
      else if start < r.start then .stop head r
      else .abort
  else if r.start < start ∧ start ≤ r.start + r.len ∧
      (len = 0 ∨ start + len > r.start + r.len) then
    -- The record reaches into the region from the left, or touches it.
    if type = r.type then .next r.start (lenAdd len (start - r.start)) [] []
    else if start = r.start + r.len then .next start len [] [r]
    else if type = .wrlck then .next start len [] [{ r with len := start - r.start }]
    else .next (r.start + r.len) (lenAdd len (-(r.start + r.len - start))) [] [r]
  else if start < r.start ∧ (r.len = 0 ∨ r.start ≤ start + len) then
    -- The region reaches into the record from the left, or touches it.
    if type = r.type then
      .stop [] { r with start := start, len := lenAdd r.len (r.start - start) }
    else if r.start = start + len then .next start len [] [r]
    else if type = .wrlck then
      .stop [newRecord po start len .wrlck]
        { r with start := start + len, len := lenAdd r.len (-(start + len - r.start)) }
    else .stop [newRecord po start (r.start - start) .rdlck] r
  else if start < r.start ∧ len ≠ 0 ∧ start + len ≤ r.start then
    .stop [newRecord po start len type] r
  else if start ≥ r.start + r.len ∧ r.len ≠ 0 then .next start len [] [r]
  else .abort

/-- `merge_in` on the records of the open. -/
def mergeTurns (po : Nat) (malloc : Nat → Bool) (type : LockType) :
    List RlockList → List RlockList → Int → Int → Nat → List RlockList × Outcome :=
  runTurns (mergeTurn po type) (fun start len => [newRecord po start len type]) malloc

/-- A round of `unlock_region` at record `r`. -/
def unlockTurn (po : Nat) (start len : Int) (r : RlockList) : Turn :=
  if r.len ≠ 0 ∧ r.start + r.len ≤ start then .next start len [] [r]
  else if len ≠ 0 ∧ start + len ≤ r.start then .stop [] r
  else if start ≤ r.start ∧ (len = 0 ∨ (r.len ≠ 0 ∧ r.start + r.len ≤ start + len)) then
    .next start len [] []
  else if start ≤ r.start ∧ (r.len = 0 ∨ r.start < start + len) then
    .next start len []
      [{ r with
          start := start + len
          len := lenAdd r.len (-(start + len - r.start))
          waiting := false }]
  else if r.start < start ∧
      ((start < r.start + r.len ∧ (len = 0 ∨ r.start + r.len ≤ start + len)) ∨
        (len = 0 ∧ r.len = 0)) then
    .next start len [] [{ r with len := start - r.start, waiting := false }]
  else if r.start < start ∧ (r.len = 0 ∨ (len ≠ 0 ∧ start + len < r.start + r.len)) then
    .stop [newRecord po (start + len) (r.tailLen (start + len)) r.type]
      { r with len := start - r.start }
  else .abort

/-- `unlock_region` on the records of the open. -/
def unlockTurns (po : Nat) (malloc : Nat → Bool) :
    List RlockList → List RlockList → Int → Int → Nat → List RlockList × Outcome :=
  runTurns (unlockTurn po) (fun _ _ => []) malloc

section Agreement

variable {σ : Type*} (view : σ → MergeVars)

/-- The round does to the list what the turn says, with `rs` still to be visited. -/
def Agrees (po : Nat) (malloc : Nat → Bool) (s : RlockBox) (R : List Nat) (ds : List RlockList)
    (r : RlockList) (rs : List RlockList) : Turn → Round σ (RlockBox × Outcome) → Prop
  | .next start len gens keep, .next t =>
      Granted malloc s.brk gens ∧ (view t).start = start ∧ (view t).len = len ∧ 0 ≤ len ∧
        (view t).box.brk = s.brk + gens.length ∧
        ∃ D, Cursor (view t).box po D R (enter gens ds ++ keep) rs
  | .next _ _ gens _, .stop p =>
      ¬ Granted malloc s.brk gens ∧ p.1.records po = ds ++ r :: rs ∧ p.2 = .ret .enomem
  | .stop gens r', .stop p =>
      (Granted malloc s.brk gens ∧ p.1.records po = enter gens (ds ++ r' :: rs) ∧
        p.2 = .ret .success) ∨
      (¬ Granted malloc s.brk gens ∧ p.1.records po = ds ++ r :: rs ∧ p.2 = .ret .enomem)
  | .abort, .stop p => p.1.records po = ds ++ r :: rs ∧ p.2 = .abort
  | _, _ => False

variable {view} {po : Nat} {malloc : Nat → Bool} {turn : Int → Int → RlockList → Turn}
  {last : Int → Int → List RlockList} {body : Nat → σ → Round σ (RlockBox × Outcome)}
  {after : σ → RlockBox × Outcome}

theorem scan_eq_runTurns (view : σ → MergeVars)
    (hround : ∀ l v D R ds r rs, Cursor (view v).box po D (l :: R) ds (r :: rs) → 0 ≤ (view v).len →
      Agrees view po malloc (view v).box R ds r rs (turn (view v).start (view v).len r) (body l v))
    (hafter : ∀ v D ds, Cursor (view v).box po D [] ds [] → 0 ≤ (view v).len →
      ((after v).1.records po, (after v).2) =
        runTurns turn last malloc [] ds (view v).start (view v).len (view v).box.brk)
    {R : List Nat} {D : List Nat} {ds rs : List RlockList} {v : σ}
    (h : Cursor (view v).box po D R ds rs) (hlen : 0 ≤ (view v).len) :
    ((scan body after R v).1.records po, (scan body after R v).2) =
      runTurns turn last malloc rs ds (view v).start (view v).len (view v).box.brk := by
  induction R generalizing v D ds rs with
  | nil =>
    obtain rfl : [] = rs := h.after
    exact hafter v D ds h hlen
  | cons l R ih =>
    obtain ⟨r, rs, rfl⟩ : ∃ r rs', rs = r :: rs' := ⟨_, _, h.after.symm⟩
    have hagree := hround l v D R ds r rs h hlen
    rw [scan, runTurns]
    cases hturn : turn (view v).start (view v).len r with
    | next start len gens keep =>
      rw [hturn] at hagree
      cases hbody : body l v with
      | next t =>
        rw [hbody] at hagree
        obtain ⟨hgrant, rfl, rfl, hlen', hbrk, D', hcursor⟩ := hagree
        dsimp only
        rw [if_pos hgrant, ih hcursor hlen', hbrk]
      | stop p =>
        rw [hbody] at hagree
        obtain ⟨hgrant, hrecords, hout⟩ := hagree
        dsimp only
        rw [if_neg hgrant, hrecords, hout]
    | stop gens r' =>
      rw [hturn] at hagree
      cases hbody : body l v with
      | next t =>
        rw [hbody] at hagree
        exact hagree.elim
      | stop p =>
        rw [hbody] at hagree
        dsimp only
        rcases hagree with ⟨hgrant, hrecords, hout⟩ | ⟨hgrant, hrecords, hout⟩
        · rw [if_pos hgrant, hrecords, hout]
        · rw [if_neg hgrant, hrecords, hout]
    | abort =>
      rw [hturn] at hagree
      cases hbody : body l v with
      | next t =>
        rw [hbody] at hagree
        exact hagree.elim
      | stop p =>
        rw [hbody] at hagree
        dsimp only
        rw [hagree.1, hagree.2]

end Agreement

section Allocation

variable {po : Nat} {malloc : Nat → Bool} {start len : Int} {type : LockType} {s : RlockBox}

@[simp] theorem granted_nil (brk : Nat) : Granted malloc brk [] := by
  simp [Granted]

@[simp] theorem granted_singleton (brk : Nat) (n : RlockList) :
    Granted malloc brk [n] ↔ malloc brk = true := by
  simp [Granted]

theorem granted_append (brk : Nat) (gens gens' : List RlockList) :
    Granted malloc brk (gens ++ gens') ↔
      Granted malloc brk gens ∧ Granted malloc (brk + gens.length) gens' := by
  unfold Granted
  rw [length_append]
  constructor
  · intro h
    refine ⟨fun i hi => h i (by omega), fun i hi => ?_⟩
    rw [Nat.add_assoc]
    exact h _ (by omega)
  · intro h i hi
    by_cases hi' : i < gens.length
    · exact h.1 i hi'
    · have hrest := h.2 (i - gens.length) (by omega)
      rwa [Nat.add_assoc, Nat.add_sub_of_le (by omega)] at hrest

theorem genLock_cases (po : Nat) (malloc : Nat → Bool) (start len : Int) (type : LockType)
    (s : RlockBox) :
    (∃ p, malloc s.brk = true ∧ genLock po malloc start len type s = some p ∧
        Generated po start len type s p.1 p.2) ∨
      (¬ malloc s.brk = true ∧ genLock po malloc start len type s = none) := by
  cases hg : genLock po malloc start len type s with
  | some p =>
    refine .inl ⟨p, ?_, rfl, genLock_generated hg⟩
    by_contra hm
    rw [genLock, if_neg hm] at hg
    cases hg
  | none =>
    refine .inr ⟨fun hm => ?_, rfl⟩
    rw [genLock, if_pos hm] at hg
    cases hg

@[simp] theorem mem_genIf {needed : Prop} [Decidable needed] {n m : RlockList} :
    m ∈ genIf needed n ↔ needed ∧ m = n := by
  unfold genIf
  split <;> simp_all

theorem genLockIf_cases (needed : Prop) [Decidable needed] (po : Nat) (malloc : Nat → Bool)
    (start len : Int) (type : LockType) (s : RlockBox) (hlen : needed → 0 ≤ len) :
    (∃ p, Granted malloc s.brk (genIf needed (newRecord po start len type)) ∧
        genLockIf (decide needed) po malloc start len type s = some p ∧
        p.1.isSome = decide needed ∧
        Generates po (genIf needed (newRecord po start len type)) s p.2 ∧
        ∀ n, p.1 = some n → Generated po start len type s n p.2) ∨
      (¬ Granted malloc s.brk (genIf needed (newRecord po start len type)) ∧
        genLockIf (decide needed) po malloc start len type s = none) := by
  unfold genIf
  by_cases hneed : needed
  · rw [if_pos hneed, decide_eq_true hneed, granted_singleton]
    simp only [genLockIf, if_true]
    rcases genLock_cases po malloc start len type s with ⟨p, hm, hg, hgen⟩ | ⟨hm, hg⟩
    · refine .inl ⟨(some p.1, p.2), hm, by rw [hg]; rfl, rfl,
        .cons hgen (hlen hneed) (.nil _), fun n hn => ?_⟩
      obtain rfl : p.1 = n := by simpa using hn
      exact hgen
    · exact .inr ⟨hm, by rw [hg]; rfl⟩
  · rw [if_neg hneed, decide_eq_false hneed]
    exact .inl ⟨(none, s), granted_nil _, rfl, rfl, .nil s, by simp⟩

theorem erase_listLink {heap : Nat → RlockList} {node : Nat} {es : List Nat} (h : node ∉ es) :
    (listLink heap node es).erase node = es := by
  induction es with
  | nil => simp [listLink]
  | cons e es ih =>
    rw [mem_cons, not_or] at h
    rw [listLink]
    split
    · rw [erase_cons_tail (by simpa using Ne.symm h.1), ih h.2]
    · rw [erase_cons_head]

theorem records_rele_generated {n : Nat} {t : RlockBox} (hw : WellLinked s)
    (hg : Generated po start len type s n t) (w : Bool) :
    (releLock n w t).records po = s.records po := by
  have hnew : s.brk ∉ s.poLocks po := fun hm =>
    Nat.lt_irrefl _ (hw.below _ ((hw.mem_iff po _).mp hm).1)
  have howner : (t.heap s.brk).poId = po := by
    rw [hg.heap_new]
    rfl
  unfold RlockBox.records
  rw [releLock_poLocks, releLock_heap, hg.addr, howner, Function.update_self, hg.poLocks,
    Function.update_self, erase_listLink hnew, hg.map_old hw fun i hi => hi]

end Allocation

section Unlock

variable {po : Nat} {malloc : Nat → Bool} {start len : Int} {s : RlockBox} {l : Nat}
  {D R : List Nat} {ds rs : List RlockList} {r : RlockList}

theorem unlockBody_agrees (h : Cursor s po D (l :: R) ds (r :: rs)) (hlen : 0 ≤ len) :
    Agrees (fun s => { start := start, len := len, box := s }) po malloc s R ds r rs
      (unlockTurn po start len r) (unlockBody po malloc start len l s) := by
  have hnn := h.len_nonneg
  have hrecords := h.records
  unfold unlockBody unlockTurn
  dsimp only
  rw [h.here]
  by_cases h₁ : r.len ≠ 0 ∧ r.start + r.len ≤ start
  · rw [if_pos h₁, if_pos h₁]
    exact ⟨granted_nil _, rfl, rfl, hlen, rfl, _, h.pass⟩
  rw [if_neg h₁, if_neg h₁]
  by_cases h₂ : len ≠ 0 ∧ start + len ≤ r.start
  · rw [if_pos h₂, if_pos h₂]
    exact .inl ⟨granted_nil _, hrecords, rfl⟩
  rw [if_neg h₂, if_neg h₂]
  by_cases h₃ : start ≤ r.start ∧ (len = 0 ∨ (r.len ≠ 0 ∧ r.start + r.len ≤ start + len))
  · rw [if_pos h₃, if_pos h₃]
    refine ⟨granted_nil _, rfl, rfl, hlen, by simp, D, ?_⟩
    rw [append_nil]
    exact h.rele true
  rw [if_neg h₃, if_neg h₃]
  by_cases h₄ : start ≤ r.start ∧ (r.len = 0 ∨ r.start < start + len)
  · rw [if_pos h₄, if_pos h₄]
    have hcut : len ≠ 0 ∧ (r.len = 0 ∨ start + len < r.start + r.len) := by omega
    rw [if_neg (not_not.mpr hcut)]
    refine ⟨granted_nil _, rfl, rfl, hlen, by simp, _, (h.set ?_ ?_).wake.pass⟩
    · rfl
    · dsimp only
      unfold lenAdd
      split_ifs <;> omega
  rw [if_neg h₄, if_neg h₄]
  by_cases h₅ : r.start < start ∧
      ((start < r.start + r.len ∧ (len = 0 ∨ r.start + r.len ≤ start + len)) ∨
        (len = 0 ∧ r.len = 0))
  · rw [if_pos h₅, if_pos h₅]
    have hcut : len = 0 ∨ (r.len ≠ 0 ∧ r.start + r.len ≤ start + len) := by omega
    rw [if_neg (not_not.mpr hcut)]
    refine ⟨granted_nil _, rfl, rfl, hlen, by simp, _, (h.set ?_ ?_).wake.pass⟩
    · rfl
    · dsimp only
      omega
  rw [if_neg h₅, if_neg h₅]
  by_cases h₆ : r.start < start ∧ (r.len = 0 ∨ (len ≠ 0 ∧ start + len < r.start + r.len))
  · rw [if_pos h₆, if_pos h₆]
    have hbound : len ≠ 0 := by omega
    rw [if_neg (not_not.mpr hbound)]
    rcases genLock_cases po malloc (start + len) (r.tailLen (start + len)) r.type s with
      ⟨p, hm, hg, hgen⟩ | ⟨hm, hg⟩
    · rw [hg]
      refine .inl ⟨by simpa using hm, ?_, rfl⟩
      have hchain : Generates po [newRecord po (start + len) (r.tailLen (start + len)) r.type]
          s p.2 := by
        refine .cons hgen ?_ (.nil _)
        unfold RlockList.tailLen
        split_ifs <;> omega
      have hset : Cursor (s.setRecord l { r with len := start - r.start }) po D (l :: R) ds
          ({ r with len := start - r.start } :: rs) := h.set rfl (by dsimp only; omega)
      dsimp only
      rw [hchain.records_set h.linked h.mem ?_, hset.records]
      rw [h.here]
      simp
    · rw [hg]
      exact .inr ⟨by simpa using hm, hrecords, rfl⟩
  rw [if_neg h₆, if_neg h₆, if_neg (by omega)]
  exact ⟨hrecords, rfl⟩

theorem unlockRegion_records (hw : WellLinked s) (hlen : 0 ≤ len) :
    ((unlockRegion po malloc start len s).1.records po, (unlockRegion po malloc start len s).2) =
      unlockTurns po malloc (s.records po) [] start len s.brk := by
  have hstart : Cursor s po [] (s.poLocks po) [] (s.records po) := ⟨hw, rfl, rfl, rfl⟩
  refine scan_eq_runTurns (fun s => { start := start, len := len, box := s }) ?_ ?_ hstart hlen
  · intro l v D R ds r rs h hlen
    exact unlockBody_agrees h hlen
  · intro v D ds h hlen
    rw [runTurns, if_pos (granted_nil _)]
    simp [h.records]

end Unlock

section Merge

variable {po : Nat} {malloc : Nat → Bool} {type : LockType} {v : MergeVars} {l : Nat}
  {D R : List Nat} {ds rs : List RlockList} {r : RlockList}

theorem mergeFinish_records (po : Nat) (malloc : Nat → Bool) (type : LockType)
    (hw : WellLinked v.box) :
    (Granted malloc v.box.brk [newRecord po v.start v.len type] ∧
        (mergeFinish po malloc type v).1.records po =
          enter [newRecord po v.start v.len type] (v.box.records po) ∧
        (mergeFinish po malloc type v).2 = .ret .success) ∨
      (¬ Granted malloc v.box.brk [newRecord po v.start v.len type] ∧
        (mergeFinish po malloc type v).1.records po = v.box.records po ∧
        (mergeFinish po malloc type v).2 = .ret .enomem) := by
  unfold mergeFinish
  rw [granted_singleton]
  rcases genLock_cases po malloc v.start v.len type v.box with ⟨p, hm, hg, hgen⟩ | ⟨hm, hg⟩
  · rw [hg]
    exact .inl ⟨hm, hgen.records_eq hw, rfl⟩
  · rw [hg]
    exact .inr ⟨hm, rfl, rfl⟩

theorem splitHead_eq {head : Option Nat} {start : Int}
    (hsome : head.isSome = decide (r.start < start)) (hle : r.start ≤ start) :
    (if head.isSome = true then
      { r with len := lenAdd r.len (-(start - r.start)), start := r.start + (start - r.start) }
    else r) =
      { r with start := start, len := lenAdd r.len (-(start - r.start)) } := by
  rw [hsome]
  by_cases hlt : r.start < start
  · rw [decide_eq_true hlt, if_pos rfl]
    have hstart : r.start + (start - r.start) = start := by omega
    rw [hstart]
  · obtain rfl : r.start = start := by omega
    rw [decide_eq_false hlt, if_neg Bool.false_ne_true]
    simp [lenAdd]

theorem mergeWrapped_agrees (h : Cursor v.box po D (l :: R) ds (r :: rs)) (hlen : 0 ≤ v.len)
    (hin : r.start ≤ v.start ∧ (r.len = 0 ∨ (v.len ≠ 0 ∧ v.start + v.len ≤ r.start + r.len))) :
    Agrees id po malloc v.box R ds r rs (mergeTurn po type v.start v.len r)
      (mergeWrapped po malloc type l v) := by
  have hnn := h.len_nonneg
  have hrecords := h.records
  unfold mergeTurn mergeWrapped
  rw [if_pos hin]
  dsimp only
  rw [h.here]
  split
  · exact .inl ⟨granted_nil _, hrecords, rfl⟩
  rename_i hother
  have htypes : type = .wrlck ∧ r.type = .rdlck := by
    revert hother
    cases type <;> cases r.type <;> simp
  rw [if_neg (not_not.mpr htypes)]
  rcases genLockIf_cases (r.start < v.start) po malloc r.start (v.start - r.start) .rdlck v.box
    (fun hlt => by omega) with ⟨p, hgrant, hg, hsome, hgen, hhead⟩ | ⟨hgrant, hg⟩
  · rw [hg]
    dsimp only
    have hgens : ∀ n ∈ genIf (r.start < v.start) (newRecord po r.start (v.start - r.start) .rdlck),
        n.start ≤ r.start := fun n hn => by
      rw [(mem_genIf.mp hn).2]
      exact Int.le_refl _
    obtain ⟨D', hcursor⟩ := hgen.cursor h hgens
    have hheap : p.2.heap l = r := hcursor.here
    rcases genLockIf_cases ((r.len = 0 ∧ v.len ≠ 0) ∨ v.start + v.len < r.start + r.len) po malloc
      (v.start + v.len) (r.tailLen (v.start + v.len)) .rdlck p.2
      (fun hneed => by unfold RlockList.tailLen; split_ifs <;> omega) with
      ⟨q, hgrant', hg', hsome', hgen', -⟩ | ⟨hgrant', hg'⟩
    · rw [hg']
      dsimp only
      split
      · rename_i hneed
        obtain ⟨n, hn⟩ : ∃ n, q.1 = some n :=
          Option.isSome_iff_exists.mp (by simpa [hneed] using hsome')
        rw [hn]
        dsimp only
        rw [splitHead_eq hsome hin.1]
        dsimp only
        have hlength : v.start + v.len - v.start = v.len := by omega
        rw [hlength]
        rw [genIf, if_pos hneed] at hgrant' hgen'
        have hgrants := (granted_append v.box.brk _ _).mpr ⟨hgrant, by rwa [← hgen.brk]⟩
        refine .inl ⟨hgrants, ?_, rfl⟩
        have hset : Cursor _ po D (l :: R) ds
            ({ r with start := v.start, len := v.len, type := .wrlck } :: rs) := h.set rfl hlen
        rw [hgen'.records_set hcursor.linked hcursor.mem, hgen.records_set h.linked h.mem,
          hset.records, enter_append]
        · intro m hm
          rw [h.here, (mem_genIf.mp hm).2]
          simp only [newRecord]
          omega
        · intro m hm
          rw [hcursor.here, mem_singleton.mp hm]
          simp only [newRecord]
          omega
      · rename_i hneed
        obtain hn : q.1 = none := by simpa [hneed] using hsome'
        rw [hn]
        dsimp only
        rw [splitHead_eq hsome hin.1]
        dsimp only
        have hfit : 0 ≤ lenAdd r.len (-(v.start - r.start)) := by
          unfold lenAdd
          split_ifs <;> omega
        rw [genIf, if_neg hneed] at hgen'
        rw [hgen'.nil_eq]
        refine ⟨hgrant, rfl, rfl, hfit, ?_, D', ?_⟩
        · simp [hgen.brk]
        · rw [append_nil]
          have hset : Cursor _ po D' (l :: R) (enter _ ds)
              ({ r with start := v.start, len := lenAdd r.len (-(v.start - r.start)) } :: rs) :=
            hcursor.set rfl hfit
          exact hset.rele true
    · rw [hg']
      dsimp only
      have hneed : (r.len = 0 ∧ v.len ≠ 0) ∨ v.start + v.len < r.start + r.len := by
        by_contra hneed
        rw [genIf, if_neg hneed] at hgrant'
        exact hgrant' (granted_nil _)
      rw [if_pos hneed]
      rw [genIf, if_pos hneed] at hgrant'
      refine .inr ⟨fun hall => hgrant' ?_, ?_, rfl⟩
      · rw [hgen.brk]
        exact ((granted_append _ _ _).mp hall).2
      · cases hp : p.1 with
        | none =>
          have hnone : ¬ r.start < v.start := by simpa [hp] using hsome.symm
          rw [genIf, if_neg hnone] at hgen
          dsimp only
          rw [hgen.records_eq h.linked, hrecords, enter_nil]
        | some n => exact (records_rele_generated h.linked (hhead n hp) false).trans hrecords
  · rw [hg]
    dsimp only
    split
    · refine .inr ⟨fun hall => hgrant ?_, hrecords, rfl⟩
      exact ((granted_append _ _ _).mp hall).1
    · exact ⟨hgrant, hrecords, rfl⟩

theorem mergeWraps_agrees (h : Cursor v.box po D (l :: R) ds (r :: rs)) (hlen : 0 ≤ v.len)
    (hin : ¬ (r.start ≤ v.start ∧ (r.len = 0 ∨ (v.len ≠ 0 ∧ v.start + v.len ≤ r.start + r.len))))
    (hout : v.start ≤ r.start ∧ (v.len = 0 ∨ (r.len ≠ 0 ∧ r.start + r.len ≤ v.start + v.len))) :
    Agrees id po malloc v.box R ds r rs (mergeTurn po type v.start v.len r)
      (mergeWraps po malloc type l v) := by
  have hnn := h.len_nonneg
  have hrecords := h.records
  unfold mergeTurn mergeWraps
  rw [if_neg hin, if_pos hout]
  dsimp only
  rw [h.here]
  split
  · refine ⟨granted_nil _, rfl, rfl, hlen, by simp, D, ?_⟩
    rw [append_nil]
    exact h.rele true
  rename_i hother
  have htypes : type = .rdlck ∧ r.type = .wrlck := by
    revert hother
    cases type <;> cases r.type <;> simp
  rw [if_neg (not_not.mpr htypes)]
  rcases genLockIf_cases (v.start < r.start) po malloc v.start (r.start - v.start) .rdlck v.box
    (fun hlt => by omega) with ⟨p, hgrant, hg, hsome, hgen, -⟩ | ⟨hgrant, hg⟩
  · rw [hg]
    dsimp only
    rw [hsome]
    split
    · obtain ⟨D', hcursor⟩ := hgen.cursor h fun n hn => by
        obtain ⟨hlt, rfl⟩ := mem_genIf.mp hn
        exact Int.le_of_lt hlt
      refine ⟨hgrant, rfl, rfl, ?_, hgen.brk, _, hcursor.pass⟩
      unfold lenAdd
      split_ifs <;> omega
    · split
      · rename_i hlt
        rw [if_pos (by simpa using hlt)]
        exact .inl ⟨hgrant, by rw [hgen.records_eq h.linked, hrecords], rfl⟩
      · omega
  · rw [hg]
    dsimp only
    split
    · exact ⟨hgrant, hrecords, rfl⟩
    · split
      · exact .inr ⟨hgrant, hrecords, rfl⟩
      · omega

theorem mergeAfter_agrees (h : Cursor v.box po D (l :: R) ds (r :: rs)) (hlen : 0 ≤ v.len)
    (hin : ¬ (r.start ≤ v.start ∧ (r.len = 0 ∨ (v.len ≠ 0 ∧ v.start + v.len ≤ r.start + r.len))))
    (hout : ¬ (v.start ≤ r.start ∧ (v.len = 0 ∨ (r.len ≠ 0 ∧ r.start + r.len ≤ v.start + v.len))))
    (hleft : r.start < v.start ∧ v.start ≤ r.start + r.len ∧
      (v.len = 0 ∨ v.start + v.len > r.start + r.len)) :
    Agrees id po malloc v.box R ds r rs (mergeTurn po type v.start v.len r)
      (mergeAfter type l v) := by
  have hnn := h.len_nonneg
  unfold mergeTurn mergeAfter
  have hfinite : ¬ ¬ r.len ≠ 0 := by omega
  rw [if_neg hin, if_neg hout, if_pos hleft]
  dsimp only
  rw [h.here, if_neg hfinite]
  split
  · refine ⟨granted_nil _, rfl, rfl, ?_, by simp, D, ?_⟩
    · unfold lenAdd
      split_ifs <;> omega
    · rw [append_nil]
      exact h.rele true
  rename_i hother
  split
  · exact ⟨granted_nil _, rfl, rfl, hlen, rfl, _, h.pass⟩
  split
  · rename_i hne htype
    have hread : r.type = .rdlck := by
      revert hother
      cases htype
      cases r.type <;> simp
    rw [if_neg (not_not.mpr hread)]
    have hcut : r.len - (r.start + r.len - v.start) = v.start - r.start := by omega
    rw [hcut]
    refine ⟨granted_nil _, rfl, rfl, hlen, rfl, _, Cursor.pass (h.set rfl ?_)⟩
    dsimp only
    omega
  · rename_i hne htype
    have htypes : type = .rdlck ∧ r.type = .wrlck := by
      revert hother htype
      cases type <;> cases r.type <;> simp
    rw [if_neg (not_not.mpr htypes)]
    have hend : v.start + (r.start + r.len - v.start) = r.start + r.len := by omega
    rw [hend]
    refine ⟨granted_nil _, rfl, rfl, ?_, rfl, _, h.pass⟩
    unfold lenAdd
    split_ifs <;> omega

theorem mergeBefore_agrees (h : Cursor v.box po D (l :: R) ds (r :: rs)) (hlen : 0 ≤ v.len)
    (hin : ¬ (r.start ≤ v.start ∧ (r.len = 0 ∨ (v.len ≠ 0 ∧ v.start + v.len ≤ r.start + r.len))))
    (hout : ¬ (v.start ≤ r.start ∧ (v.len = 0 ∨ (r.len ≠ 0 ∧ r.start + r.len ≤ v.start + v.len))))
    (hleft : ¬ (r.start < v.start ∧ v.start ≤ r.start + r.len ∧
      (v.len = 0 ∨ v.start + v.len > r.start + r.len)))
    (hright : v.start < r.start ∧ (r.len = 0 ∨ r.start ≤ v.start + v.len)) :
    Agrees id po malloc v.box R ds r rs (mergeTurn po type v.start v.len r)
      (mergeBefore po malloc type l v) := by
  have hnn := h.len_nonneg
  have hrecords := h.records
  unfold mergeTurn mergeBefore
  have hbeyond : ¬ ¬ (v.len ≠ 0 ∧ (r.len = 0 ∨ v.start + v.len < r.start + r.len)) := by omega
  rw [if_neg hin, if_neg hout, if_neg hleft, if_pos hright]
  dsimp only
  rw [h.here, if_neg hbeyond]
  split
  · refine .inl ⟨granted_nil _, ?_, rfl⟩
    have hfit : 0 ≤ lenAdd r.len (r.start - v.start) := by
      unfold lenAdd
      split_ifs <;> omega
    have hset : Cursor _ po D (l :: R) ds
        ({ r with start := v.start, len := lenAdd r.len (r.start - v.start) } :: rs) :=
      h.set rfl hfit
    exact hset.records
  rename_i hother
  split
  · exact ⟨granted_nil _, rfl, rfl, hlen, rfl, _, h.pass⟩
  split
  · rename_i hne htype
    have hread : r.type = .rdlck := by
      revert hother
      cases htype
      cases r.type <;> simp
    rw [if_neg (not_not.mpr hread)]
    have hend : r.start + (v.start + v.len - r.start) = v.start + v.len := by omega
    rw [hend]
    rcases genLock_cases po malloc v.start v.len .wrlck v.box with ⟨p, hm, hg, hgen⟩ | ⟨hm, hg⟩
    · rw [hg]
      refine .inl ⟨by simpa using hm, ?_, rfl⟩
      have hfit : 0 ≤ lenAdd r.len (-(v.start + v.len - r.start)) := by
        unfold lenAdd
        split_ifs <;> omega
      have hset : Cursor _ po D (l :: R) ds
          ({ r with start := v.start + v.len, len := lenAdd r.len (-(v.start + v.len - r.start)) }
            :: rs) :=
        h.set rfl hfit
      have hchain : Generates po [newRecord po v.start v.len .wrlck] v.box p.2 :=
        .cons hgen hlen (.nil _)
      dsimp only
      rw [hchain.records_set h.linked h.mem ?_, hset.records]
      rw [h.here]
      simp only [mem_singleton, forall_eq, newRecord]
      omega
    · rw [hg]
      exact .inr ⟨by simpa using hm, hrecords, rfl⟩
  · rename_i hne htype
    have htypes : type = .rdlck ∧ r.type = .wrlck := by
      revert hother htype
      cases type <;> cases r.type <;> simp
    rw [if_neg (not_not.mpr htypes)]
    rcases genLock_cases po malloc v.start (r.start - v.start) .rdlck v.box with
      ⟨p, hm, hg, hgen⟩ | ⟨hm, hg⟩
    · rw [hg]
      exact .inl ⟨by simpa using hm, by rw [hgen.records_eq h.linked, hrecords]; rfl, rfl⟩
    · rw [hg]
      exact .inr ⟨by simpa using hm, hrecords, rfl⟩

theorem mergeBody_agrees (h : Cursor v.box po D (l :: R) ds (r :: rs)) (hlen : 0 ≤ v.len) :
    Agrees id po malloc v.box R ds r rs (mergeTurn po type v.start v.len r)
      (mergeBody po malloc type l v) := by
  have hrecords := h.records
  unfold mergeBody
  dsimp only
  rw [h.here]
  split
  · exact mergeWrapped_agrees h hlen ‹_›
  split
  · exact mergeWraps_agrees h hlen ‹_› ‹_›
  split
  · exact mergeAfter_agrees h hlen ‹_› ‹_› ‹_›
  split
  · exact mergeBefore_agrees h hlen ‹_› ‹_› ‹_› ‹_›
  rename_i h₁ h₂ h₃ h₄
  unfold mergeTurn
  rw [if_neg h₁, if_neg h₂, if_neg h₃, if_neg h₄]
  split
  · have hfinish := mergeFinish_records po malloc type h.linked
    rw [hrecords] at hfinish
    exact hfinish
  split
  · exact ⟨granted_nil _, rfl, rfl, hlen, rfl, _, h.pass⟩
  · exact ⟨hrecords, rfl⟩

theorem mergeIn_records {start len : Int} {s : RlockBox} (hw : WellLinked s) (hlen : 0 ≤ len) :
    ((mergeIn po malloc start len type s).1.records po, (mergeIn po malloc start len type s).2) =
      mergeTurns po malloc type (s.records po) [] start len s.brk := by
  have hstart : Cursor s po [] (s.poLocks po) [] (s.records po) := ⟨hw, rfl, rfl, rfl⟩
  have hlen' : 0 ≤ (id { start := start, len := len, box := s } : MergeVars).len := hlen
  refine scan_eq_runTurns id ?_ ?_
    (show Cursor (id { start := start, len := len, box := s } : MergeVars).box po [] _ [] _
      from hstart) hlen'
  · intro l v D R ds r rs h hlen
    exact mergeBody_agrees h hlen
  · intro v D ds h hlen
    change Cursor v.box po D [] ds [] at h
    have hrecords : v.box.records po = ds := by simpa using h.records
    rw [runTurns, id_eq]
    rcases mergeFinish_records po malloc type h.linked with
      ⟨hgrant, hfinish, hout⟩ | ⟨hgrant, hfinish, hout⟩
    · rw [if_pos hgrant, hfinish, hout, hrecords]
    · rw [if_neg hgrant, hfinish, hout, hrecords]

end Merge

end Hurd.Fshelp
