import Hurd.Libfshelp.RecordLockEdit

/-!
# Runs of a record-lock box

The part of the invariant that every step keeps, conditions on the lock calls of a step, and the
rule by which a property of boxes is carried through a run: it is enough to look at an unlock, a
grant, a sleep and the drop of an open.
-/

namespace Hurd.Fshelp

open List Option

/-- The start a request names, before its `loff_t` sum is taken. -/
def TweakArgs.rawStart (a : TweakArgs) : Int :=
  match a.lock.whence with
  | .seekSet => a.lock.start
  | .seekCur => a.curPointer + a.lock.start
  | .seekEnd => a.objSize + a.lock.start
  | .other => 0

/-- No sum of the request overflows a `loff_t`. -/
def NoOverflow : RlockEvent → Prop
  | .tweak _ _ a =>
      -2 ^ 63 ≤ a.rawStart ∧ a.rawStart < 2 ^ 63 ∧ a.rawStart + a.lock.len < 2 ^ 63
  | _ => True

instance (e : RlockEvent) : Decidable (NoOverflow e) :=
  match e with
  | .tweak _ _ _ => inferInstanceAs (Decidable (_ ∧ _ ∧ _))
  | .resume _ _ | .spurious _ | .interrupt _ | .cancel _ | .drop _ => .isTrue trivial

/-- What holds between the steps of a box. -/
structure RlockInv (s : RlockBox) : Prop where
  linked : WellLinked s
  pending : ∀ w, s.Pending w → 0 ≤ w.len

theorem rlockInv_init : RlockInv RlockBox.init where
  linked := wellLinked_init
  pending w h := by simp [RlockBox.Pending, RlockBox.init] at h

section Calls

variable {po : Nat} {malloc : Nat → Bool} {start len : Int} {type : LockType} {s : RlockBox}

theorem Edit.rlockInv {keep : List Nat} {quiet : Prop} {t : RlockBox}
    (he : Edit po keep quiet s t) (h : RlockInv s) : RlockInv t :=
  ⟨he.wellLinked h.linked, fun w hw => h.pending w (he.pending hw)⟩

theorem unlockRegion_rlockInv (h : RlockInv s) (hlen : 0 ≤ len) :
    RlockInv (unlockRegion po malloc start len s).1 := by
  have he : Edit po [] False s (unlockRegion po malloc start len s).1 :=
    unlockRegion_edits h.linked hlen (scanVisits_of_forall _ (fun _ _ => False.elim) _ _)
  exact he.rlockInv h

theorem retry_rlockInv {wait : Bool} (h : RlockInv s) (hlen : 0 ≤ len) :
    RlockInv (retry po malloc wait start len type s).1 := by
  unfold retry
  cases hf : findConflict po start len type s with
  | none =>
    have he : Edit po [] False s (mergeIn po malloc start len type s).1 :=
      mergeIn_edits h.linked hlen (scanVisits_of_forall _ (fun _ _ => False.elim) _ _)
    exact he.rlockInv h
  | some e =>
    cases wait with
    | false => exact h
    | true =>
      refine ⟨wellLinked_sleepOn h.linked _ (mem_of_find?_eq_some hf), ?_⟩
      intro w hw
      rcases pending_sleepOn hw with hw | rfl
      · exact h.pending w hw
      · exact hlen

theorem drop_rlockInv (h : RlockInv s) : RlockInv (fshelpRlockDropPeropen po s) := by
  obtain ⟨-, -, -, -, hw⟩ := foldl_dropRecord (s.poLocks po) s
  exact ⟨wellLinked_drop h.linked, fun w hp => h.pending w (hw w hp)⟩

theorem RlockInv.requests (h : RlockInv s) {ws ws' : List Waiter}
    (hws : ∀ w, w ∈ ws ∨ w ∈ ws' → s.Pending w) :
    RlockInv { s with waiters := ws, woken := ws' } :=
  ⟨⟨h.linked.locksNodup, h.linked.poNodup, h.linked.mem_iff, h.linked.below, h.linked.nonneg⟩,
    fun w hw => h.pending w (hws w hw)⟩

end Calls

theorem rlockStep_rlockInv {s s' : RlockBox} {e : RlockEvent} (h : RlockInv s)
    (hstep : rlockStep s e = some s') : RlockInv s' := by
  cases e with
  | tweak po malloc a =>
    cases hstep
    have hlen := checkArgs_lenOk a
    unfold fshelpRlockTweak
    cases hc : checkArgs a with
    | fail e => exact h
    | unlock start len => exact unlockRegion_rlockInv h (by rw [hc] at hlen; exact hlen)
    | get start len type => exact h
    | set wait start len type => exact retry_rlockInv h (by rw [hc] at hlen; exact hlen)
  | resume i malloc =>
    obtain ⟨w, hw, rfl⟩ := map_eq_some_iff.mp hstep
    refine retry_rlockInv (h.requests ?_) (h.pending w (.inr (mem_of_getElem? hw)))
    exact fun w hw => hw.imp_right mem_of_mem_eraseIdx
  | spurious i =>
    obtain ⟨w, hw, rfl⟩ := map_eq_some_iff.mp hstep
    refine h.requests ?_
    rintro w' (hw' | hw')
    · exact .inl (mem_of_mem_eraseIdx hw')
    · rcases mem_append.mp hw' with hw' | hw'
      · exact .inr hw'
      · have he : w' = w := by simpa using hw'
        subst w'
        exact .inl (mem_of_getElem? hw)
  | interrupt i =>
    obtain ⟨w, hw, rfl⟩ := map_eq_some_iff.mp hstep
    exact h.requests fun w hw => hw.imp_left mem_of_mem_eraseIdx
  | cancel i =>
    obtain ⟨w, hw, rfl⟩ := map_eq_some_iff.mp hstep
    exact h.requests fun w hw => hw.imp_right mem_of_mem_eraseIdx
  | drop po =>
    cases hstep
    exact drop_rlockInv h

/-- The condition `unlockOk` on an unlock and `grantOk` on a lock request that meets no conflict,
be it a new call or a woken one. -/
def CallMeets (unlockOk : Nat → (Nat → Bool) → Int → Int → RlockBox → Prop)
    (grantOk : Nat → (Nat → Bool) → Int → Int → LockType → RlockBox → Prop) (s : RlockBox) :
    RlockEvent → Prop
  | .tweak po malloc a =>
      match checkArgs a with
      | .unlock start len => unlockOk po malloc start len s
      | .set _ start len type =>
          findConflict po start len type s = none → grantOk po malloc start len type s
      | _ => True
  | .resume i malloc =>
      match s.woken[i]? with
      | some w =>
          findConflict w.po w.start w.len w.type s = none →
            grantOk w.po malloc w.start w.len w.type { s with woken := s.woken.eraseIdx i }
      | none => True
  | _ => True

section Rule

variable {unlockOk : Nat → (Nat → Bool) → Int → Int → RlockBox → Prop}
variable {grantOk : Nat → (Nat → Bool) → Int → Int → LockType → RlockBox → Prop}

instance [∀ po malloc start len s, Decidable (unlockOk po malloc start len s)]
    [∀ po malloc start len type s, Decidable (grantOk po malloc start len type s)]
    (s : RlockBox) (e : RlockEvent) : Decidable (CallMeets unlockOk grantOk s e) :=
  match e with
  | .tweak po malloc a =>
      match hc : checkArgs a with
      | .unlock start len =>
          decidable_of_iff (unlockOk po malloc start len s) (by simp [CallMeets, hc])
      | .set _ start len type =>
          decidable_of_iff (findConflict po start len type s = none →
            grantOk po malloc start len type s) (by simp [CallMeets, hc])
      | .fail _ | .get _ _ _ => .isTrue (by simp [CallMeets, hc])
  | .resume i malloc =>
      match hw : s.woken[i]? with
      | some w =>
          decidable_of_iff (findConflict w.po w.start w.len w.type s = none →
            grantOk w.po malloc w.start w.len w.type { s with woken := s.woken.eraseIdx i })
            (by simp [CallMeets, hw])
      | none => .isTrue (by simp [CallMeets, hw])
  | .spurious _ | .interrupt _ | .cancel _ | .drop _ => .isTrue trivial

/-- What has to be shown of a property of boxes for it to survive every step. -/
structure Survives (unlockOk : Nat → (Nat → Bool) → Int → Int → RlockBox → Prop)
    (grantOk : Nat → (Nat → Bool) → Int → Int → LockType → RlockBox → Prop)
    (P : RlockBox → Prop) : Prop where
  init : P RlockBox.init
  unlock : ∀ po malloc start len s, RlockInv s → P s → 0 ≤ len →
    unlockOk po malloc start len s → P (unlockRegion po malloc start len s).1
  grant : ∀ po malloc start len type s, RlockInv s → P s → 0 ≤ len →
    findConflict po start len type s = none → grantOk po malloc start len type s →
    P (mergeIn po malloc start len type s).1
  sleep : ∀ w s, RlockInv s → P s → findConflict w.po w.start w.len w.type s = some w.record →
    P (s.sleepOn w)
  drop : ∀ po s, RlockInv s → P s → P (fshelpRlockDropPeropen po s)
  requests : ∀ s ws ws', P s → (∀ w ∈ ws, w ∈ s.waiters) →
    P { s with waiters := ws, woken := ws' }

variable {P : RlockBox → Prop}

theorem Survives.retry (hP : Survives unlockOk grantOk P) {po : Nat} {malloc : Nat → Bool}
    {wait : Bool} {start len : Int} {type : LockType} {s : RlockBox} (h : RlockInv s) (hp : P s)
    (hlen : 0 ≤ len) (hok : findConflict po start len type s = none →
      grantOk po malloc start len type s) :
    P (Fshelp.retry po malloc wait start len type s).1 := by
  unfold Fshelp.retry
  cases hf : findConflict po start len type s with
  | none => exact hP.grant _ _ _ _ _ s h hp hlen hf (hok hf)
  | some e =>
    cases wait with
    | false => exact hp
    | true => exact hP.sleep ⟨e, po, start, len, type⟩ s h hp hf

theorem Survives.step (hP : Survives unlockOk grantOk P) {s s' : RlockBox} {e : RlockEvent}
    (h : RlockInv s) (hp : P s) (hok : CallMeets unlockOk grantOk s e)
    (hstep : rlockStep s e = some s') : P s' := by
  cases e with
  | tweak po malloc a =>
    cases hstep
    have hlen := checkArgs_lenOk a
    unfold fshelpRlockTweak
    cases hc : checkArgs a with
    | fail e => exact hp
    | get start len type => exact hp
    | unlock start len =>
      rw [hc] at hlen
      simp only [CallMeets, hc] at hok
      exact hP.unlock _ _ _ _ s h hp hlen hok
    | set wait start len type =>
      rw [hc] at hlen
      simp only [CallMeets, hc] at hok
      exact hP.retry h hp hlen hok
  | resume i malloc =>
    obtain ⟨w, hw, rfl⟩ := map_eq_some_iff.mp hstep
    simp only [CallMeets, hw] at hok
    have hrest : RlockInv { s with woken := s.woken.eraseIdx i } :=
      h.requests fun w hw => hw.imp_right mem_of_mem_eraseIdx
    exact hP.retry hrest (hP.requests s _ _ hp fun _ h => h)
      (h.pending w (.inr (mem_of_getElem? hw))) hok
  | spurious i =>
    obtain ⟨w, hw, rfl⟩ := map_eq_some_iff.mp hstep
    exact hP.requests s _ _ hp fun _ h => mem_of_mem_eraseIdx h
  | interrupt i =>
    obtain ⟨w, hw, rfl⟩ := map_eq_some_iff.mp hstep
    exact hP.requests s _ _ hp fun _ h => mem_of_mem_eraseIdx h
  | cancel i =>
    obtain ⟨w, hw, rfl⟩ := map_eq_some_iff.mp hstep
    exact hP.requests s _ _ hp fun _ h => h
  | drop po =>
    cases hstep
    exact hP.drop po s h hp

theorem Survives.reach (hP : Survives unlockOk grantOk P) {s : RlockBox}
    (h : Reach rlockStep (fun s e => NoOverflow e ∧ CallMeets unlockOk grantOk s e)
      RlockBox.init s) : P s := by
  have hinv : RlockInv s ∧ P s := by
    refine h.invariant (fun s => RlockInv s ∧ P s) ⟨rlockInv_init, hP.init⟩ ?_
    intro s e t hs hok hstep
    exact ⟨rlockStep_rlockInv hs.1 hstep, hP.step hs.1 hs.2 hok.2 hstep⟩
  exact hinv.2

end Rule

/-- A `SEEK_SET` request of an open with write access. -/
def setRequest (cmd : Cmd) (type : ReqType) (start len : Int) : TweakArgs where
  openWrite := true
  objSize := 0
  curPointer := 0
  cmd := cmd
  lock := { type := type, whence := .seekSet, start := start, len := len, pid := 0 }
  rendezvous := false

end Hurd.Fshelp
