import Hurd.Libfshelp.RecordLockMerge
import Hurd.Libfshelp.RecordLockUnlock

/-!
# Lock requests that run out of memory

A request that returns `ENOMEM` has changed no lock if its walk along the list generates what it has
to before it changes anything.
-/

namespace Hurd.Fshelp

open List

section Walk

variable (turn : Int → Int → RlockList → Turn) (last : Int → Int → List RlockList)

/-- From here on the walk generates no record. -/
def Idle : Int → Int → List RlockList → Prop
  | start, len, [] => last start len = []
  | start, len, r :: rs =>
      match turn start len r with
      | .next start' len' gens _ => gens = [] ∧ Idle start' len' rs
      | .stop gens _ => gens = []
      | .abort => True

/-- Once the walk has changed something it generates no further record. -/
def AllocatesFirst : Int → Int → List RlockList → Prop
  | _, _, [] => True
  | start, len, r :: rs =>
      match turn start len r with
      | .next start' len' gens keep =>
          if gens = [] ∧ keep = [r] then AllocatesFirst start' len' rs
          else Idle turn last start' len' rs
      | _ => True

variable {turn last} {malloc : Nat → Bool} {start len : Int} {ds rs : List RlockList}

theorem Idle.ne_enomem (h : Idle turn last start len rs) (brk : Nat) :
    (runTurns turn last malloc rs ds start len brk).2 ≠ .ret .enomem := by
  induction rs generalizing ds start len brk with
  | nil =>
    have hlast : last start len = [] := h
    rw [runTurns, hlast, if_pos (granted_nil _)]
    simp
  | cons r rs ih =>
    rw [Idle] at h
    rw [runTurns]
    cases hturn : turn start len r with
    | next start' len' gens keep =>
      rw [hturn] at h
      obtain ⟨rfl, hrest⟩ := h
      dsimp only
      rw [if_pos (granted_nil _)]
      exact ih hrest _
    | stop gens r' =>
      rw [hturn] at h
      obtain rfl : gens = [] := h
      dsimp only
      rw [if_pos (granted_nil _)]
      simp
    | abort => simp

theorem AllocatesFirst.unchanged (h : AllocatesFirst turn last start len rs) {brk : Nat}
    {es : List RlockList} (hrun : runTurns turn last malloc rs ds start len brk =
      (es, .ret .enomem)) : es = ds ++ rs := by
  induction rs generalizing ds start len brk with
  | nil =>
    rw [runTurns] at hrun
    split at hrun
    · cases hrun
    · simp only [Prod.mk.injEq, and_true] at hrun
      rw [← hrun, append_nil]
  | cons r rs ih =>
    rw [AllocatesFirst] at h
    rw [runTurns] at hrun
    cases hturn : turn start len r with
    | next start' len' gens keep =>
      rw [hturn] at h hrun
      dsimp only at h hrun
      split at hrun
      · split at h
        · rename_i hsame
          obtain ⟨rfl, rfl⟩ := hsame
          rw [ih h hrun, enter_nil, ← append_cons]
        · exact absurd (congrArg Prod.snd hrun) (h.ne_enomem _)
      · simp only [Prod.mk.injEq, and_true] at hrun
        exact hrun.symm
    | stop gens r' =>
      rw [hturn] at hrun
      dsimp only at hrun
      split at hrun
      · cases hrun
      · simp only [Prod.mk.injEq, and_true] at hrun
        exact hrun.symm
    | abort =>
      rw [hturn] at hrun
      cases hrun

end Walk

section Unlock

variable {po : Nat} {start len : Int} {rs : List RlockList}

theorem unlockTurns_idle (hlen : 0 ≤ len) (hnn : ∀ x ∈ rs, 0 ≤ x.len)
    (hstart : ∀ x ∈ rs, start ≤ x.start) : Idle (unlockTurn po) (fun _ _ => []) start len rs := by
  induction rs with
  | nil => rfl
  | cons r rs ih =>
    have hround : UnlockRound po start len r (unlockTurn po start len r) :=
      unlockTurn_round hlen (hnn r mem_cons_self)
    have hrest := ih (fun x hx => hnn x (mem_cons_of_mem r hx))
      fun x hx => hstart x (mem_cons_of_mem r hx)
    have hle := hstart r mem_cons_self
    rw [Idle]
    revert hround
    generalize unlockTurn po start len r = T
    intro hround
    cases hround with
    | before | inside | head => exact ⟨rfl, hrest⟩
    | beyond => rfl
    | tail | middle => omega

theorem unlock_allocatesFirst {apart : Prop} (hlen : 0 ≤ len) (hnn : ∀ x ∈ rs, 0 ≤ x.len)
    (hsorted : rs.Pairwise (Before apart)) :
    AllocatesFirst (unlockTurn po) (fun _ _ => []) start len rs := by
  induction rs with
  | nil => trivial
  | cons r rs ih =>
    have hr := hnn r mem_cons_self
    have hround : UnlockRound po start len r (unlockTurn po start len r) :=
      unlockTurn_round hlen hr
    have hnn' : ∀ x ∈ rs, 0 ≤ x.len := fun x hx => hnn x (mem_cons_of_mem r hx)
    obtain ⟨hafter, hrest⟩ := pairwise_cons.mp hsorted
    have hidle : start ≤ r.start ∨ (start < r.start + r.len ∨ r.len = 0) →
        Idle (unlockTurn po) (fun _ _ => []) start len rs := by
      intro hmeets
      apply unlockTurns_idle hlen hnn'
      intro x hx
      have hpos := (hafter x hx).1
      have hle := (hafter x hx).2.1
      omega
    rw [AllocatesFirst]
    revert hround
    generalize unlockTurn po start len r = T
    intro hround
    cases hround with
    | before =>
      dsimp only
      rw [if_pos ⟨rfl, rfl⟩]
      exact ih hnn' hrest
    | beyond | middle => trivial
    | inside hstart =>
      dsimp only
      rw [if_neg (by simp)]
      exact hidle (.inl hstart)
    | head hstart =>
      dsimp only
      split
      · exact ih hnn' hrest
      · exact hidle (.inl hstart)
    | tail hstart hin =>
      dsimp only
      split
      · exact ih hnn' hrest
      · exact hidle (.inr hin)

end Unlock

section Merge

variable {po : Nat} {type : LockType} {start len : Int} {ds rs : List RlockList} {r : RlockList}

/-- `merge_in` generates a record at the end of the list. -/
def mergeLast (po : Nat) (type : LockType) (start len : Int) : List RlockList :=
  [newRecord po start len type]

theorem MergeRound.keep_locks {start' len' : Int} {gens keep : List RlockList}
    (h : MergeRound po type start len r (.next start' len' gens keep)) {t : LockType} {b : Int}
    (hb : Locks keep t b) : AtLeast t r.type ∧ r.Covers b := by
  cases h with
  | raise | absorb | joinLeft => exact (locks_nil.mp hb).elim
  | around | touchLeft | skip | touchRight | pass => simpa using hb
  | cutTail htype hread hstart hin hend =>
    simp only [locks_cons, locks_nil, or_false] at hb
    refine ⟨hb.1, ?_⟩
    have hbytes := hb.2
    unfold RlockList.Covers InRange at *
    dsimp only at hbytes
    omega

theorem mergeTurns_stuck (hlen : 0 ≤ len) (hnn : ∀ x ∈ rs, 0 ≤ x.len) {malloc : Nat → Bool}
    {brk : Nat} (hmalloc : malloc brk = false)
    (hbusy : ¬ Idle (mergeTurn po type) (mergeLast po type) start len rs) :
    ∃ es, mergeTurns po malloc type rs ds start len brk = (es, .ret .enomem) ∧
      (∀ t b, Locks es t b → Locks (ds ++ rs) t b) ∧ ∀ t b, Locks ds t b → Locks es t b := by
  have hstuck : ∀ gens, gens ≠ [] → ¬ Granted malloc brk gens := by
    intro gens hne hgrant
    have hfirst := hgrant 0 (length_pos_iff.mpr hne)
    rw [Nat.add_zero, hmalloc] at hfirst
    cases hfirst
  induction rs generalizing ds start len with
  | nil =>
    refine ⟨ds, ?_, fun t b h => by simpa using h, fun t b h => h⟩
    rw [mergeTurns, runTurns, if_neg (hstuck _ (cons_ne_nil _ _))]
  | cons r rs ih =>
    have hround : MergeRound po type start len r (mergeTurn po type start len r) :=
      mergeTurn_round hlen (hnn r mem_cons_self)
    have hhere : ∃ es, (ds ++ r :: rs, Outcome.ret .enomem) = (es, .ret .enomem) ∧
        (∀ t b, Locks es t b → Locks (ds ++ r :: rs) t b) ∧ ∀ t b, Locks ds t b → Locks es t b :=
      ⟨_, rfl, fun t b h => h, fun t b h => locks_append.mpr (.inl h)⟩
    rw [Idle] at hbusy
    unfold mergeTurns runTurns
    revert hround hbusy
    cases mergeTurn po type start len r with
    | next start' len' gens keep =>
      intro hbusy hround
      dsimp only at hbusy ⊢
      by_cases hgens : gens = []
      · subst hgens
        rw [if_pos (granted_nil _)]
        obtain ⟨es, hrun, hloss, hkept⟩ :
            ∃ es, mergeTurns po malloc type rs (ds ++ keep) start' len' brk =
                (es, .ret .enomem) ∧
              (∀ t b, Locks es t b → Locks (ds ++ keep ++ rs) t b) ∧
              ∀ t b, Locks (ds ++ keep) t b → Locks es t b :=
          ih (hround.len_nonneg hlen) (fun x hx => hnn x (mem_cons_of_mem r hx))
            fun h => hbusy ⟨rfl, h⟩
        refine ⟨es, hrun, fun t b h => ?_, fun t b h => hkept t b (locks_append.mpr (.inl h))⟩
        have hleft := hloss t b h
        simp only [locks_append, locks_cons] at hleft ⊢
        rcases hleft with (hds | hkeep) | hrs
        · exact .inl hds
        · exact .inr (.inl (hround.keep_locks hkeep))
        · exact .inr (.inr hrs)
      · rw [if_neg (hstuck gens hgens)]
        exact hhere
    | stop gens r' =>
      intro hbusy _
      dsimp only at hbusy ⊢
      rw [if_neg (hstuck gens hbusy)]
      exact hhere
    | abort => exact fun _ hround => absurd rfl hround.ne_abort

theorem locks_only {apart : Prop} (hsorted : (ds ++ r :: rs).Pairwise (Before apart)) {b : Int}
    (hb : r.Covers b) (t : LockType) : ¬ Locks (ds ++ rs) t b := by
  have hdisj := sorted_disjoint hsorted
  rw [pairwise_append, pairwise_cons] at hdisj
  obtain ⟨-, ⟨hrs, -⟩, hds⟩ := hdisj
  rintro ⟨x, hx, -, hxb⟩
  rcases mem_append.mp hx with hx | hx
  · exact hds x hx r mem_cons_self b ⟨hxb, hb⟩
  · exact hrs x hx b ⟨hb, hxb⟩

/-- A walk that has to generate a record after a change can run out of memory in between. -/
theorem mergeTurns_torn (hm : Merging False po type start len ds rs)
    (hlate : ¬ AllocatesFirst (mergeTurn po type) (mergeLast po type) start len rs) (brk : Nat) :
    ∃ malloc es b, mergeTurns po malloc type rs ds start len brk = (es, .ret .enomem) ∧
      lockAt es b ≠ lockAt (ds ++ rs) b := by
  induction rs generalizing ds start len with
  | nil => exact absurd trivial hlate
  | cons r rs ih =>
    have hlen := hm.len_nonneg
    have hr := hm.nonneg r mem_cons_self
    have hnn : ∀ x ∈ rs, 0 ≤ x.len := fun x hx => hm.nonneg x (mem_cons_of_mem r hx)
    have hround : MergeRound po type start len r (mergeTurn po type start len r) :=
      mergeTurn_round hlen hr
    rw [AllocatesFirst] at hlate
    unfold mergeTurns runTurns
    revert hlate hround
    cases mergeTurn po type start len r with
    | stop gens r' => exact fun hlate => absurd trivial hlate
    | abort => exact fun hlate => absurd trivial hlate
    | next start' len' gens keep =>
      intro hlate hround
      dsimp only at hlate ⊢
      split at hlate
      · -- Nothing has been changed yet.
        rename_i hsame
        obtain ⟨rfl, rfl⟩ := hsame
        have hnear : ¬ BeyondGap start len r := by
          intro hgap
          obtain ⟨gens, r', hstop, -⟩ := hround.gap hlen hgap
          cases hstop
        obtain ⟨malloc, es, b, hrun, hne⟩ := ih (hround.sorts hm hnear) hlate
        refine ⟨malloc, es, b, ?_, ?_⟩
        · rw [if_pos (granted_nil _)]
          exact hrun
        · rw [← append_cons] at hne
          exact hne
      · rename_i hchange
        -- The records of this round are the last that can be allocated.
        have hgrant : Granted (fun a => decide (a < brk + gens.length)) brk gens :=
          fun i hi => decide_eq_true (by omega)
        obtain ⟨es, hrun, hloss, hkept⟩ :
            ∃ es, mergeTurns po (fun a => decide (a < brk + gens.length)) type rs
                (enter gens ds ++ keep) start' len' (brk + gens.length) =
                (es, .ret .enomem) ∧
              (∀ t b, Locks es t b → Locks (enter gens ds ++ keep ++ rs) t b) ∧
              ∀ t b, Locks (enter gens ds ++ keep) t b → Locks es t b :=
          mergeTurns_stuck (hround.len_nonneg hlen) hnn (by simp) hlate
        refine ⟨fun a => decide (a < brk + gens.length), es, ?_⟩
        rw [if_pos hgrant]
        have hlost : ∀ b, r.Covers b → ¬ Locks gens .rdlck b → ¬ Locks keep .rdlck b →
            lockAt es b ≠ lockAt (ds ++ r :: rs) b := by
          intro b hb hgens hkeep heq
          have hold : Locks (ds ++ r :: rs) .rdlck b :=
            ⟨r, mem_append_right _ mem_cons_self, atLeast_rdlck _, hb⟩
          have hnew := hloss _ _ ((lockAt_eq_iff.mp heq .rdlck).mpr hold)
          have honly := locks_only hm.sorted hb .rdlck
          rw [locks_append, not_or] at honly
          rw [locks_append, locks_append, locks_enter] at hnew
          rcases hnew with ((hnew | hnew) | hnew) | hnew
          · exact hgens hnew
          · exact honly.1 hnew
          · exact hkeep hnew
          · exact honly.2 hnew
        cases hround with
        | raise htype hread hstart hend =>
          refine ⟨start, hrun, hlost start ?_ ?_ (by simp)⟩
          · unfold RlockList.Covers InRange
            omega
          · rintro ⟨n, hn, -, hb⟩
            obtain ⟨hlt, rfl⟩ := mem_genIf.mp hn
            unfold RlockList.Covers InRange at hb
            rw [newRecord_start, newRecord_len] at hb
            omega
        | absorb htype hstart hend =>
          refine ⟨r.start, hrun, hlost r.start ?_ (by simp) (by simp)⟩
          unfold RlockList.Covers InRange
          omega
        | joinLeft htype hstart htouch hend =>
          refine ⟨r.start, hrun, hlost r.start ?_ (by simp) (by simp)⟩
          unfold RlockList.Covers InRange
          omega
        | cutTail htype hread hstart hin hend =>
          refine ⟨start, hrun, hlost start ?_ (by simp) ?_⟩
          · unfold RlockList.Covers InRange
            omega
          · simp only [locks_cons, locks_nil, or_false, RlockList.Covers, InRange]
            omega
        | touchLeft | skip | touchRight | pass => exact absurd ⟨rfl, rfl⟩ hchange
        | around htype hwrite hstart hbound hend =>
          have hlt : start < r.start := by
            by_contra hnot
            exact hchange ⟨by rw [genIf, if_neg hnot], rfl⟩
          -- The byte at the start of the region was free.
          refine ⟨start, hrun, fun heq => ?_⟩
          have hnew : Locks es .rdlck start := by
            apply hkept
            rw [locks_append, locks_enter, genIf, if_pos hlt]
            simp only [locks_cons, atLeast_rdlck, true_and]
            refine .inl (.inl (.inl ?_))
            unfold RlockList.Covers InRange
            rw [newRecord_start, newRecord_len]
            omega
          obtain ⟨x, hx, -, hxb⟩ := (lockAt_eq_iff.mp heq .rdlck).mp hnew
          unfold RlockList.Covers InRange at hxb
          obtain ⟨-, -, hrs⟩ := sorted_middle hm.sorted
          rcases mem_append.mp hx with hx | hx
          · have hbehind := hm.behind (by omega) x hx
            have hpos := hbehind.1
            have hle := hbehind.2.1
            rw [newRecord_start] at hle
            omega
          · rcases mem_cons.mp hx with rfl | hx
            · omega
            · have hpos := ((pairwise_cons.mp hrs).1 x hx).start_lt
              omega

end Merge

/-- What is left of a call of `fshelp_rlock_tweak` once its arguments have been checked. A request
that was woken goes on from here too. -/
def attempt (po : Nat) (malloc : Nat → Bool) (s : RlockBox) : Checked → RlockBox × Outcome
  | .fail e => (s, .ret e)
  | .unlock start len => unlockRegion po malloc start len s
  | .get _ _ _ => (s, .ret .success)
  | .set wait start len type => retry po malloc wait start len type s

theorem tweak_eq_attempt (po : Nat) (malloc : Nat → Bool) (a : TweakArgs) (s : RlockBox) :
    (fshelpRlockTweak po malloc a s).1 = attempt po malloc s (checkArgs a) := by
  unfold fshelpRlockTweak attempt
  cases checkArgs a <;> rfl

/-- However allocations go, `ENOMEM` leaves the locks of every open as they were. -/
def EnomemAtomic (s : RlockBox) (call : (Nat → Bool) → RlockBox × Outcome) : Prop :=
  ∀ malloc, (call malloc).2 = .ret .enomem →
    ∀ q b, lockAt ((call malloc).1.records q) b = lockAt (s.records q) b

/-- What the request generates it generates before it changes the list. -/
def GeneratesFirst (po : Nat) (s : RlockBox) : Checked → Prop
  | .unlock start len =>
      AllocatesFirst (unlockTurn po) (fun _ _ => []) start len (s.records po)
  | .set _ start len type =>
      findConflict po start len type s = none →
        AllocatesFirst (mergeTurn po type) (mergeLast po type) start len (s.records po)
  | _ => True

section Call

variable {po : Nat} {s : RlockBox} {start len : Int} {type : LockType}

theorem lockAt_of_records {t : RlockBox} (hpo : t.records po = s.records po)
    (hother : ∀ q, q ≠ po → t.records q = s.records q) (q : Nat) (b : Int) :
    lockAt (t.records q) b = lockAt (s.records q) b := by
  by_cases hq : q = po
  · rw [hq, hpo]
  · rw [hother q hq]

theorem unlockRegion_atomic (hw : WellLinked s) (hlen : 0 ≤ len)
    (h : AllocatesFirst (unlockTurn po) (fun _ _ => []) start len (s.records po)) :
    EnomemAtomic s fun malloc => unlockRegion po malloc start len s := by
  intro malloc hout
  dsimp only at hout ⊢
  have hrun : unlockTurns po malloc (s.records po) [] start len s.brk =
      ((unlockRegion po malloc start len s).1.records po, .ret .enomem) := by
    rw [← unlockRegion_records hw hlen, hout]
  have hedits : Edit po [] False s (unlockRegion po malloc start len s).1 :=
    unlockRegion_edits hw hlen (scanVisits_of_forall _ (fun _ _ => False.elim) _ _)
  exact lockAt_of_records (h.unchanged hrun) fun q hq => hedits.records_other hw hq

theorem mergeIn_atomic (hw : WellLinked s) (hlen : 0 ≤ len)
    (h : AllocatesFirst (mergeTurn po type) (mergeLast po type) start len (s.records po)) :
    EnomemAtomic s fun malloc => mergeIn po malloc start len type s := by
  intro malloc hout
  dsimp only at hout ⊢
  have hrun : mergeTurns po malloc type (s.records po) [] start len s.brk =
      ((mergeIn po malloc start len type s).1.records po, .ret .enomem) := by
    rw [← mergeIn_records hw hlen, hout]
  have hedits : Edit po [] False s (mergeIn po malloc start len type s).1 :=
    mergeIn_edits hw hlen (scanVisits_of_forall _ (fun _ _ => False.elim) _ _)
  exact lockAt_of_records (h.unchanged hrun) fun q hq => hedits.records_other hw hq

theorem allocatesFirst_of_atomic (hw : WellLinked s) (hlen : 0 ≤ len)
    (hsorted : (s.records po).Pairwise (Before False))
    (h : EnomemAtomic s fun malloc => mergeIn po malloc start len type s) :
    AllocatesFirst (mergeTurn po type) (mergeLast po type) start len (s.records po) := by
  by_contra hlate
  obtain ⟨malloc, es, b, hrun, hne⟩ := mergeTurns_torn (hw.merging hlen hsorted) hlate s.brk
  rw [← mergeIn_records hw hlen, Prod.mk.injEq] at hrun
  apply hne
  rw [← hrun.1]
  exact h malloc hrun.2 po b

theorem GeneratesFirst.atomic {c : Checked} (h : GeneratesFirst po s c) (hw : WellLinked s)
    (hc : c.LenOk) : EnomemAtomic s fun malloc => attempt po malloc s c := by
  cases c with
  | fail e => exact fun _ _ _ _ => rfl
  | unlock start len => exact unlockRegion_atomic hw hc h
  | get start len type => exact fun _ _ _ _ => rfl
  | set wait start len type =>
    intro malloc hout
    dsimp only [attempt, retry] at hout ⊢
    cases hfind : findConflict po start len type s with
    | none =>
      rw [hfind] at hout
      exact mergeIn_atomic hw hc (h hfind) malloc hout
    | some e =>
      rw [hfind] at hout
      cases wait with
      | false => cases hout
      | true => cases hout

theorem enomemAtomic_iff (hw : WellLinked s) (c : Checked) (hc : c.LenOk) :
    (GeneratesFirst po s c → EnomemAtomic s fun malloc => attempt po malloc s c) ∧
      ((s.records po).Pairwise (Before False) →
        ((EnomemAtomic s fun malloc => attempt po malloc s c) ↔ GeneratesFirst po s c)) := by
  refine ⟨fun h => h.atomic hw hc, fun hsorted => ⟨fun hatomic => ?_, fun h => h.atomic hw hc⟩⟩
  cases c with
  | fail e => trivial
  | unlock start len => exact unlock_allocatesFirst hc (hw.records_nonneg po) hsorted
  | get start len type => trivial
  | set wait start len type =>
    intro hfind
    apply allocatesFirst_of_atomic hw hc hsorted
    intro malloc hout
    have hcall := hatomic malloc
    dsimp only [attempt, retry] at hcall
    rw [hfind] at hcall
    exact hcall hout

/-- The same of a call of `fshelp_rlock_tweak` and of a request that goes on after its sleep. -/
theorem tweak_enomem_iff (hw : WellLinked s) (po : Nat) :
    (∀ a : TweakArgs,
      (GeneratesFirst po s (checkArgs a) →
        EnomemAtomic s fun malloc => (fshelpRlockTweak po malloc a s).1) ∧
      ((s.records po).Pairwise (Before False) →
        ((EnomemAtomic s fun malloc => (fshelpRlockTweak po malloc a s).1) ↔
          GeneratesFirst po s (checkArgs a)))) ∧
    ∀ start len type, 0 ≤ len →
      (GeneratesFirst po s (.set true start len type) →
        EnomemAtomic s fun malloc => retry po malloc true start len type s) ∧
      ((s.records po).Pairwise (Before False) →
        ((EnomemAtomic s fun malloc => retry po malloc true start len type s) ↔
          GeneratesFirst po s (.set true start len type))) := by
  constructor
  · intro a
    simp only [tweak_eq_attempt]
    exact enomemAtomic_iff hw (checkArgs a) (checkArgs_lenOk a)
  · intro start len type hlen
    exact enomemAtomic_iff hw (.set true start len type) hlen

end Call

/-- An open has a read lock on bytes 0 to 9. -/
def readLocked : RlockBox := (mergeIn 0 (fun _ => true) 0 10 .rdlck RlockBox.init).1

theorem readLocked_records :
    readLocked.records 0 =
      [{ start := 0, len := 10, type := .rdlck, waiting := false, poId := 0 }] := rfl

theorem readLocked_linked : WellLinked readLocked := by
  have hedits : Edit 0 [] False RlockBox.init readLocked :=
    mergeIn_edits wellLinked_init (by decide)
      (scanVisits_of_forall _ (fun _ _ => False.elim) _ _)
  exact hedits.wellLinked wellLinked_init

theorem tweak_enomem_iff_split :
    EnomemAtomic readLocked fun malloc =>
      (fshelpRlockTweak 0 malloc (setRequest .setlk64 (.lock .wrlck) 5 3) readLocked).1 := by
  refine ((tweak_enomem_iff readLocked_linked 0).1 _).1 fun _ => ?_
  rw [readLocked_records]
  simp [AllocatesFirst, mergeTurn, setRequest]

/-- A read lock on bytes 5 to 14 that cannot be allocated costs the open the one on bytes 0 to 4. -/
theorem enomem_loses_lock :
    ∃ s, Reach rlockStep (fun _ e => NoOverflow e) RlockBox.init s ∧
      (s.records 0).Pairwise (Before True) ∧
      (fshelpRlockTweak 0 (fun _ => false) (setRequest .setlk64 (.lock .rdlck) 5 10) s).1.2 =
        .ret .enomem ∧
      lockAt (s.records 0) 0 = some .rdlck ∧
      lockAt ((fshelpRlockTweak 0 (fun _ => false) (setRequest .setlk64 (.lock .rdlck) 5 10)
        s).1.1.records 0) 0 = none := by
  refine ⟨readLocked, .labels
    [.tweak 0 (fun _ => true) (setRequest .setlk64 (.lock .rdlck) 0 10)] .start (by decide) rfl,
    ?_, rfl, by decide, by decide⟩
  rw [readLocked_records]
  exact pairwise_singleton _ _

end Hurd.Fshelp
