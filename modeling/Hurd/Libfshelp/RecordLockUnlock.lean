import Hurd.Libfshelp.RecordTurns
import Hurd.Libfshelp.RecordOrder

/-!
# What `unlock_region` does to the locks of an open

On a sorted list `unlock_region` takes the open's lock off exactly the bytes of the region. It
stops at the first record beyond the region, and carves at most one record in two.
-/

namespace Hurd.Fshelp

open List

section Turn

variable {apart : Prop} {po : Nat} {start len : Int} {ds rs : List RlockList} {r : RlockList}
  {T : Turn}

/-- What a round of `unlock_region` can be, with what is known in each case. -/
inductive UnlockRound (po : Nat) (start len : Int) (r : RlockList) : Turn → Prop
  | before : r.len ≠ 0 → r.start + r.len ≤ start →
      UnlockRound po start len r (.next start len [] [r])
  | beyond : len ≠ 0 → start + len ≤ r.start → UnlockRound po start len r (.stop [] r)
  | inside : start ≤ r.start → len = 0 ∨ (r.len ≠ 0 ∧ r.start + r.len ≤ start + len) →
      UnlockRound po start len r (.next start len [] [])
  | head : start ≤ r.start → len ≠ 0 → r.start < start + len →
      r.len = 0 ∨ start + len < r.start + r.len →
      UnlockRound po start len r (.next start len []
        [{ r with
            start := start + len
            len := lenAdd r.len (-(start + len - r.start))
            waiting := false }])
  | tail : r.start < start → start < r.start + r.len ∨ r.len = 0 →
      len = 0 ∨ (r.len ≠ 0 ∧ r.start + r.len ≤ start + len) →
      UnlockRound po start len r
        (.next start len [] [{ r with len := start - r.start, waiting := false }])
  | middle : r.start < start → len ≠ 0 → r.len = 0 ∨ start + len < r.start + r.len →
      UnlockRound po start len r
        (.stop [newRecord po (start + len) (r.tailLen (start + len)) r.type]
          { r with len := start - r.start })

theorem unlockTurn_round (hlen : 0 ≤ len) (hr : 0 ≤ r.len) :
    UnlockRound po start len r (unlockTurn po start len r) := by
  unfold unlockTurn
  split
  · exact .before (by omega) (by omega)
  split
  · exact .beyond (by omega) (by omega)
  split
  · exact .inside (by omega) (by omega)
  split
  · exact .head (by omega) (by omega) (by omega) (by omega)
  split
  · exact .tail (by omega) (by omega) (by omega)
  split
  · exact .middle (by omega) (by omega) (by omega)
  · omega

/-- What is left of the record locks what the record did, outside the region. -/
def Turn.Frees (start len : Int) (r : RlockList) (t : LockType) (b : Int) : Turn → Prop
  | .next _ _ _ keep => Locks keep t b ↔ (AtLeast t r.type ∧ r.Covers b) ∧ ¬ InRange start len b
  | .stop gens r' =>
      Locks gens t b ∨ (AtLeast t r'.type ∧ r'.Covers b) ↔
        (AtLeast t r.type ∧ r.Covers b) ∧ ¬ InRange start len b
  | .abort => True

theorem UnlockRound.frees (h : UnlockRound po start len r T) (hlen : 0 ≤ len) (hr : 0 ≤ r.len)
    (t : LockType) (b : Int) : T.Frees start len r t b := by
  unfold Turn.Frees
  cases h with
  | before hrec hend =>
    have hbytes : r.Covers b → ¬ InRange start len b := by
      unfold RlockList.Covers InRange
      omega
    simp only [locks_cons, locks_nil, or_false]
    exact (and_iff_left_of_imp fun h => hbytes h.2).symm
  | beyond hbound hend =>
    have hbytes : r.Covers b → ¬ InRange start len b := by
      unfold RlockList.Covers InRange
      omega
    simp only [locks_nil, false_or]
    exact (and_iff_left_of_imp fun h => hbytes h.2).symm
  | inside hstart hend =>
    have hbytes : r.Covers b → InRange start len b := by
      unfold RlockList.Covers InRange
      omega
    simp only [locks_nil, false_iff, not_and, not_not]
    exact fun h => hbytes h.2
  | head hstart hbound hin hend =>
    have hbytes : InRange (start + len) (lenAdd r.len (-(start + len - r.start))) b ↔
        r.Covers b ∧ ¬ InRange start len b := by
      unfold RlockList.Covers InRange lenAdd
      split_ifs <;> omega
    simp only [locks_cons, locks_nil, or_false]
    rw [RlockList.Covers, hbytes, and_assoc]
  | tail hstart hin hend =>
    have hbytes : InRange r.start (start - r.start) b ↔ r.Covers b ∧ ¬ InRange start len b := by
      unfold RlockList.Covers InRange
      omega
    simp only [locks_cons, locks_nil, or_false]
    rw [RlockList.Covers, hbytes, and_assoc]
  | middle hstart hbound hend =>
    have hbytes : InRange (start + len) (r.tailLen (start + len)) b ∨
        InRange r.start (start - r.start) b ↔ r.Covers b ∧ ¬ InRange start len b := by
      unfold RlockList.Covers InRange RlockList.tailLen
      split_ifs <;> omega
    simp only [locks_cons, locks_nil, or_false]
    rw [and_assoc, ← hbytes, and_or_left]
    exact Iff.rfl

/-- The loop of `unlock_region` in the middle: the records it has left behind are off the region. -/
structure Unlocking (apart : Prop) (start len : Int) (ds rs : List RlockList) : Prop where
  nonneg : ∀ x ∈ rs, 0 ≤ x.len
  sorted : (ds ++ rs).Pairwise (Before apart)
  off : ∀ t b, Locks ds t b → ¬ InRange start len b

/-- The round keeps the list sorted and leaves nothing of the region behind. -/
def Turn.Unlocks (apart : Prop) (start len : Int) (ds rs : List RlockList) : Turn → Prop
  | .next start' len' gens keep =>
      start' = start ∧ len' = len ∧ gens = [] ∧ Unlocking apart start len (ds ++ keep) rs
  | .stop gens r =>
      (enter gens (ds ++ r :: rs)).Pairwise (Before apart) ∧
        ∀ t b, Locks rs t b → ¬ InRange start len b
  | .abort => False

theorem Unlocking.goOn {keep : List RlockList} (hu : Unlocking apart start len ds (r :: rs))
    (hfrees : ∀ t b, Locks keep t b → ¬ InRange start len b)
    (hsorted : (ds ++ keep ++ rs).Pairwise (Before apart)) :
    Unlocking apart start len (ds ++ keep) rs where
  nonneg x hx := hu.nonneg x (mem_cons_of_mem r hx)
  sorted := hsorted
  off t b h := by
    rcases locks_append.mp h with h | h
    · exact hu.off t b h
    · exact hfrees t b h

theorem locks_beyond {e : Int} (hbound : len ≠ 0) (he : start + len ≤ e)
    (hrs : ∀ x ∈ rs, e ≤ x.start) (t : LockType) (b : Int) (h : Locks rs t b) :
    ¬ InRange start len b := by
  obtain ⟨x, hx, -, hb⟩ := h
  have hle := hrs x hx
  unfold RlockList.Covers InRange at *
  omega

theorem UnlockRound.sorts (h : UnlockRound po start len r T) (hlen : 0 ≤ len)
    (hu : Unlocking apart start len ds (r :: rs)) : T.Unlocks apart start len ds rs := by
  have hr := hu.nonneg r mem_cons_self
  have hfrees := h.frees hlen hr
  have hsorted := hu.sorted
  obtain ⟨hds, hdr, hrs⟩ := sorted_middle hsorted
  have hafter := fun x hx => (pairwise_cons.mp hrs).1 x hx
  cases h with
  | before hrec hend =>
    exact ⟨rfl, rfl, rfl, hu.goOn (fun t b h => ((hfrees t b).mp h).2) (by simpa using hsorted)⟩
  | beyond hbound hend =>
    refine ⟨hsorted, fun t b h => locks_beyond hbound hend (fun x hx => ?_) t b h⟩
    have hle := (hafter x hx).2.1
    omega
  | inside hstart hend =>
    refine ⟨rfl, rfl, rfl, hu.goOn (fun t b h => ((hfrees t b).mp h).2) ?_⟩
    simpa using sorted_rele hsorted
  | head hstart hbound hin hend =>
    refine ⟨rfl, rfl, rfl, hu.goOn (fun t b h => ((hfrees t b).mp h).2) ?_⟩
    rw [← append_cons]
    refine sorted_append hds (fun a ha => (hdr a ha).left (Int.le_of_lt hin) fun htouch => ?_)
      (sorted_right hrs (fun hpos => ?_) (fun hpos => ?_) fun _ => rfl)
    · rfl
    · dsimp only
      unfold lenAdd
      split_ifs <;> omega
    · dsimp only
      unfold lenAdd
      split_ifs <;> omega
  | tail hstart hin hend =>
    refine ⟨rfl, rfl, rfl, hu.goOn (fun t b h => ((hfrees t b).mp h).2) ?_⟩
    rw [← append_cons]
    refine sorted_append hds (fun a ha => (hdr a ha).left (Int.le_refl _) fun _ => rfl)
      (sorted_right hrs (fun hpos => ?_) (fun hpos => ?_) fun _ => rfl)
    · dsimp only
      omega
    · dsimp only
      omega
  | middle hstart hbound hend =>
    have htail : 0 < r.len → 0 < r.tailLen (start + len) ∧
        start + len + r.tailLen (start + len) = r.start + r.len := by
      unfold RlockList.tailLen
      split_ifs <;> omega
    have hcut : Before apart { r with len := start - r.start }
        (newRecord po (start + len) (r.tailLen (start + len)) r.type) :=
      .of_lt (by dsimp only; omega) (by rw [newRecord_start]; dsimp only; omega)
    have hdr' : ∀ a ∈ ds, Before apart a { r with len := start - r.start } :=
      fun a ha => (hdr a ha).left (Int.le_refl _) fun _ => rfl
    have hpast : ∀ x ∈ rs, start + len ≤ x.start := by
      intro x hx
      have hpos := (hafter x hx).1
      have hle := (hafter x hx).2.1
      omega
    constructor
    · rw [enter_cons, enter_nil, linkRecord_after hdr' hcut (by exact hpast)]
      refine sorted_append hds hdr' (sorted_cons hcut (sorted_right hrs
        (fun hpos => (htail hpos).1) (fun hpos => Int.le_of_eq (htail hpos).2) fun _ => rfl))
    · exact locks_beyond hbound (Int.le_refl _) hpast

end Turn

section Run

variable {apart : Prop} {po : Nat} {malloc : Nat → Bool} {start len : Int}
  {ds rs : List RlockList}

theorem unlockTurns_ne_abort (hlen : 0 ≤ len) (hnn : ∀ x ∈ rs, 0 ≤ x.len) (brk : Nat) :
    (unlockTurns po malloc rs ds start len brk).2 ≠ .abort := by
  induction rs generalizing ds brk with
  | nil =>
    unfold unlockTurns runTurns
    split <;> simp
  | cons r rs ih =>
    have hround : UnlockRound po start len r (unlockTurn po start len r) :=
      unlockTurn_round hlen (hnn r mem_cons_self)
    have hrest : ∀ ds brk, (unlockTurns po malloc rs ds start len brk).2 ≠ .abort :=
      fun ds brk => ih (fun x hx => hnn x (mem_cons_of_mem r hx)) brk
    unfold unlockTurns runTurns
    revert hround
    generalize unlockTurn po start len r = T
    intro hround
    cases hround with
    | before | inside | head | tail =>
      dsimp only
      rw [if_pos (granted_nil _)]
      exact hrest _ _
    | beyond | middle =>
      dsimp only
      split <;> simp

theorem unlockTurns_spec (hlen : 0 ≤ len) (hu : Unlocking apart start len ds rs) {brk : Nat}
    {es : List RlockList}
    (hrun : unlockTurns po malloc rs ds start len brk = (es, .ret .success)) :
    es.Pairwise (Before apart) ∧
      ∀ t b, Locks es t b ↔ Locks (ds ++ rs) t b ∧ ¬ InRange start len b := by
  induction rs generalizing ds brk with
  | nil =>
    unfold unlockTurns runTurns at hrun
    rw [if_pos (granted_nil _)] at hrun
    simp only [enter_nil, Prod.mk.injEq, and_true] at hrun
    subst hrun
    have hsorted := hu.sorted
    rw [append_nil] at hsorted ⊢
    exact ⟨hsorted, fun t b => (and_iff_left_of_imp (hu.off t b)).symm⟩
  | cons r rs ih =>
    have hr := hu.nonneg r mem_cons_self
    have hround : UnlockRound po start len r (unlockTurn po start len r) :=
      unlockTurn_round hlen hr
    unfold unlockTurns runTurns at hrun
    revert hround hrun
    cases unlockTurn po start len r with
    | next start' len' gens keep =>
      intro hround hrun
      have hfrees : ∀ t b, _ ↔ _ := hround.frees hlen hr
      obtain ⟨rfl, rfl, rfl, hnext⟩ := hround.sorts hlen hu
      dsimp only at hrun
      rw [if_pos (granted_nil _)] at hrun
      obtain ⟨hsorted, hlocks⟩ := ih hnext hrun
      refine ⟨hsorted, fun t b => ?_⟩
      rw [hlocks]
      simp only [locks_append, locks_cons, hfrees t b]
      by_cases hin : InRange start' len' b
      · simp [hin]
      · simp [hin, or_assoc]
    | stop gens r' =>
      intro hround hrun
      have hfrees : ∀ t b, _ ↔ _ := hround.frees hlen hr
      obtain ⟨hsorted, hrest⟩ := hround.sorts hlen hu
      dsimp only at hrun
      split at hrun
      · simp only [Prod.mk.injEq, and_true] at hrun
        subst hrun
        refine ⟨hsorted, fun t b => ?_⟩
        have hmove : Locks (enter gens (ds ++ r' :: rs)) t b ↔
            Locks ds t b ∨ Locks rs t b ∨
              ((AtLeast t r.type ∧ r.Covers b) ∧ ¬ InRange start len b) := by
          rw [← hfrees t b]
          simp only [locks_append, locks_enter, locks_cons]
          simp only [or_comm, or_left_comm]
        rw [hmove, locks_append, locks_cons]
        by_cases hin : InRange start len b
        · have hds : ¬ Locks ds t b := fun h => hu.off t b h hin
          have hrs : ¬ Locks rs t b := fun h => hrest t b h hin
          simp [hin, hds, hrs]
        · simp [hin, or_comm]
      · cases hrun
    | abort => exact fun hround => (hround.sorts hlen hu).elim

end Run

/-- What a request of `po` to unlock a region is promised. -/
def UnlockPromise (po : Nat) (start len : Int) (s : RlockBox) : Prop :=
  ∀ malloc : Nat → Bool,
    (unlockRegion po malloc start len s).2 ≠ .abort ∧
      ((unlockRegion po malloc start len s).2 = .ret .success →
        (∀ b, lockAt ((unlockRegion po malloc start len s).1.records po) b =
          if InRange start len b then none else lockAt (s.records po) b) ∧
        (∀ q, q ≠ po → (unlockRegion po malloc start len s).1.records q = s.records q) ∧
        ((unlockRegion po malloc start len s).1.records po).Pairwise (Before False) ∧
        ((s.records po).Pairwise (Before True) →
          ((unlockRegion po malloc start len s).1.records po).Pairwise (Before True)))

theorem wellLinked_unlocking {apart : Prop} {po : Nat} {start len : Int} {s : RlockBox}
    (hw : WellLinked s) (hsorted : (s.records po).Pairwise (Before apart)) :
    Unlocking apart start len [] (s.records po) :=
  ⟨hw.records_nonneg po, hsorted, by simp⟩

/-- On a sorted list `unlock_region` keeps its promise. -/
theorem unlockRegion_promise {po : Nat} {start len : Int} {s : RlockBox} (hw : WellLinked s)
    (hsorted : (s.records po).Pairwise (Before False)) (hlen : 0 ≤ len) :
    UnlockPromise po start len s := by
  intro malloc
  have hrun : unlockTurns po malloc (s.records po) [] start len s.brk =
      ((unlockRegion po malloc start len s).1.records po,
        (unlockRegion po malloc start len s).2) :=
    (unlockRegion_records hw hlen).symm
  refine ⟨?_, fun hsuccess => ?_⟩
  · rw [← congrArg Prod.snd hrun]
    exact unlockTurns_ne_abort hlen (hw.records_nonneg po) s.brk
  rw [hsuccess] at hrun
  obtain ⟨hes, hlocks⟩ := unlockTurns_spec hlen (wellLinked_unlocking hw hsorted) hrun
  refine ⟨fun b => ?_, fun q hq => ?_, hes, fun hapart => ?_⟩
  · split
    · rename_i hin
      have hnone : ∀ t, ¬ Locks ((unlockRegion po malloc start len s).1.records po) t b :=
        fun t h => ((hlocks t b).mp h).2 hin
      rw [lockAt, if_neg (hnone _), if_neg (hnone _)]
    · rename_i hout
      apply lockAt_congr
      intro t
      rw [hlocks, and_iff_left hout, nil_append]
  · have hedits : Edit po [] False s (unlockRegion po malloc start len s).1 :=
      unlockRegion_edits hw hlen (scanVisits_of_forall _ (fun _ _ => False.elim) _ _)
    exact hedits.records_other hw hq
  · exact (unlockTurns_spec hlen (wellLinked_unlocking hw hapart) hrun).1

theorem unlockRegion_promise_middle :
    UnlockPromise 0 10 10 (mergeIn 0 (fun _ => true) 0 0 .wrlck RlockBox.init).1 := by
  have hedits : Edit 0 [] False RlockBox.init
      (mergeIn 0 (fun _ => true) 0 0 .wrlck RlockBox.init).1 :=
    mergeIn_edits wellLinked_init (Int.le_refl 0)
      (scanVisits_of_forall _ (fun _ _ => False.elim) _ _)
  apply unlockRegion_promise (hedits.wellLinked wellLinked_init)
  · exact pairwise_singleton _ _
  · decide

end Hurd.Fshelp
