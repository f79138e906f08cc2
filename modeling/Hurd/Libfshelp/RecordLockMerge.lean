import Hurd.Libfshelp.RecordTurns
import Hurd.Libfshelp.RecordOrder

/-!
# What `merge_in` does to the locks of an open

On a sorted list `merge_in` gives each byte of the request the stronger of its old lock and the
requested one, touches no other byte and keeps the list sorted.
-/

namespace Hurd.Fshelp

open List

/-- The walk of `merge_in` along these records comes to one beyond a gap. -/
def MeetsGap (po : Nat) (type : LockType) : Int → Int → List RlockList → Prop
  | _, _, [] => False
  | start, len, r :: rs =>
      BeyondGap start len r ∨
        match mergeTurn po type start len r with
        | .next start' len' _ _ => MeetsGap po type start' len' rs
        | _ => False

/-- The list is sorted, and the region that is still to be entered comes after the records that
were passed, or between these and records that lie beyond it. -/
structure Merging (apart : Prop) (po : Nat) (type : LockType) (start len : Int)
    (ds rs : List RlockList) : Prop where
  len_nonneg : 0 ≤ len
  nonneg : ∀ x ∈ rs, 0 ≤ x.len
  sorted : (ds ++ rs).Pairwise (Before apart)
  split : ∃ ds₁ ds₂, ds = ds₁ ++ ds₂ ∧
    (∀ a ∈ ds₁, Before apart a (newRecord po start len type)) ∧
    ∀ d ∈ ds₂, Before apart (newRecord po start len type) d ∧ ∀ x ∈ rs, start + len < x.start

section Turn

variable {apart : Prop} {po : Nat} {type : LockType} {start len : Int} {ds rs : List RlockList}
  {r : RlockList}

/-- What a round of `merge_in` can be, with what is known in each case. -/
inductive MergeRound (po : Nat) (type : LockType) (start len : Int) (r : RlockList) : Turn → Prop
  | covered : type = r.type ∨ type = .rdlck → r.start ≤ start →
      r.len = 0 ∨ (len ≠ 0 ∧ start + len ≤ r.start + r.len) →
      MergeRound po type start len r (.stop [] r)
  | carve : type = .wrlck → r.type = .rdlck → r.start ≤ start → len ≠ 0 →
      r.len = 0 ∨ start + len < r.start + r.len →
      MergeRound po type start len r
        (.stop (genIf (r.start < start) (newRecord po r.start (start - r.start) .rdlck) ++
            [newRecord po (start + len) (r.tailLen (start + len)) .rdlck])
          { r with start := start, len := len, type := .wrlck })
  | raise : type = .wrlck → r.type = .rdlck → r.start ≤ start →
      (r.len = 0 ∧ len = 0) ∨ (r.len ≠ 0 ∧ len ≠ 0 ∧ start + len = r.start + r.len) →
      MergeRound po type start len r
        (.next start len (genIf (r.start < start) (newRecord po r.start (start - r.start) .rdlck))
          [])
  | absorb : type = r.type ∨ type = .wrlck → start ≤ r.start →
      len = 0 ∨ (r.len ≠ 0 ∧ r.start + r.len ≤ start + len) →
      MergeRound po type start len r (.next start len [] [])
  | around : type = .rdlck → r.type = .wrlck → start ≤ r.start → r.len ≠ 0 →
      len = 0 ∨ r.start + r.len < start + len →
      MergeRound po type start len r
        (.next (r.start + r.len) (lenAdd len (start - (r.start + r.len)))
          (genIf (start < r.start) (newRecord po start (r.start - start) .rdlck)) [r])
  | upTo : type = .rdlck → r.type = .wrlck → start < r.start →
      r.len = 0 ∨ (len ≠ 0 ∧ r.start < start + len ∧ start + len ≤ r.start + r.len) →
      MergeRound po type start len r (.stop [newRecord po start (r.start - start) .rdlck] r)
  | joinLeft : type = r.type → r.start < start → start ≤ r.start + r.len →
      len = 0 ∨ start + len > r.start + r.len →
      MergeRound po type start len r (.next r.start (lenAdd len (start - r.start)) [] [])
  | touchLeft : type ≠ r.type → r.start < start → start = r.start + r.len →
      MergeRound po type start len r (.next start len [] [r])
  | cutTail : type = .wrlck → r.type = .rdlck → r.start < start → start < r.start + r.len →
      len = 0 ∨ start + len > r.start + r.len →
      MergeRound po type start len r (.next start len [] [{ r with len := start - r.start }])
  | skip : type = .rdlck → r.type = .wrlck → r.start < start → start < r.start + r.len →
      len = 0 ∨ start + len > r.start + r.len →
      MergeRound po type start len r
        (.next (r.start + r.len) (lenAdd len (-(r.start + r.len - start))) [] [r])
  | joinRight : type = r.type → start < r.start → len ≠ 0 →
      r.len = 0 ∨ (r.start ≤ start + len ∧ start + len < r.start + r.len) →
      MergeRound po type start len r
        (.stop [] { r with start := start, len := lenAdd r.len (r.start - start) })
  | touchRight : type ≠ r.type → start < r.start → r.start = start + len → len ≠ 0 →
      MergeRound po type start len r (.next start len [] [r])
  | cutHead : type = .wrlck → r.type = .rdlck → start < r.start → len ≠ 0 →
      r.len = 0 ∨ (r.start < start + len ∧ start + len < r.start + r.len) →
      MergeRound po type start len r
        (.stop [newRecord po start len .wrlck]
          { r with start := start + len, len := lenAdd r.len (-(start + len - r.start)) })
  | short : start < r.start → len ≠ 0 → r.len ≠ 0 → start + len < r.start →
      MergeRound po type start len r (.stop [newRecord po start len type] r)
  | pass : r.len ≠ 0 → r.start + r.len < start →
      MergeRound po type start len r (.next start len [] [r])

theorem mergeTurn_round (hlen : 0 ≤ len) (hr : 0 ≤ r.len) :
    MergeRound po type start len r (mergeTurn po type start len r) := by
  have hother : ¬ (type = r.type ∨ type = .rdlck) → type = .wrlck ∧ r.type = .rdlck := by
    cases type <;> cases r.type <;> simp
  have hother' : ¬ (type = r.type ∨ type = .wrlck) → type = .rdlck ∧ r.type = .wrlck := by
    cases type <;> cases r.type <;> simp
  have hread : ¬ type = r.type → type = .wrlck → r.type = .rdlck := by
    cases type <;> cases r.type <;> simp
  unfold mergeTurn
  by_cases hin : r.start ≤ start ∧ (r.len = 0 ∨ (len ≠ 0 ∧ start + len ≤ r.start + r.len))
  · rw [if_pos hin]
    by_cases htypes : type = r.type ∨ type = .rdlck
    · rw [if_pos htypes]
      exact .covered htypes hin.1 hin.2
    rw [if_neg htypes]
    split
    · exact .carve (hother htypes).1 (hother htypes).2 hin.1 (by omega) (by omega)
    · have hrest : lenAdd r.len (-(start - r.start)) = len := by
        unfold lenAdd
        split_ifs <;> omega
      rw [hrest]
      exact .raise (hother htypes).1 (hother htypes).2 hin.1 (by omega)
  rw [if_neg hin]
  by_cases hout : start ≤ r.start ∧ (len = 0 ∨ (r.len ≠ 0 ∧ r.start + r.len ≤ start + len))
  · rw [if_pos hout]
    by_cases htypes : type = r.type ∨ type = .wrlck
    · rw [if_pos htypes]
      exact .absorb htypes hout.1 hout.2
    rw [if_neg htypes]
    split
    · rename_i hmore
      exact .around (hother' htypes).1 (hother' htypes).2 hout.1 hmore.1 hmore.2
    · have hlt : start < r.start := by omega
      rw [if_pos hlt, genIf, if_pos hlt]
      exact .upTo (hother' htypes).1 (hother' htypes).2 hlt (by omega)
  rw [if_neg hout]
  by_cases hleft : r.start < start ∧ start ≤ r.start + r.len ∧
      (len = 0 ∨ start + len > r.start + r.len)
  · rw [if_pos hleft]
    by_cases htype : type = r.type
    · rw [if_pos htype]
      exact .joinLeft htype hleft.1 hleft.2.1 hleft.2.2
    rw [if_neg htype]
    split
    · exact .touchLeft htype hleft.1 ‹_›
    split
    · exact .cutTail ‹_› (hread htype ‹_›) hleft.1 (by omega) hleft.2.2
    · have htypes := hother' (not_or.mpr ⟨htype, ‹_›⟩)
      exact .skip htypes.1 htypes.2 hleft.1 (by omega) hleft.2.2
  rw [if_neg hleft]
  by_cases hright : start < r.start ∧ (r.len = 0 ∨ r.start ≤ start + len)
  · rw [if_pos hright]
    by_cases htype : type = r.type
    · rw [if_pos htype]
      exact .joinRight htype hright.1 (by omega) (by omega)
    rw [if_neg htype]
    split
    · exact .touchRight htype hright.1 ‹_› (by omega)
    split
    · exact .cutHead ‹_› (hread htype ‹_›) hright.1 (by omega) (by omega)
    · have htypes := hother' (not_or.mpr ⟨htype, ‹_›⟩)
      exact .upTo htypes.1 htypes.2 hright.1 (by omega)
  rw [if_neg hright]
  split
  · exact .short (by omega) (by omega) (by omega) (by omega)
  split
  · exact .pass (by omega) (by omega)
  · omega

theorem MergeRound.ne_abort {T : Turn} (h : MergeRound po type start len r T) : T ≠ .abort := by
  cases h <;> simp

@[simp] theorem atLeast_rdlck (t : LockType) : AtLeast .rdlck t :=
  .inl rfl

@[simp] theorem atLeast_wrlck (t : LockType) : AtLeast .wrlck t ↔ t = .wrlck := by
  simp [AtLeast]

/-- What is left of the record, what is generated for it and what is left of the region lock a byte
exactly as the record and the region do. -/
def Turn.Keeps (type : LockType) (start len : Int) (r : RlockList) (t : LockType) (b : Int) :
    Turn → Prop
  | .next start' len' gens keep =>
      Locks gens t b ∨ Locks keep t b ∨ (AtLeast t type ∧ InRange start' len' b) ↔
        (AtLeast t r.type ∧ r.Covers b) ∨ (AtLeast t type ∧ InRange start len b)
  | .stop gens r' =>
      Locks gens t b ∨ (AtLeast t r'.type ∧ r'.Covers b) ↔
        (AtLeast t r.type ∧ r.Covers b) ∨ (AtLeast t type ∧ InRange start len b)
  | .abort => True

theorem MergeRound.keeps {T : Turn} (h : MergeRound po type start len r T) (hlen : 0 ≤ len)
    (hr : 0 ≤ r.len) (hgap : ¬ BeyondGap start len r) (t : LockType) (b : Int) :
    T.Keeps type start len r t b := by
  unfold BeyondGap at hgap
  unfold Turn.Keeps
  cases h with
  | covered htype hstart hend =>
    have hbytes : InRange start len b → r.Covers b := by
      unfold RlockList.Covers InRange
      omega
    have htypes : AtLeast t type → AtLeast t r.type := by
      rcases htype with rfl | rfl <;> cases t <;> simp
    dsimp only
    rw [locks_nil, false_or]
    exact (or_iff_left_of_imp fun h => ⟨htypes h.1, hbytes h.2⟩).symm
  | carve htype hread hstart hbound hend =>
    unfold genIf RlockList.Covers RlockList.tailLen InRange
    cases t <;> simp only [htype, hread, atLeast_rdlck, atLeast_wrlck] <;> split_ifs <;>
      simp [RlockList.Covers, InRange] <;> omega
  | raise htype hread hstart hend =>
    unfold genIf RlockList.Covers InRange
    cases t <;> simp only [htype, hread, atLeast_rdlck, atLeast_wrlck] <;> split_ifs <;>
      simp [RlockList.Covers, InRange] <;> omega
  | absorb htype hstart hend =>
    have hbytes : r.Covers b → InRange start len b := by
      unfold RlockList.Covers InRange
      omega
    have htypes : AtLeast t r.type → AtLeast t type := by
      rcases htype with rfl | rfl <;> cases t <;> simp
    dsimp only
    rw [locks_nil, false_or, false_or]
    exact (or_iff_right_of_imp fun h => ⟨htypes h.1, hbytes h.2⟩).symm
  | around htype hwrite hstart hbound hend =>
    unfold genIf lenAdd
    cases t <;> simp only [htype, hwrite, atLeast_rdlck, atLeast_wrlck] <;> split_ifs <;>
      simp [RlockList.Covers, InRange, hwrite] <;> omega
  | upTo htype hwrite hstart hend =>
    cases t <;> simp [htype, hwrite, RlockList.Covers, InRange]
    omega
  | joinLeft htype hstart htouch hend =>
    have hbytes : InRange r.start (lenAdd len (start - r.start)) b ↔
        r.Covers b ∨ InRange start len b := by
      unfold RlockList.Covers InRange lenAdd
      split_ifs <;> omega
    dsimp only
    rw [locks_nil, false_or, false_or, hbytes, htype, and_or_left]
  | touchLeft htype hstart htouch =>
    simp
  | cutTail htype hread hstart hin hend =>
    cases t <;> simp [htype, hread, RlockList.Covers, InRange]
    omega
  | skip htype hwrite hstart hin hend =>
    unfold lenAdd
    cases t <;> simp [htype, hwrite, RlockList.Covers, InRange]
    split_ifs <;> omega
  | joinRight htype hstart hbound hend =>
    have hbytes : InRange start (lenAdd r.len (r.start - start)) b ↔
        r.Covers b ∨ InRange start len b := by
      unfold RlockList.Covers InRange lenAdd
      split_ifs <;> omega
    dsimp only [RlockList.Covers] at hbytes ⊢
    rw [locks_nil, false_or, hbytes, htype, and_or_left]
  | touchRight htype hstart htouch hbound =>
    simp
  | cutHead htype hread hstart hbound hend =>
    unfold lenAdd
    cases t <;> simp [htype, hread, RlockList.Covers, InRange]
    split_ifs <;> omega
  | short hstart hbound hrec hend =>
    simp only [locks_cons, locks_nil, or_false, newRecord_type, RlockList.Covers,
      newRecord_start, newRecord_len]
    exact or_comm
  | pass hrec hend =>
    simp

namespace Merging

variable {n : RlockList}

theorem of_behind (hlen : 0 ≤ len) (hnn : ∀ x ∈ rs, 0 ≤ x.len)
    (hsorted : (ds ++ rs).Pairwise (Before apart))
    (hbehind : ∀ a ∈ ds, Before apart a (newRecord po start len type)) :
    Merging apart po type start len ds rs :=
  ⟨hlen, hnn, hsorted, ds, [], (append_nil ds).symm, hbehind, by simp⟩

theorem behind (h : Merging apart po type start len ds (r :: rs))
    (hr : len = 0 ∨ r.start ≤ start + len) :
    ∀ a ∈ ds, Before apart a (newRecord po start len type) := by
  obtain ⟨ds₁, ds₂, rfl, hbefore, hafter⟩ := h.split
  intro a ha
  rcases mem_append.mp ha with ha | ha
  · exact hbefore a ha
  · obtain ⟨hreg, hbeyond⟩ := hafter a ha
    have hpos : 0 < len := hreg.1
    have hlt := hbeyond r mem_cons_self
    omega

theorem enter (h : Merging apart po type start len ds rs) (hpos : rs ≠ [] → 0 < len)
    (hbeyond : ∀ x ∈ rs, start + len < x.start) :
    (linkRecord (newRecord po start len type) (ds ++ rs)).Pairwise (Before apart) := by
  obtain ⟨ds₁, ds₂, rfl, hbefore, hafter⟩ := h.split
  have hreg : ∀ x ∈ ds₂ ++ rs, Before apart (newRecord po start len type) x := by
    intro x hx
    rcases mem_append.mp hx with hx | hx
    · exact (hafter x hx).1
    · exact .of_lt (hpos (ne_nil_of_mem hx)) (hbeyond x hx)
  have hsorted := h.sorted
  rw [append_assoc, pairwise_append] at hsorted
  rw [append_assoc, linkRecord_append fun a ha => (hbefore a ha).start_lt,
    linkRecord_of_le fun x hx => Int.le_of_lt (hreg x hx).start_lt]
  exact sorted_append hsorted.1 hbefore (pairwise_cons.mpr ⟨hreg, hsorted.2.1⟩)

end Merging

theorem before_fill {a e : Int} {t : LockType} (hlt : a < e) (hr : r.start = e)
    (htype : t ≠ r.type) : Before apart (newRecord po a (e - a) t) r :=
  .touching (by rw [newRecord_len]; omega) (by rw [newRecord_start, newRecord_len]; omega) htype

/-! A record that is generated on demand, behind those that were passed and in front of `m`. -/

section OnDemand

variable {needed : Prop} [Decidable needed] {m n : RlockList}

theorem enter_genIf (hds : needed → ∀ a ∈ ds, Before apart a n) :
    enter (genIf needed n) ds = ds ++ genIf needed n := by
  unfold genIf
  split
  · rw [enter_cons, enter_nil, linkRecord_last (hds ‹_›)]
  · rw [enter_nil, append_nil]

theorem enter_genIf_before (hds : needed → ∀ a ∈ ds, Before apart a n)
    (hle : needed → n.start ≤ m.start) :
    enter (genIf needed n) (ds ++ m :: rs) = (ds ++ genIf needed n) ++ m :: rs := by
  unfold genIf
  split
  · rw [enter_cons, enter_nil, linkRecord_between (hds ‹_›) (hle ‹_›), append_cons]
  · rw [enter_nil, append_nil]

theorem before_genIf (hdm : ∀ a ∈ ds, Before apart a m) (hn : needed → Before apart n m) :
    ∀ a ∈ ds ++ genIf needed n, Before apart a m := by
  refine forall_mem_append.mpr ⟨hdm, fun a ha => ?_⟩
  obtain ⟨hneed, rfl⟩ := mem_genIf.mp ha
  exact hn hneed

theorem sorted_genIf (hds : ds.Pairwise (Before apart))
    (hdn : needed → ∀ a ∈ ds, Before apart a n) :
    (ds ++ genIf needed n).Pairwise (Before apart) := by
  unfold genIf
  split
  · exact sorted_append hds (hdn ‹_›) (pairwise_singleton _ _)
  · rwa [append_nil]

end OnDemand

/-- The round keeps the list sorted. -/
def Turn.Sorts (apart : Prop) (po : Nat) (type : LockType) (ds rs : List RlockList) : Turn → Prop
  | .next start len gens keep => Merging apart po type start len (enter gens ds ++ keep) rs
  | .stop gens r => (enter gens (ds ++ r :: rs)).Pairwise (Before apart)
  | .abort => True

theorem MergeRound.sorts {T : Turn} (h : MergeRound po type start len r T)
    (hm : Merging apart po type start len ds (r :: rs)) (hgap : ¬ BeyondGap start len r) :
    T.Sorts apart po type ds rs := by
  have hlen := hm.len_nonneg
  have hr := hm.nonneg r mem_cons_self
  have hnn : ∀ x ∈ rs, 0 ≤ x.len := fun x hx => hm.nonneg x (mem_cons_of_mem r hx)
  have hsorted := hm.sorted
  obtain ⟨hds, hdr, hrs⟩ := sorted_middle hsorted
  unfold BeyondGap at hgap
  cases h with
  | covered htype hstart hend => exact hsorted
  | carve htype hread hstart hbound hend =>
    have hbehind := hm.behind (.inr (by omega))
    have htail : 0 < r.len → 0 < r.tailLen (start + len) ∧
        start + len + r.tailLen (start + len) = r.start + r.len := by
      unfold RlockList.tailLen
      split_ifs <;> omega
    have hafter : ∀ x ∈ rs, start + len ≤ x.start := by
      intro x hx
      have hx' := (pairwise_cons.mp hrs).1 x hx
      have hpos := hx'.1
      have hle := hx'.2.1
      omega
    -- The part that is now write-locked stands between the head and the tail.
    have htail' : (newRecord po (start + len) (r.tailLen (start + len)) .rdlck :: rs).Pairwise
        (Before apart) :=
      sorted_right hrs (fun hpos => (htail hpos).1) (fun hpos => Int.le_of_eq (htail hpos).2)
        fun _ => hread.symm
    have hmid : Before apart { r with start := start, len := len, type := .wrlck }
        (newRecord po (start + len) (r.tailLen (start + len)) .rdlck) :=
      .touching (by dsimp only; omega) rfl (by simp)
    have hhead : r.start < start → Before apart (newRecord po r.start (start - r.start) .rdlck)
        { r with start := start, len := len, type := .wrlck } := fun hlt =>
      before_fill hlt rfl (by simp)
    have hdhead : r.start < start →
        ∀ a ∈ ds, Before apart a (newRecord po r.start (start - r.start) .rdlck) :=
      fun _ a ha => (hdr a ha).left (Int.le_refl _) fun _ => hread.symm
    have hbehind' : ∀ a ∈ ds,
        Before apart a { r with start := start, len := len, type := .wrlck } :=
      fun a ha => (hbehind a ha).left (Int.le_refl _) fun _ => htype.symm
    have hbefore := before_genIf hbehind' hhead
    dsimp only [Turn.Sorts]
    rw [enter_append, enter_genIf_before hdhead (by exact fun _ => hstart), enter_cons, enter_nil,
      linkRecord_after hbefore hmid hafter]
    exact sorted_append (sorted_genIf hds hdhead) hbefore (sorted_cons hmid htail')
  | raise htype hread hstart hend =>
    have hdhead : r.start < start →
        ∀ a ∈ ds, Before apart a (newRecord po r.start (start - r.start) .rdlck) :=
      fun _ a ha => (hdr a ha).left (Int.le_refl _) fun _ => hread.symm
    have hhead : r.start < start → Before apart (newRecord po r.start (start - r.start) .rdlck)
        (newRecord po start len type) := fun hlt =>
      before_fill hlt rfl (by simp [htype])
    dsimp only [Turn.Sorts]
    rw [append_nil, enter_genIf hdhead]
    refine .of_behind hlen hnn ?_ (before_genIf (hm.behind (by omega)) hhead)
    unfold genIf
    split
    · rename_i hlt
      rw [← append_cons]
      refine sorted_append hds (hdhead hlt) (sorted_right hrs (fun _ => ?_) (fun _ => ?_) ?_)
      · rw [newRecord_len]
        omega
      · rw [newRecord_start, newRecord_len]
        omega
      · exact fun _ => hread.symm
    · rw [append_nil]
      exact sorted_rele hsorted
  | absorb htype hstart hend =>
    exact .of_behind hlen hnn (by simpa using sorted_rele hsorted)
      (by simpa using hm.behind (by omega))
  | around htype hwrite hstart hbound hend =>
    have hlen' : 0 ≤ lenAdd len (start - (r.start + r.len)) := by
      unfold lenAdd
      split_ifs <;> omega
    have hdhead : start < r.start →
        ∀ a ∈ ds, Before apart a (newRecord po start (r.start - start) .rdlck) :=
      fun _ a ha => (hm.behind (by omega) a ha).left (Int.le_refl _) fun _ => htype.symm
    have hbefore : ∀ a ∈ ds ++
        genIf (start < r.start) (newRecord po start (r.start - start) .rdlck),
        Before apart a r :=
      before_genIf hdr fun hlt => before_fill hlt rfl (by simp [hwrite])
    -- The region goes on right behind the record.
    have hnext : Before apart r (newRecord po (r.start + r.len)
        (lenAdd len (start - (r.start + r.len))) type) :=
      .touching (by omega) rfl (by simp [htype, hwrite])
    dsimp only [Turn.Sorts]
    rw [enter_genIf hdhead]
    refine .of_behind hlen' hnn ?_ (forall_mem_append.mpr
      ⟨fun a ha => (hbefore a ha).trans hnext, forall_mem_singleton.mpr hnext⟩)
    rw [← append_cons]
    exact sorted_append (sorted_genIf hds hdhead) hbefore hrs
  | upTo htype hwrite hstart hend =>
    have hdn : ∀ a ∈ ds, Before apart a (newRecord po start (r.start - start) .rdlck) :=
      fun a ha => (hm.behind (by omega) a ha).left (Int.le_refl _) fun _ => htype.symm
    have hn : Before apart (newRecord po start (r.start - start) .rdlck) r :=
      before_fill hstart rfl (by simp [hwrite])
    dsimp only [Turn.Sorts]
    rw [enter_cons, enter_nil, linkRecord_between hdn (Int.le_of_lt hstart)]
    exact sorted_append hds hdn (sorted_cons hn hrs)
  | joinLeft htype hstart htouch hend =>
    refine .of_behind ?_ hnn (by simpa using sorted_rele hsorted) ?_
    · unfold lenAdd
      split_ifs <;> omega
    · rw [enter_nil, append_nil]
      exact fun a ha => (hdr a ha).left (Int.le_refl _) fun _ => htype
  | touchLeft htype hstart htouch =>
    have hreg : Before apart r (newRecord po start len type) :=
      .touching (by omega) htouch.symm (Ne.symm htype)
    exact .of_behind hlen hnn (by simpa using hsorted) (forall_mem_append.mpr
      ⟨fun a ha => (hdr a ha).trans hreg, forall_mem_singleton.mpr hreg⟩)
  | cutTail htype hread hstart hin hend =>
    have hcut : ({ r with len := start - r.start } :: rs).Pairwise (Before apart) :=
      sorted_right hrs (fun _ => by dsimp only; omega) (fun _ => by dsimp only; omega)
        fun _ => rfl
    have hdr' : ∀ a ∈ ds, Before apart a { r with len := start - r.start } :=
      fun a ha => (hdr a ha).left (Int.le_refl _) fun _ => rfl
    have hreg : Before apart { r with len := start - r.start } (newRecord po start len type) :=
      .touching (by dsimp only; omega) (by rw [newRecord_start]; dsimp only; omega)
        (by simp [htype, hread])
    refine .of_behind hlen hnn ?_ (forall_mem_append.mpr
      ⟨fun a ha => (hdr' a ha).trans hreg, forall_mem_singleton.mpr hreg⟩)
    rw [enter_nil, ← append_cons]
    exact sorted_append hds hdr' hcut
  | skip htype hwrite hstart hin hend =>
    have hnext : Before apart r (newRecord po (r.start + r.len)
        (lenAdd len (-(r.start + r.len - start))) type) :=
      .touching (by omega) rfl (by simp [htype, hwrite])
    refine .of_behind ?_ hnn (by simpa using hsorted) (forall_mem_append.mpr
      ⟨fun a ha => (hdr a ha).trans hnext, forall_mem_singleton.mpr hnext⟩)
    unfold lenAdd
    split_ifs <;> omega
  | joinRight htype hstart hbound hend =>
    refine sorted_append hds (fun a ha => (hm.behind (by omega) a ha).left (Int.le_refl _)
      fun _ => htype.symm) (sorted_right hrs (fun hpos => ?_) (fun hpos => ?_) fun _ => rfl)
    · dsimp only
      unfold lenAdd
      split_ifs <;> omega
    · dsimp only
      unfold lenAdd
      split_ifs <;> omega
  | touchRight htype hstart htouch hbound =>
    refine ⟨hlen, hnn, by simpa using hsorted, ds, [r], rfl, hm.behind (by omega), ?_⟩
    intro d hd
    rw [mem_singleton.mp hd]
    refine ⟨.touching (by rw [newRecord_len]; omega) htouch.symm htype, fun x hx => ?_⟩
    have hx' := (pairwise_cons.mp hrs).1 x hx
    have hpos := hx'.1
    have hle := hx'.2.1
    omega
  | cutHead htype hread hstart hbound hend =>
    have hreg : Before apart (newRecord po start len .wrlck)
        { r with start := start + len, len := lenAdd r.len (-(start + len - r.start)) } :=
      .touching (by rw [newRecord_len]; omega) rfl (by simp [hread])
    have hdn : ∀ a ∈ ds, Before apart a (newRecord po start len .wrlck) :=
      htype ▸ hm.behind (by omega)
    dsimp only [Turn.Sorts]
    rw [enter_cons, enter_nil,
      linkRecord_between hdn (by rw [newRecord_start]; dsimp only; omega)]
    refine sorted_append hds hdn (sorted_cons hreg (sorted_right hrs (fun hpos => ?_)
      (fun hpos => ?_) fun _ => rfl))
    · dsimp only
      unfold lenAdd
      split_ifs <;> omega
    · dsimp only
      unfold lenAdd
      split_ifs <;> omega
  | short hstart hbound hrec hend =>
    apply hm.enter
    · intro _
      omega
    · intro x hx
      rcases mem_cons.mp hx with rfl | hx
      · exact hend
      · have hle := ((pairwise_cons.mp hrs).1 x hx).2.1
        omega
  | pass hrec hend =>
    have hreg : Before apart r (newRecord po start len type) := .of_lt (by omega) hend
    exact .of_behind hlen hnn (by simpa using hsorted) (forall_mem_append.mpr
      ⟨fun a ha => (hdr a ha).trans hreg, forall_mem_singleton.mpr hreg⟩)

theorem MergeRound.len_nonneg {start' len' : Int} {gens keep : List RlockList}
    (h : MergeRound po type start len r (.next start' len' gens keep)) (hlen : 0 ≤ len) :
    0 ≤ len' := by
  cases h with
  | raise | absorb | touchLeft | cutTail | touchRight | pass => exact hlen
  | around | joinLeft | skip =>
    unfold lenAdd
    split_ifs <;> omega

end Turn

section Run

variable {apart : Prop} {po : Nat} {malloc : Nat → Bool} {type : LockType} {start len : Int}
  {ds rs : List RlockList}

theorem mergeTurns_ne_abort (hlen : 0 ≤ len) (hnn : ∀ x ∈ rs, 0 ≤ x.len) (brk : Nat) :
    (mergeTurns po malloc type rs ds start len brk).2 ≠ .abort := by
  induction rs generalizing ds start len brk with
  | nil =>
    unfold mergeTurns runTurns
    split <;> simp
  | cons r rs ih =>
    have hround : MergeRound po type start len r (mergeTurn po type start len r) :=
      mergeTurn_round hlen (hnn r mem_cons_self)
    unfold mergeTurns runTurns
    revert hround
    cases mergeTurn po type start len r with
    | next start' len' gens keep =>
      intro hround
      dsimp only
      split
      · exact ih (hround.len_nonneg hlen) (fun x hx => hnn x (mem_cons_of_mem r hx)) _
      · simp
    | stop gens r' =>
      intro hround
      dsimp only
      split <;> simp
    | abort => exact fun hround => absurd rfl hround.ne_abort

/-- Away from gaps a run that succeeds enters exactly the request. -/
theorem mergeTurns_spec (hm : Merging apart po type start len ds rs)
    (hgap : ¬ MeetsGap po type start len rs) {brk : Nat} {es : List RlockList}
    (hrun : mergeTurns po malloc type rs ds start len brk = (es, .ret .success)) :
    es.Pairwise (Before apart) ∧
      ∀ t b, Locks es t b ↔ Locks (ds ++ rs) t b ∨ (AtLeast t type ∧ InRange start len b) := by
  induction rs generalizing ds start len brk with
  | nil =>
    unfold mergeTurns runTurns at hrun
    split at hrun
    · simp only [Prod.mk.injEq, and_true] at hrun
      subst hrun
      have henter := hm.enter (fun h => absurd rfl h) (by simp)
      rw [append_nil] at henter
      refine ⟨henter, fun t b => ?_⟩
      simp [RlockList.Covers, or_comm]
    · cases hrun
  | cons r rs ih =>
    have hr := hm.nonneg r mem_cons_self
    have hround : MergeRound po type start len r (mergeTurn po type start len r) :=
      mergeTurn_round hm.len_nonneg hr
    rw [MeetsGap, not_or] at hgap
    obtain ⟨hnear, hrest⟩ := hgap
    unfold mergeTurns runTurns at hrun
    revert hround hrest hrun
    cases mergeTurn po type start len r with
    | next start' len' gens keep =>
      intro hround hrest hrun
      have hkeeps : ∀ t b, _ ↔ _ := hround.keeps hm.len_nonneg hr hnear
      dsimp only at hrest hrun
      split at hrun
      · obtain ⟨hsorted, hlocks⟩ := ih (hround.sorts hm hnear) hrest hrun
        refine ⟨hsorted, fun t b => ?_⟩
        calc Locks es t b
            _ ↔ (Locks ds t b ∨ Locks rs t b) ∨ (Locks gens t b ∨ Locks keep t b ∨
                  (AtLeast t type ∧ InRange start' len' b)) := by
                rw [hlocks]
                simp only [locks_append, locks_enter]
                simp only [or_assoc, or_comm, or_left_comm]
            _ ↔ _ := by
                rw [hkeeps t b]
                simp only [locks_append, locks_cons]
                simp only [or_assoc, or_comm, or_left_comm]
      · cases hrun
    | stop gens r' =>
      intro hround hrest hrun
      have hkeeps : ∀ t b, _ ↔ _ := hround.keeps hm.len_nonneg hr hnear
      dsimp only at hrun
      split at hrun
      · simp only [Prod.mk.injEq, and_true] at hrun
        subst hrun
        refine ⟨hround.sorts hm hnear, fun t b => ?_⟩
        calc Locks (enter gens (ds ++ r' :: rs)) t b
            _ ↔ (Locks ds t b ∨ Locks rs t b) ∨ (Locks gens t b ∨
                  (AtLeast t r'.type ∧ r'.Covers b)) := by
                simp only [locks_append, locks_enter, locks_cons]
                simp only [or_assoc, or_comm, or_left_comm]
            _ ↔ _ := by
                rw [hkeeps t b]
                simp only [locks_append, locks_cons]
                simp only [or_assoc, or_comm, or_left_comm]
      · cases hrun
    | abort => exact fun hround => absurd rfl hround.ne_abort

theorem mergeTurns_success (hmalloc : ∀ a, malloc a = true) (hlen : 0 ≤ len)
    (hnn : ∀ x ∈ rs, 0 ≤ x.len) (brk : Nat) :
    (mergeTurns po malloc type rs ds start len brk).2 = .ret .success := by
  have hgrant : ∀ brk gens, Granted malloc brk gens := fun brk gens i _ => hmalloc _
  induction rs generalizing ds start len brk with
  | nil =>
    unfold mergeTurns runTurns
    rw [if_pos (hgrant _ _)]
  | cons r rs ih =>
    have hround : MergeRound po type start len r (mergeTurn po type start len r) :=
      mergeTurn_round hlen (hnn r mem_cons_self)
    unfold mergeTurns runTurns
    revert hround
    cases mergeTurn po type start len r with
    | next start' len' gens keep =>
      intro hround
      dsimp only
      rw [if_pos (hgrant _ _)]
      exact ih (hround.len_nonneg hlen) (fun x hx => hnn x (mem_cons_of_mem r hx)) _
    | stop gens r' =>
      intro hround
      dsimp only
      rw [if_pos (hgrant _ _)]
    | abort => exact fun hround => absurd rfl hround.ne_abort

theorem stop_disjoint {gens : List RlockList} {r : RlockList}
    (h : (enter gens (ds ++ r :: rs)).Pairwise (Before apart)) {d : RlockList} (hd : d ∈ ds)
    {b : Int} (hb : d.Covers b) : ¬ r.Covers b ∧ ∀ n ∈ gens, ¬ n.Covers b := by
  have hdisj := ((enter_perm gens _).pairwise_iff fun hxy b hb => hxy b hb.symm).mp
    (sorted_disjoint h)
  rw [pairwise_append, pairwise_append] at hdisj
  obtain ⟨-, ⟨-, -, hdr⟩, hgen⟩ := hdisj
  refine ⟨fun hr => hdr d hd r mem_cons_self b ⟨hb, hr⟩, fun n hn hnb => ?_⟩
  exact hgen n hn d (mem_append_left _ hd) b ⟨hnb, hb⟩

theorem MergeRound.gap {r : RlockList} {T : Turn} (h : MergeRound po type start len r T)
    (hlen : 0 ≤ len) (hgap : BeyondGap start len r) :
    ∃ gens r', T = .stop gens r' ∧
      (r'.Covers (start + len) ∨ ∃ n ∈ gens, n.Covers (start + len)) := by
  obtain ⟨hrec, hbound, hbeyond⟩ := hgap
  cases h with
  | upTo htype hwrite hstart hend =>
    refine ⟨_, _, rfl, .inr ⟨_, mem_singleton_self _, ?_⟩⟩
    unfold RlockList.Covers InRange newRecord
    dsimp only
    omega
  | joinRight htype hstart hbound hend =>
    refine ⟨_, _, rfl, .inl ?_⟩
    unfold RlockList.Covers InRange lenAdd
    simp [hrec]
    omega
  | cutHead htype hread hstart hbound hend =>
    refine ⟨_, _, rfl, .inl ?_⟩
    unfold RlockList.Covers InRange lenAdd
    simp [hrec]
  | _ => omega

/-- A run that meets a gap locks a byte outside the request, or leaves the list unsorted. -/
theorem mergeTurns_gap (hm : Merging False po type start len ds rs)
    (hgap : MeetsGap po type start len rs) {brk : Nat} {es : List RlockList}
    (hrun : mergeTurns po malloc type rs ds start len brk = (es, .ret .success))
    (hes : es.Pairwise (Before False)) :
    ∃ b, Locks es .rdlck b ∧ ¬ (Locks (ds ++ rs) .rdlck b ∨ InRange start len b) := by
  induction rs generalizing ds start len brk with
  | nil => exact hgap.elim
  | cons r rs ih =>
    have hr := hm.nonneg r mem_cons_self
    have hround : MergeRound po type start len r (mergeTurn po type start len r) :=
      mergeTurn_round hm.len_nonneg hr
    by_cases hnear : BeyondGap start len r
    · obtain ⟨gens, r', hturn, hcover⟩ := hround.gap hm.len_nonneg hnear
      obtain ⟨hrec, hbound, hbeyond⟩ := hnear
      have hlen := hm.len_nonneg
      -- A record to the end of the file is the last one.
      obtain rfl : rs = [] := by
        refine eq_nil_iff_forall_not_mem.mpr fun x hx => ?_
        have hpos := ((pairwise_cons.mp (sorted_middle hm.sorted).2.2).1 x hx).1
        omega
      unfold mergeTurns runTurns at hrun
      rw [hturn] at hrun
      dsimp only at hrun
      split at hrun
      · simp only [Prod.mk.injEq, and_true] at hrun
        subst hrun
        refine ⟨start + len, ?_, ?_⟩
        · rw [locks_enter, locks_append, locks_cons]
          rcases hcover with hcover | ⟨n, hn, hcover⟩
          · exact .inr (.inr (.inl ⟨atLeast_rdlck _, hcover⟩))
          · exact .inl ⟨n, hn, atLeast_rdlck _, hcover⟩
        · rintro (hold | hin)
          · rw [locks_append, locks_cons] at hold
            rcases hold with ⟨d, hd, -, hdb⟩ | ⟨-, hrb⟩ | hnil
            · obtain ⟨hnr, hngens⟩ := stop_disjoint hes hd hdb
              rcases hcover with hcover | ⟨n, hn, hcover⟩
              · exact hnr hcover
              · exact hngens n hn hcover
            · unfold RlockList.Covers InRange at hrb
              omega
            · exact locks_nil.mp hnil
          · unfold InRange at hin
            omega
      · cases hrun
    · have hrest : MeetsGap po type start len (r :: rs) := hgap
      rw [MeetsGap, or_iff_right hnear] at hrest
      unfold mergeTurns runTurns at hrun
      revert hround hrest hrun
      cases mergeTurn po type start len r with
      | next start' len' gens keep =>
        intro hround hrest hrun
        have hkeeps : ∀ t b, _ ↔ _ := hround.keeps hm.len_nonneg hr hnear
        dsimp only at hrest hrun
        split at hrun
        · obtain ⟨b, hlock, hnot⟩ := ih (hround.sorts hm hnear) hrest hrun
          refine ⟨b, hlock, fun hold => hnot ?_⟩
          have hkeep := hkeeps .rdlck b
          simp only [locks_append, locks_enter, locks_cons, atLeast_rdlck, true_and]
            at hkeep hold ⊢
          rcases hold with (hds | hrec | hrs) | hin
          · exact .inl (.inl (.inl (.inr hds)))
          · rcases hkeep.mpr (.inl hrec) with hgens | hkept | hin
            · exact .inl (.inl (.inl (.inl hgens)))
            · exact .inl (.inl (.inr hkept))
            · exact .inr hin
          · exact .inl (.inr hrs)
          · rcases hkeep.mpr (.inr hin) with hgens | hkept | hin
            · exact .inl (.inl (.inl (.inl hgens)))
            · exact .inl (.inl (.inr hkept))
            · exact .inr hin
        · cases hrun
      | stop gens r' => exact fun _ hrest _ => hrest.elim
      | abort => exact fun _ hrest _ => hrest.elim

end Run

/-- What a request of `po` for a lock is promised: no assertion fails and, if the request succeeds,
each byte of the region has the stronger of its old lock and the new one, every other byte and the
other opens have what they had, and the list is sorted, without shared bytes, and without records
of one type that touch if there were none. -/
def MergePromise (po : Nat) (start len : Int) (type : LockType) (s : RlockBox) : Prop :=
  ∀ malloc : Nat → Bool,
    (mergeIn po malloc start len type s).2 ≠ .abort ∧
      ((mergeIn po malloc start len type s).2 = .ret .success →
        (∀ b, lockAt ((mergeIn po malloc start len type s).1.records po) b =
          if InRange start len b then some (strongest (lockAt (s.records po) b) type)
          else lockAt (s.records po) b) ∧
        (∀ q, q ≠ po → (mergeIn po malloc start len type s).1.records q = s.records q) ∧
        ((mergeIn po malloc start len type s).1.records po).Pairwise (Before False) ∧
        ((s.records po).Pairwise (Before True) →
          ((mergeIn po malloc start len type s).1.records po).Pairwise (Before True)))

section Promise

variable {po : Nat} {start len : Int} {type : LockType} {s : RlockBox}

theorem WellLinked.merging {apart : Prop} (hw : WellLinked s) (hlen : 0 ≤ len)
    (hsorted : (s.records po).Pairwise (Before apart)) :
    Merging apart po type start len [] (s.records po) :=
  .of_behind hlen (hw.records_nonneg po) hsorted (by simp)

theorem lockAt_of_locks {es rs : List RlockList}
    (h : ∀ t b, Locks es t b ↔ Locks rs t b ∨ (AtLeast t type ∧ InRange start len b)) (b : Int) :
    lockAt es b = if InRange start len b then some (strongest (lockAt rs b) type)
      else lockAt rs b := by
  split
  · rename_i hin
    rw [lockAt_eq_strongest]
    intro t
    rw [h, and_iff_left hin]
  · rename_i hout
    apply lockAt_congr
    intro t
    rw [h, or_iff_left fun hr => hout hr.2]

/-- For a sorted list, `merge_in` keeps its promise exactly when its walk meets no gap. -/
theorem mergePromise_iff (hw : WellLinked s) (hsorted : (s.records po).Pairwise (Before False))
    (hlen : 0 ≤ len) :
    MergePromise po start len type s ↔ ¬ MeetsGap po type start len (s.records po) := by
  have hrun : ∀ malloc, mergeTurns po malloc type (s.records po) [] start len s.brk =
      ((mergeIn po malloc start len type s).1.records po,
        (mergeIn po malloc start len type s).2) :=
    fun malloc => (mergeIn_records hw hlen).symm
  constructor
  · intro hpromise hgap
    have hrun' := hrun fun _ => true
    have hsuccess : (mergeIn po (fun _ => true) start len type s).2 = .ret .success := by
      have hall := congrArg Prod.snd hrun'
      rw [← hall]
      exact mergeTurns_success (fun _ => rfl) hlen (hw.records_nonneg po) s.brk
    obtain ⟨hbytes, -, hes, -⟩ := (hpromise fun _ => true).2 hsuccess
    rw [hsuccess] at hrun'
    obtain ⟨b, hlock, hnot⟩ := mergeTurns_gap (hw.merging hlen hsorted) hgap hrun' hes
    rw [not_or, nil_append] at hnot
    have hb := hbytes b
    rw [if_neg hnot.2, lockAt_eq_iff] at hb
    exact hnot.1 ((hb .rdlck).mp hlock)
  · intro hgap malloc
    refine ⟨?_, fun hsuccess => ?_⟩
    · have hout := congrArg Prod.snd (hrun malloc)
      rw [← hout]
      exact mergeTurns_ne_abort hlen (hw.records_nonneg po) s.brk
    have hrun' := hrun malloc
    rw [hsuccess] at hrun'
    obtain ⟨hes, hlocks⟩ := mergeTurns_spec (hw.merging hlen hsorted) hgap hrun'
    refine ⟨lockAt_of_locks hlocks, fun q hq => ?_, hes, fun hapart => ?_⟩
    · have hedits : Edit po [] False s (mergeIn po malloc start len type s).1 :=
        mergeIn_edits hw hlen (scanVisits_of_forall _ (fun _ _ => False.elim) _ _)
      exact hedits.records_other hw hq
    · exact (mergeTurns_spec (hw.merging hlen hapart) hgap hrun').1

end Promise

/-- An open has a read lock from byte 100 to the end of the file. -/
def farLocked : RlockBox := (mergeIn 0 (fun _ => true) 100 0 .rdlck RlockBox.init).1

theorem farLocked_records :
    farLocked.records 0 =
      [{ start := 100, len := 0, type := .rdlck, waiting := false, poId := 0 }] := rfl

theorem farLocked_linked : WellLinked farLocked := by
  have hedits : Edit 0 [] False RlockBox.init farLocked :=
    mergeIn_edits wellLinked_init (Int.le_refl 0)
      (scanVisits_of_forall _ (fun _ _ => False.elim) _ _)
  exact hedits.wellLinked wellLinked_init

theorem mergePromise_iff_write : MergePromise 0 90 20 .wrlck farLocked := by
  refine (mergePromise_iff farLocked_linked ?_ (by decide)).mpr ?_
  · rw [farLocked_records]
    exact pairwise_singleton _ _
  · rw [farLocked_records]
    simp [MeetsGap, BeyondGap, mergeTurn]

/-- A request of the open for bytes 0 to 9 is granted and locks byte 50 too. -/
theorem mergeIn_locks_gap :
    ∃ s, Reach rlockStep (fun _ e => NoOverflow e) RlockBox.init s ∧
      (s.records 0).Pairwise (Before True) ∧
      (mergeIn 0 (fun _ => true) 0 10 .rdlck s).2 = .ret .success ∧
      ¬ InRange 0 10 50 ∧ lockAt (s.records 0) 50 = none ∧
      lockAt ((mergeIn 0 (fun _ => true) 0 10 .rdlck s).1.records 0) 50 = some .rdlck := by
  refine ⟨farLocked, .labels
    [.tweak 0 (fun _ => true) (setRequest .setlk64 (.lock .rdlck) 100 0)] .start (by decide) rfl,
    ?_, rfl, by decide, by decide, by decide⟩
  exact pairwise_singleton _ _

end Hurd.Fshelp
