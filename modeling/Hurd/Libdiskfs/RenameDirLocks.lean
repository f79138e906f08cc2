import Hurd.Libdiskfs.LinkLocks

/-!
# The locks of `diskfs_rename_dir`

All the errors but one leave through `out`, which unlocks the source whether or not it is locked.
-/

namespace Hurd.NodeLocks

open Locking Finset

variable {Node : Type} {fs : Fs Node} {h h' : Holding Node} {p : Prop}
  {α : Type}

/-- The references, with that of the node a lookup has found, if any. -/
def withRef (refs : Multiset Node) : Option Node → Multiset Node
  | none => refs
  | some n => n ::ₘ refs

@[simp] theorem withRef_none (refs : Multiset Node) : withRef refs none = refs := rfl

@[simp] theorem withRef_some (refs : Multiset Node) (n : Node) :
    withRef refs (some n) = n ::ₘ refs := rfl

variable [DecidableEq Node]

/-- The locks, with that of the node found. -/
def withNode (s : Finset Node) : Option Node → Finset Node
  | none => s
  | some n => insert n s

@[simp] theorem withNode_none (s : Finset Node) : withNode s none = s := rfl

@[simp] theorem withNode_some (s : Finset Node) (n : Node) : withNode s (some n) = insert n s := rfl

theorem out_end_wrong {fdp fnp tdp : Node} {err : Option Errno}
    (hlocks : ∀ n ∈ h.locks, n = fdp ∧ n ≠ tdp) :
    Decides (do
        unlockUnless tdp fdp
        onNode unlock (some fnp)
        return err) h h' p ↔ ¬p := by
  rw [decides_unlockUnless, onNode_some]
  by_cases hparents : fdp = tdp
  · rw [if_pos hparents]
    apply decides_unlock_wrong
    intro hfnp
    exact absurd ((hlocks fnp hfnp).1.trans hparents) (hlocks fnp hfnp).2
  · rw [if_neg hparents]
    apply decides_unlock_wrong
    intro hfdp
    apply decides_unlock_wrong
    intro hfnp
    exact absurd (hlocks fnp (mem_of_mem_erase hfnp)).1 (ne_of_mem_erase hfnp)

theorem out_wrong {fdp fnp tdp : Node} {tnp : Option Node} {err : Option Errno}
    (hlocks : h.locks ⊆ withNode {tdp, fdp} tnp) :
    Decides (out fdp tdp (some fnp) tnp err) h h' p ↔ ¬p := by
  unfold out
  apply decides_unlock_wrong
  intro htdp
  cases tnp with
  | none =>
    apply out_end_wrong
    intro n hn
    have hmem := hlocks (mem_of_mem_erase hn)
    have hne := ne_of_mem_erase hn
    simp only [withNode, mem_insert, mem_singleton] at hmem
    exact ⟨hmem.resolve_left hne, hne⟩
  | some t =>
    rw [onNode_some, decides_put]
    apply decides_unlock_wrong
    intro ht
    apply decides_rele_wrong
    intro href
    apply out_end_wrong
    intro n hn
    have hmem := hlocks (mem_of_mem_erase (mem_of_mem_erase hn))
    have hnt := ne_of_mem_erase hn
    have hne := ne_of_mem_erase (mem_of_mem_erase hn)
    simp only [withNode, mem_insert, mem_singleton] at hmem
    exact ⟨(hmem.resolve_left hnt).resolve_left hne, hne⟩

theorem out_decides {fdp fnp tdp : Node} {tnp : Option Node} {err : Option Errno}
    {base : Multiset Node} (hchild : fnp ≠ tdp) (hsame : tnp ≠ some fnp)
    (hfdp : tnp = some fdp → fdp = tdp) :
    Decides (out fdp tdp (some fnp) tnp err)
        ⟨insert fnp (withNode {tdp, fdp} tnp), withRef base tnp⟩ ⟨∅, base⟩ p ↔
      (fnp ≠ fdp ∧ tnp ≠ some tdp ↔ p) := by
  unfold out
  have hchild' : tdp ≠ fnp := hchild.symm
  cases tnp with
  | none =>
    by_cases hparents : fdp = tdp
    · subst hparents
      simp [-bind_pure_comp, withNode, withRef, decides_unlockUnless, hchild, hchild',
        erase_insert_of_ne]
    · by_cases hfnp : fnp = fdp
      · simp [-bind_pure_comp, withNode, withRef, decides_unlockUnless, hparents, hfnp]
      · simp [-bind_pure_comp, withNode, withRef, decides_unlockUnless, hparents, hfnp, hchild,
          hchild', Ne.symm hparents, Ne.symm hfnp, erase_insert_of_ne]
  | some t =>
    have ht : t ≠ fnp := fun heq => hsame (congrArg some heq)
    have ht' : fnp ≠ t := ht.symm
    by_cases htdp : t = tdp
    · simp [-bind_pure_comp, withNode, withRef, htdp]
    · have htfdp : t ≠ fdp := fun heq => htdp (heq.trans (hfdp (congrArg some heq)))
      have htdp' : tdp ≠ t := Ne.symm htdp
      have htfdp' : fdp ≠ t := htfdp.symm
      by_cases hparents : fdp = tdp
      · subst hparents
        simp [-bind_pure_comp, withNode, withRef, decides_unlockUnless, hchild, hchild', ht, ht',
          htdp, htdp', erase_insert_of_ne]
      · have hparents' : tdp ≠ fdp := Ne.symm hparents
        by_cases hfnp : fnp = fdp
        · simp [-bind_pure_comp, withNode, withRef, decides_unlockUnless, hparents, hparents', hfnp,
            htdp, htdp', htfdp, htfdp', erase_insert_of_ne]
        · have hfnp' : fdp ≠ fnp := Ne.symm hfnp
          simp [-bind_pure_comp, withNode, withRef, decides_unlockUnless, hparents, hparents', hfnp,
            hfnp', hchild, hchild', ht, ht', htdp, htdp', htfdp, erase_insert_of_ne]

theorem clearDirectory_decides {dp pdp : Node} {ans : RenameDirAnswers Node} :
    Decides (clearDirectory fs dp pdp ans) h h True := by
  unfold clearDirectory
  cases ho : fs.outcome dp ans.clearDot with
  | failed err clears =>
    rw [decides_lookup_failed ho]
    simp [-bind_pure_comp]
  | found n =>
    rw [decides_lookup_found ho, decides_lockUnless]
    by_cases hn : n = dp
    · by_cases hremove : ans.removeDot = none
      · cases fs.outcome dp ans.clearDotdot with
        | failed err clears => simp [-bind_pure_comp, hn, hremove]
        | found m => simp [-bind_pure_comp, hn, hremove]
      · simp [-bind_pure_comp, hn, hremove]
    · simp [-bind_pure_comp, hn]

theorem clearTarget_decides {tdp : Node} {ans : RenameDirAnswers Node} (tnp : Option Node) :
    Decides (clearTarget fs tdp ans tnp) h h True := by
  cases tnp with
  | none => simp [clearTarget]
  | some t =>
    have hclear : Decides (clearDirectory fs t tdp ans) h h True := clearDirectory_decides
    exact hclear.bind fun _ => (decides_pure ()).mpr (iff_of_true rfl trivial)

theorem out_parent_wrong {fdp tdp : Node} {fnp tnp : Option Node} {err : Option Errno}
    (hparents : fdp ≠ tdp) (hfdp : fdp ∉ h.locks) :
    Decides (out fdp tdp fnp tnp err) h h' p ↔ ¬p := by
  have hnot : ∀ n, fdp ∉ h.locks.erase n := fun n hmem => hfdp (mem_of_mem_erase hmem)
  unfold out
  apply decides_unlock_wrong
  intro htdp
  cases tnp with
  | none => simp [decides_unlockUnless, hparents, hfdp]
  | some t =>
    rw [onNode_some, decides_put]
    apply decides_unlock_wrong
    intro ht
    apply decides_rele_wrong
    intro href
    simp [decides_unlockUnless, hparents, hfdp]

theorem out_unlocked_decides {fdp tdp : Node} {tnp : Option Node} {err : Option Errno}
    {base : Multiset Node} (hfdp : tnp = some fdp → fdp = tdp) :
    Decides (out fdp tdp none tnp err) ⟨withNode {tdp, fdp} tnp, withRef base tnp⟩ ⟨∅, base⟩ p ↔
      (tnp ≠ some tdp ↔ p) := by
  unfold out
  cases tnp with
  | none =>
    by_cases hparents : fdp = tdp
    · simp [-bind_pure_comp, withNode, withRef, decides_unlockUnless, hparents]
    · simp [-bind_pure_comp, withNode, withRef, decides_unlockUnless, hparents, Ne.symm hparents]
  | some t =>
    by_cases htdp : t = tdp
    · simp [-bind_pure_comp, withNode, withRef, htdp]
    · have htfdp : t ≠ fdp := fun heq => htdp (heq.trans (hfdp (congrArg some heq)))
      have htdp' : tdp ≠ t := Ne.symm htdp
      by_cases hparents : fdp = tdp
      · simp [-bind_pure_comp, withNode, withRef, decides_unlockUnless, htdp, htdp', hparents,
          erase_insert_of_ne]
      · simp [-bind_pure_comp, withNode, withRef, decides_unlockUnless, htdp, htdp', hparents,
          Ne.symm hparents, htfdp, erase_insert_of_ne]

theorem removeSource_decides {fdp fnp tdp : Node} {tnp tmpnp : Option Node}
    {ans : RenameDirAnswers Node} {base : Multiset Node} (hbase : fnp ∈ base) (hchild : fnp ≠ tdp)
    (hsame : tnp ≠ some fnp) (hfdp : tnp = some fdp → fdp = tdp) :
    Decides (removeSource fs fdp fnp tdp tnp ans tmpnp)
      ⟨insert fnp (withNode {tdp, fdp} tnp), withRef base tnp⟩ ⟨∅, base⟩
      (fnp ≠ fdp ∧ tnp ≠ some tdp) := by
  unfold removeSource
  rw [decides_unlock, if_pos (mem_insert_self _ _)]
  by_cases hfnp : fnp = fdp
  · -- the lock of the parent has been released
    have hparents : fdp ≠ tdp := fun heq => hchild (hfnp.trans heq)
    cases ho : fs.outcome fdp ans.removal with
    | failed err clears =>
      rw [decides_lookup_failed ho]
      generalize (if clears = true ∨ err = .enoent then none else tmpnp) = left
      cases left with
      | none => simp [-bind_pure_comp, out_parent_wrong hparents, hfnp]
      | some n => simp [-bind_pure_comp, hfnp]
    | found n =>
      rw [decides_lookup_found ho]
      by_cases hn : n = fdp
      · simp [-bind_pure_comp, decides_lockUnless, hn, hfnp, out_parent_wrong hparents]
      · simp [-bind_pure_comp, decides_lockUnless, hn, hfnp]
  · have hout : fnp ∉ withNode {tdp, fdp} tnp := by
      cases tnp with
      | none => simp [withNode, hchild, hfnp]
      | some t =>
        have ht : fnp ≠ t := fun heq => hsame (congrArg some heq.symm)
        simp [withNode, ht, hchild, hfnp]
    have hbase' : fnp ∈ withRef base tnp := by
      cases tnp with
      | none => exact hbase
      | some t => exact Multiset.mem_cons_of_mem hbase
    rw [erase_insert hout]
    cases ho : fs.outcome fdp ans.removal with
    | failed err clears =>
      rw [decides_lookup_failed ho]
      generalize (if clears = true ∨ err = .enoent then none else tmpnp) = left
      cases left with
      | none => simp [-bind_pure_comp, out_unlocked_decides hfdp, hfnp]
      | some n => simp +contextual [-bind_pure_comp, hbase']
    | found n =>
      rw [decides_lookup_found ho]
      by_cases hn : n = fnp
      · simp [-bind_pure_comp, hn, decides_lockUnless, hfnp, hout, out_decides hchild hsame hfdp]
      · by_cases hn' : n = fdp
        · simp [decides_lockUnless, hn', Ne.symm hfnp]
        · simp [decides_lockUnless, hn, hn']

theorem moveEntry_decides {fdp fnp tdp : Node} {tnp tmpnp : Option Node}
    {ans : RenameDirAnswers Node} {base : Multiset Node} (hbase : fnp ∈ base) (hchild : fnp ≠ tdp)
    (hsame : tnp ≠ some fnp) (hfdp : tnp = some fdp → fdp = tdp) :
    Decides (moveEntry fs fdp fnp tdp tnp ans tmpnp)
      ⟨insert fnp (withNode {tdp, fdp} tnp), withRef base tnp⟩ ⟨∅, base⟩
      ((if fs.atLinkMax fnp = true then fdp = tdp ∨ fnp = fdp else fnp ≠ fdp) ∧
        tnp ≠ some tdp) := by
  unfold moveEntry
  by_cases hmax : fs.atLinkMax fnp = true
  · rw [if_pos hmax, if_pos hmax]
    have hchild' : tdp ≠ fnp := hchild.symm
    cases tnp with
    | none =>
      by_cases hparents : fdp = tdp
      · simp [-bind_pure_comp, withNode, withRef, hchild, hparents]
      · by_cases hfnp : fnp = fdp
        · simp [-bind_pure_comp, withNode, withRef, hparents, Ne.symm hparents, hfnp,
            erase_insert_of_ne]
        · simp [-bind_pure_comp, withNode, withRef, hparents, Ne.symm hparents, hfnp, hchild]
    | some t =>
      have ht : t ≠ fnp := fun heq => hsame (congrArg some heq)
      have ht' : fnp ≠ t := ht.symm
      by_cases htdp : t = tdp
      · simp [-bind_pure_comp, withNode, withRef, htdp, hchild']
      · have htfdp : t ≠ fdp := fun heq => htdp (heq.trans (hfdp (congrArg some heq)))
        have htdp' : tdp ≠ t := Ne.symm htdp
        by_cases hparents : fdp = tdp
        · simp [-bind_pure_comp, withNode, withRef, hchild, ht', htdp, htdp', hparents,
            erase_insert_of_ne]
        · by_cases hfnp : fnp = fdp
          · simp [-bind_pure_comp, withNode, withRef, hparents, Ne.symm hparents, hfnp, htdp, htdp',
              htfdp, htfdp.symm, erase_insert_of_ne]
          · simp [-bind_pure_comp, withNode, withRef, hparents, Ne.symm hparents, hfnp, hchild,
              ht', htdp, htdp', htfdp, erase_insert_of_ne]
  · rw [if_neg hmax, if_neg hmax]
    apply (clearTarget_decides tnp).bind
    intro _
    by_cases hattach : ans.attach = none
    · rw [if_neg (not_not.mpr hattach)]
      exact removeSource_decides hbase hchild hsame hfdp
    · rw [if_pos hattach]
      exact (out_decides hchild hsame hfdp).mpr Iff.rfl

/-- Step 2 has no error. -/
def Reparented (fs : Fs Node) (fdp fnp tdp : Node) (ans : RenameDirAnswers Node) : Prop :=
  fdp = tdp ∨ fs.atLinkMax tdp = false ∧ (∃ n, fs.outcome fnp ans.dotdot = .found n) ∧
    ans.rewriteDotdot = none

theorem decides_reparent {fdp fnp tdp : Node} {tmpnp : Option Node} {ans : RenameDirAnswers Node}
    {f : Option Errno × Option Node → Locking Node α}
    (hnone : ∀ np, Reparented fs fdp fnp tdp ans → Decides (f (none, np)) h h' p)
    (hsome : ∀ err np, ¬Reparented fs fdp fnp tdp ans → Decides (f (some err, np)) h h' p) :
    Decides (reparent fs fdp fnp tdp ans tmpnp >>= f) h h' p := by
  unfold reparent
  by_cases hparents : fdp = tdp
  · rw [if_pos hparents, pure_bind]
    exact hnone tmpnp (Or.inl hparents)
  · rw [if_neg hparents]
    by_cases hmax : fs.atLinkMax tdp = true
    · rw [if_pos hmax, pure_bind]
      apply hsome
      simp [Reparented, hparents, hmax]
    · rw [if_neg hmax]
      cases ho : fs.outcome fnp ans.dotdot with
      | failed err clears =>
        simp only [bind_assoc, pure_bind, decides_assert]
        intro _
        apply hsome
        simp [Reparented, hparents, ho]
      | found n =>
        simp only [bind_assoc, pure_bind, decides_assert]
        intro _
        cases hrewrite : ans.rewriteDotdot with
        | none =>
          apply hnone
          simp [Reparented, hmax, ho, hrewrite]
        | some err =>
          apply hsome
          simp [Reparented, hparents, hrewrite]

/-- Step 3 is reached, and finds that `FNP` has as many links as it may have. -/
def LeavesAtLinkMax (fs : Fs Node) (fdp fnp tdp : Node) (tnp : Option Node)
    (ans : RenameDirAnswers Node) : Prop :=
  tnp.all fs.isDir = true ∧ (tnp = none ∨ ans.empty = true) ∧ Reparented fs fdp fnp tdp ans ∧
    fs.atLinkMax fnp = true

def PermittedGivesBack (fs : Fs Node) (fdp fnp tdp : Node) (tnp : Option Node)
    (ans : RenameDirAnswers Node) : Prop :=
  tnp ≠ some tdp ∧ (LeavesAtLinkMax fs fdp fnp tdp tnp ans → fdp = tdp ∨ fnp = fdp) ∧
    (¬LeavesAtLinkMax fs fdp fnp tdp tnp ans → fnp ≠ fdp)

omit [DecidableEq Node] in
theorem permitted_of_not {fdp fnp tdp : Node} {tnp : Option Node} {ans : RenameDirAnswers Node}
    (hnot : ¬LeavesAtLinkMax fs fdp fnp tdp tnp ans) :
    (fnp ≠ fdp ∧ tnp ≠ some tdp) ↔ PermittedGivesBack fs fdp fnp tdp tnp ans := by
  unfold PermittedGivesBack
  simp only [hnot, false_imp_iff, not_false_eq_true, true_imp_iff, true_and]
  exact and_comm

theorem renameDirPermitted_decides {fdp fnp tdp : Node} {tnp tmpnp : Option Node}
    {ans : RenameDirAnswers Node} {base : Multiset Node} (hbase : fnp ∈ base) (hchild : fnp ≠ tdp)
    (hsame : tnp ≠ some fnp) (hfdp : tnp = some fdp → fdp = tdp) :
    Decides (renameDirPermitted fs fdp fnp tdp tnp ans tmpnp)
      ⟨insert fnp (withNode {tdp, fdp} tnp), withRef base tnp⟩ ⟨∅, base⟩
      (PermittedGivesBack fs fdp fnp tdp tnp ans) := by
  have hout : ∀ err, ¬LeavesAtLinkMax fs fdp fnp tdp tnp ans →
      Decides (out fdp tdp (some fnp) tnp err)
        ⟨insert fnp (withNode {tdp, fdp} tnp), withRef base tnp⟩ ⟨∅, base⟩
        (PermittedGivesBack fs fdp fnp tdp tnp ans) := fun err hnot =>
    (out_decides hchild hsame hfdp).mpr (permitted_of_not hnot)
  unfold renameDirPermitted
  by_cases hdir : tnp.all fs.isDir = false
  · rw [if_pos hdir]
    apply hout
    simp [LeavesAtLinkMax, hdir]
  · rw [if_neg hdir]
    by_cases hempty : tnp ≠ none ∧ ans.empty = false
    · rw [if_pos hempty]
      apply hout
      simp [LeavesAtLinkMax, hempty]
    · rw [if_neg hempty]
      apply decides_reparent
      · intro np hreparented
        have hmove : Decides (moveEntry fs fdp fnp tdp tnp ans np)
            ⟨insert fnp (withNode {tdp, fdp} tnp), withRef base tnp⟩ ⟨∅, base⟩
            ((if fs.atLinkMax fnp = true then fdp = tdp ∨ fnp = fdp else fnp ≠ fdp) ∧
              tnp ≠ some tdp) := moveEntry_decides hbase hchild hsame hfdp
        have hreached : LeavesAtLinkMax fs fdp fnp tdp tnp ans ↔ fs.atLinkMax fnp = true := by
          simp only [not_and, Bool.not_eq_false] at hdir hempty
          simp only [LeavesAtLinkMax, hdir, hreparented, true_and, and_iff_right_iff_imp]
          intro _
          cases tnp with
          | none => exact Or.inl rfl
          | some t => exact Or.inr (hempty (Option.some_ne_none t))
        have hp : ((if fs.atLinkMax fnp = true then fdp = tdp ∨ fnp = fdp else fnp ≠ fdp) ∧
            tnp ≠ some tdp) = PermittedGivesBack fs fdp fnp tdp tnp ans := by
          unfold PermittedGivesBack
          rw [hreached]
          by_cases hmax : fs.atLinkMax fnp = true
          · simp [hmax, and_comm]
          · simp [hmax, and_comm]
        rw [hp] at hmove
        simpa using hmove
      · intro err np hnot
        have hleaves : ¬LeavesAtLinkMax fs fdp fnp tdp tnp ans := fun h => hnot h.2.2.1
        simpa using hout (some err) hleaves

theorem renameDirChecked_decides {fdp fnp tdp : Node} {tnp : Option Node}
    {ans : RenameDirAnswers Node} {base : Multiset Node} (hbase : fnp ∈ base) (hchild : fnp ≠ tdp)
    (hsame : tnp ≠ some fnp) (hfdp : tnp = some fdp → fdp = tdp) :
    Decides (renameDirChecked fs fdp fnp tdp tnp ans)
      ⟨withNode {tdp, fdp} tnp, withRef base tnp⟩ ⟨∅, base⟩
      ((∃ n, fs.outcome fdp ans.permission = .found n) ∧
        PermittedGivesBack fs fdp fnp tdp tnp ans) := by
  unfold renameDirChecked
  cases ho : fs.outcome fdp ans.permission with
  | failed err clears =>
    rw [decides_lookup_failed ho]
    generalize (if clears = true ∨ err = .enoent then none else ans.tmpnp) = left
    cases left with
    | none => simp [out_wrong]
    | some n =>
      have hwrong : Decides (rele n >>= fun _ => out fdp tdp (some fnp) tnp (some err))
          ⟨withNode {tdp, fdp} tnp, withRef base tnp⟩ ⟨∅, base⟩ False ↔ ¬False :=
        decides_rele_wrong fun _ => out_wrong (Finset.Subset.refl _)
      simp [hwrong]
  | found n =>
    rw [decides_lookup_found ho]
    by_cases hn : n = fnp
    · subst hn
      have hpermitted : Decides (renameDirPermitted fs fdp n tdp tnp ans (some n))
          ⟨insert n (withNode {tdp, fdp} tnp), withRef base tnp⟩ ⟨∅, base⟩
          (PermittedGivesBack fs fdp n tdp tnp ans) :=
        renameDirPermitted_decides hbase hchild hsame hfdp
      by_cases hfnp : n = fdp
      · have hmem : n ∈ withNode {tdp, fdp} tnp := by
          cases tnp with
          | none => simp [withNode, hfnp]
          | some t => simp [withNode, hfnp]
        rw [insert_eq_of_mem hmem] at hpermitted
        simpa [decides_lockUnless, hfnp] using hpermitted
      · simp only [decides_lockUnless, if_neg hfnp, decides_lock]
        intro _
        simpa using hpermitted
    · by_cases hn' : n = fdp
      · have hne : fdp ≠ fnp := fun heq => hn (hn'.trans heq)
        simp [decides_lockUnless, hn', hne]
      · simp [decides_lockUnless, hn, hn']

/-- What decides from step 1 on. -/
def LockedGivesBack (fs : Fs Node) (fdp fnp tdp : Node) (excl : Bool)
    (ans : RenameDirAnswers Node) : Prop :=
  match fs.outcome tdp ans.target with
  | .failed err _ => err = .enoent ∧ (∃ n, fs.outcome fdp ans.permission = .found n) ∧
      PermittedGivesBack fs fdp fnp tdp none ans
  | .found t => excl = false ∧ (t = fnp ∨ (∃ n, fs.outcome fdp ans.permission = .found n) ∧
      PermittedGivesBack fs fdp fnp tdp (some t) ans)

theorem decides_target {fdp tdp t : Node} {base : Multiset Node} {f : Unit → Locking Node α}
    (hf : (t = fdp → fdp = tdp) →
      Decides (f ()) ⟨insert t {tdp, fdp}, t ::ₘ base⟩ h' p) :
    Decides (lockUnless tdp t >>= fun _ => ref t >>= f) ⟨{tdp, fdp}, base⟩ h' p := by
  rw [decides_lockUnless]
  by_cases ht : t = tdp
  · have hmem : t ∈ ({tdp, fdp} : Finset Node) := by simp [ht]
    rw [insert_eq_of_mem hmem] at hf
    rw [if_pos ht, decides_ref]
    exact hf fun heq => heq.symm.trans ht
  · rw [if_neg ht, decides_lock, decides_ref]
    intro hnot
    exact hf fun heq => absurd (by simp [heq]) hnot

theorem renameDirLocked_decides {fdp fnp tdp : Node} {excl : Bool} {ans : RenameDirAnswers Node}
    {base : Multiset Node} (hbase : fnp ∈ base) (hchild : fnp ≠ tdp) :
    Decides (renameDirLocked fs fdp fnp tdp excl ans) ⟨{tdp, fdp}, base⟩ ⟨∅, base⟩
      (LockedGivesBack fs fdp fnp tdp excl ans) := by
  unfold renameDirLocked LockedGivesBack
  cases ho : fs.outcome tdp ans.target with
  | failed err clears =>
    rw [decides_lookup_failed ho]
    by_cases herr : err = .enoent
    · have hchecked : Decides (renameDirChecked fs fdp fnp tdp none ans) ⟨{tdp, fdp}, base⟩
          ⟨∅, base⟩ ((∃ n, fs.outcome fdp ans.permission = .found n) ∧
            PermittedGivesBack fs fdp fnp tdp none ans) :=
        renameDirChecked_decides hbase hchild nofun nofun
      simpa [herr] using hchecked
    · have hwrong : ∀ left : Option Node, ({tdp, fdp} : Finset Node) ⊆ withNode {tdp, fdp} left := by
        intro left
        cases left with
        | none => exact Finset.Subset.refl _
        | some t => exact subset_insert t _
      simp [herr, out_wrong, hwrong]
  | found t =>
    rw [decides_lookup_found ho]
    apply decides_target
    intro hfdp
    cases excl with
    | true =>
      have hwrong : Decides (out fdp tdp (some fnp) (some t) (some .eexist))
          ⟨withNode {tdp, fdp} (some t), t ::ₘ base⟩ ⟨∅, base⟩ False :=
        (out_wrong (Finset.Subset.refl _)).mpr not_false
      simpa using hwrong
    | false =>
      by_cases hsame : t = fnp
      · have hfnp : fnp ≠ fdp := fun heq => hchild (heq.trans (hfdp (hsame.trans heq)))
        by_cases hparents : fdp = tdp
        · simp [-bind_pure_comp, hsame, decides_unlockUnless, hparents, hchild]
        · simp [-bind_pure_comp, hsame, decides_unlockUnless, hparents, hchild, hfnp,
            Ne.symm hparents]
      · have hchecked : Decides (renameDirChecked fs fdp fnp tdp (some t) ans)
            ⟨insert t {tdp, fdp}, t ::ₘ base⟩ ⟨∅, base⟩
            ((∃ n, fs.outcome fdp ans.permission = .found n) ∧
              PermittedGivesBack fs fdp fnp tdp (some t) ans) :=
          renameDirChecked_decides hbase hchild (fun heq => hsame (Option.some.inj heq))
            fun heq => hfdp (Option.some.inj heq)
        simpa [hsame] using hchecked

/-- The walk of `checkpath` comes to a root, and not to the source. -/
def Clears (fs : Fs Node) (source : Node) (shadowRoot : Option Node) :
    List (Outcome Node) → Node → Prop
  | rounds, np => np ≠ source ∧
    ((np = fs.root ∨ some np = shadowRoot) ∨
      match rounds with
      | [] => False
      | o :: rest =>
        match fs.outcome np o with
        | .found newnp => Clears fs source shadowRoot rest newnp
        | .failed _ _ => False)

omit [DecidableEq Node] in
theorem Clears.ne {source np : Node} {shadowRoot : Option Node} {rounds : List (Outcome Node)}
    (hclears : Clears fs source shadowRoot rounds np) : np ≠ source := by
  cases rounds with
  | nil => exact hclears.1
  | cons o rest => exact hclears.1

theorem decides_checkpath {source : Node} {shadowRoot : Option Node}
    {f : Option Errno → Locking Node α} {base : Multiset Node} (rounds : List (Outcome Node))
    (np : Node)
    (hnone : Clears fs source shadowRoot rounds np → Decides (f none) ⟨∅, base⟩ h' p)
    (hsome : ∀ err, ¬Clears fs source shadowRoot rounds np →
      Decides (f (some err)) ⟨∅, base⟩ h' p) :
    Decides (checkpath fs source shadowRoot rounds np >>= f) ⟨{np}, np ::ₘ base⟩ h' p := by
  induction rounds generalizing np with
  | nil =>
    rw [checkpath]
    rw [Clears] at hnone hsome
    by_cases hsource : np = source
    · simpa [hsource] using hsome .einval (by simp [hsource])
    · by_cases hroot : np = fs.root ∨ some np = shadowRoot
      · rw [if_neg hsource, if_pos hroot]
        simpa using hnone ⟨hsource, Or.inl hroot⟩
      · rw [if_neg hsource, if_neg hroot]
        exact decides_wait
  | cons o rest ih =>
    rw [checkpath]
    rw [Clears] at hnone hsome
    by_cases hsource : np = source
    · simpa [hsource] using hsome .einval (by simp [hsource])
    · by_cases hroot : np = fs.root ∨ some np = shadowRoot
      · rw [if_neg hsource, if_pos hroot]
        simpa using hnone ⟨hsource, Or.inl hroot⟩
      · rw [if_neg hsource, if_neg hroot]
        cases ho : fs.outcome np o with
        | failed err clears =>
          simp only [ho] at hnone hsome
          simpa using hsome err (by simp [hroot])
        | found newnp =>
          simp only [ho, hroot, hsource, false_or, ne_eq, not_false_eq_true, true_and] at hnone hsome
          simpa using ih newnp hnone hsome

/-- What decides whether `diskfs_rename_dir` gives back all that it takes. -/
def RenameDirGivesBack (fs : Fs Node) (fdp fnp : Node) (tocred : Protid Node) (excl : Bool)
    (ans : RenameDirAnswers Node) : Prop :=
  Clears fs fnp tocred.shadowRoot ans.parents tocred.np →
    LockedGivesBack fs fdp fnp tocred.np excl ans

theorem renameDir_decides {fdp fnp : Node} {tocred : Protid Node} {excl : Bool}
    {ans : RenameDirAnswers Node} {base : Multiset Node} (hbase : fnp ∈ base) :
    Decides (renameDir fs fdp fnp tocred excl ans) ⟨∅, base⟩ ⟨∅, base⟩
      (RenameDirGivesBack fs fdp fnp tocred excl ans) := by
  unfold renameDir
  rw [decides_lock, decides_ref]
  intro _
  apply decides_checkpath
  · intro hclears
    have hlocked : Decides (renameDirLocked fs fdp fnp tocred.np excl ans)
        ⟨{tocred.np, fdp}, base⟩ ⟨∅, base⟩ (LockedGivesBack fs fdp fnp tocred.np excl ans) :=
      renameDirLocked_decides hbase hclears.ne.symm
    have hgives : RenameDirGivesBack fs fdp fnp tocred excl ans =
        LockedGivesBack fs fdp fnp tocred.np excl ans :=
      propext ⟨fun h => h hclears, fun h _ => h⟩
    rw [hgives]
    by_cases hparents : tocred.np = fdp
    · simpa [decides_lockUnless, hparents] using hlocked
    · simpa [decides_lockUnless, hparents] using hlocked
  · intro err hnot
    have hgives : RenameDirGivesBack fs fdp fnp tocred excl ans := fun h => absurd h hnot
    simp [hgives]

end Hurd.NodeLocks
