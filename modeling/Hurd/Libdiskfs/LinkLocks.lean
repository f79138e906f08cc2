import Hurd.Libdiskfs.NodeLocks

/-!
# The locks of `diskfs_S_dir_link`

When a new link leaves nothing locked and no reference behind, with the rules for the lookups.
-/

namespace Hurd.NodeLocks

open Locking Finset

variable {Node : Type} {fs : Fs Node} {h h' : Holding Node} {p : Prop} {α : Type}

@[simp] theorem onNode_none (g : Node → Locking Node Unit) : onNode g none = pure () := rfl

@[simp] theorem onNode_some (g : Node → Locking Node Unit) (n : Node) : onNode g (some n) = g n := rfl

theorem isDir_of_found {dp n : Node} {o : Outcome Node} (ho : fs.outcome dp o = .found n) :
    fs.isDir dp = true := by
  unfold Fs.outcome at ho
  split at ho
  · assumption
  · cases ho

variable [DecidableEq Node]

theorem decides_lockUnless {dp n : Node} {f : Unit → Locking Node α} :
    Decides (lockUnless dp n >>= f) h h' p ↔
      if n = dp then Decides (f ()) h h' p else Decides (lock n >>= f) h h' p := by
  unfold lockUnless
  split
  · rw [pure_bind]
  · exact Iff.rfl

theorem decides_unlockUnless {dp n : Node} {f : Unit → Locking Node α} :
    Decides (unlockUnless dp n >>= f) h h' p ↔
      if n = dp then Decides (f ()) h h' p else Decides (unlock n >>= f) h h' p := by
  unfold unlockUnless
  split
  · rw [pure_bind]
  · exact Iff.rfl

theorem decides_lookup_found {dp n : Node} {o : Outcome Node} {np : Option Node}
    {f : Option Errno × Option Node → Locking Node α} (ho : fs.outcome dp o = .found n) :
    Decides (diskfsLookup fs dp o np >>= f) h h' p ↔
      Decides (lockUnless dp n >>= fun _ => ref n >>= fun _ => f (none, some n)) h h' p := by
  unfold diskfsLookup
  rw [ho]
  simp only [bind_assoc, pure_bind]

theorem decides_lookup_failed {dp : Node} {o : Outcome Node} {np : Option Node} {err : Errno}
    {clears : Bool} {f : Option Errno × Option Node → Locking Node α}
    (ho : fs.outcome dp o = .failed err clears) :
    Decides (diskfsLookup fs dp o np >>= f) h h' p ↔
      Decides (f (some err, if clears = true ∨ err = .enoent then none else np)) h h' p := by
  unfold diskfsLookup
  rw [ho]
  simp only [pure_bind]

/-- What decides whether `diskfs_S_dir_link` gives back all that it takes, where the new name is
there. -/
def LinkGivesBack (fs : Fs Node) (dnp np : Node) (excl : Bool) (t : Node) : Prop :=
  if excl = true then t ≠ dnp else t ≠ np ∧ fs.isDir t = false ∧ fs.atLinkMax np = false

theorem dirLinkLocked_decides {dnp np : Node} {excl : Bool} {ans : LinkAnswers Node}
    {base : Multiset Node} (hnp : fs.isDir np = false) :
    Decides (dirLinkLocked fs dnp np excl ans) ⟨{dnp}, base⟩ ⟨∅, base⟩
      (∀ t, fs.outcome dnp ans.target = .found t → LinkGivesBack fs dnp np excl t) := by
  unfold dirLinkLocked LinkGivesBack
  cases ho : fs.outcome dnp ans.target with
  | failed err clears =>
    rw [decides_lookup_failed ho]
    by_cases herr : err = .enoent
    · by_cases hself : np = dnp
      · simp [-bind_pure_comp, herr, exclude, hself]
      · have hself' : dnp ≠ np := Ne.symm hself
        by_cases hmax : fs.atLinkMax np = true
        · simp [-bind_pure_comp, herr, exclude, hmax, hself]
        · simp [-bind_pure_comp, herr, exclude, hmax, hself, hself', erase_insert_of_ne]
    · simp [-bind_pure_comp, herr, exclude]
  | found t =>
    have hdnp := isDir_of_found ho
    have hne : np ≠ dnp := by
      rintro rfl
      simp [hnp] at hdnp
    have hne' : dnp ≠ np := hne.symm
    rw [decides_lookup_found ho, decides_lockUnless]
    by_cases ht : t = dnp
    · subst ht
      cases excl with
      | true => simp [-bind_pure_comp, exclude]
      | false => simp [-bind_pure_comp, exclude, hne', hdnp]
    · have ht' : dnp ≠ t := Ne.symm ht
      cases excl with
      | true => simp [-bind_pure_comp, exclude, ht]
      | false =>
        by_cases hsame : t = np
        · simp [-bind_pure_comp, exclude, hsame, hne, erase_insert_of_ne]
        · have hsame' : np ≠ t := Ne.symm hsame
          by_cases hdir : fs.isDir t = true
          · simp [-bind_pure_comp, exclude, ht, ht', hsame, hdir, erase_insert_of_ne]
          · by_cases hmax : fs.atLinkMax np = true
            · simp [-bind_pure_comp, exclude, ht, ht', hsame, hsame', hdir, hmax, hne,
                erase_insert_of_ne]
            · simp [-bind_pure_comp, exclude, ht, hsame, hsame', hdir, hmax, hne, hne',
                erase_insert_of_ne]

/-- What decides whether `diskfs_S_dir_link` gives back all that it takes. -/
def DirLinkGivesBack (fs : Fs Node) (dircred filecred : Option (Protid Node)) (excl : Bool)
    (ans : LinkAnswers Node) : Prop :=
  ∀ dir file t, dircred = some dir → filecred = some file → fs.readonly = false →
    fs.isDir file.np = false → fs.outcome dir.np ans.target = .found t →
    LinkGivesBack fs dir.np file.np excl t

theorem dirLink_decides {dircred filecred : Option (Protid Node)} {excl : Bool}
    {ans : LinkAnswers Node} {base : Multiset Node} :
    Decides (dirLink fs dircred filecred excl ans) ⟨∅, base⟩ ⟨∅, base⟩
      (DirLinkGivesBack fs dircred filecred excl ans) := by
  unfold dirLink
  cases dircred with
  | none => simp [DirLinkGivesBack]
  | some dir =>
    cases hreadonly : fs.readonly with
    | true => simp [DirLinkGivesBack, hreadonly]
    | false =>
      cases filecred with
      | none => simp [DirLinkGivesBack]
      | some file =>
        have hgives : DirLinkGivesBack fs (some dir) (some file) excl ans ↔
            (fs.isDir file.np = false → ∀ t, fs.outcome dir.np ans.target = .found t →
              LinkGivesBack fs dir.np file.np excl t) := by
          constructor
          · intro hgives hfile t ho
            exact hgives dir file t rfl rfl hreadonly hfile ho
          · rintro hgives _ _ t ⟨rfl⟩ ⟨rfl⟩ - hfile ho
            exact hgives hfile t ho
        rw [propext hgives]
        cases hfile : fs.isDir file.np with
        | true => simp [-bind_pure_comp, hfile]
        | false =>
          have hlink : Decides (dirLinkLocked fs dir.np file.np excl ans) ⟨{dir.np}, base⟩
              ⟨∅, base⟩ (∀ t, fs.outcome dir.np ans.target = .found t →
                LinkGivesBack fs dir.np file.np excl t) := dirLinkLocked_decides hfile
          simpa [hfile] using hlink

end Hurd.NodeLocks
