import Hurd.Libdiskfs.RenameDirLocks

/-!
# The locks of `diskfs_S_dir_rename`

When a rename leaves nothing locked and no reference behind; and so for all three calls.
-/

namespace Hurd.NodeLocks

open Locking Finset

variable {Node : Type} [DecidableEq Node] {fs : Fs Node} {h h' : Holding Node} {p : Prop}
  {α : Type}

theorem removeLink_decides {fdp fnp : Node} {ans : RenameAnswers Node} {base : Multiset Node} :
    Decides (removeLink fs fdp fnp ans) ⟨∅, fnp ::ₘ base⟩ ⟨∅, base⟩
      (fs.outcome fdp ans.removal ≠ .found fdp) := by
  unfold removeLink
  rw [decides_lock]
  intro _
  cases ho : fs.outcome fdp ans.removal with
  | failed err clears =>
    rw [decides_lookup_failed ho]
    simp [-bind_pure_comp]
  | found n =>
    rw [decides_lookup_found ho, decides_lockUnless]
    by_cases hn : n = fdp
    · by_cases hfnp : fnp = fdp
      · simp [-bind_pure_comp, hn, hfnp]
      · simp [-bind_pure_comp, hn, Ne.symm hfnp]
    · by_cases hfnp : n = fnp
      · have hne : fdp ≠ fnp := fun heq => hn (hfnp.trans heq.symm)
        simp [-bind_pure_comp, hfnp, hne.symm]
      · simp [-bind_pure_comp, hn, hfnp]

/-- What decides for a source that is not a directory. -/
def LinkMoveGivesBack (fs : Fs Node) (fdp fnp tdp : Node) (excl : Bool) (ans : RenameAnswers Node) :
    Prop :=
  match fs.outcome tdp ans.target with
  | .failed err _ => err = .enoent → fs.atLinkMax fnp = false → ans.attach = none →
      fs.outcome fdp ans.removal ≠ .found fdp
  | .found t => t ≠ tdp ∧ (excl = false → t ≠ fnp → fs.isDir t = false →
      fs.atLinkMax fnp = false → ans.attach = none → fs.outcome fdp ans.removal ≠ .found fdp)

theorem renameLink_decides {fdp fnp tdp : Node} {excl : Bool} {ans : RenameAnswers Node}
    {base : Multiset Node} (hfile : fs.isDir fnp = false) :
    Decides (renameLink fs fdp fnp tdp excl ans) ⟨∅, fnp ::ₘ base⟩ ⟨∅, base⟩
      (LinkMoveGivesBack fs fdp fnp tdp excl ans) := by
  have hremove : Decides (removeLink fs fdp fnp ans) ⟨∅, fnp ::ₘ base⟩ ⟨∅, base⟩
      (fs.outcome fdp ans.removal ≠ .found fdp) := removeLink_decides
  unfold renameLink LinkMoveGivesBack
  rw [decides_lock]
  intro _
  cases ho : fs.outcome tdp ans.target with
  | failed err clears =>
    rw [decides_lookup_failed ho]
    by_cases herr : err = .enoent
    · by_cases hself : fnp = tdp
      · simp [-bind_pure_comp, herr, exclude, hself]
      · by_cases hmax : fs.atLinkMax fnp = true
        · simp [-bind_pure_comp, herr, exclude, hself, hmax]
        · by_cases hattach : ans.attach = none
          · simpa [-bind_pure_comp, herr, exclude, hself, Ne.symm hself, hmax, hattach,
              erase_insert_of_ne] using hremove
          · simp [-bind_pure_comp, herr, exclude, hself, Ne.symm hself, hmax, hattach,
              erase_insert_of_ne]
    · by_cases hagain : err = .eagain
      · simp [-bind_pure_comp, hagain, exclude]
      · simp [-bind_pure_comp, herr, hagain, exclude]
  | found t =>
    have hdir := isDir_of_found ho
    have hself : fnp ≠ tdp := by
      rintro rfl
      simp [hfile] at hdir
    have hself' : tdp ≠ fnp := hself.symm
    rw [decides_lookup_found ho, decides_lockUnless]
    by_cases ht : t = tdp
    · subst ht
      cases excl with
      | true => simp [-bind_pure_comp, exclude, hself']
      | false => simp [-bind_pure_comp, exclude, hself', hdir]
    · have ht' : tdp ≠ t := Ne.symm ht
      cases excl with
      | true => simp [-bind_pure_comp, exclude, ht]
      | false =>
        by_cases hsame : t = fnp
        · simp [-bind_pure_comp, exclude, hsame, hself]
        · have hsame' : fnp ≠ t := Ne.symm hsame
          by_cases htarget : fs.isDir t = true
          · simp [-bind_pure_comp, exclude, ht, hsame, htarget]
          · by_cases hmax : fs.atLinkMax fnp = true
            · simp [-bind_pure_comp, exclude, ht, hself, hsame, hsame', htarget, hmax]
            · by_cases hattach : ans.attach = none
              · simpa [-bind_pure_comp, exclude, ht, ht', hself, hself', hsame, hsame', htarget, hmax,
                  hattach, erase_insert_of_ne] using hremove
              · simp [-bind_pure_comp, exclude, ht, hself, hself', hsame, hsame', htarget, hmax,
                  hattach, erase_insert_of_ne]

theorem decides_updateFile {n : Node} {f : Unit → Locking Node α} (hf : Decides (f ()) h h' p) :
    Decides (updateFile n >>= f) h h' p := by
  unfold updateFile
  rw [bind_assoc, decides_lock]
  intro hn
  rw [decides_unlock, if_pos (mem_insert_self n _), erase_insert hn]
  exact hf

theorem rele_decides {n : Node} {err : Option Errno} {base : Multiset Node}
    (hne : h ≠ ⟨∅, n ::ₘ base⟩) :
    Decides (rele n >>= fun _ => pure err) h ⟨∅, base⟩ False := by
  rw [decides_rele]
  by_cases hmem : n ∈ h.refs
  · rw [if_pos hmem, decides_pure, iff_false, Holding.mk.injEq]
    rintro ⟨hlocks, hrefs⟩
    apply hne
    rw [← hrefs, Multiset.cons_erase hmem, ← hlocks]
  · rw [if_neg hmem]
    exact not_false

theorem renameDirectory_decides {fdp fnp : Node} {tocred : Protid Node} {excl : Bool}
    {ans : RenameAnswers Node} {base : Multiset Node} :
    Decides (renameDirectory fs fdp fnp tocred excl ans) ⟨∅, fnp ::ₘ base⟩ ⟨∅, base⟩
      (RenameDirGivesBack fs fdp fnp tocred excl ans.dir) := by
  unfold renameDirectory
  apply (renameDir_decides (Multiset.mem_cons_self fnp base)).bind_of
  · intro hgives err
    have hrele : Decides (rele fnp >>= fun _ => pure err) ⟨∅, fnp ::ₘ base⟩ ⟨∅, base⟩
        (RenameDirGivesBack fs fdp fnp tocred excl ans.dir) := by
      simp [-bind_pure_comp, hgives]
    split
    · exact decides_updateFile (decides_updateFile (decides_updateFile hrele))
    · exact hrele
  · exact id
  · intro hnot err left hleft
    have hrele : Decides (rele fnp >>= fun _ => pure err) left ⟨∅, base⟩
        (RenameDirGivesBack fs fdp fnp tocred excl ans.dir) := by
      rw [eq_false hnot]
      exact rele_decides hleft
    split
    · exact decides_updateFile (decides_updateFile (decides_updateFile hrele))
    · exact hrele

/-- What decides from `try_again` on. -/
def AttemptsGiveBack (fs : Fs Node) (fdp : Node) (tocred : Protid Node) (excl : Bool)
    (ans : RenameAnswers Node) : List (Outcome Node × Bool) → Prop
  | [] => True
  | (source, free) :: rest =>
    match fs.outcome fdp source with
    | .failed _ _ => True
    | .found fnp => fnp ≠ fdp ∧
      if fs.isDir fnp = true then
        if free = true then RenameDirGivesBack fs fdp fnp tocred excl ans.dir
        else AttemptsGiveBack fs fdp tocred excl ans rest
      else LinkMoveGivesBack fs fdp fnp tocred.np excl ans

theorem tryAgain_decides {fdp : Node} {tocred : Protid Node} {excl : Bool}
    {ans : RenameAnswers Node} {base : Multiset Node} (attempts : List (Outcome Node × Bool)) :
    Decides (tryAgain fs fdp tocred excl ans attempts) ⟨∅, base⟩ ⟨∅, base⟩
      (AttemptsGiveBack fs fdp tocred excl ans attempts) := by
  induction attempts with
  | nil => exact decides_stuck rfl
  | cons attempt rest ih =>
    obtain ⟨source, free⟩ := attempt
    rw [tryAgain, AttemptsGiveBack, decides_lock]
    intro _
    cases ho : fs.outcome fdp source with
    | failed err clears =>
      rw [decides_lookup_failed ho]
      by_cases hagain : err = .eagain
      · simp [-bind_pure_comp, hagain]
      · simp [-bind_pure_comp, hagain]
    | found fnp =>
      rw [decides_lookup_found ho, decides_lockUnless]
      by_cases hself : fnp = fdp
      · simp [-bind_pure_comp, hself]
      · cases hdir : fs.isDir fnp with
        | true =>
          cases free with
          | true =>
            have hmove : Decides (renameDirectory fs fdp fnp tocred excl ans) ⟨∅, fnp ::ₘ base⟩
                ⟨∅, base⟩ (RenameDirGivesBack fs fdp fnp tocred excl ans.dir) :=
              renameDirectory_decides
            simpa [-bind_pure_comp, hself, Ne.symm hself, hdir, erase_insert_of_ne] using hmove
          | false =>
            simpa [-bind_pure_comp, hself, Ne.symm hself, hdir, erase_insert_of_ne] using ih
        | false =>
          have hmove : Decides (renameLink fs fdp fnp tocred.np excl ans) ⟨∅, fnp ::ₘ base⟩
              ⟨∅, base⟩ (LinkMoveGivesBack fs fdp fnp tocred.np excl ans) := renameLink_decides hdir
          simpa [-bind_pure_comp, hself, Ne.symm hself, hdir, erase_insert_of_ne] using hmove

/-- What decides whether `diskfs_S_dir_rename` gives back all that it takes. -/
def DirRenameGivesBack (fs : Fs Node) (fromcred : Option (Protid Node)) (fromname : String)
    (tocred : Option (Protid Node)) (toname : String) (excl : Bool) (ans : RenameAnswers Node) :
    Prop :=
  ∀ source target, fromcred = some source → tocred = some target →
    ¬(isDot fromname ∨ isDot toname) → target.shadowRoot = source.shadowRoot →
    fs.readonly = false → AttemptsGiveBack fs source.np target excl ans ans.attempts

theorem dirRename_decides {fromcred tocred : Option (Protid Node)} {fromname toname : String}
    {excl : Bool} {ans : RenameAnswers Node} {base : Multiset Node} :
    Decides (dirRename fs fromcred fromname tocred toname excl ans) ⟨∅, base⟩ ⟨∅, base⟩
      (DirRenameGivesBack fs fromcred fromname tocred toname excl ans) := by
  unfold dirRename DirRenameGivesBack
  cases fromcred with
  | none => simp
  | some source =>
    cases tocred with
    | none => simp
    | some target =>
      by_cases hdot : isDot fromname ∨ isDot toname
      · simp [hdot]
      · by_cases hshadow : target.shadowRoot = source.shadowRoot
        · cases hreadonly : fs.readonly with
          | true => simp [hdot, hshadow]
          | false =>
            have hmove : Decides (tryAgain fs source.np target excl ans ans.attempts) ⟨∅, base⟩
                ⟨∅, base⟩ (AttemptsGiveBack fs source.np target excl ans ans.attempts) :=
              tryAgain_decides ans.attempts
            simpa [hdot, hshadow] using hmove
        · simp [hdot, hshadow]

/-- The three calls give back just what they take, in every run that comes to an end, under these
conditions on what the file system answers and under no others. The source of `diskfs_rename_dir` is
referenced by its caller. -/
theorem node_locks_given_back_iff (fs : Fs Node) :
    (∀ dircred filecred excl ans, Ends (dirLink fs dircred filecred excl ans) ⟨∅, 0⟩ →
      (Leaves (dirLink fs dircred filecred excl ans) ⟨∅, 0⟩ ⟨∅, 0⟩ ↔
        DirLinkGivesBack fs dircred filecred excl ans)) ∧
    (∀ fdp fnp tocred excl ans, Ends (renameDir fs fdp fnp tocred excl ans) ⟨∅, {fnp}⟩ →
      (Leaves (renameDir fs fdp fnp tocred excl ans) ⟨∅, {fnp}⟩ ⟨∅, {fnp}⟩ ↔
        RenameDirGivesBack fs fdp fnp tocred excl ans)) ∧
    (∀ fromcred fromname tocred toname excl ans,
      Ends (dirRename fs fromcred fromname tocred toname excl ans) ⟨∅, 0⟩ →
      (Leaves (dirRename fs fromcred fromname tocred toname excl ans) ⟨∅, 0⟩ ⟨∅, 0⟩ ↔
        DirRenameGivesBack fs fromcred fromname tocred toname excl ans)) := by
  refine ⟨?_, ?_, ?_⟩
  · intro dircred filecred excl ans
    exact dirLink_decides
  · intro fdp fnp tocred excl ans
    exact renameDir_decides (Multiset.mem_singleton_self fnp)
  · intro fromcred fromname tocred toname excl ans
    exact dirRename_decides

/-- A root 0 with the directories 1 and 5, a directory 3 in 1 and a file 2. -/
def smallFs : Fs Nat where
  isDir n := n != 2
  atLinkMax _ := false
  root := 0
  readonly := false
  synchronous := false

/-- Directory 3 is moved from 1 to 5, where the name is not there. -/
def moveAnswers : RenameDirAnswers Nat where
  parents := [.found 0]
  target := .failed .enoent true
  permission := .found 3
  empty := true
  dotdot := .found 1
  rewriteDotdot := none
  attach := none
  clearDot := .failed .enoent true
  removeDot := none
  clearDotdot := .failed .enoent true
  removeDotdot := none
  removal := .found 3
  tnp := none
  tmpnp := none
  np := none

theorem move_gives_back :
    Leaves (renameDir smallFs 1 3 ⟨5, none⟩ false moveAnswers) ⟨∅, {3}⟩ ⟨∅, {3}⟩ :=
  ((node_locks_given_back_iff smallFs).2.1 1 3 ⟨5, none⟩ false moveAnswers nofun).mpr
    fun _ => ⟨rfl, ⟨3, rfl⟩, nofun, fun hleaves => absurd hleaves.2.2.2 nofun, fun _ => by decide⟩

/-- A file that is linked again under the name it has keeps a reference; a directory moved over
something else with `excl` has a lock released that is not held; and one with too many links leaves
its old parent locked. -/
theorem node_locks_kept :
    (dirLink smallFs (some ⟨1, none⟩) (some ⟨2, none⟩) false ⟨.found 2, none, none⟩).run ⟨∅, 0⟩ =
        .ok (none, ⟨∅, {2}⟩) ∧
      (renameDir smallFs 1 3 ⟨5, none⟩ true { moveAnswers with target := .found 4 }).run ⟨∅, {3}⟩ =
        .error .wrong ∧
      (renameDir { smallFs with atLinkMax := fun n => n == 3 } 1 3 ⟨5, none⟩ false moveAnswers).run
          ⟨∅, {3}⟩ = .ok (some .emlink, ⟨{1}, {3}⟩) :=
  ⟨rfl, rfl, rfl⟩

end Hurd.NodeLocks
