import Hurd.Framework.Holding

/-!
# Locks of nodes in renames and links

`diskfs_S_dir_link`, `diskfs_rename_dir` and `diskfs_S_dir_rename` of `libdiskfs`, with the locks they
take and release and the references they get from `diskfs_lookup`. What the calls of the file system
answer is given to them: of each lookup what it finds, of each change of a directory its error.
-/

namespace Hurd.NodeLocks

open Locking

inductive Errno where
  | enoent | eagain | einval | eexist | enotdir | eisdir | enotempty | emlink | eperm | exdev | erofs
  | eopnotsupp
  | other (code : Nat)
  deriving DecidableEq, Repr

/-- What a lookup comes to. One that fails may leave `*np` as it was, but for `ENOENT`. -/
inductive Outcome (Node : Type) where
  | found (n : Node)
  | failed (err : Errno) (clears : Bool)
  deriving DecidableEq, Repr

/-- What does not change while a call is served: which nodes are directories, which have
`diskfs_link_max - 1` links, and the root. -/
structure Fs (Node : Type) where
  isDir : Node → Bool
  atLinkMax : Node → Bool
  root : Node
  readonly : Bool
  synchronous : Bool

/-- The node and the `shadow_root` of a `struct protid`. -/
structure Protid (Node : Type) where
  np : Node
  shadowRoot : Option Node

variable {Node : Type} [DecidableEq Node]

/-- Nothing is found in what is not a directory. -/
def Fs.outcome (fs : Fs Node) (dp : Node) (o : Outcome Node) : Outcome Node :=
  if fs.isDir dp = true then o else .failed .enotdir false

def lockUnless (dp n : Node) : Locking Node Unit := if n = dp then pure () else lock n

def unlockUnless (dp n : Node) : Locking Node Unit := if n = dp then pure () else unlock n

def onNode (f : Node → Locking Node Unit) : Option Node → Locking Node Unit
  | none => pure ()
  | some n => f n

/-- `diskfs_lookup`, with what is left in `*np`: the node found is locked, unless it is the directory
itself, and has a new reference. -/
def diskfsLookup (fs : Fs Node) (dp : Node) (o : Outcome Node) (np : Option Node) :
    Locking Node (Option Errno × Option Node) :=
  match fs.outcome dp o with
  | .found n => do
    lockUnless dp n
    ref n
    return (none, some n)
  | .failed err clears =>
    return (some err, if clears = true ∨ err = .enoent then none else np)

/-- With `excl`, a node that is found is an error. -/
def exclude (excl : Bool) (err : Option Errno) (tnp : Option Node) : Locking Node (Option Errno) :=
  if err = none ∧ excl = true then do
    onNode put tnp
    return some .eexist
  else return err

/-- What is answered to `diskfs_S_dir_link`. -/
structure LinkAnswers (Node : Type) where
  target : Outcome Node
  attach : Option Errno
  -- `tnp` before it is set
  tnp : Option Node

/-- From the lookup of the new name on. -/
def dirLinkLocked (fs : Fs Node) (dnp np : Node) (excl : Bool) (ans : LinkAnswers Node) :
    Locking Node (Option Errno) := do
  let (err, tnp) ← diskfsLookup fs dnp ans.target ans.tnp
  let err ← exclude excl err tnp
  if err ≠ none ∧ err ≠ some .enoent then
    unlock dnp
    return if err = some .eagain then some .einval else err
  else if tnp = some np then
    unlock dnp
    onNode unlock tnp
    return none
  else if tnp.any fs.isDir = true then
    unlock dnp
    onNode unlock tnp
    return some .eisdir
  else
    lock np
    if fs.atLinkMax np = true then
      unlock np
      unlock dnp
      return some .emlink
    else
      -- `diskfs_dirrewrite` or `diskfs_direnter`
      assert (tnp = none ∨ excl = false)
      onNode put tnp
      unlock dnp
      unlock np
      return ans.attach

def dirLink (fs : Fs Node) (dircred filecred : Option (Protid Node)) (excl : Bool)
    (ans : LinkAnswers Node) : Locking Node (Option Errno) :=
  match dircred with
  | none => return some .eopnotsupp
  | some dircred =>
    if fs.readonly = true then return some .erofs
    else
      match filecred with
      | none => return some .exdev
      | some filecred => do
        lock filecred.np
        if fs.isDir filecred.np = true then
          unlock filecred.np
          return some .eperm
        else
          unlock filecred.np
          lock dircred.np
          dirLinkLocked fs dircred.np filecred.np excl ans

/-- `checkpath`, with the outcomes of its lookups of `..`: one that finds a node puts back the
directory it has looked in. It comes to no end when there is always another. -/
def checkpath (fs : Fs Node) (source : Node) (shadowRoot : Option Node) :
    List (Outcome Node) → Node → Locking Node (Option Errno)
  | rounds, np =>
    if np = source then do
      put np
      return some .einval
    else if np = fs.root ∨ some np = shadowRoot then do
      put np
      return none
    else
      match rounds with
      | [] => wait
      | o :: rest =>
        match fs.outcome np o with
        | .found newnp => do
          put np
          lock newnp
          ref newnp
          checkpath fs source shadowRoot rest newnp
        | .failed err _ => do
          put np
          return some err

/-- What is answered to `diskfs_rename_dir`, in the order of the calls. -/
structure RenameDirAnswers (Node : Type) where
  parents : List (Outcome Node)
  target : Outcome Node
  permission : Outcome Node
  empty : Bool
  -- the lookup and the change of `..`
  dotdot : Outcome Node
  rewriteDotdot : Option Errno
  attach : Option Errno
  -- `diskfs_clear_directory`
  clearDot : Outcome Node
  removeDot : Option Errno
  clearDotdot : Outcome Node
  removeDotdot : Option Errno
  removal : Outcome Node
  -- `tnp`, `tmpnp` and `np` before they are set
  tnp : Option Node
  tmpnp : Option Node
  np : Option Node

/-- `diskfs_clear_directory`. The node of `..` is held already. -/
def clearDirectory (fs : Fs Node) (dp pdp : Node) (ans : RenameDirAnswers Node) :
    Locking Node (Option Errno) := do
  let (err, np) ← diskfsLookup fs dp ans.clearDot ans.np
  assert (err ≠ some .enoent)
  if err = none then
    assert (np = some dp)
    onNode rele np
    if ans.removeDot = none then
      match fs.outcome dp ans.clearDotdot with
      | .found n => do
        assert (n = pdp)
        return ans.removeDotdot
      | .failed err _ => do
        assert (err ≠ .enoent)
        return some err
    else return ans.removeDot
  else return err

/-- The label `out`. -/
def out (fdp tdp : Node) (fnp tnp : Option Node) (err : Option Errno) :
    Locking Node (Option Errno) := do
  unlock tdp
  onNode put tnp
  unlockUnless tdp fdp
  onNode unlock fnp
  return err

/-- Step 2: `..` is set to the new parent; with what is left in `tmpnp`. -/
def reparent (fs : Fs Node) (fdp fnp tdp : Node) (ans : RenameDirAnswers Node) (tmpnp : Option Node) :
    Locking Node (Option Errno × Option Node) :=
  if fdp = tdp then return (none, tmpnp)
  else if fs.atLinkMax tdp = true then return (some .emlink, tmpnp)
  else
    match fs.outcome fnp ans.dotdot with
    | .found n => do
      assert (n = fdp)
      return (ans.rewriteDotdot, some n)
    | .failed err clears => do
      assert (err ≠ .enoent)
      return (some err, if clears = true then none else tmpnp)

/-- Step 4: the entry in `fdp` is removed. -/
def removeSource (fs : Fs Node) (fdp fnp tdp : Node) (tnp : Option Node)
    (ans : RenameDirAnswers Node) (tmpnp : Option Node) : Locking Node (Option Errno) := do
  unlock fnp
  let (err, tmpnp) ← diskfsLookup fs fdp ans.removal tmpnp
  assert (tmpnp = none ∨ tmpnp = some fnp)
  onNode rele tmpnp
  if err ≠ none then
    assert (tmpnp = none)
    out fdp tdp none tnp err
  else out fdp tdp (some fnp) tnp none

/-- The directory that is replaced is cleared, whatever comes of it. -/
def clearTarget (fs : Fs Node) (tdp : Node) (ans : RenameDirAnswers Node) :
    Option Node → Locking Node Unit
  | none => pure ()
  | some tnp => do
    let _ ← clearDirectory fs tnp tdp ans
    return ()

def moveEntry (fs : Fs Node) (fdp fnp tdp : Node) (tnp : Option Node)
    (ans : RenameDirAnswers Node) (tmpnp : Option Node) : Locking Node (Option Errno) := do
  if fs.atLinkMax fnp = true then
    unlock fnp
    unlock tdp
    onNode put tnp
    return some .emlink
  else
    clearTarget fs tdp ans tnp
    if ans.attach ≠ none then out fdp tdp (some fnp) tnp ans.attach
    else removeSource fs fdp fnp tdp tnp ans tmpnp

/-- With `FNP` locked: what is replaced must be an empty directory. -/
def renameDirPermitted (fs : Fs Node) (fdp fnp tdp : Node) (tnp : Option Node)
    (ans : RenameDirAnswers Node) (tmpnp : Option Node) : Locking Node (Option Errno) :=
  if tnp.all fs.isDir = false then out fdp tdp (some fnp) tnp (some .enotdir)
  else if tnp ≠ none ∧ ans.empty = false then out fdp tdp (some fnp) tnp (some .enotempty)
  else do
    let (err, tmpnp) ← reparent fs fdp fnp tdp ans tmpnp
    if err ≠ none then out fdp tdp (some fnp) tnp err
    else moveEntry fs fdp fnp tdp tnp ans tmpnp

/-- From the check of the permission to remove the old name on. -/
def renameDirChecked (fs : Fs Node) (fdp fnp tdp : Node) (tnp : Option Node)
    (ans : RenameDirAnswers Node) : Locking Node (Option Errno) := do
  let (err, tmpnp) ← diskfsLookup fs fdp ans.permission ans.tmpnp
  assert (tmpnp = none ∨ tmpnp = some fnp)
  onNode rele tmpnp
  if err ≠ none then out fdp tdp (some fnp) tnp err
  else renameDirPermitted fs fdp fnp tdp tnp ans tmpnp

def renameDirLocked (fs : Fs Node) (fdp fnp tdp : Node) (excl : Bool)
    (ans : RenameDirAnswers Node) : Locking Node (Option Errno) := do
  let (err, tnp) ← diskfsLookup fs tdp ans.target ans.tnp
  assert (err ≠ some .eagain)
  if err ≠ none ∧ err ≠ some .enoent then out fdp tdp (some fnp) tnp err
  else if tnp ≠ none ∧ excl = true then out fdp tdp (some fnp) tnp (some .eexist)
  else if tnp = some fnp then
    onNode put tnp
    unlock tdp
    unlockUnless tdp fdp
    return none
  else renameDirChecked fs fdp fnp tdp tnp ans

def renameDir (fs : Fs Node) (fdp fnp : Node) (tocred : Protid Node) (excl : Bool)
    (ans : RenameDirAnswers Node) : Locking Node (Option Errno) := do
  lock tocred.np
  ref tocred.np
  let err ← checkpath fs fnp tocred.shadowRoot ans.parents tocred.np
  if err ≠ none then return err
  else
    lock fdp
    lockUnless fdp tocred.np
    renameDirLocked fs fdp fnp tocred.np excl ans

/-- What is answered to `diskfs_S_dir_rename`. -/
structure RenameAnswers (Node : Type) where
  -- the lookups of the source, and whether `renamedirlock` is free after it
  attempts : List (Outcome Node × Bool)
  dir : RenameDirAnswers Node
  target : Outcome Node
  attach : Option Errno
  removal : Outcome Node
  remove : Option Errno
  -- `fnp`, `tnp` and `tmpnp` before they are set
  fnp : Option Node
  tnp : Option Node
  tmpnp : Option Node

/-- The source, which is not a directory, is removed. -/
def removeLink (fs : Fs Node) (fdp fnp : Node) (ans : RenameAnswers Node) :
    Locking Node (Option Errno) := do
  lock fdp
  let (err, tmpnp) ← diskfsLookup fs fdp ans.removal ans.tmpnp
  if err ≠ none then
    unlock fdp
    rele fnp
    return err
  else if tmpnp ≠ some fnp then
    onNode put tmpnp
    rele fnp
    unlock fdp
    return none
  else
    onNode rele tmpnp
    put fnp
    unlock fdp
    return ans.remove

/-- The source is not a directory. -/
def renameLink (fs : Fs Node) (fdp fnp tdp : Node) (excl : Bool) (ans : RenameAnswers Node) :
    Locking Node (Option Errno) := do
  lock tdp
  let (err, tnp) ← diskfsLookup fs tdp ans.target ans.tnp
  let err ← exclude excl (if err = some .eagain then some .einval else err) tnp
  if err ≠ none ∧ err ≠ some .enoent then
    rele fnp
    unlock tdp
    return err
  else if tnp = some fnp then
    rele fnp
    onNode put tnp
    unlock tdp
    return none
  else if tnp.any fs.isDir = true then
    rele fnp
    onNode put tnp
    unlock tdp
    return some .eisdir
  else
    lock fnp
    if fs.atLinkMax fnp = true then
      put fnp
      onNode put tnp
      unlock tdp
      return some .emlink
    else
      -- `diskfs_dirrewrite` or `diskfs_direnter`
      onNode put tnp
      unlock tdp
      unlock fnp
      if ans.attach ≠ none then
        rele fnp
        return ans.attach
      else removeLink fs fdp fnp ans

/-- The nodes are written to the disk. -/
def updateFile (n : Node) : Locking Node Unit := do
  lock n
  unlock n

/-- The source is a directory, and `renamedirlock` is held. -/
def renameDirectory (fs : Fs Node) (fdp fnp : Node) (tocred : Protid Node) (excl : Bool)
    (ans : RenameAnswers Node) : Locking Node (Option Errno) := do
  let err ← renameDir fs fdp fnp tocred excl ans.dir
  if fs.synchronous = true then
    updateFile fdp
    updateFile fnp
    updateFile tocred.np
    rele fnp
    return err
  else
    rele fnp
    return err

/-- The label `try_again`. -/
def tryAgain (fs : Fs Node) (fdp : Node) (tocred : Protid Node) (excl : Bool)
    (ans : RenameAnswers Node) : List (Outcome Node × Bool) → Locking Node (Option Errno)
  | [] => wait
  | (source, free) :: rest => do
    lock fdp
    let (err, fnp) ← diskfsLookup fs fdp source ans.fnp
    unlock fdp
    if err = some .eagain then return some .einval
    else
      match err, fnp with
      | some err, _ => return some err
      -- not reached: without an error there is a node
      | none, none => wait
      | none, some fnp =>
        unlock fnp
        if fs.isDir fnp = true then
          if free = true then renameDirectory fs fdp fnp tocred excl ans
          else
            rele fnp
            tryAgain fs fdp tocred excl ans rest
        else renameLink fs fdp fnp tocred.np excl ans

def isDot (name : String) : Prop := name = "." ∨ name = ".."

instance (name : String) : Decidable (isDot name) := inferInstanceAs (Decidable (_ ∨ _))

def dirRename (fs : Fs Node) (fromcred : Option (Protid Node)) (fromname : String)
    (tocred : Option (Protid Node)) (toname : String) (excl : Bool) (ans : RenameAnswers Node) :
    Locking Node (Option Errno) :=
  match fromcred, tocred with
  | none, _ => return some .eopnotsupp
  | some _, none => return some .exdev
  | some fromcred, some tocred =>
    if isDot fromname ∨ isDot toname then return some .einval
    else if tocred.shadowRoot ≠ fromcred.shadowRoot then return some .exdev
    else if fs.readonly = true then return some .erofs
    else tryAgain fs fromcred.np tocred excl ans ans.attempts

end Hurd.NodeLocks
