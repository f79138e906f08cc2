import Hurd.Framework.Run

/-!
# Operations on directories

`dir_link`, `dir_mkdir`, `dir_rmdir` and `dir_rename` of `libdiskfs`, over a file system whose
directory primitives may fail.

A file system is the list of its directory entries, with the mode and the link count of each node.
An operation returns its error and the file system it leaves, or nothing when an assertion fails.
Every call of a primitive has a name here, and a request says which calls return an error. Such an
error is none of `ENOENT` and `EAGAIN`, and leaves the directory as it is.
-/

namespace Hurd.DirOps

open Function

/-- A name, without slashes. -/
abbrev Name := List UInt8

def dot : Name := [46]

def dotdot : Name := [46, 46]

structure DirEntry where
  dir : Nat
  name : Name
  node : Nat
  deriving DecidableEq

/-- The directory entries, and of each node: whether it is a directory, its `st_nlink`, and whether
it has a translator. -/
structure Fs where
  entries : List DirEntry
  isDir : Nat → Bool
  nlink : Nat → Int
  translated : Nat → Bool

inductive Errno where
  | enoent | eagain | enotdir | einval | eexist | eisdir | emlink | eperm | enotempty | ebusy
  | exdev
  /-- An error of a primitive. -/
  | other
  deriving DecidableEq

/-- The calls that may fail. -/
inductive Call where
  /-- `dir_rename` looks up the name to rename. -/
  | lookupSource
  /-- The walk of `checkpath` from the target directory upwards. -/
  | checkpath (round : Nat)
  /-- The lookup of the name to create or to remove. -/
  | lookupTarget
  /-- `diskfs_rename_dir` checks that the old name may be removed. -/
  | lookupRemove
  /-- `diskfs_rename_dir` looks up and rewrites the parent of the directory moved. -/
  | lookupParent | rewriteParent
  /-- The new name is entered or rewritten. -/
  | attach
  /-- The old name is looked up again and removed. -/
  | lookupAgain | remove
  /-- `diskfs_alloc_node`, or one of the checks of the owner, group and mode behind it. -/
  | alloc
  /-- `diskfs_init_dir` -/
  | initLookupDot | enterDot | initLookupDotdot | enterDotdot
  /-- `diskfs_clear_directory` -/
  | clearLookupDot | clearRemoveDot | clearLookupDotdot | clearRemoveDotdot
  deriving DecidableEq

namespace Fs

variable (s : Fs) (d n : Nat) (x : Name)

def lookup : Option Nat :=
  (s.entries.find? fun e => e.dir = d ∧ e.name = x).map DirEntry.node

def enter : Fs := { s with entries := ⟨d, x, n⟩ :: s.entries }

def remove : Fs := { s with entries := s.entries.eraseP fun e => e.dir = d ∧ e.name = x }

def rewrite : Fs := (s.remove d x).enter d n x

/-- `n->dn_stat.st_nlink += k` -/
def addLinks (k : Int) : Fs := { s with nlink := update s.nlink n (s.nlink n + k) }

def setLinks (k : Int) : Fs := { s with nlink := update s.nlink n k }

/-- `diskfs_truncate` of a directory to nothing. -/
def truncate : Fs := { s with entries := s.entries.filter fun e => e.dir ≠ d }

/-- The node has neither mode nor links any more. What it holds are no directory entries. -/
def discard : Fs :=
  { s with
    entries := s.entries.filter fun e => e.dir ≠ n
    isDir := update s.isDir n false
    nlink := update s.nlink n 0 }

def dirempty : Bool := s.entries.all fun e => e.dir ≠ d ∨ e.name = dot ∨ e.name = dotdot

end Fs

section Operations

variable (root : Nat) (linkMax : Int) (shadow : Option Nat) (fails : Call → Bool)

/-- `diskfs_lookup` for a user with the given shadow root. -/
def diskfsLookup (call : Call) (s : Fs) (d : Nat) (x : Name) : Except Errno Nat :=
  if s.isDir d = false then .error .enotdir
  else if shadow = some d ∧ x = dotdot then .error .eagain
  else if fails call then .error .other
  else
    match s.lookup d x with
    | none => .error .enoent
    | some n => if d = root ∧ x = dotdot then .error .eagain else .ok n

def clearDirectory (s : Fs) (dp pdp : Nat) : Option (Option Errno × Fs) :=
  match diskfsLookup root shadow fails .clearLookupDot s dp dot with
  | .error .enoent => none
  | .error err => some (some err, s)
  | .ok np =>
      if np ≠ dp then none
      else if fails .clearRemoveDot then some (some .other, s)
      else
        let s := (s.remove dp dot).addLinks dp (-1)
        match diskfsLookup root shadow fails .clearLookupDotdot s dp dotdot with
        | .error .enoent => none
        | .error err => some (some err, s)
        | .ok np =>
            if np ≠ pdp then none
            else if fails .clearRemoveDotdot then some (some .other, s)
            else some (none, ((s.remove dp dotdot).addLinks pdp (-1)).truncate dp)

/-- What is at the place of a new name. -/
inductive Target where
  /-- The node to be put there. -/
  | same
  | nothing
  | another (node : Nat)
  deriving DecidableEq

/-- The part that `dir_link` and the rename of a file share, up to the link count: look the new name
up, and check that a link may be made. -/
def newLink (s : Fs) (np dnp : Nat) (name : Name) (excl : Bool) : Except Errno Target :=
  match diskfsLookup root shadow fails .lookupTarget s dnp name with
  | .error .enoent => if s.nlink np = linkMax - 1 then .error .emlink else .ok .nothing
  | .error .eagain => .error .einval
  | .error err => .error err
  | .ok tnp =>
      if excl then .error .eexist
      else if tnp = np then .ok .same
      else if s.isDir tnp then .error .eisdir
      else if s.nlink np = linkMax - 1 then .error .emlink
      else .ok (.another tnp)

/-- `diskfs_direnter`, or `diskfs_dirrewrite` and the link of the node that has lost its name. -/
def Fs.attach (s : Fs) (d n : Nat) (x : Name) : Target → Fs
  | .another t => (s.rewrite d n x).addLinks t (-1)
  | _ => s.enter d n x

def dirLink (s : Fs) (np dnp : Nat) (name : Name) (excl : Bool) : Option Errno × Fs :=
  if s.isDir np then (some .eperm, s)
  else
    match newLink root linkMax shadow fails s np dnp name excl with
    | .error err => (some err, s)
    | .ok .same => (none, s)
    | .ok target =>
        let s := s.addLinks np 1
        if fails .attach then (some .other, s) else (none, s.attach dnp np name target)

def initDir (s : Fs) (dp pdp : Nat) : Option (Option Errno × Fs) :=
  if s.nlink pdp = linkMax - 1 then some (some .emlink, s)
  else
    let s := s.addLinks dp 1
    if diskfsLookup root shadow fails .initLookupDot s dp dot ≠ .error .enoent then none
    else if fails .enterDot then some (some .other, s.addLinks dp (-1))
    else
      let s := (s.enter dp dp dot).addLinks pdp 1
      if diskfsLookup root shadow fails .initLookupDotdot s dp dotdot ≠ .error .enoent then none
      else if fails .enterDotdot then some (some .other, s.addLinks pdp (-1))
      else some (none, s.enter dp pdp dotdot)

/-- `diskfs_create_node` for a directory, with the node that `diskfs_alloc_node` returns. -/
def createNode (s : Fs) (dir : Nat) (name : Name) (new : Nat) : Option (Option Errno × Fs) :=
  if fails .alloc then some (some .other, s)
  else
    let s := { s.setLinks new 1 with isDir := update s.isDir new true }
    match initDir root linkMax shadow fails s new dir with
    | none => none
    | some (some err, s) => some (some err, s.discard new)
    | some (none, s) =>
        if fails .attach then
          match clearDirectory root shadow fails s new dir with
          | none => none
          | some (_, s) => some (some .other, s.setLinks new 0)
        else some (none, s.enter dir new name)

def dirMkdir (s : Fs) (dnp : Nat) (name : Name) (new : Nat) : Option (Option Errno × Fs) :=
  match diskfsLookup root shadow fails .lookupTarget s dnp name with
  | .error .enoent => createNode root linkMax shadow fails s dnp name new
  | .error .eagain | .ok _ => some (some .eexist, s)
  | .error err => some (some err, s)

/-- The checks of `diskfs_S_dir_rmdir`, and the directory to remove. -/
def rmdirTarget (s : Fs) (dnp : Nat) (name : Name) : Except Errno Nat :=
  match diskfsLookup root shadow fails .lookupTarget s dnp name with
  | .error .eagain => .error .enotempty
  | .error err => .error err
  | .ok np =>
      if dnp = np then .error .einval
      else if s.translated np then .error .ebusy
      else if s.isDir np = false then .error .enotdir
      else if s.dirempty np = false then .error .enotempty
      else .ok np

def dirRmdir (s : Fs) (dnp : Nat) (name : Name) : Option (Option Errno × Fs) :=
  match rmdirTarget root shadow fails s dnp name with
  | .error err => some (some err, s)
  | .ok np =>
      if fails .remove then some (some .other, s)
      else
        match clearDirectory root shadow fails ((s.remove dnp name).addLinks np (-1)) np dnp with
        | none => none
        | some (_, s) => some (none, s)

/-- The rest of `diskfs_S_dir_rename` for what is no directory. -/
def renameFile (s : Fs) (fdp fnp : Nat) (fromname : Name) (tdp : Nat) (toname : Name)
    (excl : Bool) : Option Errno × Fs :=
  match newLink root linkMax shadow fails s fnp tdp toname excl with
  | .error err => (some err, s)
  | .ok .same => (none, s)
  | .ok target =>
      let s := s.addLinks fnp 1
      if fails .attach then (some .other, s)
      else
        let s := s.attach tdp fnp toname target
        match diskfsLookup root shadow fails .lookupAgain s fdp fromname with
        | .error err => (some err, s)
        | .ok tmpnp =>
            if tmpnp ≠ fnp then (none, s)
            else if fails .remove then (some .other, s.addLinks fnp (-1))
            else (none, (s.remove fdp fromname).addLinks fnp (-1))

/-- The loop of `checkpath` from its round `i` on, at `np`; `none` when it has not ended after
`fuel` rounds. -/
def checkpath (s : Fs) (source : Nat) : (fuel i np : Nat) → Option (Option Errno)
  | 0, _, _ => none
  | fuel + 1, i, np =>
      if np = source then some (some .einval)
      else if np = root ∨ shadow = some np then some none
      else
        match diskfsLookup root shadow fails (.checkpath i) s np dotdot with
        | .error err => some (some err)
        | .ok newnp => checkpath s source fuel (i + 1) newnp

/-- Step 1 of `diskfs_rename_dir` behind the lookup of the new name, where `tnp` is what it has
found: whether the old name may be removed, and the new one be given. -/
def renameDirChecks (s : Fs) (fdp fnp : Nat) (fromname : Name) (tdp : Nat) (excl : Bool)
    (tnp : Option Nat) : Option (Except Errno Target) :=
  if tnp.isSome ∧ excl then some (.error .eexist)
  else if tnp = some fnp then some (.ok .same)
  else
    match diskfsLookup root shadow fails .lookupRemove s fdp fromname with
    | .error err => some (.error err)
    | .ok tmpnp =>
        if tmpnp ≠ fnp then none
        else if tnp.any fun t => s.isDir t = false then some (.error .enotdir)
        else if tnp.any fun t => s.dirempty t = false then some (.error .enotempty)
        else if fdp ≠ tdp ∧ s.nlink tdp = linkMax - 1 then some (.error .emlink)
        else some (.ok (tnp.elim .nothing .another))

/-- `diskfs_rename_dir` up to its first change. -/
def renameDirTarget (fuel : Nat) (s : Fs) (fdp fnp : Nat) (fromname : Name) (tdp : Nat)
    (toname : Name) (excl : Bool) : Option (Except Errno Target) :=
  match checkpath root shadow fails s fnp fuel 0 tdp with
  | none => none
  | some (some err) => some (.error err)
  | some none =>
      match diskfsLookup root shadow fails .lookupTarget s tdp toname with
      | .error .eagain => none
      | .error .enoent =>
          renameDirChecks root linkMax shadow fails s fdp fnp fromname tdp excl none
      | .error err => some (.error err)
      | .ok tnp =>
          renameDirChecks root linkMax shadow fails s fdp fnp fromname tdp excl (some tnp)

/-- Step 2 of `diskfs_rename_dir`: the directory gets its new parent. -/
def reparent (s : Fs) (fdp fnp tdp : Nat) : Option (Option Errno × Fs) :=
  if fdp = tdp then some (none, s)
  else
    let s := s.addLinks tdp 1
    match diskfsLookup root shadow fails .lookupParent s fnp dotdot with
    | .error .enoent => none
    | .error err => some (some err, s)
    | .ok tmpnp =>
        if tmpnp ≠ fdp then none
        else if fails .rewriteParent then some (some .other, s)
        else some (none, (s.rewrite fnp tdp dotdot).addLinks fdp (-1))

/-- Step 3 of `diskfs_rename_dir` behind the link count: the directory gets its new name, and one
that was there is cleared, even when the name could not be rewritten. -/
def reattach (s : Fs) (fnp tdp : Nat) (toname : Name) (target : Target) : Option Fs :=
  let s := if fails .attach then s else s.attach tdp fnp toname target
  match target with
  | .another tnp => (clearDirectory root shadow fails s tnp tdp).map Prod.snd
  | _ => some s

def renameDir (fuel : Nat) (s : Fs) (fdp fnp : Nat) (fromname : Name) (tdp : Nat) (toname : Name)
    (excl : Bool) : Option (Option Errno × Fs) :=
  match renameDirTarget root linkMax shadow fails fuel s fdp fnp fromname tdp toname excl with
  | none => none
  | some (.error err) => some (some err, s)
  | some (.ok .same) => some (none, s)
  | some (.ok target) =>
      match reparent root shadow fails s fdp fnp tdp with
      | none => none
      | some (some err, s) => some (some err, s)
      | some (none, s) =>
          if s.nlink fnp = linkMax - 1 then some (some .emlink, s)
          else
            match reattach root shadow fails (s.addLinks fnp 1) fnp tdp toname target with
            | none => none
            | some s =>
                if fails .attach then some (some .other, s)
                else
                  match diskfsLookup root shadow fails .lookupAgain s fdp fromname with
                  | .error err => some (some err, s)
                  | .ok tmpnp =>
                      if tmpnp ≠ fnp then none
                      else if fails .remove then some (none, s.addLinks fnp (-1))
                      else some (none, (s.remove fdp fromname).addLinks fnp (-1))

/-- `diskfs_S_dir_rename`, by users with the given shadow roots. -/
def dirRename (toShadow : Option Nat) (fuel : Nat) (s : Fs) (fdp : Nat) (fromname : Name)
    (tdp : Nat) (toname : Name) (excl : Bool) : Option (Option Errno × Fs) :=
  if fromname = dot ∨ fromname = dotdot ∨ toname = dot ∨ toname = dotdot then
    some (some .einval, s)
  else if toShadow ≠ shadow then some (some .exdev, s)
  else
    match diskfsLookup root shadow fails .lookupSource s fdp fromname with
    | .error .eagain => some (some .einval, s)
    | .error err => some (some err, s)
    | .ok fnp =>
        if s.isDir fnp then
          renameDir root linkMax shadow fails fuel s fdp fnp fromname tdp toname excl
        else some (renameFile root linkMax shadow fails s fdp fnp fromname tdp toname excl)

end Operations

/-- Requests, each with the shadow root of its user and the calls that fail, and the end of a node
that nobody uses and nothing refers to. -/
inductive Event where
  | link (shadow : Option Nat) (fails : Call → Bool) (np dnp : Nat) (name : Name) (excl : Bool)
  | mkdir (shadow : Option Nat) (fails : Call → Bool) (dnp : Nat) (name : Name) (new : Nat)
  | rmdir (shadow : Option Nat) (fails : Call → Bool) (dnp : Nat) (name : Name)
  | rename (shadow toShadow : Option Nat) (fails : Call → Bool) (fuel fdp : Nat) (fromname : Name)
      (tdp : Nat) (toname : Name) (excl : Bool)
  | drop (n : Nat)

/-- The file system after an event, or `none` when the server does not get that far. -/
def step (root : Nat) (linkMax : Int) (s : Fs) : Event → Option Fs
  | .link shadow fails np dnp name excl =>
      some (dirLink root linkMax shadow fails s np dnp name excl).2
  | .mkdir shadow fails dnp name new =>
      (dirMkdir root linkMax shadow fails s dnp name new).map Prod.snd
  | .rmdir shadow fails dnp name => (dirRmdir root shadow fails s dnp name).map Prod.snd
  | .rename shadow toShadow fails fuel fdp fromname tdp toname excl =>
      (dirRename root linkMax shadow fails toShadow fuel s fdp fromname tdp toname excl).map
        Prod.snd
  | .drop n => some (s.discard n)

/-- A node that `diskfs_alloc_node` may return. -/
structure Fs.Free (s : Fs) (n : Nat) : Prop where
  entries : ∀ e ∈ s.entries, e.dir ≠ n ∧ e.node ≠ n
  nlink : s.nlink n = 0

/-- A new directory is a free node, neither the root nor the shadow root of the user, and
`diskfs_drop_node` frees a node without links, never the root. -/
def Event.Enabled (root : Nat) (s : Fs) : Event → Prop
  | .mkdir shadow _ _ _ new => s.Free new ∧ s.isDir new = false ∧ new ≠ root ∧ shadow ≠ some new
  | .drop n => s.nlink n = 0 ∧ n ≠ root
  | _ => True

instance freeDecidable (s : Fs) (n : Nat) : Decidable (s.Free n) :=
  decidable_of_iff ((∀ e ∈ s.entries, e.dir ≠ n ∧ e.node ≠ n) ∧ s.nlink n = 0)
    ⟨fun h => ⟨h.1, h.2⟩, fun h => ⟨h.entries, h.nlink⟩⟩

instance enabledDecidable (root : Nat) (s : Fs) : (e : Event) → Decidable (e.Enabled root s)
  | .mkdir shadow _ _ _ new =>
      inferInstanceAs (Decidable (s.Free new ∧ s.isDir new = false ∧ new ≠ root ∧
        shadow ≠ some new))
  | .drop n => inferInstanceAs (Decidable (s.nlink n = 0 ∧ n ≠ root))
  | .link .. => .isTrue trivial
  | .rmdir .. => .isTrue trivial
  | .rename .. => .isTrue trivial

end Hurd.DirOps
