import Mathlib.Data.List.Basic

/-!
# Directories of the FAT file system

`fatfs/dir.c`: a directory is a file of entries of 32 bytes. The name in an entry has 11 characters,
8 of the base and 3 of the extension, each padded with blanks. A name is looked up block by block
from the block on where the last name was found.

Characters are numbers. The inode number of an entry that is found is not part of the model.
-/

namespace Hurd.Fatfs

def fatNameMax : Nat := 12

def nameLast : Nat := 0x00

def nameDeleted : Nat := 0xe5

def nameReplaceDeleted : Nat := 0x05

def attrLabel : Nat := 0x08

def attrDir : Nat := 0x10

def blank : Nat := 0x20

def dot : Nat := 0x2e

/-- The 11 bytes that are left when a name of at most 11 characters has been copied over blanks. -/
def padName (name : List Nat) : List Nat := name ++ List.replicate (11 - name.length) blank

def nameDot : List Nat := padName [dot]

def nameDotdot : List Nat := padName [dot, dot]

def tolower (c : Nat) : Nat := if 0x41 ≤ c ∧ c ≤ 0x5a then c + 0x20 else c

structure Dirrect where
  name : List Nat
  attr : Nat
  firstCluster : Nat
  fileSize : Nat

section Match

variable (dn un : Nat → Nat)

/-- `while (dpos < 8 && dn[++dpos] == ' ')` -/
def skipBase : Nat → Nat → Nat
  | 0, dpos => dpos
  | fuel + 1, dpos =>
      if dpos < 8 then
        if dn (dpos + 1) = blank then skipBase fuel (dpos + 1) else dpos + 1
      else dpos

/-- `while (dpos < 11 && dn[dpos] == ' ') dpos++` -/
def skipTail : Nat → Nat → Nat
  | 0, dpos => dpos
  | fuel + 1, dpos =>
      if dpos < 11 ∧ dn dpos = blank then skipTail fuel (dpos + 1) else dpos

/-- The loop of `fatnamematch`: how far it gets in both names. -/
def matchLoop (unamelen : Nat) : Nat → Nat → Nat → Bool → Nat × Nat
  | 0, dpos, upos, _ => (dpos, upos)
  | fuel + 1, dpos, upos, ext =>
      let again := fun dpos upos ext =>
        if upos < unamelen ∧ dpos < 11 then matchLoop unamelen fuel dpos upos ext
        else (dpos, upos)
      let compare := fun upos ext =>
        if dn dpos = blank then
          if ext = true then (dpos, upos)
          else again (skipBase dn 8 dpos) (if un upos = dot then upos + 1 else upos) true
        else if tolower (dn dpos) = tolower (un upos) then again (dpos + 1) (upos + 1) ext
        else (dpos, upos)
      if dpos = 8 ∧ ext = false then
        if un upos = dot then compare (upos + 1) true else (dpos, upos)
      else compare upos ext

def fatnamematch (dirname username : List Nat) : Bool :=
  let first := dirname.getD 0 0
  if first = nameDeleted ∨ first = nameLast then false
  else
    let dirname := if first = nameReplaceDeleted then dirname.set 0 nameDeleted else dirname
    if dirname = nameDot then decide (username = [dot])
    else if dirname = nameDotdot then decide (username = [dot, dot])
    else if 12 < username.length then false
    else
      let dn := fun i => dirname.getD i 0
      let un := fun i => username.getD i 0
      let p := matchLoop dn un username.length 12 0 0 false
      decide (p.2 = username.length ∧ skipTail dn 11 p.1 = 11)

end Match

/-- How a directory is laid out. -/
structure DirLayout where
  /-- `DIRBLKSIZ / FAT_DIR_REC_LEN` -/
  perBlock : Nat
  /-- `bytes_per_cluster / DIRBLKSIZ` -/
  blocksPerCluster : Nat
  /-- Whether it is `diskfs_root_node`. -/
  isRoot : Bool
  perBlock_pos : 0 < perBlock
  blocksPerCluster_pos : 0 < blocksPerCluster

/-- A directory: the entries that are mapped, also those after its end, its size in blocks and
`dir_idx`. -/
structure Dir where
  entry : Nat → Dirrect
  blocks : Nat
  dirIdx : Nat

/-- `ds->stat`, and `ds->entry` for `TAKE`. -/
inductive Dirstat where
  | looking
  | take (pos : Nat)
  deriving DecidableEq

inductive Found where
  /-- It is one of the names of the root directory that have no entry. -/
  | root
  | entry (pos : Nat)
  deriving DecidableEq

variable (g : DirLayout) (d : Dir) (name : List Nat)

/-- The entry can be used for another name. -/
def isFree (e : Dirrect) : Bool := e.name.getD 0 0 = nameLast || e.name.getD 0 0 = nameDeleted

def entryMatches (e : Dirrect) (name : List Nat) : Bool :=
  e.attr &&& attrLabel = 0 && fatnamematch e.name name

/-- The loop of `dirscanblock`. -/
def scanEntries : Nat → Nat → Dirstat → Dirstat × Option Nat
  | 0, _, ds => (ds, none)
  | left + 1, pos, ds =>
      let ds :=
        match ds with
        | .looking => if isFree (d.entry pos) = true then .take pos else .looking
        | .take p => .take p
      if entryMatches (d.entry pos) name = true then (ds, some pos)
      else scanEntries left (pos + 1) ds

def dirscanblock (idx : Nat) (ds : Dirstat) : Dirstat × Option Found :=
  if idx = 0 ∧ g.isRoot = true ∧
      (fatnamematch nameDot name = true ∨ fatnamematch nameDotdot name = true) then
    (ds, some .root)
  else
    let r := scanEntries d name g.perBlock (idx * g.perBlock) ds
    (r.1, r.2.map .entry)

/-- The loop of `diskfs_lookup_hard`: the block and the place where the name has been found. -/
def lookupLoop (lastidx : Nat) : Nat → Nat → Bool → Dirstat → Dirstat × Option (Nat × Found)
  | 0, _, _, ds => (ds, none)
  | fuel + 1, idx, looped, ds =>
      if looped = false ∨ idx < lastidx then
        match dirscanblock g d name idx ds with
        | (ds, some f) => (ds, some (idx, f))
        | (ds, none) =>
            if d.blocks ≤ idx + 1 ∧ looped = false then lookupLoop lastidx fuel 0 true ds
            else lookupLoop lastidx fuel (idx + 1) looped ds
      else (ds, none)

/-- `diskfs_lookup_hard` for a name that is not too long. -/
def lookupHard : Dirstat × Option (Nat × Found) :=
  let idx := if d.blocks < d.dirIdx then 0 else d.dirIdx
  lookupLoop g d name (if idx = 0 then d.blocks else idx) (d.blocks + 2) idx (decide (idx = 0))
    .looking

/-- What `diskfs_direnter_hard` reads of the node that is linked in. -/
structure NewNode where
  startCluster : Nat
  size : Nat
  isDir : Bool

/-- The end of `diskfs_direnter_hard`. -/
def fillEntry (pos : Nat) (np : NewNode) : Dir :=
  let e := d.entry pos
  let isDots := name = [dot] ∨ name = [dot, dot]
  { d with
    entry := Function.update d.entry pos
      { name := padName (name.take (name.length % 11))
        attr := if isDots ∨ np.isDir = true then attrDir else e.attr
        firstCluster := np.startCluster
        fileSize := np.size } }

/-- `diskfs_direnter_hard`, where `grown` tells whether `diskfs_grow` succeeds. -/
def direnterHard (ds : Dirstat) (np : NewNode) (grown : Bool) : Option Dir :=
  match ds with
  | .take pos => some (fillEntry d name pos np)
  | .looking =>
      if grown = true then
        let old := d.blocks * g.perBlock
        let zero := fun pos =>
          if old ≤ pos ∧ pos < old + g.blocksPerCluster * g.perBlock then
            ⟨List.replicate 11 0, 0, 0, 0⟩
          else d.entry pos
        let grow : Dir := { d with entry := zero, blocks := d.blocks + g.blocksPerCluster }
        some (fillEntry grow name old np)
      else none

def dirremoveHard (pos : Nat) : Dir :=
  { d with
    entry := Function.update d.entry pos
      { d.entry pos with name := (d.entry pos).name.set 0 nameDeleted } }

/-- `dp->dn->dir_idx = idx` where the name has been found. -/
def setDirIdx (r : Option (Nat × Found)) : Dir :=
  match r with
  | none => d
  | some (idx, _) => { d with dirIdx := idx }

end Hurd.Fatfs
