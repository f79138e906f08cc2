import Hurd.Framework.ByteMemory
import Hurd.Ext2fs.BlockMap

/-!
# Directories

`diskfs_lookup_hard` with `dirscanblock`, and `diskfs_direnter_hard`, `diskfs_dirremove_hard` and
`diskfs_dirrewrite_hard` of `ext2fs/dir.c`, over the bytes of the mapped directory. An address in
the mapping is an offset in the directory. `count_dirents` is modelled too, with the part of
`diskfs_get_directs` that calls it.

A result `none` stands for an assertion that fails, or an access behind the end of `dirents`. Nodes
are known by their numbers: a lookup returns the number that is in the entry.
-/

namespace Hurd.Ext2fs

open ByteMemory

inductive DirError where
  | noEnt | nameTooLong | again | noSpc | overflow
  deriving DecidableEq, Repr

def dirRecLen (nameLen : Nat) : Nat := (nameLen + 8 + 3) / 4 * 4

section Fields

variable (m : ByteMemory) (p : Nat)

def dInode : Nat := read 4 m p
def dRecLen : Nat := read 2 m (p + 4)
def dNameLen : Nat := read 1 m (p + 6)
def dName : List UInt8 := load m (p + 8) (dNameLen m p)

end Fields

/-- `enum lookup_type` -/
inductive LookupType where
  | lookup | create | remove | rename
  deriving DecidableEq, Repr

/-- `enum slot_status` -/
inductive SlotStatus where
  | looking | take | shrink | compress | extend | hereTis
  deriving DecidableEq, Repr

/-- `struct dirstat` without the mapping. -/
structure Dirstat where
  type : LookupType
  stat : SlotStatus
  idx : Nat
  entry : Nat
  preventry : Option Nat
  nbytes : Nat
  deriving DecidableEq, Repr

/-- A directory node: the contents, `st_size`, the number of the node, and the two caches
`dir_idx` and `dirents`. -/
structure Directory where
  mem : ByteMemory
  size : Nat
  cacheId : Nat
  dirIdx : Nat
  dirents : Option (List Int)

/-- The array of counts, which is made with all counts unknown if there is none. -/
def Directory.counts (z : BlockSize) (d : Directory) : List Int :=
  d.dirents.getD (List.replicate (d.size / z.bytes) (-1))

/-- Write down the number of entries of a block. If there is a count now, it is the same. -/
def Directory.writeCount (z : BlockSize) (d : Directory) (idx nentries : Nat) : Option Directory :=
  match (d.counts z)[idx]? with
  | none => none
  | some count =>
      if count = -1 ∨ count = nentries then
        some { d with dirents := some ((d.counts z).set idx nentries) }
      else none

/-- The test for a bad directory entry. -/
def badEntry (z : BlockSize) (m : ByteMemory) (blockaddr p : Nat) : Bool :=
  dRecLen m p = 0 || dRecLen m p % 4 ≠ 0 || 255 < dNameLen m p ||
    blockaddr + z.bytes < p + dRecLen m p || dRecLen m p < dirRecLen (dNameLen m p) ||
    (dName m p).contains 0

/-- The test for the name that is looked up. -/
def sameName (m : ByteMemory) (p : Nat) (name : List UInt8) : Bool :=
  dNameLen m p = name.length && m (p + 8) = name.headD 0 && dInode m p ≠ 0 &&
    load m (p + 8) name.length = name

/-- The variables of `dirscanblock`. -/
structure DirScan where
  currentoff : Nat
  prevoff : Option Nat
  nfree : Nat
  nbytes : Nat
  nentries : Nat
  looking : Bool
  countcopies : Bool
  considerCompress : Bool
  ds : Option Dirstat
  deriving DecidableEq, Repr

/-- The free space of the entry at `p`. -/
def thisFree (m : ByteMemory) (p : Nat) : Nat :=
  if dInode m p = 0 then dRecLen m p else dRecLen m p - dirRecLen (dNameLen m p)

/-- Look for room in the entry at hand. -/
def scanSpace (m : ByteMemory) (blockaddr idx needed : Nat) (s : DirScan) (ds : Dirstat) :
    DirScan :=
  let p := s.currentoff
  let nbytes :=
    if s.countcopies ∧ p ≠ blockaddr then s.nbytes + dirRecLen (dNameLen m p) else s.nbytes
  let countcopies := if ds.stat = .compress ∧ ds.nbytes < nbytes then false else s.countcopies
  if needed ≤ thisFree m p then
    { s with
      nbytes := nbytes
      looking := false
      countcopies := false
      ds := some { ds with
        type := .create
        stat := if dInode m p = 0 then .take else .shrink
        entry := p
        idx := idx } }
  else
    { s with
      nbytes := nbytes
      countcopies := countcopies
      nfree := s.nfree + thisFree m p
      considerCompress := s.considerCompress || needed ≤ s.nfree + thisFree m p }

/-- One round of the loop of `dirscanblock`, up to the comparison of the name. -/
def scanEntry (m : ByteMemory) (blockaddr idx needed : Nat) (s : DirScan) : DirScan :=
  let s :=
    match s.ds with
    | some ds => if s.looking || s.countcopies then scanSpace m blockaddr idx needed s ds else s
    | none => s
  if dInode m s.currentoff ≠ 0 then { s with nentries := s.nentries + 1 } else s

/-- How the loop ends: at a bad entry, at the end of the block, or at the name. -/
inductive ScanEnd where
  | bad (s : DirScan)
  | absent (s : DirScan)
  | found (s : DirScan)

/-- The loop of `dirscanblock`. -/
def dirscanLoop (z : BlockSize) (m : ByteMemory) (blockaddr idx : Nat) (name : List UInt8)
    (needed : Nat) : Nat → DirScan → ScanEnd
  | 0, s => .absent s
  | fuel + 1, s =>
      if s.currentoff < blockaddr + z.bytes then
        if badEntry z m blockaddr s.currentoff then .bad s
        else
          let s := scanEntry m blockaddr idx needed s
          if sameName m s.currentoff name then .found s
          else
            dirscanLoop z m blockaddr idx name needed fuel
              { s with
                prevoff := some s.currentoff
                currentoff := s.currentoff + dRecLen m s.currentoff }
      else .absent s

/-- A compression is better than nothing, or than one that copies more. -/
def considerCompress (blockaddr idx : Nat) (s : DirScan) : Option Dirstat :=
  s.ds.map fun ds =>
    if s.considerCompress ∧
        (ds.stat = .looking ∨ (ds.stat = .compress ∧ s.nbytes < ds.nbytes)) then
      { ds with type := .create, stat := .compress, entry := blockaddr, idx := idx,
                nbytes := s.nbytes }
    else ds

def foundEntry (type : LookupType) (idx : Nat) (s : DirScan) (ds : Dirstat) : Dirstat :=
  match type with
  | .create => { ds with type := .lookup }
  | .remove | .rename =>
      { ds with type := type, stat := .hereTis, entry := s.currentoff, idx := idx,
                preventry := s.prevoff }
  | .lookup => ds

/-- The variables of `dirscanblock` when it starts. -/
def scanStart (blockaddr : Nat) (ds : Option Dirstat) : DirScan :=
  let looking := ds.any fun ds => ds.stat = .looking || ds.stat = .compress
  { currentoff := blockaddr
    prevoff := none
    nfree := 0
    nbytes := 0
    nentries := 0
    looking := looking
    countcopies := looking
    considerCompress := false
    ds := ds }

/-- `dirscanblock`: the number of the node, if the name is in the block. -/
def dirscanblock (z : BlockSize) (d : Directory) (idx : Nat) (name : List UInt8)
    (type : LookupType) (ds : Option Dirstat) :
    Option (Option Nat × Option Dirstat × Directory) :=
  let blockaddr := idx * z.bytes
  match dirscanLoop z d.mem blockaddr idx name (dirRecLen name.length) (z.bytes + 1)
      (scanStart blockaddr ds) with
  | .bad s => some (none, s.ds, d)
  | .absent s =>
      (d.writeCount z idx s.nentries).map fun d => (none, considerCompress blockaddr idx s, d)
  | .found s =>
      some (some (dInode d.mem s.currentoff),
        (considerCompress blockaddr idx s).map (foundEntry type idx s), d)

/-- The loop of `diskfs_lookup_hard` over the blocks, from `idx` on. -/
def lookupLoop (z : BlockSize) (name : List UInt8) (type : LookupType) (lastidx : Nat) :
    Nat → Nat → Bool → Option Dirstat → Directory →
      Option (Option Nat × Option Dirstat × Directory)
  | 0, _, _, ds, d => some (none, ds, d)
  | fuel + 1, idx, looped, ds, d =>
      if ¬looped ∨ idx < lastidx then
        (dirscanblock z d idx name type ds).bind fun r =>
          match r with
          | (some inum, ds, d) => some (some inum, ds, { d with dirIdx := idx })
          | (none, ds, d) =>
              if d.size ≤ (idx + 1) * z.bytes ∧ ¬looped then
                lookupLoop z name type lastidx fuel 0 true ds d
              else lookupLoop z name type lastidx fuel (idx + 1) looped ds d
      else some (none, ds, d)

/-- The part of `diskfs_lookup_hard` that looks for the name. -/
def lookupScan (z : BlockSize) (d : Directory) (name : List UInt8) (type : LookupType)
    (ds : Option Dirstat) : Option (Option Nat × Option Dirstat × Directory) :=
  let ds := ds.map fun ds =>
    { ds with
      type := .lookup
      stat := if type = .create ∨ type = .rename then .looking else ds.stat }
  let idx := if d.size < d.dirIdx * z.bytes then 0 else d.dirIdx
  let lastidx := if idx = 0 then d.size / z.bytes else idx
  lookupLoop z name type lastidx (2 * (d.size / z.bytes) + 2) idx (idx = 0) ds d

/-- No room has been found, so the directory is to be extended. -/
def extendIfLooking (z : BlockSize) (size : Nat) (type : LookupType) (ds : Dirstat) : Dirstat :=
  if (type = .create ∨ type = .rename) ∧ ds.stat = .looking then
    { ds with type := .create, stat := .extend, idx := size / z.bytes }
  else ds

def dotdot : List UInt8 := [46, 46]

/-- `diskfs_lookup_hard`; `npp` tells whether the node is asked for. -/
def diskfsLookupHard (z : BlockSize) (d : Directory) (name : List UInt8) (type : LookupType)
    (npp : Bool) (ds : Option Dirstat) :
    Option (Except DirError Nat × Option Dirstat × Directory) :=
  if 255 < name.length then
    some (.error .nameTooLong, ds.map fun ds => { ds with type := .lookup }, d)
  else
    (lookupScan z d name type ds).map fun r =>
      match r with
      | (some inum, ds, d) =>
          if npp ∧ name = dotdot ∧ d.cacheId = 2 then
            (.error .again, ds.map fun ds => { ds with type := .lookup }, d)
          else (.ok inum, ds, d)
      | (none, ds, d) => (.error .noEnt, ds.map (extendIfLooking z d.size type), d)

/-- The loop of `diskfs_direnter_hard` that compresses the block at `base`. -/
def compressLoop (z : BlockSize) (base : Nat) :
    Nat → ByteMemory → Nat → Nat → Option (ByteMemory × Nat)
  | 0, m, _, tooff => some (m, tooff)
  | fuel + 1, m, fromoff, tooff =>
      if fromoff < base + z.bytes then
        let fromreclen := dRecLen m fromoff
        if dInode m fromoff ≠ 0 then
          if fromoff < tooff then none
          else
            let m := move m tooff fromoff fromreclen
            let m := write 2 m (tooff + 4) (dirRecLen (dNameLen m tooff))
            compressLoop z base fuel m (fromoff + fromreclen) (tooff + dRecLen m tooff)
        else compressLoop z base fuel m (fromoff + fromreclen) tooff
      else some (m, tooff)

/-- A place for the new entry, with its `rec_len` filled in. -/
structure NewSlot where
  mem : ByteMemory
  size : Nat
  new : Nat

/-- The switch of `diskfs_direnter_hard`. `grow` is the error when the directory cannot be
extended. -/
def newSlot (z : BlockSize) (d : Directory) (needed : Nat) (ds : Dirstat)
    (grow : Option DirError) : Option (Except DirError NewSlot) :=
  match ds.stat with
  | .take =>
      if dInode d.mem ds.entry = 0 ∧ needed ≤ dRecLen d.mem ds.entry then
        some (.ok ⟨d.mem, d.size, ds.entry⟩)
      else none
  | .shrink =>
      let oldneeded := dirRecLen (dNameLen d.mem ds.entry)
      let reclen := dRecLen d.mem ds.entry
      -- the difference is a `size_t`
      if needed ≤ (reclen + 2 ^ 64 - oldneeded) % 2 ^ 64 then
        let new := ds.entry + oldneeded
        let m := write 2 d.mem (new + 4) (reclen - oldneeded)
        some (.ok ⟨write 2 m (ds.entry + 4) oldneeded, d.size, new⟩)
      else none
  | .compress =>
      (compressLoop z ds.entry (z.bytes + 1) d.mem ds.entry ds.entry).bind fun r =>
        let totfreed := ds.entry + z.bytes - r.2
        if needed ≤ totfreed then some (.ok ⟨write 2 r.1 (r.2 + 4) totfreed, d.size, r.2⟩)
        else none
  | .extend =>
      if needed ≤ z.bytes then
        match grow with
        | some e => some (.error e)
        | none =>
            let m := fill d.mem d.size z.bytes 0
            some (.ok ⟨write 2 m (d.size + 4) z.bytes, d.size + z.bytes, d.size⟩)
      else none
  | .looking | .hereTis => none

def fillEntry (m : ByteMemory) (new inode : Nat) (name : List UInt8) : ByteMemory :=
  let m := write 4 m new inode
  let m := write 1 m (new + 7) 0
  let m := write 1 m (new + 6) name.length
  store m (new + 8) name

/-- Add `delta` to a count that is known. -/
def adjustCount (dirents : Option (List Int)) (idx : Nat) (delta : Int) :
    Option (Option (List Int)) :=
  match dirents with
  | none => some none
  | some counts =>
      match counts[idx]? with
      | none => none
      | some count =>
          some (some (if count ≠ -1 then counts.set idx (count + delta) else counts))

/-- The counts of a directory that has been extended from `oldsize` to `size`. -/
def extendCounts (z : BlockSize) (dirents : Option (List Int)) (idx oldsize size : Nat) :
    Option (List Int) :=
  let counts :=
    match dirents with
    | some counts =>
        counts.take (oldsize / z.bytes) ++
          List.replicate (size / z.bytes - oldsize / z.bytes) (-1)
    | none => List.replicate (size / z.bytes) (-1)
  if idx < counts.length then some (counts.set idx 1) else none

def diskfsDirenterHard (z : BlockSize) (d : Directory) (name : List UInt8) (inode : Nat)
    (ds : Dirstat) (grow : Option DirError) : Option (Option DirError × Directory) :=
  if ds.type ≠ .create then none
  else
    (newSlot z d (dirRecLen name.length) ds grow).bind fun r =>
      match r with
      | .error e => some (some e, d)
      | .ok slot =>
          let m := fillEntry slot.mem slot.new inode name
          let dirents :=
            if ds.stat ≠ .extend then adjustCount d.dirents ds.idx 1
            else (extendCounts z d.dirents ds.idx d.size slot.size).map some
          dirents.map fun dirents =>
            (none, { d with mem := m, size := slot.size, dirents := dirents })

def diskfsDirremoveHard (d : Directory) (ds : Dirstat) : Option Directory :=
  if ds.type ≠ .remove ∨ ds.stat ≠ .hereTis then none
  else
    let mem :=
      match ds.preventry with
      | none => some (write 4 d.mem ds.entry 0)
      | some preventry =>
          if (ds.entry : Int) - preventry = dRecLen d.mem preventry then
            some (write 2 d.mem (preventry + 4) (dRecLen d.mem preventry + dRecLen d.mem ds.entry))
          else none
    mem.bind fun m =>
      (adjustCount d.dirents ds.idx (-1)).map fun dirents =>
        { d with mem := m, dirents := dirents }

def diskfsDirrewriteHard (d : Directory) (inode : Nat) (ds : Dirstat) : Option Directory :=
  if ds.type ≠ .rename ∨ ds.stat ≠ .hereTis then none
  else some { d with mem := write 4 d.mem ds.entry inode }

/-- The loop of `count_dirents`. -/
def countLoop (z : BlockSize) (m : ByteMemory) (base : Nat) : Nat → Nat → Nat → Nat
  | 0, _, count => count
  | fuel + 1, p, count =>
      if p < base + z.bytes then
        countLoop z m base fuel (p + dRecLen m p) (if dInode m p ≠ 0 then count + 1 else count)
      else count

def countDirents (z : BlockSize) (d : Directory) (nb : Nat) : Option Directory :=
  if d.dirents = none ∨ d.size < (nb + 1) * z.bytes then none
  else d.writeCount z nb (countLoop z d.mem (nb * z.bytes) (z.bytes + 1) (nb * z.bytes) 0)

/-- The loop of `diskfs_get_directs` that looks for the block of an entry, with `n` blocks left. -/
def getDirectsLoop (z : BlockSize) (entry : Int) : Nat → Nat → Int → Directory → Option Directory
  | 0, _, _, d => some d
  | n + 1, blkno, curentry, d =>
      ((d.dirents.getD [])[blkno]?).bind fun count =>
        (if count = -1 then countDirents z d blkno else some d).bind fun d =>
          ((d.dirents.getD [])[blkno]?).bind fun count =>
            if entry < curentry + count then some d
            else getDirectsLoop z entry n (blkno + 1) (curentry + count) d

/-- The part of `diskfs_get_directs` that changes the directory. -/
def diskfsGetDirects (z : BlockSize) (d : Directory) (entry : Int) : Option Directory :=
  getDirectsLoop z entry (d.size / z.bytes) 0 0 { d with dirents := some (d.counts z) }

end Hurd.Ext2fs
