import Hurd.Framework.Run
import Hurd.Ext2fs.Bitmap

/-!
# Block allocation

`ext2_new_block` and `ext2_free_blocks` of `ext2fs/balloc.c`, and `ext2_alloc_block` and
`ext2_discard_prealloc` of `ext2fs/getblk.c`, over the block bitmaps, the free-block counts of the
groups and of the superblock, and the preallocation windows of the nodes.

A result `none` stands for a call that does not return: a failed assertion, `ext2_panic`, or a
search that has not come to an end.
-/

namespace Hurd.Ext2fs

open BitString Function

def ext2MaxBlockSize : Nat := 4096

def ext2DefaultPreallocBlocks : Nat := 8

/-- What the allocator reads and never writes: fields of the superblock and of the group
descriptors, and values computed from them when the file system is mounted. A bitmap fits in one
block, the disk is as large as the superblock says, and the number of groups is computed without
overflow. -/
structure Geometry where
  firstDataBlock : Nat
  blocksCount : Nat
  blocksPerGroup : Nat
  itbPerGroup : Nat
  groupDescBlockEnd : Nat
  /-- `store->size >> log2_block_size`. -/
  storeBlocks : Nat
  bgBlockBitmap : Nat → Nat
  bgInodeBitmap : Nat → Nat
  bgInodeTable : Nat → Nat
  /-- Blocks with copies of the superblock and the group descriptors. -/
  backup : Nat → Bool
  sPreallocBlocks : Nat
  sPreallocDirBlocks : Nat
  /-- `EXT2_FEATURE_COMPAT_DIR_PREALLOC`. -/
  dirPrealloc : Bool
  /-- The width of an `unsigned long`. -/
  longBits : Nat
  first_lt : firstDataBlock < blocksCount
  perGroup_pos : 0 < blocksPerGroup
  perGroup_le : blocksPerGroup ≤ 8 * ext2MaxBlockSize
  blocks_fit : blocksCount + blocksPerGroup ≤ 2 ^ 32
  blocks_stored : blocksCount ≤ storeBlocks
  descEnd_pos : 0 < groupDescBlockEnd

/-- The bitmaps and the free-block counts. -/
structure Disk where
  bitmap : Nat → BitString
  bgFreeBlocksCount : Nat → BitVec 16
  sFreeBlocksCount : BitVec 32

/-- Whether bit `j` of the bitmap of group `i` is set. -/
def Disk.bit (d : Disk) (i j : Nat) : Bool := (d.bitmap i).bit j

/-- `i_prealloc_block` and `i_prealloc_count` of a node. -/
structure Prealloc where
  block : Nat
  count : Nat
deriving DecidableEq

/-- The file system and the nodes in memory. The last field is a history variable: the blocks that
have been handed out to a caller and not been freed since. -/
structure Fs where
  disk : Disk
  prealloc : Nat → Prealloc
  handed : Finset Nat

namespace Geometry

variable (g : Geometry)

def groupsCount : Nat :=
  (g.blocksCount - g.firstDataBlock + g.blocksPerGroup - 1) / g.blocksPerGroup

def groupOf (block : Nat) : Nat := (block - g.firstDataBlock) / g.blocksPerGroup

def bitOf (block : Nat) : Nat := (block - g.firstDataBlock) % g.blocksPerGroup

/-- The block that bit `j` of the bitmap of group `i` stands for. -/
def blockAt (i j : Nat) : Nat := g.firstDataBlock + i * g.blocksPerGroup + j

end Geometry

def inRange (b first len : Nat) : Bool := first ≤ b && b ≤ first + len - 1

/-- The free block within the next 32 blocks of a goal `j` that is occupied. The bound
`s_blocks_per_group - 32` is unsigned. -/
def searchNear (bh : BitString) (perGroup j : Nat) : Option Nat :=
  let lmap := if j % 32 = 31 then 0 else bh (j / 32) >>> (j % 32 + 1)
  let lmap :=
    if j < (perGroup + (2 ^ 32 - 32)) % 2 ^ 32 then
      lmap ||| bh (j / 32 + 1) <<< (31 - j % 32)
    else lmap ||| BitVec.allOnes 32 <<< (31 - j % 32)
  if lmap ≠ BitVec.allOnes 32 then
    let k := ffz lmap + 1
    if j + k < perGroup then some (j + k) else none
  else none

/-- From the label `search_back` on: at most `k` bits backwards. -/
def searchBack (bh : BitString) : Nat → Nat → Nat
  | 0, j => j
  | k + 1, j => if 0 < j ∧ ¬testBit (j - 1) bh then searchBack bh k (j - 1) else j

def searchGoal (longBits : Nat) (bh : BitString) (perGroup j : Nat) : Option Nat :=
  if ¬testBit j bh then some j
  else
    match if j ≠ 0 then searchNear bh perGroup j else none with
    | some j => some j
    | none =>
        let k := memscan bh (j / 8) ((perGroup - j + 7) / 8) * 8
        if k < perGroup then some (searchBack bh 7 k)
        else
          let k := findNextZeroBit longBits bh perGroup j
          if k < perGroup then some k else none

/-- The search in another group, from its start. -/
def searchGroup (longBits : Nat) (bh : BitString) (perGroup : Nat) : Option Nat :=
  let j := memscan bh 0 (perGroup / 8) * 8
  if j < perGroup then some (searchBack bh 7 j)
  else
    let j := findFirstZeroBit longBits bh perGroup
    if j < perGroup then some j else none

/-- The loop over the other groups, with `k` groups to go. -/
def nextGroup (groups : Nat) (free : Nat → BitVec 16) : Nat → Nat → Option Nat
  | 0, _ => none
  | k + 1, i =>
      let i := if groups ≤ i + 1 then 0 else i + 1
      if 0 < (free i).toNat then some i else nextGroup groups free k i

/-- The group and the bit that `ext2_new_block` settles on at `got_block`, if any. -/
def pick (g : Geometry) (goal : Nat) (d : Disk) : Option (Nat × Nat) :=
  let goal := if goal < g.firstDataBlock ∨ g.blocksCount ≤ goal then g.firstDataBlock else goal
  let i := g.groupOf goal
  let near :=
    if 0 < (d.bgFreeBlocksCount i).toNat then
      searchGoal g.longBits (d.bitmap i) g.blocksPerGroup (g.bitOf goal)
    else none
  match near with
  | some j => some (i, j)
  | none =>
      match nextGroup g.groupsCount d.bgFreeBlocksCount g.groupsCount i with
      | none => none
      | some i => (searchGroup g.longBits (d.bitmap i) g.blocksPerGroup).map fun j => (i, j)

def Disk.setBitmap (d : Disk) (i : Nat) (bh : BitString) : Disk :=
  { d with bitmap := update d.bitmap i bh }

/-- Take `n` off the free-block counts of group `i` and of the superblock. -/
def Disk.takeOff (d : Disk) (i n : Nat) : Disk :=
  { d with
    bgFreeBlocksCount :=
      update d.bgFreeBlocksCount i (d.bgFreeBlocksCount i - BitVec.ofNat 16 n)
    sFreeBlocksCount := d.sFreeBlocksCount - BitVec.ofNat 32 n }

/-- The preallocation loop from `k` on, for at most `n` more blocks: the bitmap afterwards and the
number of blocks taken. -/
def preallocate (perGroup j : Nat) : Nat → Nat → BitString → BitString × Nat
  | 0, _, bh => (bh, 0)
  | n + 1, k, bh =>
      if j + k < perGroup then
        match setBit (j + k) bh with
        | (true, bh) => (bh, 0)
        | (false, bh) =>
            let (bh, count) := preallocate perGroup j n (k + 1) bh
            (bh, count + 1)
      else (bh, 0)

/-- `tmp` is in the system zone of group `i`. -/
def inSystemZone (g : Geometry) (i tmp : Nat) : Bool :=
  tmp = g.bgBlockBitmap i || tmp = g.bgInodeBitmap i ||
    inRange tmp (g.bgInodeTable i) g.itbPerGroup

/-- The assertion on a block that is about to be returned. -/
def allocatable (g : Geometry) (block : Nat) : Bool :=
  block = 0 || g.groupDescBlockEnd ≤ block && block < g.storeBlocks

/-- From the successful `set_bit` on; `bh` is the bitmap of group `i` with bit `j` set. -/
def takeBlock (g : Geometry) (preallocGoal i j tmp : Nat) (d : Disk) (bh : BitString) :
    Option (Disk × Nat × Option Prealloc) :=
  let (d, window) :=
    if preallocGoal ≠ 0 then
      let (bh, count) := preallocate g.blocksPerGroup j (preallocGoal - 1) 1 bh
      ((d.setBitmap i bh).takeOff i count, some ⟨tmp + 1, count⟩)
    else (d.setBitmap i bh, none)
  if g.blocksCount ≤ tmp then some (d, 0, window)
  else if allocatable g tmp then some (d.takeOff i 1, tmp, window)
  else none

/-- `ext2_new_block`, for at most `fuel` rounds of its search: the block, or 0, and what has been
stored through `prealloc_block` and `prealloc_count`. -/
def ext2NewBlock (g : Geometry) (goal preallocGoal : Nat) :
    Nat → Disk → Option (Disk × Nat × Option Prealloc)
  | 0, _ => none
  | fuel + 1, d =>
      match pick g goal d with
      | none => some (d, 0, none)
      | some (i, j) =>
          let tmp := (j + i * g.blocksPerGroup + g.firstDataBlock) % 2 ^ 32
          if inSystemZone g i tmp then none
          else
            match setBit j (d.bitmap i) with
            | (true, _) => ext2NewBlock g goal preallocGoal fuel d
            | (false, bh) => takeBlock g preallocGoal i j tmp d bh

/-- Free bit `j` of group `i`, with a warning if it is free already. -/
def freeBit (i : Nat) (d : Disk) (j : Nat) : Disk :=
  match clearBit j (d.bitmap i) with
  | (false, _) => d
  | (true, bh) =>
      { bitmap := update d.bitmap i bh
        bgFreeBlocksCount := update d.bgFreeBlocksCount i (d.bgFreeBlocksCount i + 1)
        sFreeBlocksCount := d.sFreeBlocksCount + 1 }

/-- The range touches the system zone of group `i`. -/
def freesSystemZone (g : Geometry) (i block gcount : Nat) : Bool :=
  inRange (g.bgBlockBitmap i) block gcount || inRange (g.bgInodeBitmap i) block gcount ||
    inRange block (g.bgInodeTable i) g.itbPerGroup ||
    inRange (block + gcount - 1) (g.bgInodeTable i) g.itbPerGroup

/-- The loop over the groups that a range to be freed extends over. -/
def freeGroups (g : Geometry) : Nat → Nat → Nat → Disk → Option Disk
  | 0, _, _, _ => none
  | fuel + 1, block, count, d =>
      let i := g.groupOf block
      let bit := g.bitOf block
      let gcount :=
        if g.blocksPerGroup < bit + count then count - (bit + count - g.blocksPerGroup) else count
      if freesSystemZone g i block gcount then none
      else
        let d := (List.range gcount).foldl (fun d t => freeBit i d (bit + t)) d
        if 0 < count - gcount then freeGroups g fuel (block + gcount) (count - gcount) d
        else some d

/-- `ext2_free_blocks`. Every round of the loop frees a block, so that `count` rounds do, and one
for an empty range. -/
def ext2FreeBlocks (g : Geometry) (block count : Nat) (d : Disk) : Option Disk :=
  if ¬(g.groupDescBlockEnd ≤ block ∧ block + count ≤ g.storeBlocks) then none
  else if block < g.firstDataBlock ∨ g.blocksCount < block + count then some d
  else freeGroups g (count + 1) block count d

def Fs.setPrealloc (s : Fs) (node : Nat) (w : Prealloc) : Fs :=
  { s with prealloc := update s.prealloc node w }

def ext2DiscardPrealloc (g : Geometry) (node : Nat) (s : Fs) : Option Fs :=
  let w := s.prealloc node
  if w.count ≠ 0 then
    (ext2FreeBlocks g w.block w.count s.disk).map fun d =>
      { s.setPrealloc node ⟨w.block, 0⟩ with disk := d }
  else some s

/-- `ext2_new_block` with the window of `node` as its output arguments, or without if
`preallocGoal` is 0. -/
def newBlockFor (g : Geometry) (fuel node goal preallocGoal : Nat) (s : Fs) : Option (Fs × Nat) :=
  (ext2NewBlock g goal preallocGoal fuel s.disk).map fun (d, block, window) =>
    ({ s with
        disk := d
        prealloc := update s.prealloc node (window.getD (s.prealloc node)) }, block)

inductive FileKind where
  | reg
  | dir
  | other
deriving DecidableEq

def preallocGoal (g : Geometry) : FileKind → Nat
  | .reg => if g.sPreallocBlocks ≠ 0 then g.sPreallocBlocks else ext2DefaultPreallocBlocks
  | .dir => if g.dirPrealloc then g.sPreallocDirBlocks else 0
  | .other => 0

/-- `ext2_alloc_block`, without the clearing of the block. -/
def ext2AllocBlock (g : Geometry) (fuel node goal : Nat) (kind : FileKind) (s : Fs) :
    Option (Fs × Nat) :=
  let w := s.prealloc node
  let result :=
    if w.count ≠ 0 ∧ (goal = w.block ∨ (goal + 1) % 2 ^ 32 = w.block) then
      some (s.setPrealloc node ⟨w.block + 1, w.count - 1⟩, w.block)
    else
      (ext2DiscardPrealloc g node s).bind fun s =>
        newBlockFor g fuel node goal (preallocGoal g kind) s
  result.filter fun r => allocatable g r.2

inductive BlockOp where
  | newBlock (node goal preallocGoal : Nat)
  | allocBlock (node goal : Nat) (kind : FileKind)
  | discardPrealloc (node : Nat)
  | freeBlocks (block count : Nat)

def Fs.handOut (s : Fs) (block : Nat) : Fs :=
  { s with handed := if block = 0 then s.handed else insert block s.handed }

/-- One call: the state afterwards, and the block that it hands out, or 0. -/
def blockRun (g : Geometry) (fuel : Nat) (s : Fs) : BlockOp → Option (Fs × Nat)
  | .newBlock node goal preallocGoal =>
      (newBlockFor g fuel node goal preallocGoal s).map fun r => (r.1.handOut r.2, r.2)
  | .allocBlock node goal kind =>
      (ext2AllocBlock g fuel node goal kind s).map fun r => (r.1.handOut r.2, r.2)
  | .discardPrealloc node => (ext2DiscardPrealloc g node s).map fun s => (s, 0)
  | .freeBlocks block count =>
      (ext2FreeBlocks g block count s.disk).map fun d =>
        ({ s with
            disk := d
            handed := s.handed.filter fun b => ¬(block ≤ b ∧ b < block + count) }, 0)

def blockStep (g : Geometry) (fuel : Nat) (s : Fs) (op : BlockOp) : Option Fs :=
  (blockRun g fuel s op).map Prod.fst

/-- A file system that has just been mounted. -/
def mounted (d : Disk) : Fs := ⟨d, fun _ => ⟨0, 0⟩, ∅⟩

end Hurd.Ext2fs
