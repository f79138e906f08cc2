import Hurd.Ext2fs.Balloc
import Hurd.Ext2fs.BlockMap
import Mathlib.Tactic.Ring

/-!
# Truncation

`diskfs_truncate` of `ext2fs/truncate.c`, with the block map as it is when the partial last block
has been zeroed and the preallocated blocks have been given back. The blocks are freed by way of a
run of adjacent ones that is handed to `ext2_free_blocks` as a whole; the model records the
arguments of these calls.
-/

namespace Hurd.Ext2fs

open Function List

/-- A `block_t`. -/
def blockT (x : Nat) : Nat := x % 2 ^ 32

/-- `struct free_block_run`, with `st_blocks` of its node and the arguments of the calls of
`ext2_free_blocks`. -/
structure FreeBlockRun where
  firstBlock : Nat
  numBlocks : Nat
  stBlocks : Int
  freed : List (Nat × Nat)

namespace FreeBlockRun

variable (statBlocks : Nat) (fbr : FreeBlockRun)

def flush (count : Nat) : FreeBlockRun :=
  { fbr with
    stBlocks := fbr.stBlocks - count * statBlocks
    freed := fbr.freed ++ [(fbr.firstBlock, count)] }

/-- `free_block_run_add` -/
def add (block : Nat) : FreeBlockRun :=
  let count := fbr.numBlocks
  if count = 0 then { fbr with firstBlock := block, numBlocks := count + 1 }
  else if fbr.firstBlock + count = block then { fbr with numBlocks := count + 1 }
  else { fbr.flush statBlocks count with firstBlock := block, numBlocks := 1 }

def freePtr {k : Nat} (p : BlockPtr k) : BlockPtr k × FreeBlockRun :=
  if p.block ≠ 0 then (p.clear, fbr.add statBlocks p.block) else (p, fbr)

def finish : FreeBlockRun :=
  if 0 < fbr.numBlocks then fbr.flush statBlocks fbr.numBlocks else fbr

end FreeBlockRun

section Indirect

variable (z : BlockSize) (stop : Nat)

/-- The loop of `trunc_indirect`, for `count` entries from `index` on. The result holds the
entries and `all_freed`. -/
def truncEntries {k : Nat}
    (freeBlock : BlockPtr k → Nat → FreeBlockRun → BlockPtr k × FreeBlockRun) :
    Nat → Nat → (Nat → BlockPtr k) → Bool → FreeBlockRun →
      (Nat → BlockPtr k) × Bool × FreeBlockRun
  | 0, _, entries, allFreed, fbr => (entries, allFreed, fbr)
  | count + 1, index, entries, allFreed, fbr =>
      if (entries index).block ≠ 0 then
        let (p, fbr) := freeBlock (entries index) index fbr
        truncEntries freeBlock count (index + 1) (update entries index p)
          (allFreed && p.block = 0) fbr
      else truncEntries freeBlock count (index + 1) entries allFreed fbr

/-- `trunc_indirect`, with `stop` for its `end`. -/
def truncIndirect {k : Nat} (p : BlockPtr (k + 1)) (offset : Nat)
    (freeBlock : BlockPtr k → Nat → FreeBlockRun → BlockPtr k × FreeBlockRun)
    (fbr : FreeBlockRun) : BlockPtr (k + 1) × FreeBlockRun :=
  match p with
  | .indirect block entries =>
      if block ≠ 0 then
        let first := if stop < offset then 0 else stop - offset
        let (entries, allFreed, fbr) :=
          truncEntries freeBlock (z.addrPerBlock - first) first entries true fbr
        if first = 0 ∧ allFreed then fbr.freePtr z.statBlocks (.indirect block entries)
        else (.indirect block entries, fbr)
      else (.indirect block entries, fbr)

def truncSingleIndirect (p : BlockPtr 1) (offset : Nat) (fbr : FreeBlockRun) :
    BlockPtr 1 × FreeBlockRun :=
  truncIndirect z stop p offset (fun p _ fbr => fbr.freePtr z.statBlocks p) fbr

def truncDoubleIndirect (p : BlockPtr 2) (offset : Nat) (fbr : FreeBlockRun) :
    BlockPtr 2 × FreeBlockRun :=
  truncIndirect z stop p offset
    (fun p index fbr =>
      truncSingleIndirect z stop p (blockT (offset + index * z.addrPerBlock)) fbr) fbr

def truncTripleIndirect (p : BlockPtr 3) (offset : Nat) (fbr : FreeBlockRun) :
    BlockPtr 3 × FreeBlockRun :=
  truncIndirect z stop p offset
    (fun p index fbr =>
      truncDoubleIndirect z stop p
        (blockT (offset + index * z.addrPerBlock * z.addrPerBlock)) fbr) fbr

/-- The loop of `trunc_direct`, for `count` pointers from `index` on. -/
def truncDirect : Nat → Nat → (Nat → Nat) → FreeBlockRun → (Nat → Nat) × FreeBlockRun
  | 0, _, blocks, fbr => (blocks, fbr)
  | count + 1, index, blocks, fbr =>
      let (p, fbr) := fbr.freePtr z.statBlocks (.data (blocks index))
      truncDirect count (index + 1) (update blocks index p.block) fbr

end Indirect

/-- The fields of a node that `diskfs_truncate` uses. -/
structure FileNode where
  kind : FileKind
  stSize : Nat
  stBlocks : Int
  map : BlockMap

/-- A file without blocks whose pointers hold something else, such as the target of a symbolic
link. -/
def FileNode.inline (f : FileNode) : Bool := f.stBlocks = 0 && f.kind = .other

/-- The first block behind the new length. -/
def endBlock (z : BlockSize) (length : Nat) : Nat := (length + z.bytes - 1) / z.bytes

/-- `diskfs_truncate`. The result holds the node and the calls of `ext2_free_blocks`. -/
def diskfsTruncate (z : BlockSize) (f : FileNode) (length : Nat) :
    FileNode × List (Nat × Nat) :=
  if f.stSize ≤ length then (f, [])
  else if f.inline then ({ f with stSize := length }, [])
  else
    let stop := blockT (endBlock z length)
    let n := z.addrPerBlock
    let fbr : FreeBlockRun := ⟨0, 0, f.stBlocks, []⟩
    let (direct, fbr) := truncDirect z (ext2NdirBlocks - stop) stop f.map.direct fbr
    let offs := ext2NdirBlocks
    let (single, fbr) := truncSingleIndirect z stop f.map.single offs fbr
    let offs := offs + n
    let (double, fbr) := truncDoubleIndirect z stop f.map.double offs fbr
    let offs := offs + n * n
    let (triple, fbr) := truncTripleIndirect z stop f.map.triple offs fbr
    let fbr := fbr.finish z.statBlocks
    ({ f with
        stSize := length
        stBlocks := fbr.stBlocks
        map := ⟨direct, single, double, triple⟩ }, fbr.freed)

namespace FreeBlockRun

variable {st : Nat} {fbr : FreeBlockRun}

/-- The blocks of the calls of `ext2_free_blocks`, one by one. -/
def expand (calls : List (Nat × Nat)) : List Nat := calls.flatMap fun c => List.range' c.1 c.2

/-- The blocks added so far. -/
def blocks (fbr : FreeBlockRun) : List Nat :=
  expand fbr.freed ++ List.range' fbr.firstBlock fbr.numBlocks

/-- `st_blocks` once the run has been freed. -/
def due (st : Nat) (fbr : FreeBlockRun) : Int := fbr.stBlocks - fbr.numBlocks * st

def addAll (st : Nat) (fbr : FreeBlockRun) (l : List Nat) : FreeBlockRun := l.foldl (add st) fbr

theorem addAll_append (l l' : List Nat) :
    (fbr.addAll st l).addAll st l' = fbr.addAll st (l ++ l') := by
  simp only [addAll, foldl_append]

end FreeBlockRun

section Lists

variable {α : Type*} {l : List Nat} {f g : Nat → List α}

end Lists

section Indirect

variable (z : BlockSize) (stop : Nat)

/-- Below a pointer of level `k + 1` for the positions from `offset` on: the pointer itself is
reached when it starts at or after `stop`, and what lies below its entries is reached when the
index of the entry is at least `stop - offset`. -/
def reachedBelow (k offset : Nat) (x : BlockNode) : Bool :=
  if x.level = k + 1 then stop ≤ offset
  else stop - offset ≤ (x.start - offset) / z.addrPerBlock ^ k

variable {z stop}

/-- All blocks below the pointer are freed, in order, and the pointer is 0. -/
def FreesWhole {k : Nat} (z : BlockSize) (p : BlockPtr k) (offset : Nat)
    (free : FreeBlockRun → BlockPtr k × FreeBlockRun) : Prop :=
  ∀ fbr, (free fbr).1.block = 0 ∧
    (free fbr).2 = fbr.addAll z.statBlocks ((p.nodes z.addrPerBlock offset).map (·.block))

/-- What is reached below the pointer is freed, in order, and the rest stays. -/
def Truncates {k : Nat} (z : BlockSize) (stop : Nat) (p : BlockPtr (k + 1)) (offset : Nat)
    (trunc : FreeBlockRun → BlockPtr (k + 1) × FreeBlockRun) : Prop :=
  ∀ fbr,
    (trunc fbr).1.nodes z.addrPerBlock offset =
        (p.nodes z.addrPerBlock offset).filter (fun x => !reachedBelow z stop k offset x) ∧
      (trunc fbr).2 = fbr.addAll z.statBlocks
        (((p.nodes z.addrPerBlock offset).filter (reachedBelow z stop k offset)).map (·.block))

theorem reachedBelow_of_le {k offset : Nat} (h : stop ≤ offset) (x : BlockNode) :
    reachedBelow z stop k offset x = true := by
  rw [reachedBelow]
  split
  · exact decide_eq_true h
  · rw [Nat.sub_eq_zero_of_le h]
    exact decide_eq_true (Nat.zero_le _)

theorem Truncates.whole {k : Nat} {p : BlockPtr (k + 1)} {offset : Nat}
    {trunc : FreeBlockRun → BlockPtr (k + 1) × FreeBlockRun} (h : Truncates z stop p offset trunc)
    (hle : stop ≤ offset) : FreesWhole z p offset trunc := by
  intro fbr
  obtain ⟨hnodes, hrun⟩ := h fbr
  constructor
  · apply BlockPtr.block_eq_zero_of_nodes z.addrPerBlock offset
    rw [hnodes, filter_eq_nil_iff]
    intro x _
    simp [reachedBelow_of_le hle]
  · rw [hrun, filter_eq_self.mpr fun x _ => reachedBelow_of_le hle x]

end Indirect

section File

variable (z : BlockSize) (stop : Nat)

/-- The loops come to the block: a direct block from `stop` on, and one below a top-level indirect
block by the index of its entry there. -/
def reached (x : BlockNode) : Bool :=
  let n := z.addrPerBlock
  if x.start < ext2NdirBlocks then stop ≤ x.start
  else if x.start < ext2NdirBlocks + n then reachedBelow z stop 0 ext2NdirBlocks x
  else if x.start < ext2NdirBlocks + n + n * n then
    reachedBelow z stop 1 (ext2NdirBlocks + n) x
  else reachedBelow z stop 2 (ext2NdirBlocks + n + n * n) x

variable {z stop} {m : BlockMap} {x : BlockNode}

/-- `q` frees its part of the map, in order, and keeps the rest. -/
def FreesReached (z : BlockSize) (stop : Nat) (before after : List BlockNode)
    (fbr fbr' : FreeBlockRun) : Prop :=
  after = before.filter (fun x => !reached z stop x) ∧
    fbr' = fbr.addAll z.statBlocks ((before.filter (reached z stop)).map (·.block))

theorem FreesReached.append {before before' after after' : List BlockNode}
    {fbr fbr' fbr'' : FreeBlockRun} (h : FreesReached z stop before after fbr fbr')
    (h' : FreesReached z stop before' after' fbr' fbr'') :
    FreesReached z stop (before ++ before') (after ++ after') fbr fbr'' := by
  constructor
  · rw [filter_append, h.1, h'.1]
  · rw [filter_append, map_append, h'.2, h.2, FreeBlockRun.addAll_append]

variable {f : FileNode} {length : Nat}

/-- No position before `stop` is mapped by way of the block `x`. -/
def Unused (z : BlockSize) (m : BlockMap) (stop : Nat) (x : BlockNode) : Prop :=
  ∀ pos < stop, x.start ≤ pos → pos < x.start + z.addrPerBlock ^ x.level →
    m.getblk z.addrPerBlock pos = 0

end File

end Hurd.Ext2fs
