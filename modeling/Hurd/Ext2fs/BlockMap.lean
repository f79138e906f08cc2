import Mathlib.Algebra.Order.Ring.Nat
import Mathlib.Data.List.Basic
import Mathlib.Data.Nat.Log

/-!
# The block map of a file

The block pointers of an inode: twelve direct ones, and one single, one double and one triple
indirect one. An indirect block is stored with the pointer that leads to it. In a well formed file
no two pointers lead to the same block, so that writing to one indirect block changes no other.
-/

namespace Hurd.Ext2fs

open List

def ext2NdirBlocks : Nat := 12

/-- `s_log_block_size`, for blocks of at most `EXT2_MAX_BLOCK_SIZE` bytes. -/
structure BlockSize where
  log : Nat
  log_le : log ≤ 2

namespace BlockSize

def kilobyte : BlockSize := ⟨0, by decide⟩

variable (z : BlockSize)

def bytes : Nat := 1024 * 2 ^ z.log

def addrPerBlock : Nat := 256 * 2 ^ z.log

/-- `1 << log2_stat_blocks_per_fs_block` -/
def statBlocks : Nat := 2 * 2 ^ z.log

theorem addrPerBlock_pos : 0 < z.addrPerBlock := by
  have := Nat.two_pow_pos z.log
  rw [addrPerBlock]
  omega

theorem le_bytes : 1024 ≤ z.bytes := by
  have := Nat.two_pow_pos z.log
  rw [bytes]
  omega

theorem bytes_pos : 0 < z.bytes := by
  have := z.le_bytes
  omega

theorem bytes_le : z.bytes ≤ 4096 := by
  have hpow : 2 ^ z.log ≤ 2 ^ 2 := Nat.pow_le_pow_right (by decide) z.log_le
  rw [bytes]
  omega

theorem bytes_mod : z.bytes % 4 = 0 := by
  rw [bytes]
  omega

end BlockSize

/-- A block pointer of level `k`, where 0 is a hole: a data block at level 0, and an indirect block
with its entries above. -/
inductive BlockPtr : Nat → Type
  | data (block : Nat) : BlockPtr 0
  | indirect {k : Nat} (block : Nat) (entries : Nat → BlockPtr k) : BlockPtr (k + 1)

/-- A block of the file: its level, its number, and the first position that it covers. -/
structure BlockNode where
  level : Nat
  block : Nat
  start : Nat
  deriving DecidableEq, Repr

namespace BlockPtr

variable {k : Nat}

/-- The value of the pointer. -/
def block : BlockPtr k → Nat
  | .data block => block
  | .indirect block _ => block

/-- The pointer set to 0. The indirect block stays as it is. -/
def clear : BlockPtr k → BlockPtr k
  | .data _ => .data 0
  | .indirect _ entries => .indirect 0 entries

/-- The data block at a position below the pointer, or 0. -/
def find (n : Nat) : {k : Nat} → BlockPtr k → Nat → Nat
  | _, .data block, _ => block
  | k + 1, .indirect block entries, pos =>
      if block = 0 then 0 else (entries (pos / n ^ k)).find n (pos % n ^ k)

/-- The blocks below the pointer that covers the positions from `offset` on, an indirect block
behind its entries. -/
def nodes (n : Nat) : {k : Nat} → BlockPtr k → Nat → List BlockNode
  | _, .data block, offset => if block = 0 then [] else [⟨0, block, offset⟩]
  | k + 1, .indirect block entries, offset =>
      if block = 0 then []
      else
        (List.range n).flatMap (fun i => (entries i).nodes n (offset + i * n ^ k)) ++
          [⟨k + 1, block, offset⟩]

theorem nodes_data (n block offset : Nat) :
    (data block).nodes n offset = if block = 0 then [] else [⟨0, block, offset⟩] :=
  rfl

theorem nodes_indirect {n block : Nat} (entries : Nat → BlockPtr k) (h : block ≠ 0)
    (offset : Nat) :
    (indirect block entries).nodes n offset =
      (List.range n).flatMap (fun i => (entries i).nodes n (offset + i * n ^ k)) ++
        [⟨k + 1, block, offset⟩] :=
  if_neg h

theorem block_eq_zero_of_nodes {p : BlockPtr k} (n offset : Nat)
    (h : p.nodes n offset = []) : p.block = 0 := by
  cases p with
  | data block =>
    rw [nodes_data] at h
    split at h
    · assumption
    · cases h
  | indirect block entries =>
    by_cases hblock : block = 0
    · exact hblock
    · rw [nodes_indirect entries hblock] at h
      exact absurd h (append_ne_nil_of_right_ne_nil _ (cons_ne_nil _ _))

end BlockPtr

/-- `i_data` of an inode. -/
structure BlockMap where
  direct : Nat → Nat
  single : BlockPtr 1
  double : BlockPtr 2
  triple : BlockPtr 3

namespace BlockMap

variable (n : Nat) (m : BlockMap)

/-- `ext2_getblk` without `create`: the disk block at a position, or 0 for its `EINVAL`. -/
def getblk (block : Nat) : Nat :=
  if block < ext2NdirBlocks then m.direct block
  else
    let block := block - ext2NdirBlocks
    if block < n then m.single.find n block
    else
      let block := block - n
      if block < n * n then m.double.find n block
      else m.triple.find n (block - n * n)

/-- The blocks that the direct pointers lead to. -/
def directNodes : List BlockNode :=
  (List.range ext2NdirBlocks).flatMap fun i => (BlockPtr.data (m.direct i)).nodes n i

def nodes : List BlockNode :=
  m.directNodes n ++ m.single.nodes n ext2NdirBlocks ++ m.double.nodes n (ext2NdirBlocks + n) ++
    m.triple.nodes n (ext2NdirBlocks + n + n * n)

/-- The positions that a block map can hold. -/
def size : Nat := ext2NdirBlocks + n + n * n + n * n * n

variable {n m}

end BlockMap

end Hurd.Ext2fs
