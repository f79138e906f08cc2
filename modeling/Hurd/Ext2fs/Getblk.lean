import Hurd.Ext2fs.BlockMap

/-!
# The slot of a logical block

`ext2_getblk` of `ext2fs/getblk.c` finds the pointer of a logical block: in the inode, or by one
index after the other through indirect blocks. Its bound check admits one block more than the
pointers can hold.
-/

namespace Hurd.Ext2fs

inductive GetblkError where
  | eio
  | einval
  | enospc
  deriving DecidableEq, Repr

def ext2IndBlock : Nat := ext2NdirBlocks

def ext2DindBlock : Nat := ext2IndBlock + 1

def ext2TindBlock : Nat := ext2DindBlock + 1

def ext2NBlocks : Nat := ext2TindBlock + 1

/-- What `ext2_getblk` changes itself, and all else. -/
structure GetblkState (σ : Type) where
  nextAllocBlock : Nat
  nextAllocGoal : Nat
  rest : σ

abbrev GetblkM (σ : Type) := ExceptT GetblkError (StateM (GetblkState σ))

/-- The functions that look up one pointer, and may allocate a block for it. The second argument
tells if this is to be an indirect block, which is then cleared. -/
structure Lookups (σ : Type) where
  inodeGetblk (nr : Nat) (zero : Bool) : GetblkM σ Nat
  blockGetblk (block nr : Nat) (zero : Bool) : GetblkM σ Nat

/-- A sequential allocation goes on behind the last one. -/
def noteSequential {σ : Type} (block : Nat) : GetblkM σ Unit :=
  modify fun s =>
    if block = s.nextAllocBlock + 1 then
      { s with nextAllocBlock := s.nextAllocBlock + 1, nextAllocGoal := s.nextAllocGoal + 1 }
    else s

/-- The bound that `ext2_getblk` checks. -/
def BlockSize.capacity (z : BlockSize) : Nat :=
  ext2NdirBlocks + z.addrPerBlock + z.addrPerBlock * z.addrPerBlock +
    z.addrPerBlock * z.addrPerBlock * z.addrPerBlock

def ext2Getblk {σ : Type} (z : BlockSize) (ops : Lookups σ) (block : Nat) : GetblkM σ Nat :=
  let n := z.addrPerBlock
  if z.capacity < block then throw .eio
  else noteSequential block >>= fun _ =>
    if block < ext2NdirBlocks then ops.inodeGetblk block false
    else
      let block := block - ext2NdirBlocks
      if block < n then
        ops.inodeGetblk ext2IndBlock true >>= fun indir =>
        ops.blockGetblk indir block false
      else
        let block := block - n
        if block < n * n then
          ops.inodeGetblk ext2DindBlock true >>= fun indir =>
          ops.blockGetblk indir (block / n) true >>= fun indir =>
          ops.blockGetblk indir (block &&& (n - 1)) false
        else
          let block := block - n * n
          ops.inodeGetblk ext2TindBlock true >>= fun indir =>
          ops.blockGetblk indir (block / (n * n)) true >>= fun indir =>
          ops.blockGetblk indir (block / n &&& (n - 1)) true >>= fun indir =>
          ops.blockGetblk indir (block &&& (n - 1)) false

/-- A pointer of the inode, or one of the block that another pointer leads to. -/
inductive BlockSlot where
  | inode (nr : Nat)
  | entry (holder : BlockSlot) (nr : Nat)
  deriving DecidableEq, Repr

namespace BlockSlot

/-- Every index is one of the array that it is used in. -/
def InRange (n : Nat) : BlockSlot → Prop
  | inode nr => nr < ext2NBlocks
  | entry holder nr => holder.InRange n ∧ nr < n

/-- The lookup of a pointer, after all those that lead to it. -/
def lookup {σ : Type} (ops : Lookups σ) : BlockSlot → Bool → GetblkM σ Nat
  | inode nr, zero => ops.inodeGetblk nr zero
  | entry holder nr, zero => holder.lookup ops true >>= fun indir => ops.blockGetblk indir nr zero

/-- The number of the pointer among those of its level below one pointer of the inode. -/
def index (n : Nat) : BlockSlot → Nat
  | inode _ => 0
  | entry holder nr => holder.index n * n + nr

/-- The pointer of the inode on the way. -/
def root : BlockSlot → Nat
  | inode nr => nr
  | entry holder _ => holder.root

/-- The first logical block below a pointer of the inode. -/
def firstBlock (n nr : Nat) : Nat :=
  if nr = ext2TindBlock then ext2NdirBlocks + n + n * n
  else if nr = ext2DindBlock then ext2NdirBlocks + n
  else nr

/-- The logical block of a pointer. -/
def position (n : Nat) (slot : BlockSlot) : Nat := firstBlock n slot.root + slot.index n

end BlockSlot

namespace BlockSize

variable (z : BlockSize)

/-- The pointer to a logical block. -/
def slot (block : Nat) : BlockSlot :=
  let n := z.addrPerBlock
  if block < ext2NdirBlocks then .inode block
  else
    let block := block - ext2NdirBlocks
    if block < n then .entry (.inode ext2IndBlock) block
    else
      let block := block - n
      if block < n * n then
        .entry (.entry (.inode ext2DindBlock) (block / n)) (block &&& (n - 1))
      else
        let block := block - n * n
        .entry (.entry (.entry (.inode ext2TindBlock) (block / (n * n))) (block / n &&& (n - 1)))
          (block &&& (n - 1))

end BlockSize

variable {σ : Type}

theorem ext2Getblk_eq (z : BlockSize) (ops : Lookups σ) (block : Nat) :
    ext2Getblk z ops block =
      if z.capacity < block then throw .eio
      else noteSequential block >>= fun _ => (z.slot block).lookup ops false := by
  unfold ext2Getblk BlockSize.slot
  dsimp only
  by_cases hbound : z.capacity < block
  · rw [if_pos hbound, if_pos hbound]
  rw [if_neg hbound, if_neg hbound]
  by_cases hdirect : block < ext2NdirBlocks
  · simp only [if_pos hdirect, BlockSlot.lookup]
  by_cases hsingle : block - ext2NdirBlocks < z.addrPerBlock
  · simp only [if_neg hdirect, if_pos hsingle, BlockSlot.lookup]
  by_cases hdouble : block - ext2NdirBlocks - z.addrPerBlock < z.addrPerBlock * z.addrPerBlock
  · simp only [if_neg hdirect, if_neg hsingle, if_pos hdouble, BlockSlot.lookup, bind_assoc]
  · simp only [if_neg hdirect, if_neg hsingle, if_neg hdouble, BlockSlot.lookup, bind_assoc]

namespace BlockSize

variable (z : BlockSize)

theorem mask_eq (i : Nat) : i &&& (z.addrPerBlock - 1) = i % z.addrPerBlock := by
  have hpow : z.addrPerBlock = 2 ^ (8 + z.log) := by
    rw [addrPerBlock, Nat.pow_add]
  rw [hpow, Nat.and_two_pow_sub_one_eq_mod]

theorem position_slot (block : Nat) : (z.slot block).position z.addrPerBlock = block := by
  unfold slot
  dsimp only
  by_cases hdirect : block < ext2NdirBlocks
  · rw [if_pos hdirect]
    unfold ext2NdirBlocks at hdirect
    have hdind : block ≠ ext2DindBlock := by
      rintro rfl
      exact absurd hdirect (by decide)
    have htind : block ≠ ext2TindBlock := by
      rintro rfl
      exact absurd hdirect (by decide)
    rw [BlockSlot.position, BlockSlot.root, BlockSlot.firstBlock, if_neg htind, if_neg hdind,
      BlockSlot.index, Nat.add_zero]
  rw [if_neg hdirect]
  by_cases hsingle : block - ext2NdirBlocks < z.addrPerBlock
  · rw [if_pos hsingle]
    have hfirst : BlockSlot.firstBlock z.addrPerBlock ext2IndBlock = ext2NdirBlocks := rfl
    simp only [BlockSlot.position, BlockSlot.root, BlockSlot.index, hfirst]
    omega
  rw [if_neg hsingle]
  by_cases hdouble : block - ext2NdirBlocks - z.addrPerBlock < z.addrPerBlock * z.addrPerBlock
  · rw [if_pos hdouble, mask_eq]
    have hfirst : BlockSlot.firstBlock z.addrPerBlock ext2DindBlock =
        ext2NdirBlocks + z.addrPerBlock := rfl
    simp only [BlockSlot.position, BlockSlot.root, BlockSlot.index, hfirst, Nat.zero_mul,
      Nat.zero_add, Nat.div_add_mod']
    omega
  · rw [if_neg hdouble, mask_eq, mask_eq, ← Nat.div_div_eq_div_mul]
    have hfirst : BlockSlot.firstBlock z.addrPerBlock ext2TindBlock =
        ext2NdirBlocks + z.addrPerBlock + z.addrPerBlock * z.addrPerBlock := rfl
    simp only [BlockSlot.position, BlockSlot.root, BlockSlot.index, hfirst, Nat.zero_mul,
      Nat.zero_add, Nat.div_add_mod']
    omega

theorem slot_injective : Function.Injective z.slot := by
  intro a b h
  rw [← z.position_slot a, ← z.position_slot b, h]

theorem slot_inRange_iff (block : Nat) :
    (z.slot block).InRange z.addrPerBlock ↔ block < z.capacity := by
  have hpos := z.addrPerBlock_pos
  unfold slot capacity
  dsimp only
  by_cases hdirect : block < ext2NdirBlocks
  · rw [if_pos hdirect, BlockSlot.InRange]
    unfold ext2NBlocks ext2TindBlock ext2DindBlock ext2IndBlock
    omega
  rw [if_neg hdirect]
  by_cases hsingle : block - ext2NdirBlocks < z.addrPerBlock
  · rw [if_pos hsingle]
    have hroot : ext2IndBlock < ext2NBlocks := by decide
    simp only [BlockSlot.InRange, hroot, true_and]
    omega
  rw [if_neg hsingle]
  by_cases hdouble : block - ext2NdirBlocks - z.addrPerBlock < z.addrPerBlock * z.addrPerBlock
  · rw [if_pos hdouble, mask_eq]
    have hroot : ext2DindBlock < ext2NBlocks := by decide
    have hhigh := Nat.div_lt_of_lt_mul hdouble
    have hlow := Nat.mod_lt (block - ext2NdirBlocks - z.addrPerBlock) hpos
    simp only [BlockSlot.InRange, hroot, hhigh, hlow, true_and, true_iff]
    omega
  · rw [if_neg hdouble, mask_eq, mask_eq]
    have hroot : ext2TindBlock < ext2NBlocks := by decide
    have hmid := Nat.mod_lt ((block - ext2NdirBlocks - z.addrPerBlock -
      z.addrPerBlock * z.addrPerBlock) / z.addrPerBlock) hpos
    have hlow := Nat.mod_lt (block - ext2NdirBlocks - z.addrPerBlock -
      z.addrPerBlock * z.addrPerBlock) hpos
    simp only [BlockSlot.InRange, hroot, hmid, hlow, true_and, and_true]
    rw [Nat.div_lt_iff_lt_mul (Nat.mul_pos hpos hpos), ← Nat.mul_assoc]
    omega

end BlockSize

/-- A block that is not refused is looked up in the arrays that there are, by a slot that is no
other's, exactly if it is not the one that the bound check lets through behind the last. -/
theorem getblk_slot_iff (z : BlockSize) (ops : Lookups σ) {block : Nat}
    (hbound : ¬z.capacity < block) :
    ext2Getblk z ops block = (noteSequential block >>= fun _ => (z.slot block).lookup ops false) ∧
      ((z.slot block).InRange z.addrPerBlock ∧
          (∀ other, ¬z.capacity < other → z.slot other = z.slot block → other = block) ↔
        block ≠ z.capacity) := by
  rw [ext2Getblk_eq, if_neg hbound, z.slot_inRange_iff]
  refine ⟨rfl, ?_⟩
  constructor
  · rintro ⟨hlt, -⟩
    omega
  · intro hne
    exact ⟨by omega, fun other _ heq => z.slot_injective heq⟩

def emptyLookups : Lookups Unit where
  inodeGetblk _ _ := throw .einval
  blockGetblk _ _ _ := throw .einval

theorem getblk_slot_iff_single :
    ext2Getblk .kilobyte emptyLookups 20 =
        (noteSequential 20 >>= fun _ => (BlockSize.kilobyte.slot 20).lookup emptyLookups false) ∧
      ((BlockSize.kilobyte.slot 20).InRange BlockSize.kilobyte.addrPerBlock ∧
          (∀ other, ¬BlockSize.kilobyte.capacity < other →
            BlockSize.kilobyte.slot other = BlockSize.kilobyte.slot 20 → other = 20) ↔
        20 ≠ BlockSize.kilobyte.capacity) :=
  getblk_slot_iff .kilobyte emptyLookups (by decide)

/-- With blocks of 1024 bytes, block 16843020 has the pointer 256 of 256. -/
theorem getblk_behind_last :
    ¬BlockSize.kilobyte.capacity < 16843020 ∧
      ¬(BlockSize.kilobyte.slot 16843020).InRange BlockSize.kilobyte.addrPerBlock := by
  rw [BlockSize.slot_inRange_iff]
  decide

end Hurd.Ext2fs
