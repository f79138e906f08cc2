import Mathlib.Algebra.Order.BigOperators.Group.Finset
import Hurd.Ext2fs.BallocSearch

/-!
# Inode allocation

`ext2_alloc_inode` and `diskfs_free_node` of `ext2fs/ialloc.c`, over the inode bitmaps, the counts
of free inodes and of directories in the group descriptors, and the count of free inodes in the
superblock.

A result `none` stands for a search that has not come to an end.
-/

namespace Hurd.Ext2fs

open BitString Function Finset

/-- What the functions read and never write. Every group has the same number of inodes, a bitmap
fits in one block, and an inode number has 32 bits. -/
structure InodeGeometry where
  inodesCount : Nat
  inodesPerGroup : Nat
  groupsCount : Nat
  /-- `EXT2_FIRST_INO`, the first inode that is not reserved. -/
  firstIno : Nat
  /-- The width of an `unsigned long`. -/
  longBits : Nat
  groups_pos : 0 < groupsCount
  perGroup_pos : 0 < inodesPerGroup
  perGroup_le : inodesPerGroup ≤ 8 * ext2MaxBlockSize
  count_eq : inodesCount = groupsCount * inodesPerGroup
  count_lt : inodesCount < 2 ^ 32
  first_pos : 0 < firstIno

/-- The bitmaps and the counts. -/
structure InodeDisk where
  bitmap : Nat → BitString
  bgFreeInodesCount : Nat → BitVec 16
  bgUsedDirsCount : Nat → BitVec 16
  sFreeInodesCount : BitVec 32

namespace InodeGeometry

variable (g : InodeGeometry)

/-- `inode_group_num` -/
def groupOf (inum : Nat) : Nat := (inum - 1) / g.inodesPerGroup

def bitOf (inum : Nat) : Nat := (inum - 1) % g.inodesPerGroup

/-- The inode that bit `j` of the bitmap of group `i` stands for. -/
def inodeAt (i j : Nat) : Nat := i * g.inodesPerGroup + j + 1

/-- An inode that exists and is not reserved. -/
def Ordinary (inum : Nat) : Prop := g.firstIno ≤ inum ∧ inum ≤ g.inodesCount

instance (inum : Nat) : Decidable (g.Ordinary inum) := inferInstanceAs (Decidable (_ ∧ _))

end InodeGeometry

/-- Whether the bitmaps have the inode in use. -/
def InodeDisk.used (d : InodeDisk) (g : InodeGeometry) (inum : Nat) : Bool :=
  (d.bitmap (g.groupOf inum)).bit (g.bitOf inum)

/-- For a directory: of the groups with at least the average number of free inodes, the first
among those with the most free blocks. `k` groups are left to look at. -/
def directoryGroup (avefreei : Nat) (free freeBlocks : Nat → BitVec 16) :
    Nat → Nat → Option Nat → Option Nat
  | 0, _, best => best
  | k + 1, j, best =>
      let better : Bool :=
        match best with
        | none => true
        | some i => (freeBlocks i).toNat < (freeBlocks j).toNat
      if free j ≠ 0 ∧ avefreei ≤ (free j).toNat ∧ better then
        directoryGroup avefreei free freeBlocks k (j + 1) (some j)
      else directoryGroup avefreei free freeBlocks k (j + 1) best

/-- The quadratic hash. `j` doubles in each round, so that as many rounds as groups are enough. -/
def quadraticGroup (groups : Nat) (free : Nat → BitVec 16) : Nat → Nat → Nat → Option Nat
  | 0, _, _ => none
  | k + 1, j, i =>
      if j < groups then
        let i := if groups ≤ i + j then i + j - groups else i + j
        if free i ≠ 0 then some i else quadraticGroup groups free k (2 * j) i
      else none

/-- The group that `ext2_alloc_inode` takes an inode from. -/
def chooseGroup (g : InodeGeometry) (dirInum : Nat) (isDir : Bool) (freeBlocks : Nat → BitVec 16)
    (d : InodeDisk) : Option Nat :=
  let free := d.bgFreeInodesCount
  if isDir then
    directoryGroup (d.sFreeInodesCount.toNat / g.groupsCount) free freeBlocks g.groupsCount 0 none
  else
    let parent := g.groupOf dirInum
    if free parent ≠ 0 then some parent
    else
      match quadraticGroup g.groupsCount free g.groupsCount 1 parent with
      | some i => some i
      | none => nextGroup g.groupsCount free (g.groupsCount - 2) (parent + 1)

/-- The counts after an inode of group `i` has been taken. -/
def InodeDisk.take (d : InodeDisk) (i : Nat) (isDir : Bool) : InodeDisk :=
  { d with
    bgFreeInodesCount := update d.bgFreeInodesCount i (d.bgFreeInodesCount i - 1)
    bgUsedDirsCount :=
      if isDir then update d.bgUsedDirsCount i (d.bgUsedDirsCount i + 1)
      else d.bgUsedDirsCount
    sFreeInodesCount := d.sFreeInodesCount - 1 }

/-- The counts after an inode of group `i` has been given back. -/
def InodeDisk.give (d : InodeDisk) (i : Nat) (isDir : Bool) : InodeDisk :=
  { d with
    bgFreeInodesCount := update d.bgFreeInodesCount i (d.bgFreeInodesCount i + 1)
    bgUsedDirsCount :=
      if isDir then update d.bgUsedDirsCount i (d.bgUsedDirsCount i - 1)
      else d.bgUsedDirsCount
    sFreeInodesCount := d.sFreeInodesCount + 1 }

def InodeDisk.setBitmap (d : InodeDisk) (i : Nat) (bh : BitString) : InodeDisk :=
  { d with bitmap := update d.bitmap i bh }

/-- `ext2_alloc_inode`, with at most `fuel` turns of `goto repeat`. The free-block counts are
those at the time of the call. -/
def ext2AllocInode (g : InodeGeometry) (dirInum : Nat) (isDir : Bool)
    (freeBlocks : Nat → BitVec 16) : Nat → InodeDisk → Option (InodeDisk × Nat)
  | 0, _ => none
  | fuel + 1, d =>
      match chooseGroup g dirInum isDir freeBlocks d with
      | none => some (d, 0)
      | some i =>
          let bit := findFirstZeroBit g.longBits (d.bitmap i) g.inodesPerGroup
          if bit < g.inodesPerGroup then
            let (was, bh) := setBit bit (d.bitmap i)
            let d := d.setBitmap i bh
            if was then ext2AllocInode g dirInum isDir freeBlocks fuel d
            else
              -- `i * s_inodes_per_group + 1` is computed in 32 bits
              let inum := bit + (i * g.inodesPerGroup + 1) % 2 ^ 32
              if g.Ordinary inum then some (d.take i isDir, inum) else some (d, 0)
          else if d.bgFreeInodesCount i ≠ 0 then some (d, 0)
          else ext2AllocInode g dirInum isDir freeBlocks fuel d

/-- `diskfs_free_node`, of a node whose mode was that of a directory or not. -/
def diskfsFreeNode (g : InodeGeometry) (inum : Nat) (isDir : Bool) (d : InodeDisk) : InodeDisk :=
  if g.Ordinary inum then
    let i := g.groupOf inum
    let (was, bh) := clearBit (g.bitOf inum) (d.bitmap i)
    let d := d.setBitmap i bh
    if was then d.give i isDir else d
  else d

/-- The file system. The second field is a history variable: the inodes that have been allocated
as directories and not been freed since. -/
structure InodeFs where
  disk : InodeDisk
  dirs : Finset Nat

inductive InodeOp where
  | alloc (dirInum : Nat) (isDir : Bool) (freeBlocks : Nat → BitVec 16)
  | free (inum : Nat) (isDir : Bool)

/-- A call, with the inode number that it returns. -/
def inodeRun (g : InodeGeometry) (fuel : Nat) (s : InodeFs) : InodeOp → Option (InodeFs × Nat)
  | .alloc dirInum isDir freeBlocks =>
      (ext2AllocInode g dirInum isDir freeBlocks fuel s.disk).map fun (d, inum) =>
        (⟨d, if isDir ∧ inum ≠ 0 then insert inum s.dirs else s.dirs⟩, inum)
  | .free inum isDir =>
      some (⟨diskfsFreeNode g inum isDir s.disk,
        if g.Ordinary inum then s.dirs.erase inum else s.dirs⟩, 0)

def inodeStep (g : InodeGeometry) (fuel : Nat) (s : InodeFs) (op : InodeOp) : Option InodeFs :=
  (inodeRun g fuel s op).map Prod.fst

/-- The parent is an inode of the file system, and a node that is freed had the mode of a
directory when it is one. -/
def InodeOp.Ok (g : InodeGeometry) (s : InodeFs) : InodeOp → Prop
  | .alloc dirInum _ _ => 1 ≤ dirInum ∧ dirInum ≤ g.inodesCount
  | .free inum isDir => s.disk.used g inum = true → (isDir = true ↔ inum ∈ s.dirs)

section Numbering

variable {g : InodeGeometry}

theorem inodeAt_group {i j : Nat} (hj : j < g.inodesPerGroup) : g.groupOf (g.inodeAt i j) = i := by
  rw [InodeGeometry.groupOf, InodeGeometry.inodeAt, Nat.add_sub_cancel, Nat.mul_comm,
    Nat.mul_add_div g.perGroup_pos, Nat.div_eq_of_lt hj, Nat.add_zero]

theorem inodeAt_bit {i j : Nat} (hj : j < g.inodesPerGroup) : g.bitOf (g.inodeAt i j) = j := by
  rw [InodeGeometry.bitOf, InodeGeometry.inodeAt, Nat.add_sub_cancel, Nat.mul_comm,
    Nat.mul_add_mod, Nat.mod_eq_of_lt hj]

theorem inodeAt_groupOf {inum : Nat} (h : 1 ≤ inum) :
    g.inodeAt (g.groupOf inum) (g.bitOf inum) = inum := by
  rw [InodeGeometry.inodeAt, InodeGeometry.groupOf, InodeGeometry.bitOf, Nat.mul_comm,
    Nat.div_add_mod]
  omega

theorem inode_bitOf_lt (inum : Nat) : g.bitOf inum < g.inodesPerGroup :=
  Nat.mod_lt _ g.perGroup_pos

theorem inode_groupOf_lt {inum : Nat} (h : 1 ≤ inum) (hle : inum ≤ g.inodesCount) :
    g.groupOf inum < g.groupsCount := by
  rw [InodeGeometry.groupOf, Nat.div_lt_iff_lt_mul g.perGroup_pos]
  have hcount := g.count_eq
  omega

theorem inodeAt_le {i j : Nat} (hi : i < g.groupsCount) (hj : j < g.inodesPerGroup) :
    g.inodeAt i j ≤ g.inodesCount := by
  have hmul : (i + 1) * g.inodesPerGroup ≤ g.groupsCount * g.inodesPerGroup :=
    Nat.mul_le_mul_right _ hi
  have hcount := g.count_eq
  rw [Nat.add_mul] at hmul
  rw [InodeGeometry.inodeAt]
  omega

theorem inode_eq_iff {inum i j : Nat} (h : 1 ≤ inum) (hj : j < g.inodesPerGroup) :
    g.groupOf inum = i ∧ g.bitOf inum = j ↔ inum = g.inodeAt i j := by
  constructor
  · rintro ⟨rfl, rfl⟩
    exact (inodeAt_groupOf h).symm
  · rintro rfl
    exact ⟨inodeAt_group hj, inodeAt_bit hj⟩

end Numbering

section Choosing

variable {groups : Nat} {free : Nat → BitVec 16}

theorem directoryGroup_spec {avefreei : Nat} {freeBlocks : Nat → BitVec 16} {k j i : Nat}
    {best : Option Nat} (hend : j + k = groups) (hbest : ∀ b ∈ best, b < groups ∧ free b ≠ 0)
    (h : directoryGroup avefreei free freeBlocks k j best = some i) :
    i < groups ∧ free i ≠ 0 := by
  induction k generalizing j best with
  | zero => exact hbest i h
  | succ k ih =>
    simp only [directoryGroup] at h
    split_ifs at h with hbetter
    · refine ih (by omega) ?_ h
      intro b hb
      cases hb
      exact ⟨by omega, hbetter.1⟩
    · exact ih (by omega) hbest h

theorem quadraticGroup_spec {k j i i' : Nat} (hi : i < groups)
    (h : quadraticGroup groups free k j i = some i') : i' < groups ∧ free i' ≠ 0 := by
  induction k generalizing j i with
  | zero => cases h
  | succ k ih =>
    simp only [quadraticGroup] at h
    generalize hnext : (if groups ≤ i + j then i + j - groups else i + j) = next at h
    split_ifs at h with hj hfree
    all_goals have hlt : next < groups := by split_ifs at hnext <;> omega
    · cases h
      exact ⟨hlt, hfree⟩
    · exact ih hlt h

theorem nextGroup_free {k i i' : Nat} (h : nextGroup groups free k i = some i') :
    free i' ≠ 0 := by
  induction k generalizing i with
  | zero => cases h
  | succ k ih =>
    simp only [nextGroup] at h
    split_ifs at h with hwrap hfree hfree
    · cases h
      exact fun hzero => by simp [hzero] at hfree
    · exact ih h
    · cases h
      exact fun hzero => by simp [hzero] at hfree
    · exact ih h

theorem chooseGroup_spec {g : InodeGeometry} {dirInum : Nat} {isDir : Bool}
    {freeBlocks : Nat → BitVec 16} {d : InodeDisk} {i : Nat}
    (hparent : 1 ≤ dirInum ∧ dirInum ≤ g.inodesCount)
    (h : chooseGroup g dirInum isDir freeBlocks d = some i) :
    i < g.groupsCount ∧ d.bgFreeInodesCount i ≠ 0 := by
  have hlt := inode_groupOf_lt hparent.1 hparent.2
  simp only [chooseGroup] at h
  split_ifs at h with hdir hfree
  · exact directoryGroup_spec (Nat.zero_add _) (by simp) h
  · cases h
    exact ⟨hlt, hfree⟩
  · cases hquad : quadraticGroup g.groupsCount d.bgFreeInodesCount g.groupsCount 1
        (g.groupOf dirInum) with
    | some i' =>
      rw [hquad] at h
      cases h
      exact quadraticGroup_spec hlt hquad
    | none =>
      rw [hquad] at h
      exact ⟨nextGroup_lt g.groups_pos h, nextGroup_free h⟩

end Choosing

/-- The counts agree with the bitmaps and with the directories, and the reserved inodes and the
directories are in use. -/
structure InodeConsistent (g : InodeGeometry) (s : InodeFs) : Prop where
  group : ∀ i < g.groupsCount,
    (s.disk.bgFreeInodesCount i).toNat = (s.disk.bitmap i).zeros g.inodesPerGroup
  total : s.disk.sFreeInodesCount.toNat =
    ∑ i ∈ Finset.range g.groupsCount, (s.disk.bgFreeInodesCount i).toNat
  dirCount : ∀ i < g.groupsCount,
    (s.disk.bgUsedDirsCount i).toNat = (s.dirs.filter fun inum => g.groupOf inum = i).card
  reserved : ∀ inum, 1 ≤ inum → inum < g.firstIno → inum ≤ g.inodesCount →
    s.disk.used g inum = true
  dirs_used : ∀ inum ∈ s.dirs, 1 ≤ inum ∧ inum ≤ g.inodesCount ∧ s.disk.used g inum = true

section Consistent

variable {g : InodeGeometry} {s : InodeFs}

theorem toNat_sub_one {w : Nat} {b : BitVec w} (h : 0 < b.toNat) :
    (b - 1).toNat + 1 = b.toNat := by
  have hlt := b.isLt
  have hone : (1 : BitVec w).toNat = 1 := by
    rw [BitVec.ofNat_eq_ofNat, BitVec.toNat_ofNat]
    exact Nat.mod_eq_of_lt (show 1 < 2 ^ w by omega)
  rw [BitVec.toNat_sub, hone, show 2 ^ w - 1 + b.toNat = 2 ^ w + (b.toNat - 1) by omega,
    Nat.add_mod_left, Nat.mod_eq_of_lt (by omega)]
  omega

theorem toNat_add_one {w : Nat} {b : BitVec w} (h : b.toNat + 1 < 2 ^ w) :
    (b + 1).toNat = b.toNat + 1 := by
  have hone : (1 : BitVec w).toNat = 1 := by
    rw [BitVec.ofNat_eq_ofNat, BitVec.toNat_ofNat]
    exact Nat.mod_eq_of_lt (show 1 < 2 ^ w by omega)
  rw [BitVec.toNat_add, hone, Nat.mod_eq_of_lt h]

theorem inode_zeros_lt (g : InodeGeometry) (bh : BitString) :
    bh.zeros g.inodesPerGroup < 2 ^ 16 := by
  have hle := zeros_le bh g.inodesPerGroup
  have hper := g.perGroup_le
  simp only [ext2MaxBlockSize] at hper
  omega

theorem card_dirs_lt (g : InodeGeometry) (dirs : Finset Nat) (hdirs : ∀ inum ∈ dirs, 1 ≤ inum) (i : Nat) :
    (dirs.filter fun inum => g.groupOf inum = i).card < 2 ^ 16 := by
  have hsub : (dirs.filter fun inum => g.groupOf inum = i) ⊆
      (Finset.range g.inodesPerGroup).image (g.inodeAt i) := by
    intro inum hmem
    obtain ⟨hin, rfl⟩ := mem_filter.mp hmem
    apply mem_image.mpr
    exact ⟨g.bitOf inum, mem_range.mpr (inode_bitOf_lt inum),
      inodeAt_groupOf (hdirs inum hin)⟩
  have hcard := (card_le_card hsub).trans card_image_le
  rw [card_range] at hcard
  have hper := g.perGroup_le
  simp only [ext2MaxBlockSize] at hper
  omega

theorem sum_free_lt (free : Nat → BitVec 16)
    (h : ∀ i < g.groupsCount, (free i).toNat ≤ g.inodesPerGroup) :
    ∑ i ∈ Finset.range g.groupsCount, (free i).toNat < 2 ^ 32 := by
  have hle := sum_le_card_nsmul (Finset.range g.groupsCount)
    (fun i => (free i).toNat) g.inodesPerGroup fun i hi => h i (mem_range.mp hi)
  rw [card_range] at hle
  exact Nat.lt_of_le_of_lt (hle.trans_eq g.count_eq.symm) g.count_lt

theorem used_setBitmap {d : InodeDisk} {i j inum : Nat} (hj : j < g.inodesPerGroup)
    (hinum : 1 ≤ inum) :
    (d.setBitmap i ((d.bitmap i).setBit j)).used g inum =
      (d.used g inum || decide (inum = g.inodeAt i j)) := by
  simp only [InodeDisk.used, InodeDisk.setBitmap, update_apply]
  split_ifs with hi
  · rw [bit_setBit, hi]
    congr 2
    rw [← inode_eq_iff hinum hj]
    simp [hi]
  · rw [decide_eq_false, Bool.or_false]
    rw [← inode_eq_iff hinum hj]
    exact fun h => hi h.1

theorem used_clearBitmap {d : InodeDisk} {i j inum : Nat} (hj : j < g.inodesPerGroup)
    (hinum : 1 ≤ inum) :
    (d.setBitmap i ((d.bitmap i).clearBit j)).used g inum =
      (d.used g inum && !decide (inum = g.inodeAt i j)) := by
  simp only [InodeDisk.used, InodeDisk.setBitmap, update_apply]
  split_ifs with hi
  · rw [bit_clearBit, hi]
    congr 3
    rw [← inode_eq_iff hinum hj]
    simp [hi]
  · rw [decide_eq_false, Bool.not_false, Bool.and_true]
    rw [← inode_eq_iff hinum hj]
    exact fun h => hi h.1

@[simp] theorem used_take (d : InodeDisk) (i : Nat) (isDir : Bool) (inum : Nat) :
    (d.take i isDir).used g inum = d.used g inum := rfl

@[simp] theorem used_give (d : InodeDisk) (i : Nat) (isDir : Bool) (inum : Nat) :
    (d.give i isDir).used g inum = d.used g inum := rfl

theorem InodeConsistent.take (h : InodeConsistent g s) {i j : Nat} (hi : i < g.groupsCount)
    (hj : j < g.inodesPerGroup) (hzero : (s.disk.bitmap i).bit j = false) (isDir : Bool) :
    InodeConsistent g
      ⟨(s.disk.setBitmap i ((s.disk.bitmap i).setBit j)).take i isDir,
        if isDir then insert (g.inodeAt i j) s.dirs else s.dirs⟩ := by
  have hz := zeros_setBit hj hzero
  have hgroup := h.group i hi
  have hbound := inode_zeros_lt g (s.disk.bitmap i)
  have hfree := toNat_sub_one (b := s.disk.bgFreeInodesCount i) (by omega)
  have hdirs : ∀ inum ∈ s.dirs, 1 ≤ inum := fun inum hmem => (h.dirs_used inum hmem).1
  have hnew : g.inodeAt i j ∉ s.dirs := by
    intro hmem
    have hused := (h.dirs_used _ hmem).2.2
    rw [InodeDisk.used, inodeAt_group hj, inodeAt_bit hj, hzero] at hused
    cases hused
  have hpos : 1 ≤ g.inodeAt i j := Nat.succ_pos _
  constructor
  case group =>
    intro i' hi'
    simp only [InodeDisk.take, InodeDisk.setBitmap, update_apply]
    split_ifs with heq
    · omega
    · exact h.group i' hi'
  case total =>
    have hsum := sum_update (Finset.range g.groupsCount) (fun b : BitVec 16 => b.toNat)
      s.disk.bgFreeInodesCount (mem_range.mpr hi) (s.disk.bgFreeInodesCount i - 1)
    have htotal := h.total
    have htake := toNat_sub_one (b := s.disk.sFreeInodesCount) (by omega)
    simp only [InodeDisk.take, InodeDisk.setBitmap]
    omega
  case dirCount =>
    intro i' hi'
    have hcount := h.dirCount i' hi'
    cases isDir with
    | false => exact hcount
    | true =>
      have hlt := card_dirs_lt g (insert (g.inodeAt i j) s.dirs) (by
        intro inum hmem
        rcases mem_insert.mp hmem with rfl | hmem
        · exact hpos
        · exact hdirs inum hmem) i'
      simp only [InodeDisk.take, InodeDisk.setBitmap, update_apply, if_true,
        filter_insert, inodeAt_group hj] at hlt ⊢
      by_cases heq : i' = i
      · subst heq
        have hcard : (insert (g.inodeAt i' j)
            (s.dirs.filter fun inum => g.groupOf inum = i')).card =
            (s.dirs.filter fun inum => g.groupOf inum = i').card + 1 :=
          card_insert_of_notMem (by simp [hnew])
        simp only [if_true, hcard] at hlt ⊢
        rw [toNat_add_one (by omega), hcount]
      · rw [if_neg (Ne.symm heq), if_neg heq]
        exact hcount
  case reserved =>
    intro inum hpos hlt hle
    rw [used_take, used_setBitmap hj hpos, h.reserved inum hpos hlt hle]
    rfl
  case dirs_used =>
    intro inum hmem
    have hold : inum ∈ s.dirs ∨ inum = g.inodeAt i j := by
      cases isDir with
      | false => exact .inl hmem
      | true => exact (mem_insert.mp hmem).symm
    rcases hold with hold | rfl
    · obtain ⟨hone, hle, hused⟩ := h.dirs_used inum hold
      refine ⟨hone, hle, ?_⟩
      rw [used_take, used_setBitmap hj hone, hused]
      rfl
    · refine ⟨hpos, inodeAt_le hi hj, ?_⟩
      rw [used_take, used_setBitmap hj hpos]
      simp

theorem InodeConsistent.give (h : InodeConsistent g s) {inum : Nat} (hord : g.Ordinary inum)
    (hone : s.disk.used g inum = true) {isDir : Bool} (hdir : isDir = true ↔ inum ∈ s.dirs) :
    InodeConsistent g
      ⟨(s.disk.setBitmap (g.groupOf inum)
          ((s.disk.bitmap (g.groupOf inum)).clearBit (g.bitOf inum))).give (g.groupOf inum) isDir,
        s.dirs.erase inum⟩ := by
  have hpos : 1 ≤ inum := Nat.le_trans g.first_pos hord.1
  have hi := inode_groupOf_lt hpos hord.2
  have hj := inode_bitOf_lt (g := g) inum
  have hz := zeros_clearBit hj hone
  have hgroup := h.group _ hi
  have hbound := inode_zeros_lt g
    ((s.disk.bitmap (g.groupOf inum)).clearBit (g.bitOf inum))
  have hfree := toNat_add_one (b := s.disk.bgFreeInodesCount (g.groupOf inum)) (by omega)
  have hself := inodeAt_groupOf (g := g) hpos
  have hkept : ∀ n, 1 ≤ n → n ≠ inum → s.disk.used g n = true →
      ((s.disk.setBitmap (g.groupOf inum)
        ((s.disk.bitmap (g.groupOf inum)).clearBit (g.bitOf inum))).give
          (g.groupOf inum) isDir).used g n = true := by
    intro n hn hne hused
    rw [used_give, used_clearBitmap hj hn, hself, hused]
    simp [hne]
  constructor
  case group =>
    intro i' hi'
    simp only [InodeDisk.give, InodeDisk.setBitmap, update_apply]
    split_ifs with heq
    · omega
    · exact h.group i' hi'
  case total =>
    have hsum := sum_update (Finset.range g.groupsCount) (fun b : BitVec 16 => b.toNat)
      s.disk.bgFreeInodesCount (mem_range.mpr hi)
      (s.disk.bgFreeInodesCount (g.groupOf inum) + 1)
    have htotal := h.total
    have hall := sum_free_lt (g := g)
      (update s.disk.bgFreeInodesCount (g.groupOf inum)
        (s.disk.bgFreeInodesCount (g.groupOf inum) + 1)) (by
          intro i' hi'
          rw [update_apply]
          split_ifs with heq
          · rw [hfree, hgroup, ← hz]
            exact zeros_le _ _
          · rw [h.group i' hi']
            exact zeros_le _ _)
    have hgive := toNat_add_one (b := s.disk.sFreeInodesCount) (by omega)
    simp only [InodeDisk.give, InodeDisk.setBitmap]
    omega
  case dirCount =>
    intro i' hi'
    have hcount := h.dirCount i' hi'
    cases isDir with
    | false =>
      have hnot : inum ∉ s.dirs := by simpa using hdir
      rw [erase_eq_of_notMem hnot]
      exact hcount
    | true =>
      have hmem : inum ∈ s.dirs := hdir.mp rfl
      simp only [InodeDisk.give, InodeDisk.setBitmap, update_apply, if_true,
        filter_erase]
      by_cases heq : i' = g.groupOf inum
      · subst heq
        have hin : inum ∈ s.dirs.filter fun n => g.groupOf n = g.groupOf inum := by
          simp [hmem]
        have hcard := card_erase_add_one hin
        have hsub := toNat_sub_one (b := s.disk.bgUsedDirsCount (g.groupOf inum)) (by omega)
        rw [if_pos rfl]
        omega
      · have hnot : inum ∉ s.dirs.filter fun n => g.groupOf n = i' := by
          simp [Ne.symm heq]
        rw [if_neg heq, erase_eq_of_notMem hnot]
        exact hcount
  case reserved =>
    intro n hn hlt hle
    have hne : n ≠ inum := by
      have hfirst := hord.1
      omega
    exact hkept n hn hne (h.reserved n hn hlt hle)
  case dirs_used =>
    intro n hmem
    obtain ⟨hne, hmem⟩ := mem_erase.mp hmem
    obtain ⟨hn, hle, hused⟩ := h.dirs_used n hmem
    exact ⟨hn, hle, hkept n hn hne hused⟩

theorem InodeConsistent.ordinary (h : InodeConsistent g s) {i j : Nat} (hi : i < g.groupsCount)
    (hj : j < g.inodesPerGroup) (hzero : (s.disk.bitmap i).bit j = false) :
    g.Ordinary (g.inodeAt i j) := by
  refine ⟨?_, inodeAt_le hi hj⟩
  by_contra hreserved
  have hused := h.reserved (g.inodeAt i j) (Nat.succ_pos _) (by omega) (inodeAt_le hi hj)
  rw [InodeDisk.used, inodeAt_group hj, inodeAt_bit hj, hzero] at hused
  cases hused

/-- `ext2_alloc_inode` fails, or takes an inode that is not in use. -/
inductive Allocated (g : InodeGeometry) (d : InodeDisk) (isDir : Bool) : InodeDisk → Nat → Prop
  | full : Allocated g d isDir d 0
  | taken {i j : Nat} : i < g.groupsCount → j < g.inodesPerGroup → (d.bitmap i).bit j = false →
      g.Ordinary (g.inodeAt i j) →
      Allocated g d isDir ((d.setBitmap i ((d.bitmap i).setBit j)).take i isDir) (g.inodeAt i j)

theorem ext2AllocInode_found {d : InodeDisk} {dirInum i : Nat} {isDir : Bool}
    {freeBlocks : Nat → BitVec 16} (hgroup : chooseGroup g dirInum isDir freeBlocks d = some i)
    (hi : i < g.groupsCount)
    (hfound : findFirstZeroBit g.longBits (d.bitmap i) g.inodesPerGroup < g.inodesPerGroup)
    (fuel : Nat) :
    let j := findFirstZeroBit g.longBits (d.bitmap i) g.inodesPerGroup
    (d.bitmap i).bit j = false ∧
      ext2AllocInode g dirInum isDir freeBlocks (fuel + 1) d =
        if g.Ordinary (g.inodeAt i j) then
          some ((d.setBitmap i ((d.bitmap i).setBit j)).take i isDir, g.inodeAt i j)
        else some (d.setBitmap i ((d.bitmap i).setBit j), 0) := by
  intro j
  have hzero : (d.bitmap i).bit j = false := findNextZeroBit_zero hfound
  have hle : g.inodeAt i j ≤ g.inodesCount := inodeAt_le hi hfound
  have hlt := g.count_lt
  have hinum : j + (i * g.inodesPerGroup + 1) % 2 ^ 32 = g.inodeAt i j := by
    rw [InodeGeometry.inodeAt] at hle ⊢
    rw [Nat.mod_eq_of_lt (by omega)]
    omega
  have hset : setBit j (d.bitmap i) = (false, (d.bitmap i).setBit j) := by
    simp [setBit, hzero]
  refine ⟨hzero, ?_⟩
  simp only [ext2AllocInode, hgroup, if_pos hfound, j, hset, hinum, Bool.false_eq_true, if_false]

theorem ext2AllocInode_spec (h : InodeConsistent g s) {dirInum : Nat}
    (hparent : 1 ≤ dirInum ∧ dirInum ≤ g.inodesCount) (isDir : Bool)
    (freeBlocks : Nat → BitVec 16) (fuel : Nat) :
    ∃ d inum, ext2AllocInode g dirInum isDir freeBlocks (fuel + 1) s.disk = some (d, inum) ∧
      Allocated g s.disk isDir d inum := by
  cases hgroup : chooseGroup g dirInum isDir freeBlocks s.disk with
  | none => exact ⟨_, _, by rw [ext2AllocInode, hgroup], .full⟩
  | some i =>
    obtain ⟨hi, hfree⟩ := chooseGroup_spec hparent hgroup
    by_cases hfound : findFirstZeroBit g.longBits (s.disk.bitmap i) g.inodesPerGroup <
        g.inodesPerGroup
    · obtain ⟨hzero, hrun⟩ := ext2AllocInode_found hgroup hi hfound fuel
      have hord := h.ordinary hi hfound hzero
      rw [if_pos hord] at hrun
      exact ⟨_, _, hrun, .taken hi hfound hzero hord⟩
    · refine ⟨_, _, ?_, .full⟩
      simp only [ext2AllocInode, hgroup]
      rw [if_neg hfound, if_pos hfree]

theorem InodeConsistent.run (h : InodeConsistent g s) {op : InodeOp} (hop : op.Ok g s)
    (fuel : Nat) : ∃ t inum, inodeRun g (fuel + 1) s op = some (t, inum) ∧
      InodeConsistent g t ∧ (inum ≠ 0 → g.Ordinary inum ∧ s.disk.used g inum = false) := by
  cases op with
  | alloc dirInum isDir freeBlocks =>
    obtain ⟨d, inum, hrun, halloc⟩ := ext2AllocInode_spec h hop isDir freeBlocks fuel
    refine ⟨_, _, by simp only [inodeRun, hrun]; rfl, ?_⟩
    cases halloc with
    | full => exact ⟨by simpa using h, by simp⟩
    | @taken i j hi hj hzero hord =>
      refine ⟨?_, fun _ => ⟨hord, ?_⟩⟩
      · have hne : g.inodeAt i j ≠ 0 := Nat.succ_ne_zero _
        simpa [hne] using h.take hi hj hzero isDir
      · rw [InodeDisk.used, inodeAt_group hj, inodeAt_bit hj]
        exact hzero
  | free inum isDir =>
    refine ⟨_, _, rfl, ?_, by simp⟩
    by_cases hord : g.Ordinary inum
    · simp only [diskfsFreeNode, if_pos hord]
      cases hbit : s.disk.used g inum with
      | true =>
        have hclear : clearBit (g.bitOf inum) (s.disk.bitmap (g.groupOf inum)) =
            (true, (s.disk.bitmap (g.groupOf inum)).clearBit (g.bitOf inum)) := by
          rw [clearBit, testBit_eq]
          exact if_pos hbit
        rw [hclear]
        exact h.give hord hbit (hop hbit)
      | false =>
        have hclear : clearBit (g.bitOf inum) (s.disk.bitmap (g.groupOf inum)) =
            (false, s.disk.bitmap (g.groupOf inum)) := by
          rw [clearBit, testBit_eq, if_neg (by rw [InodeDisk.used] at hbit; simp [hbit])]
        have hnot : inum ∉ s.dirs := by
          intro hmem
          rw [(h.dirs_used inum hmem).2.2] at hbit
          cases hbit
        rw [hclear, erase_eq_of_notMem hnot]
        simpa [InodeDisk.setBitmap] using h
    · simpa [diskfsFreeNode, hord] using h

end Consistent

/-- In every state that a consistent file system reaches, the counts agree with the bitmaps and
with the directories; a call returns, and an inode that it hands out is neither in use nor
reserved. -/
theorem ext2_inodes_consistent (g : InodeGeometry) (fuel : Nat) (s₀ s : InodeFs)
    (hinit : InodeConsistent g s₀) (hs : Reach (inodeStep g fuel) (InodeOp.Ok g) s₀ s)
    (hfuel : 0 < fuel) :
    InodeConsistent g s ∧
      ∀ op, op.Ok g s → ∃ t inum, inodeRun g fuel s op = some (t, inum) ∧
        (inum ≠ 0 → g.Ordinary inum ∧ s.disk.used g inum = false) := by
  obtain ⟨fuel, rfl⟩ := Nat.exists_eq_succ_of_ne_zero (Nat.ne_of_gt hfuel)
  have hinv : InodeConsistent g s := by
    apply hs.invariant (InodeConsistent g) hinit
    intro s op t hs hop hstep
    obtain ⟨u, inum, hrun, hu, _⟩ := hs.run hop fuel
    simp only [inodeStep, hrun, Option.map_some, Option.some.injEq] at hstep
    exact hstep ▸ hu
  refine ⟨hinv, ?_⟩
  intro op hop
  obtain ⟨t, inum, hrun, _, hnew⟩ := hinv.run hop fuel
  exact ⟨t, inum, hrun, hnew⟩

def smallInodes : InodeGeometry where
  inodesCount := 16
  inodesPerGroup := 16
  groupsCount := 1
  firstIno := 11
  longBits := 64
  groups_pos := by decide
  perGroup_pos := by decide
  perGroup_le := by decide
  count_eq := by decide
  count_lt := by decide
  first_pos := by decide

/-- The reserved inodes are in use, among them the root directory. -/
def smallInodeFs : InodeFs where
  disk := ⟨fun _ _ => 0x3ff, fun _ => 6, fun _ => 1, 6⟩
  dirs := {2}

theorem ext2_inodes_consistent_small :
    ∃ s, Reach (inodeStep smallInodes 1) (InodeOp.Ok smallInodes) smallInodeFs s ∧
      s.dirs = {2, 11} ∧ InodeConsistent smallInodes s := by
  have hinit : InodeConsistent smallInodes smallInodeFs := by
    constructor
    case group => decide
    case total => decide
    case dirCount => decide
    case reserved =>
      intro inum hpos hlt _
      have hall : ∀ n < 11, 1 ≤ n → smallInodeFs.disk.used smallInodes n = true := by decide
      exact hall inum hlt hpos
    case dirs_used => decide
  have hrun : (inodeStep smallInodes 1 smallInodeFs (.alloc 2 true fun _ => 0)).map
      (fun s => s.dirs) = some {2, 11} := by decide
  obtain ⟨s, hs, hdirs⟩ := Option.map_eq_some_iff.mp hrun
  have hreach : Reach (inodeStep smallInodes 1) (InodeOp.Ok smallInodes) smallInodeFs s :=
    .step (.alloc 2 true fun _ => 0) .start ⟨by decide, by decide⟩ hs
  exact ⟨s, hreach, hdirs,
    (ext2_inodes_consistent smallInodes 1 smallInodeFs s hinit hreach (by decide)).1⟩

end Hurd.Ext2fs
