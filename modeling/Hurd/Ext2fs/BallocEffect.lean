import Mathlib.Algebra.Order.BigOperators.Group.Finset
import Hurd.Ext2fs.BallocSearch

/-!
# What the allocator does to the disk

For each function of the allocator, what it does to the bitmaps, and that it keeps the free-block
counts at the two levels equal to the numbers of zero bits.
-/

namespace Hurd.Ext2fs

open BitString List Function

/-- The free-block count of each group is the number of zero bits of its bitmap, and the count of
the superblock is their sum. -/
structure Counted (g : Geometry) (d : Disk) : Prop where
  group : ∀ i < g.groupsCount,
    (d.bgFreeBlocksCount i).toNat = (d.bitmap i).zeros g.blocksPerGroup
  total : d.sFreeBlocksCount.toNat =
    ∑ i ∈ Finset.range g.groupsCount, (d.bitmap i).zeros g.blocksPerGroup

theorem groups_mul_lt (g : Geometry) : g.groupsCount * g.blocksPerGroup < 2 ^ 32 := by
  have hle : g.groupsCount * g.blocksPerGroup ≤
      g.blocksCount - g.firstDataBlock + g.blocksPerGroup - 1 := Nat.div_mul_le_self _ _
  have hfit := g.blocks_fit
  have hpos := g.perGroup_pos
  omega

theorem sum_zeros_lt (g : Geometry) (bitmap : Nat → BitString) :
    ∑ i ∈ Finset.range g.groupsCount, (bitmap i).zeros g.blocksPerGroup < 2 ^ 32 := by
  have hle := Finset.sum_le_card_nsmul (Finset.range g.groupsCount)
    (fun i => (bitmap i).zeros g.blocksPerGroup) g.blocksPerGroup
    fun i _ => zeros_le (bitmap i) g.blocksPerGroup
  rw [Finset.card_range] at hle
  exact Nat.lt_of_le_of_lt hle (groups_mul_lt g)

theorem zeros_lt (g : Geometry) (bh : BitString) : bh.zeros g.blocksPerGroup < 2 ^ 16 := by
  have hle := zeros_le bh g.blocksPerGroup
  have hper := g.perGroup_le
  simp only [ext2MaxBlockSize] at hper
  omega

section Counts

variable {g : Geometry} {d : Disk}

theorem takeOff_takeOff (d : Disk) (i m n : Nat) :
    (d.takeOff i m).takeOff i n = d.takeOff i (m + n) := by
  simp only [Disk.takeOff, update_self, update_idem, BitVec.ofNat_add]
  congr 1
  · congr 1
    exact BitVec.sub_sub _ _ _
  · exact BitVec.sub_sub _ _ _

theorem bit_setBitmap (d : Disk) (i : Nat) (bh : BitString) (i' j : Nat) :
    (d.setBitmap i bh).bit i' j = if i' = i then bh.bit j else d.bit i' j := by
  simp only [Disk.bit, Disk.setBitmap, update_apply]
  split_ifs <;> rfl

@[simp] theorem bit_takeOff (d : Disk) (i n i' j : Nat) :
    (d.takeOff i n).bit i' j = d.bit i' j := rfl

theorem Counted.claim (hd : Counted g d) {i n : Nat} (hi : i < g.groupsCount) {bh : BitString}
    (hz : bh.zeros g.blocksPerGroup + n = (d.bitmap i).zeros g.blocksPerGroup) :
    Counted g ((d.setBitmap i bh).takeOff i n) := by
  have hold := hd.group i hi
  have hsum := sum_update (Finset.range g.groupsCount) (fun w => w.zeros g.blocksPerGroup)
    d.bitmap (Finset.mem_range.mpr hi) bh
  have hbound := zeros_lt g (d.bitmap i)
  have hall := sum_zeros_lt g d.bitmap
  constructor
  · intro i' hi'
    simp only [Disk.takeOff, Disk.setBitmap, update_apply]
    split_ifs with heq
    · rw [BitVec.toNat_sub, BitVec.toNat_ofNat, Nat.mod_eq_of_lt (a := n) (by omega)]
      omega
    · exact hd.group i' hi'
  · have htotal := hd.total
    simp only [Disk.takeOff, Disk.setBitmap]
    rw [BitVec.toNat_sub, BitVec.toNat_ofNat, Nat.mod_eq_of_lt (a := n) (by omega)]
    omega

theorem Counted.freeBit (hd : Counted g d) {i j : Nat} (hi : i < g.groupsCount)
    (hj : j < g.blocksPerGroup) : Counted g (freeBit i d j) := by
  unfold Ext2fs.freeBit clearBit
  rw [testBit_eq]
  cases hbit : (d.bitmap i).bit j with
  | false => exact hd
  | true =>
    have hz := zeros_clearBit hj hbit
    have hold := hd.group i hi
    have hsum := sum_update (Finset.range g.groupsCount) (fun w => w.zeros g.blocksPerGroup)
      d.bitmap (Finset.mem_range.mpr hi) ((d.bitmap i).clearBit j)
    have hbound := zeros_lt g ((d.bitmap i).clearBit j)
    have hall := sum_zeros_lt g (update d.bitmap i ((d.bitmap i).clearBit j))
    constructor
    · intro i' hi'
      simp only [if_true, update_apply]
      split_ifs with heq
      · rw [BitVec.toNat_add, hz, hold]
        apply Nat.mod_eq_of_lt
        simp
        omega
      · exact hd.group i' hi'
    · have htotal := hd.total
      simp only [if_true]
      rw [BitVec.toNat_add, Nat.mod_eq_of_lt (by simp; omega)]
      simp
      omega

theorem bit_freeBit (d : Disk) (i j i' j' : Nat) :
    (freeBit i d j).bit i' j' = (d.bit i' j' && !decide (i' = i ∧ j' = j)) := by
  unfold freeBit clearBit
  rw [testBit_eq]
  cases hbit : (d.bitmap i).bit j with
  | false =>
    by_cases h : i' = i ∧ j' = j
    · obtain ⟨rfl, rfl⟩ := h
      simp [Disk.bit, hbit]
    · simp [h]
  | true =>
    simp only [if_true, Disk.bit, update_apply]
    split_ifs with heq
    · subst heq
      simp
    · simp [heq]

end Counts

/-- `d'` is `d` with `n` bits of group `i` from `j` on, which were zero, set. -/
structure Claimed (g : Geometry) (d d' : Disk) (i j n : Nat) : Prop where
  group_lt : i < g.groupsCount
  end_le : j + n ≤ g.blocksPerGroup
  free : ∀ t < n, d.bit i (j + t) = false
  bits : ∀ i' j', d'.bit i' j' = (d.bit i' j' || decide (i' = i ∧ j ≤ j' ∧ j' < j + n))
  counted : Counted g d → Counted g d'

/-- What the preallocation loop does to the bitmap. -/
structure Extended (perGroup start : Nat) (bh bh' : BitString) (count : Nat) : Prop where
  end_le : count ≠ 0 → start + count ≤ perGroup
  free : ∀ t < count, bh.bit (start + t) = false
  bits : ∀ m, bh'.bit m = (bh.bit m || decide (start ≤ m ∧ m < start + count))
  zeros : bh'.zeros perGroup + count = bh.zeros perGroup

theorem Extended.none (perGroup start : Nat) (bh : BitString) :
    Extended perGroup start bh bh 0 := by
  constructor
  · intro h
    exact absurd rfl h
  · intro t ht
    omega
  · intro m
    simp
  · rfl

theorem Extended.cons {perGroup start count : Nat} {bh bh' : BitString}
    (hlt : start < perGroup) (hzero : bh.bit start = false)
    (h : Extended perGroup (start + 1) (bh.setBit start) bh' count) :
    Extended perGroup start bh bh' (count + 1) := by
  constructor
  · intro _
    by_cases hc : count = 0
    · omega
    · have hend := h.end_le hc
      omega
  · intro t ht
    cases t with
    | zero => exact hzero
    | succ t =>
      have hfree := h.free t (by omega)
      rw [bit_setBit, Bool.or_eq_false_iff] at hfree
      rw [show start + (t + 1) = start + 1 + t by omega]
      exact hfree.1
  · intro m
    rw [h.bits m, bit_setBit, Bool.or_assoc, ← Bool.decide_or]
    congr 2
    apply propext
    omega
  · have hfirst := zeros_setBit hlt hzero
    have hrest := h.zeros
    omega

theorem preallocate_extended (perGroup j n k : Nat) (bh : BitString) :
    Extended perGroup (j + k) bh (preallocate perGroup j n k bh).1
      (preallocate perGroup j n k bh).2 := by
  induction n generalizing k bh with
  | zero => exact .none perGroup (j + k) bh
  | succ n ih =>
    rw [preallocate]
    split_ifs with hlt
    · cases hbit : bh.bit (j + k) with
      | true =>
        simp only [setBit, testBit_eq, hbit, if_true]
        exact .none perGroup (j + k) bh
      | false =>
        simp only [setBit, testBit_eq, hbit, Bool.false_eq_true, if_false]
        exact .cons hlt hbit (ih (k + 1) (bh.setBit (j + k)))
    · exact .none perGroup (j + k) bh

/-- What `ext2_new_block` does when it returns. -/
inductive NewBlock (g : Geometry) (d : Disk) : Disk → Nat → Option Prealloc → Prop
  | full : NewBlock g d d 0 none
  | alone {d' : Disk} {i j : Nat} : Claimed g d d' i j 1 →
      NewBlock g d d' (g.blockAt i j) none
  | ahead {d' : Disk} {i j count : Nat} : Claimed g d d' i j (count + 1) →
      NewBlock g d d' (g.blockAt i j) (some ⟨g.blockAt i j + 1, count⟩)

/-- The bits past the last block of the file system are marked used. -/
def PaddingUsed (g : Geometry) (d : Disk) : Prop :=
  ∀ i < g.groupsCount, ∀ j < g.blocksPerGroup, g.blocksCount ≤ g.blockAt i j → d.bit i j = true

theorem PaddingUsed.lt {g : Geometry} {d : Disk} (hd : PaddingUsed g d) {i j : Nat}
    (hi : i < g.groupsCount) (hj : j < g.blocksPerGroup) (h : d.bit i j = false) :
    g.blockAt i j < g.blocksCount := by
  by_contra hge
  rw [hd i hi j hj (by omega)] at h
  cases h

theorem claimed_of_extended {g : Geometry} {d : Disk} {i j count : Nat} {bh : BitString}
    (hi : i < g.groupsCount)
    (h : Extended g.blocksPerGroup j (d.bitmap i) bh (count + 1)) :
    Claimed g d ((d.setBitmap i bh).takeOff i (count + 1)) i j (count + 1) := by
  constructor
  · exact hi
  · exact h.end_le (by omega)
  · exact h.free
  · intro i' j'
    rw [bit_takeOff, bit_setBitmap]
    split_ifs with heq
    · subst heq
      rw [h.bits j']
      simp [Disk.bit]
    · simp [heq]
  · intro hd
    exact hd.claim hi h.zeros

theorem takeBlock_spec {g : Geometry} {preallocGoal i j : Nat} {d d' : Disk} {block : Nat}
    {window : Option Prealloc} (hi : i < g.groupsCount) (hj : j < g.blocksPerGroup)
    (hbit : (d.bitmap i).bit j = false) (hexists : g.blockAt i j < g.blocksCount)
    (h : takeBlock g preallocGoal i j (g.blockAt i j) d ((d.bitmap i).setBit j) =
      some (d', block, window)) : NewBlock g d d' block window := by
  have hin : ¬g.blocksCount ≤ g.blockAt i j := by omega
  unfold takeBlock at h
  by_cases hgoal : preallocGoal ≠ 0
  · simp only [if_pos hgoal, if_neg hin, takeOff_takeOff] at h
    split_ifs at h
    cases h
    have hext := Extended.cons hj hbit (preallocate_extended g.blocksPerGroup j
      (preallocGoal - 1) 1 ((d.bitmap i).setBit j))
    exact .ahead (claimed_of_extended hi hext)
  · simp only [if_neg hgoal, if_neg hin] at h
    split_ifs at h
    cases h
    have hext := Extended.cons hj hbit
      (Extended.none g.blocksPerGroup (j + 1) ((d.bitmap i).setBit j))
    exact .alone (claimed_of_extended hi hext)

theorem blockAt_eq_tmp {g : Geometry} {i j : Nat} (h : g.blockAt i j < g.blocksCount) :
    (j + i * g.blocksPerGroup + g.firstDataBlock) % 2 ^ 32 = g.blockAt i j := by
  have hfit := g.blocks_fit
  rw [Geometry.blockAt] at h ⊢
  rw [Nat.mod_eq_of_lt (by omega)]
  omega

theorem ext2NewBlock_spec {g : Geometry} {goal preallocGoal fuel : Nat} {d d' : Disk}
    {block : Nat} {window : Option Prealloc} (hpad : PaddingUsed g d)
    (h : ext2NewBlock g goal preallocGoal fuel d = some (d', block, window)) :
    NewBlock g d d' block window := by
  induction fuel with
  | zero => cases h
  | succ fuel ih =>
    rw [ext2NewBlock] at h
    split at h
    · cases h
      exact .full
    · rename_i i j hpick
      obtain ⟨hi, hj⟩ := pick_lt hpick
      dsimp only at h
      split_ifs at h
      rw [setBit, testBit_eq] at h
      cases hbit : (d.bitmap i).bit j with
      | true =>
        rw [hbit] at h
        exact ih h
      | false =>
        have hexists := hpad.lt hi hj hbit
        rw [hbit, blockAt_eq_tmp hexists] at h
        exact takeBlock_spec hi hj hbit hexists h

/-- The blocks that hold the file system's own data. -/
def Geometry.IsMeta (g : Geometry) (block : Nat) : Prop :=
  block < g.groupDescBlockEnd ∨ g.backup block = true ∨
    ∃ i < g.groupsCount, inSystemZone g i block = true

/-- `d'` is `d` with the bits of a range of blocks cleared. -/
structure Freed (g : Geometry) (d d' : Disk) (block count : Nat) : Prop where
  bits : ∀ i, ∀ j < g.blocksPerGroup, d'.bit i j =
    (d.bit i j && !decide (block ≤ g.blockAt i j ∧ g.blockAt i j < block + count))
  counted : Counted g d → Counted g d'

theorem Freed.trans {g : Geometry} {d d₁ d₂ : Disk} {block m n : Nat}
    (h₁ : Freed g d d₁ block m) (h₂ : Freed g d₁ d₂ (block + m) n) :
    Freed g d d₂ block (m + n) := by
  constructor
  · intro i j hj
    rw [h₂.bits i j hj, h₁.bits i j hj, Bool.and_assoc, ← Bool.not_or, ← Bool.decide_or]
    congr 3
    apply propext
    omega
  · intro hd
    exact h₂.counted (h₁.counted hd)

theorem blockAt_mem_iff {g : Geometry} {i b n i' j : Nat} (hend : b + n ≤ g.blocksPerGroup)
    (hj : j < g.blocksPerGroup) :
    (i' = i ∧ b ≤ j ∧ j < b + n) ↔
      (g.blockAt i b ≤ g.blockAt i' j ∧ g.blockAt i' j < g.blockAt i b + n) := by
  simp only [Geometry.blockAt]
  rcases Nat.lt_trichotomy i' i with hlt | heq | hgt
  · have hmul : (i' + 1) * g.blocksPerGroup ≤ i * g.blocksPerGroup :=
      Nat.mul_le_mul_right _ hlt
    rw [Nat.succ_mul] at hmul
    omega
  · subst heq
    omega
  · have hmul : (i + 1) * g.blocksPerGroup ≤ i' * g.blocksPerGroup :=
      Nat.mul_le_mul_right _ hgt
    rw [Nat.succ_mul] at hmul
    omega

theorem freeBits_freed {g : Geometry} {i b n : Nat} (d : Disk) (hi : i < g.groupsCount)
    (hend : b + n ≤ g.blocksPerGroup) :
    Freed g d ((List.range n).foldl (fun d t => freeBit i d (b + t)) d) (g.blockAt i b) n := by
  induction n with
  | zero =>
    constructor
    · intro i' j hj
      have hout : ¬(g.blockAt i b ≤ g.blockAt i' j ∧ g.blockAt i' j < g.blockAt i b + 0) := by
        omega
      rw [decide_eq_false hout]
      simp
    · intro hd
      exact hd
  | succ n ih =>
    rw [range_succ, foldl_append]
    have hlast : g.blockAt i b + n = g.blockAt i (b + n) := by
      simp only [Geometry.blockAt]
      omega
    apply (ih (by omega)).trans
    rw [hlast]
    constructor
    · intro i' j hj
      have hmem : (i' = i ∧ b + n ≤ j ∧ j < b + n + 1) ↔
          (g.blockAt i (b + n) ≤ g.blockAt i' j ∧ g.blockAt i' j < g.blockAt i (b + n) + 1) :=
        blockAt_mem_iff (by omega) hj
      simp only [foldl_cons, foldl_nil, bit_freeBit, ← hmem]
      congr 3
      apply propext
      omega
    · intro hd
      exact hd.freeBit hi (by omega)

theorem not_freesSystemZone {g : Geometry} {i block n : Nat} (hi : i < g.groupsCount)
    (hn : 0 < n) (hmeta : ∀ b, block ≤ b → b < block + n → ¬g.IsMeta b) :
    freesSystemZone g i block n = false := by
  have hzone : ∀ b, block ≤ b → b < block + n → inSystemZone g i b = false := by
    intro b hlo hhi
    by_contra hz
    exact hmeta b hlo hhi (.inr (.inr ⟨i, hi, by simpa using hz⟩))
  by_contra hfrees
  simp only [freesSystemZone, Bool.not_eq_false, Bool.or_eq_true] at hfrees
  rcases hfrees with ((hb | hb) | hb) | hb
  · simp only [inRange, Bool.and_eq_true, decide_eq_true_eq] at hb
    have h := hzone _ hb.1 (by omega)
    simp [inSystemZone] at h
  · simp only [inRange, Bool.and_eq_true, decide_eq_true_eq] at hb
    have h := hzone _ hb.1 (by omega)
    simp [inSystemZone] at h
  · have h := hzone block (by omega) (by omega)
    simp [inSystemZone, hb] at h
  · have h := hzone (block + n - 1) (by omega) (by omega)
    simp [inSystemZone, hb] at h

theorem freeGroups_freed {g : Geometry} {fuel block count : Nat} (d : Disk) (hpos : 0 < count)
    (hfuel : count ≤ fuel) (hfirst : g.firstDataBlock ≤ block)
    (hend : block + count ≤ g.blocksCount)
    (hmeta : ∀ b, block ≤ b → b < block + count → ¬g.IsMeta b) :
    ∃ d', freeGroups g fuel block count d = some d' ∧ Freed g d d' block count := by
  induction fuel generalizing block count d with
  | zero => omega
  | succ fuel ih =>
    have hbit := bitOf_lt (g := g) block
    have hi : g.groupOf block < g.groupsCount := groupOf_lt (by omega)
    rw [freeGroups]
    dsimp only
    generalize hgcount : (if g.blocksPerGroup < g.bitOf block + count then
      count - (g.bitOf block + count - g.blocksPerGroup) else count) = gcount
    have hgc : 0 < gcount ∧ gcount ≤ count ∧ g.bitOf block + gcount ≤ g.blocksPerGroup := by
      split_ifs at hgcount <;> omega
    have hrun := freeBits_freed d hi hgc.2.2
    rw [blockAt_groupOf hfirst] at hrun
    have hzone := not_freesSystemZone (n := gcount) hi hgc.1
      fun b hlo hhi => hmeta b hlo (by omega)
    rw [hzone]
    simp only [Bool.false_eq_true, if_false]
    split_ifs with hrest
    · obtain ⟨d', hd', hfreed⟩ := @ih (block + gcount) (count - gcount) _ hrest
        (by omega) (by omega) (by omega) fun b hlo hhi => hmeta b (by omega) (by omega)
      have htotal : gcount + (count - gcount) = count := by omega
      exact ⟨d', hd', htotal ▸ hrun.trans hfreed⟩
    · have htotal : gcount = count := by omega
      exact ⟨_, rfl, htotal ▸ hrun⟩

theorem ext2FreeBlocks_freed {g : Geometry} {block count : Nat} (d : Disk) (hpos : 0 < count)
    (hfirst : g.firstDataBlock ≤ block) (hend : block + count ≤ g.blocksCount)
    (hmeta : ∀ b, block ≤ b → b < block + count → ¬g.IsMeta b) :
    ∃ d', ext2FreeBlocks g block count d = some d' ∧ Freed g d d' block count := by
  have hstored := g.blocks_stored
  have hdesc : g.groupDescBlockEnd ≤ block := by
    by_contra hlt
    exact hmeta block (by omega) (by omega) (.inl (by omega))
  have hassert : ¬¬(g.groupDescBlockEnd ≤ block ∧ block + count ≤ g.storeBlocks) := by omega
  have hzone : ¬(block < g.firstDataBlock ∨ g.blocksCount < block + count) := by omega
  rw [ext2FreeBlocks, if_neg hassert, if_neg hzone]
  exact freeGroups_freed d hpos (by omega) hfirst hend hmeta

end Hurd.Ext2fs
