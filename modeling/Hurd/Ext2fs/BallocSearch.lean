import Hurd.Ext2fs.Balloc

/-!
# Where a block is found

Block numbers as positions in the bitmaps of the groups, and what the searches of `ext2_new_block`
settle on: a bit of some group, and a zero bit if the number of blocks per group is a multiple
of 8.
-/

namespace Hurd.Ext2fs

open BitString

section Numbers

variable {g : Geometry}

theorem groupOf_blockAt {i j : Nat} (hj : j < g.blocksPerGroup) :
    g.groupOf (g.blockAt i j) = i := by
  have hsub : g.blockAt i j - g.firstDataBlock = j + g.blocksPerGroup * i := by
    rw [Geometry.blockAt, Nat.mul_comm]
    omega
  rw [Geometry.groupOf, hsub, Nat.add_mul_div_left _ _ g.perGroup_pos, Nat.div_eq_of_lt hj]
  omega

theorem bitOf_blockAt {i j : Nat} (hj : j < g.blocksPerGroup) : g.bitOf (g.blockAt i j) = j := by
  have hsub : g.blockAt i j - g.firstDataBlock = j + g.blocksPerGroup * i := by
    rw [Geometry.blockAt, Nat.mul_comm]
    omega
  rw [Geometry.bitOf, hsub, Nat.add_mul_mod_self_left, Nat.mod_eq_of_lt hj]

theorem bitOf_lt (block : Nat) : g.bitOf block < g.blocksPerGroup :=
  Nat.mod_lt _ g.perGroup_pos

theorem blockAt_groupOf {block : Nat} (h : g.firstDataBlock ≤ block) :
    g.blockAt (g.groupOf block) (g.bitOf block) = block := by
  have hdm := Nat.div_add_mod (block - g.firstDataBlock) g.blocksPerGroup
  rw [Geometry.blockAt, Geometry.groupOf, Geometry.bitOf, Nat.mul_comm]
  omega

theorem groupOf_lt {block : Nat} (h : block < g.blocksCount) :
    g.groupOf block < g.groupsCount := by
  rw [Geometry.groupOf, Geometry.groupsCount, Nat.div_lt_iff_lt_mul g.perGroup_pos]
  have hmul := Nat.div_add_mod (g.blocksCount - g.firstDataBlock + g.blocksPerGroup - 1)
    g.blocksPerGroup
  have hmod := Nat.mod_lt (g.blocksCount - g.firstDataBlock + g.blocksPerGroup - 1) g.perGroup_pos
  have hfirst := g.first_lt
  rw [Nat.mul_comm] at hmul
  omega

theorem groupsCount_pos (g : Geometry) : 0 < g.groupsCount :=
  Nat.lt_of_le_of_lt (Nat.zero_le _) (groupOf_lt g.first_lt)

end Numbers

theorem searchBack_le (bh : BitString) (k j : Nat) : searchBack bh k j ≤ j := by
  induction k generalizing j with
  | zero => exact Nat.le_refl j
  | succ k ih =>
    rw [searchBack]
    split_ifs
    · have h := ih (j - 1)
      omega
    · exact Nat.le_refl j

theorem searchNear_lt {bh : BitString} {perGroup j j' : Nat}
    (h : searchNear bh perGroup j = some j') : j' < perGroup := by
  unfold searchNear at h
  dsimp only at h
  split_ifs at h <;> cases h <;> assumption

theorem searchGoal_lt {longBits : Nat} {bh : BitString} {perGroup j j' : Nat}
    (hj : j < perGroup) (h : searchGoal longBits bh perGroup j = some j') : j' < perGroup := by
  unfold searchGoal at h
  split at h
  · cases h
    exact hj
  · split at h
    · rename_i hnear
      cases h
      split_ifs at hnear
      exact searchNear_lt hnear
    · dsimp only at h
      split_ifs at h with hbyte hbit
      · cases h
        exact Nat.lt_of_le_of_lt (searchBack_le bh 7 _) hbyte
      · cases h
        exact hbit

theorem searchGroup_lt {longBits : Nat} {bh : BitString} {perGroup j : Nat}
    (h : searchGroup longBits bh perGroup = some j) : j < perGroup := by
  unfold searchGroup at h
  dsimp only at h
  split_ifs at h with hbyte hbit
  · cases h
    exact Nat.lt_of_le_of_lt (searchBack_le bh 7 _) hbyte
  · cases h
    exact hbit

theorem nextGroup_lt {groups : Nat} {free : Nat → BitVec 16} {k i i' : Nat} (hpos : 0 < groups)
    (h : nextGroup groups free k i = some i') : i' < groups := by
  induction k generalizing i with
  | zero => cases h
  | succ k ih =>
    simp only [nextGroup] at h
    generalize hnext : (if groups ≤ i + 1 then 0 else i + 1) = next at h
    split_ifs at h
    · cases h
      split_ifs at hnext <;> omega
    · exact ih h

theorem pick_cases {g : Geometry} {goal : Nat} {d : Disk} {i j : Nat}
    (h : pick g goal d = some (i, j)) :
    i < g.groupsCount ∧
      ((∃ j₀ < g.blocksPerGroup,
          searchGoal g.longBits (d.bitmap i) g.blocksPerGroup j₀ = some j) ∨
        searchGroup g.longBits (d.bitmap i) g.blocksPerGroup = some j) := by
  unfold pick at h
  dsimp only at h
  generalize hgoal : (if goal < g.firstDataBlock ∨ g.blocksCount ≤ goal then g.firstDataBlock
    else goal) = goal' at h
  have hlt : goal' < g.blocksCount := by
    have hfirst := g.first_lt
    split_ifs at hgoal <;> omega
  split at h
  · rename_i hnear
    cases h
    split_ifs at hnear
    exact ⟨groupOf_lt hlt, .inl ⟨_, bitOf_lt goal', hnear⟩⟩
  · split at h
    · cases h
    · rename_i i' hnext
      obtain ⟨j', hsearch, heq⟩ := Option.map_eq_some_iff.mp h
      cases heq
      exact ⟨nextGroup_lt (groupsCount_pos g) hnext, .inr hsearch⟩

theorem pick_lt {g : Geometry} {goal : Nat} {d : Disk} {i j : Nat}
    (h : pick g goal d = some (i, j)) : i < g.groupsCount ∧ j < g.blocksPerGroup := by
  obtain ⟨hi, ⟨j₀, hj₀, hsearch⟩ | hsearch⟩ := pick_cases h
  · exact ⟨hi, searchGoal_lt hj₀ hsearch⟩
  · exact ⟨hi, searchGroup_lt hsearch⟩

/-! ## The search settles on a zero bit

This takes a number of blocks per group that is a multiple of 8. Otherwise the byte search may stop
at the end of the bitmap inside a byte that is in use, and the call never returns. -/

variable {bh : BitString} {perGroup : Nat}

theorem searchNear_zero {j j' : Nat} (h : searchNear bh perGroup j = some j') :
    bh.bit j' = false := by
  unfold searchNear at h
  dsimp only at h
  generalize hlow : (if j % 32 = 31 then 0 else bh (j / 32) >>> (j % 32 + 1)) = low at h
  generalize hmap : (if j < (perGroup + (2 ^ 32 - 32)) % 2 ^ 32 then
    low ||| bh (j / 32 + 1) <<< (31 - j % 32) else
    low ||| BitVec.allOnes 32 <<< (31 - j % 32)) = lmap at h
  split_ifs at h with hones hlt
  cases h
  have hne : ~~~lmap ≠ 0 := by
    intro hzero
    apply hones
    have hall := congrArg (fun v => ~~~v) hzero
    simpa using hall
  obtain ⟨ht, hbit, -⟩ := ffz_spec hne
  generalize ffz lmap = t at ht hbit hlt
  -- bit `t` of the map is bit `j + 1 + t` of the bitmap, in the word of the goal or in the next
  by_cases hword : t < 31 - j % 32
  · have hzero : low.getLsbD t = false := by
      rw [← hmap] at hbit
      split_ifs at hbit
      · exact (Bool.or_eq_false_iff.mp (BitVec.getLsbD_or ▸ hbit)).1
      · exact (Bool.or_eq_false_iff.mp (BitVec.getLsbD_or ▸ hbit)).1
    rw [← hlow, if_neg (by omega), BitVec.getLsbD_ushiftRight] at hzero
    have hdiv : (j + (t + 1)) / 32 = j / 32 := by omega
    have hmod : (j + (t + 1)) % 32 = j % 32 + 1 + t := by omega
    rw [bit, hdiv, hmod]
    exact hzero
  · have hnext : (bh (j / 32 + 1)).getLsbD (t - (31 - j % 32)) = false := by
      rw [← hmap] at hbit
      split_ifs at hbit
      · have hhigh := (Bool.or_eq_false_iff.mp (BitVec.getLsbD_or ▸ hbit)).2
        rw [BitVec.getLsbD_shiftLeft] at hhigh
        simpa [ht, hword] using hhigh
      · have hhigh := (Bool.or_eq_false_iff.mp (BitVec.getLsbD_or ▸ hbit)).2
        have hone : (BitVec.allOnes 32).getLsbD (t - (31 - j % 32)) = true := by
          rw [BitVec.getLsbD_allOnes]
          exact decide_eq_true (by omega)
        rw [BitVec.getLsbD_shiftLeft, hone] at hhigh
        simp [ht, hword] at hhigh
    have hdiv : (j + (t + 1)) / 32 = j / 32 + 1 := by omega
    have hmod : (j + (t + 1)) % 32 = t - (31 - j % 32) := by omega
    rw [bit, hdiv, hmod]
    exact hnext

theorem searchBack_zero {k j : Nat} (h : bh.bit j = false) :
    bh.bit (searchBack bh k j) = false := by
  induction k generalizing j with
  | zero => exact h
  | succ k ih =>
    rw [searchBack]
    split_ifs with hback
    · apply ih
      simpa using hback.2
    · exact h

theorem memscan_bit {start len : Nat} (h : memscan bh start len < start + len) :
    bh.bit (memscan bh start len * 8) = false := by
  have hbit := bit_of_byteAt (t := 0) (memscan_zero h) (by decide)
  rwa [Nat.add_zero, Nat.mul_comm] at hbit

theorem searchGoal_zero {longBits j j' : Nat} (h8 : 8 ∣ perGroup) (hj : j < perGroup)
    (h : searchGoal longBits bh perGroup j = some j') : bh.bit j' = false := by
  unfold searchGoal at h
  split at h
  · rename_i hfree
    cases h
    simpa using hfree
  · split at h
    · rename_i hnear
      cases h
      split_ifs at hnear
      exact searchNear_zero hnear
    · dsimp only at h
      split_ifs at h with hbyte hbit
      · cases h
        apply searchBack_zero
        apply memscan_bit
        obtain ⟨c, rfl⟩ := h8
        omega
      · cases h
        exact findNextZeroBit_zero hbit

theorem searchGroup_zero {longBits j : Nat} (h8 : 8 ∣ perGroup)
    (h : searchGroup longBits bh perGroup = some j) : bh.bit j = false := by
  unfold searchGroup at h
  dsimp only at h
  split_ifs at h with hbyte hbit
  · cases h
    apply searchBack_zero
    apply memscan_bit
    obtain ⟨c, rfl⟩ := h8
    omega
  · cases h
    exact findNextZeroBit_zero hbit

theorem pick_zero {g : Geometry} {goal : Nat} {d : Disk} {i j : Nat} (h8 : 8 ∣ g.blocksPerGroup)
    (h : pick g goal d = some (i, j)) : d.bit i j = false := by
  obtain ⟨-, ⟨j₀, hj₀, hsearch⟩ | hsearch⟩ := pick_cases h
  · exact searchGoal_zero h8 hj₀ hsearch
  · exact searchGroup_zero h8 hsearch

end Hurd.Ext2fs
