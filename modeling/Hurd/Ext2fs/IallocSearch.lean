import Hurd.Ext2fs.Ialloc
import Hurd.Framework.LinearProbe
import Mathlib.Data.Finset.Max
import Mathlib.Data.Nat.Prime.Basic
import Mathlib.Tactic.Ring

/-!
# Which groups the search for an inode looks at

A directory may get a group of any place. For other inodes the groups are probed from that of the
parent on: it itself, then at distances 1, 3, 7 and so on, then at distances 2, 3, 4 and so on.
-/

namespace Hurd.Ext2fs

open BitString Finset

section Bits

variable {addr : BitString} {size : Nat}

theorem findFirstZeroBit_lt {longBits j : Nat} (hj : j < size) (hzero : addr.bit j = false) :
    findFirstZeroBit longBits addr size < size := by
  have hspec : FirstZero addr size (searchStart longBits size 0)
      (findFirstZeroBit longBits addr size) :=
    findNextZeroBit_spec (by omega)
  by_contra hnot
  have hone := hspec.ones j (by simp [searchStart]) (by omega)
  rw [hzero] at hone
  cases hone

theorem exists_zero_of_zeros (h : addr.zeros size ≠ 0) : ∃ j < size, addr.bit j = false := by
  obtain ⟨j, hj⟩ := card_ne_zero.mp h
  obtain ⟨hlt, hzero⟩ := mem_filter.mp hj
  exact ⟨j, mem_range.mp hlt, hzero⟩

end Bits

section Probes

variable {groups : Nat} {free : Nat → BitVec 16}

theorem wrap_eq_probe {i j : Nat} (hi : i < groups) (hj : j < groups) :
    (if groups ≤ i + j then i + j - groups else i + j) = probe groups i j := by
  rw [probe_eq hi (Nat.le_of_lt hj)]
  split_ifs <;> omega

theorem quadraticGroup_eq_none_iff {k j i : Nat} (hi : i < groups) (hk : groups ≤ j * 2 ^ k) :
    quadraticGroup groups free k j i = none ↔
      ∀ m, j * 2 ^ m < groups → free (probe groups i (j * (2 ^ (m + 1) - 1))) = 0 := by
  induction k generalizing j i with
  | zero =>
    simp only [quadraticGroup, true_iff]
    intro m hm
    have hle := Nat.mul_le_mul_left j (Nat.one_le_two_pow (n := m))
    omega
  | succ k ih =>
    by_cases hj : j < groups
    · rw [quadraticGroup, if_pos hj, wrap_eq_probe hi hj]
      dsimp only
      have hfirst : j * (2 ^ (0 + 1) - 1) = j := by simp
      by_cases hfree : free (probe groups i j) ≠ 0
      · rw [if_pos hfree]
        constructor
        · intro hnone
          cases hnone
        · intro hall
          have hzero := hall 0 (by simpa using hj)
          rw [hfirst] at hzero
          exact absurd hzero hfree
      · have hkNext : groups ≤ 2 * j * 2 ^ k := by
          rwa [Nat.mul_comm 2, Nat.mul_assoc, ← Nat.pow_succ']
        rw [if_neg hfree, ih (probe_lt hi j) hkNext]
        -- the rounds that are left are those of the next distance
        have hshift : ∀ m, probe groups (probe groups i j) (2 * j * (2 ^ (m + 1) - 1)) =
            probe groups i (j * (2 ^ (m + 1 + 1) - 1)) := by
          intro m
          have hpow := Nat.one_le_two_pow (n := m + 1)
          have hsum : j + 2 * j * (2 ^ (m + 1) - 1) = j * (2 ^ (m + 1 + 1) - 1) := by
            obtain ⟨a, ha⟩ := Nat.exists_eq_add_of_le' hpow
            rw [Nat.pow_succ' (n := m + 1), ha, Nat.add_sub_cancel,
              show 2 * (a + 1) - 1 = 2 * a + 1 by omega]
            ring
          rw [probe, probe, probe, Nat.mod_add_mod, Nat.add_assoc, hsum]
        constructor
        · intro hall m hm
          cases m with
          | zero =>
            rw [hfirst]
            simpa using hfree
          | succ m =>
            rw [← hshift]
            exact hall m (by rwa [Nat.mul_comm 2, Nat.mul_assoc, ← Nat.pow_succ'])
        · intro hall m hm
          rw [hshift]
          exact hall (m + 1) (by rwa [Nat.mul_comm 2, Nat.mul_assoc, ← Nat.pow_succ'] at hm)
    · rw [quadraticGroup, if_neg hj]
      simp only [true_iff]
      intro m hm
      have hle := Nat.mul_le_mul_left j (Nat.one_le_two_pow (n := m))
      omega

theorem nextGroup_eq_none_iff {k i : Nat} (hi : i < groups) :
    nextGroup groups free k i = none ↔ ∀ t < k, free (probe groups i (t + 1)) = 0 := by
  induction k generalizing i with
  | zero => simp [nextGroup]
  | succ k ih =>
    have hone : (if groups ≤ i + 1 then 0 else i + 1) = probe groups i 1 := by
      rw [probe_eq hi (by omega)]
      split_ifs <;> omega
    have hshift : ∀ t, probe groups (probe groups i 1) (t + 1) = probe groups i (t + 1 + 1) := by
      intro t
      rw [probe, probe, probe, Nat.mod_add_mod]
      congr 1
      omega
    rw [nextGroup]
    simp only [hone]
    by_cases hfree : 0 < (free (probe groups i 1)).toNat
    · rw [if_pos hfree]
      constructor
      · intro hnone
        cases hnone
      · intro hall
        have hzero := hall 0 (by omega)
        rw [Nat.zero_add] at hzero
        rw [hzero] at hfree
        exact absurd hfree (by decide)
    · rw [if_neg hfree, ih (probe_lt hi 1)]
      have hzero : free (probe groups i 1) = 0 := by
        apply BitVec.eq_of_toNat_eq
        simpa using hfree
      constructor
      · intro hall t ht
        cases t with
        | zero => exact hzero
        | succ t =>
          rw [← hshift]
          exact hall t (by omega)
      · intro hall t ht
        rw [hshift]
        exact hall (t + 1) (by omega)

theorem nextGroup_behind (hpos : 0 < groups) (k : Nat) :
    nextGroup groups free k groups = nextGroup groups free k (groups - 1) := by
  cases k with
  | zero => rfl
  | succ k =>
    have hbehind : groups ≤ groups + 1 := Nat.le_succ groups
    have hlast : groups ≤ groups - 1 + 1 := by omega
    rw [nextGroup, nextGroup]
    simp only [if_pos hbehind, if_pos hlast]

theorem directoryGroup_none {avefreei : Nat} {freeBlocks : Nat → BitVec 16} {k j : Nat}
    {best : Option Nat} (h : directoryGroup avefreei free freeBlocks k j best = none) :
    best = none ∧ ∀ i, j ≤ i → i < j + k → free i ≠ 0 → (free i).toNat < avefreei := by
  induction k generalizing j best with
  | zero =>
    refine ⟨h, ?_⟩
    intro i hlow hhigh
    omega
  | succ k ih =>
    have hlater : ∀ best', directoryGroup avefreei free freeBlocks k (j + 1) best' = none →
        best' = none ∧
          ((free j ≠ 0 → (free j).toNat < avefreei) →
            ∀ i, j ≤ i → i < j + (k + 1) → free i ≠ 0 → (free i).toNat < avefreei) := by
      intro best' hnone
      obtain ⟨hbest, hrest⟩ := ih hnone
      refine ⟨hbest, ?_⟩
      intro hj i hlow hhigh hne
      by_cases hi : i = j
      · subst hi
        exact hj hne
      · exact hrest i (by omega) (by omega) hne
    cases best with
    | none =>
      simp only [directoryGroup, and_true] at h
      split at h
      · cases (hlater _ h).1
      · rename_i hunfit
        refine ⟨rfl, (hlater _ h).2 ?_⟩
        intro hne
        by_contra hge
        exact hunfit ⟨hne, by omega⟩
    | some b =>
      simp only [directoryGroup] at h
      split at h <;> cases (hlater _ h).1

end Probes

section Complete

variable {g : InodeGeometry} {d : InodeDisk}

/-- The counts of free inodes agree with the bitmaps. -/
structure CountsAgree (g : InodeGeometry) (d : InodeDisk) : Prop where
  group : ∀ i < g.groupsCount,
    (d.bgFreeInodesCount i).toNat = (d.bitmap i).zeros g.inodesPerGroup
  total : d.sFreeInodesCount.toNat =
    ∑ i ∈ Finset.range g.groupsCount, (d.bgFreeInodesCount i).toNat

theorem InodeConsistent.countsAgree {s : InodeFs} (h : InodeConsistent g s) :
    CountsAgree g s.disk := ⟨h.group, h.total⟩

theorem exists_average (h : CountsAgree g d) {i : Nat} (hi : i < g.groupsCount)
    (hfree : d.bgFreeInodesCount i ≠ 0) :
    ∃ m < g.groupsCount, d.bgFreeInodesCount m ≠ 0 ∧
      d.sFreeInodesCount.toNat / g.groupsCount ≤ (d.bgFreeInodesCount m).toNat := by
  have hne : (Finset.range g.groupsCount).Nonempty := ⟨i, mem_range.mpr hi⟩
  obtain ⟨m, hm, hmax⟩ := exists_max_image (Finset.range g.groupsCount)
    (fun j => (d.bgFreeInodesCount j).toNat) hne
  have hsum := sum_le_card_nsmul _ _ _ hmax
  rw [card_range, ← h.total] at hsum
  refine ⟨m, mem_range.mp hm, ?_, Nat.div_le_of_le_mul hsum⟩
  intro hzero
  have hle := hmax i (mem_range.mpr hi)
  rw [hzero] at hle
  apply hfree
  apply BitVec.eq_of_toNat_eq
  simpa using hle

/-- The search for a file in a directory of the last group misses the group before it, unless the
quadratic hash comes by. -/
structure MissesGroup (g : InodeGeometry) (dirInum : Nat) (free : Nat → BitVec 16) : Prop where
  parent_last : g.groupOf dirInum + 1 = g.groupsCount
  not_pow : ¬g.groupsCount.isPowerOfTwo
  missed : free (g.groupsCount - 2) ≠ 0
  others : ∀ i < g.groupsCount, i ≠ g.groupsCount - 2 → free i = 0

/-- The inode that the search settles on is a reserved one. -/
def TakesReserved (g : InodeGeometry) (dirInum : Nat) (isDir : Bool)
    (freeBlocks : Nat → BitVec 16) (d : InodeDisk) : Prop :=
  ∃ i, chooseGroup g dirInum isDir freeBlocks d = some i ∧
    g.inodeAt i (findFirstZeroBit g.longBits (d.bitmap i) g.inodesPerGroup) < g.firstIno

theorem fileGroup_eq_none_iff {dirInum : Nat} {freeBlocks : Nat → BitVec 16} {d : InodeDisk}
    (hparent : g.groupOf dirInum < g.groupsCount) :
    chooseGroup g dirInum false freeBlocks d = none ↔
      d.bgFreeInodesCount (g.groupOf dirInum) = 0 ∧
        (∀ m, 2 ^ m < g.groupsCount →
          d.bgFreeInodesCount (probe g.groupsCount (g.groupOf dirInum) (2 ^ (m + 1) - 1)) = 0) ∧
        nextGroup g.groupsCount d.bgFreeInodesCount (g.groupsCount - 2) (g.groupOf dirInum + 1) =
          none := by
  have hrounds : g.groupsCount ≤ 1 * 2 ^ g.groupsCount := by
    rw [Nat.one_mul]
    exact Nat.lt_two_pow_self.le
  have hquad : quadraticGroup g.groupsCount d.bgFreeInodesCount g.groupsCount 1
      (g.groupOf dirInum) = none ↔ _ := quadraticGroup_eq_none_iff hparent hrounds
  simp only [Nat.one_mul] at hquad
  rw [← hquad, chooseGroup]
  simp only [Bool.false_eq_true, if_false]
  by_cases hfree : d.bgFreeInodesCount (g.groupOf dirInum) = 0
  · rw [if_neg (not_not.mpr hfree)]
    cases quadraticGroup g.groupsCount d.bgFreeInodesCount g.groupsCount 1
      (g.groupOf dirInum) <;> simp [hfree]
  · rw [if_pos hfree]
    constructor
    · intro hnone
      cases hnone
    · rintro ⟨hzero, -⟩
      exact absurd hzero hfree

theorem dvd_of_probe_last {n p m : Nat} (htwo : 2 ≤ n) (hp : p + 1 = n)
    (h : probe n p (2 ^ (m + 1) - 1) = n - 2) : n ∣ 2 ^ (m + 1) := by
  have hpow : 2 ≤ 2 ^ (m + 1) := by
    have hone := Nat.one_le_two_pow (n := m)
    rw [Nat.pow_succ]
    omega
  generalize 2 ^ (m + 1) = a at hpow h ⊢
  rw [probe, show p + (a - 1) = a - 2 + n by omega, Nat.add_mod_right] at h
  have hdiv := Nat.div_add_mod (a - 2) n
  rw [h] at hdiv
  refine ⟨(a - 2) / n + 1, ?_⟩
  rw [Nat.mul_add]
  omega

/-- A file gets no group though there are free inodes exactly in the one case. -/
theorem fileGroup_misses_iff {dirInum : Nat} {freeBlocks : Nat → BitVec 16} {d : InodeDisk}
    (hparent : g.groupOf dirInum < g.groupsCount) :
    chooseGroup g dirInum false freeBlocks d = none ∧
        (∃ i < g.groupsCount, d.bgFreeInodesCount i ≠ 0) ↔
      MissesGroup g dirInum d.bgFreeInodesCount := by
  rw [fileGroup_eq_none_iff hparent]
  generalize hp : g.groupOf dirInum = p at hparent ⊢
  generalize hn : g.groupsCount = n at hparent ⊢
  by_cases hlast : p + 1 = n
  · -- the linear search goes from the first group on
    rw [hlast, nextGroup_behind (by omega), nextGroup_eq_none_iff (by omega)]
    have hlinear : ∀ t, t < n → probe n (n - 1) (t + 1) = t := by
      intro t ht
      rw [probe, show n - 1 + (t + 1) = t + n by omega, Nat.add_mod_right, Nat.mod_eq_of_lt ht]
    constructor
    · rintro ⟨⟨hzero, hquad, hnext⟩, i, hi, hfree⟩
      have hothers : ∀ j < n, j ≠ n - 2 → d.bgFreeInodesCount j = 0 := by
        intro j hj hne
        by_cases hjp : j = p
        · rw [hjp]
          exact hzero
        · rw [← hlinear j hj]
          exact hnext j (by omega)
      have hmissed : d.bgFreeInodesCount (n - 2) ≠ 0 := by
        by_cases hi2 : i = n - 2
        · rwa [← hi2]
        · exact absurd (hothers i hi hi2) hfree
      constructor
      · rw [hp, hn]
        exact hlast
      · rintro ⟨m, hm⟩
        rw [hn] at hm
        cases m with
        | zero =>
          rw [show n - 2 = p by omega] at hmissed
          exact hmissed hzero
        | succ m =>
          have hhash := hquad m (by rw [hm, Nat.pow_succ]; omega)
          rw [← hm, probe, show p + (n - 1) = n - 2 + n by omega, Nat.add_mod_right,
            Nat.mod_eq_of_lt (by omega)] at hhash
          exact hmissed hhash
      · rwa [hn]
      · rwa [hn]
    · rintro ⟨-, hpow, hmissed, hothers⟩
      rw [hn] at hpow hmissed hothers
      have htwo : n ≠ 1 := by
        rintro rfl
        exact hpow ⟨0, rfl⟩
      refine ⟨⟨hothers p hparent (by omega), ?_, ?_⟩, n - 2, by omega, hmissed⟩
      · intro m _
        apply hothers _ (probe_lt hparent _)
        intro hhash
        apply hpow
        have hdvd := dvd_of_probe_last (by omega) hlast hhash
        obtain ⟨r, -, hr⟩ := (Nat.dvd_prime_pow Nat.prime_two).mp hdvd
        exact ⟨r, hr⟩
      · intro t ht
        rw [hlinear t (by omega)]
        exact hothers t (by omega) (by omega)
  · rw [nextGroup_eq_none_iff (by omega)]
    constructor
    · rintro ⟨⟨hzero, hquad, hnext⟩, i, hi, hfree⟩
      obtain ⟨t, ht, rfl⟩ := exists_probe hparent hi
      exfalso
      apply hfree
      rcases t with _ | _ | t
      · rwa [probe_zero hparent]
      · exact hquad 0 (by omega)
      · have hlinear := hnext t (by omega)
        rwa [probe, show p + 1 + (t + 1) = p + (t + 2) by omega] at hlinear
    · intro hmiss
      have hparentLast := hmiss.parent_last
      rw [hp, hn] at hparentLast
      exact absurd hparentLast hlast

theorem dirGroup_none (h : CountsAgree g d) {dirInum : Nat} {freeBlocks : Nat → BitVec 16}
    (hnone : chooseGroup g dirInum true freeBlocks d = none) :
    ∀ i < g.groupsCount, d.bgFreeInodesCount i = 0 := by
  intro i hi
  by_contra hfree
  obtain ⟨m, hm, hne, haverage⟩ := exists_average h hi hfree
  rw [chooseGroup] at hnone
  have hlt := (directoryGroup_none hnone).2 m (Nat.zero_le m) (by omega) hne
  omega

theorem CountsAgree.found (h : CountsAgree g d) {i : Nat} (hi : i < g.groupsCount)
    (hfree : d.bgFreeInodesCount i ≠ 0) :
    findFirstZeroBit g.longBits (d.bitmap i) g.inodesPerGroup < g.inodesPerGroup := by
  have hzeros : (d.bitmap i).zeros g.inodesPerGroup ≠ 0 := by
    rw [← h.group i hi]
    intro hzero
    exact hfree (BitVec.eq_of_toNat_eq hzero)
  obtain ⟨t, ht, hbit⟩ := exists_zero_of_zeros hzeros
  exact findFirstZeroBit_lt ht hbit

theorem ext2AllocInode_zero_iff (h : CountsAgree g d) {dirInum : Nat}
    (hparent : 1 ≤ dirInum ∧ dirInum ≤ g.inodesCount) (isDir : Bool)
    (freeBlocks : Nat → BitVec 16) (fuel : Nat) :
    ∃ d' inum, ext2AllocInode g dirInum isDir freeBlocks (fuel + 1) d = some (d', inum) ∧
      (inum = 0 ↔ chooseGroup g dirInum isDir freeBlocks d = none ∨
        TakesReserved g dirInum isDir freeBlocks d) := by
  cases hgroup : chooseGroup g dirInum isDir freeBlocks d with
  | none => exact ⟨_, _, by rw [ext2AllocInode, hgroup], by simp⟩
  | some i =>
    obtain ⟨hi, hfree⟩ := chooseGroup_spec hparent hgroup
    have hfound := h.found hi hfree
    have hrun := (ext2AllocInode_found hgroup hi hfound fuel).2
    have hreserved : TakesReserved g dirInum isDir freeBlocks d ↔
        ¬g.Ordinary (g.inodeAt i
          (findFirstZeroBit g.longBits (d.bitmap i) g.inodesPerGroup)) := by
      have hle := inodeAt_le hi hfound
      unfold TakesReserved InodeGeometry.Ordinary
      rw [hgroup]
      constructor
      · rintro ⟨i', hi', hlt⟩
        cases hi'
        omega
      · intro hnot
        exact ⟨i, rfl, by omega⟩
    rw [hreserved]
    split at hrun
    · rename_i hord
      refine ⟨_, _, hrun, ?_⟩
      have hne : g.inodeAt i (findFirstZeroBit g.longBits (d.bitmap i) g.inodesPerGroup) ≠ 0 :=
        Nat.succ_ne_zero _
      simp [hord, hne]
    · rename_i hord
      exact ⟨_, _, hrun, by simp [hord]⟩

/-- A call fails only if no group has a free inode, except in two cases: the inode that is found is
a reserved one, or the call is not for a directory, its parent is in the last group, the number of
groups is no power of two, and only the last group but one has free inodes. -/
theorem ext2AllocInode_complete_iff (h : CountsAgree g d) {dirInum : Nat}
    (hparent : 1 ≤ dirInum ∧ dirInum ≤ g.inodesCount) (isDir : Bool)
    (freeBlocks : Nat → BitVec 16) {fuel : Nat} (hfuel : 0 < fuel) :
    ∃ d' inum, ext2AllocInode g dirInum isDir freeBlocks fuel d = some (d', inum) ∧
      ((inum = 0 → ∀ i < g.groupsCount, (d.bitmap i).zeros g.inodesPerGroup = 0) ↔
        ¬(isDir = false ∧ MissesGroup g dirInum d.bgFreeInodesCount) ∧
          ¬TakesReserved g dirInum isDir freeBlocks d) := by
  obtain ⟨fuel, rfl⟩ := Nat.exists_eq_succ_of_ne_zero (Nat.ne_of_gt hfuel)
  obtain ⟨d', inum, hrun, hzero⟩ := ext2AllocInode_zero_iff h hparent isDir freeBlocks fuel
  refine ⟨d', inum, hrun, ?_⟩
  have hcounts : (∀ i < g.groupsCount, (d.bitmap i).zeros g.inodesPerGroup = 0) ↔
      ∀ i < g.groupsCount, d.bgFreeInodesCount i = 0 := by
    apply forall₂_congr
    intro i hi
    rw [← h.group i hi]
    constructor
    · exact fun hz => BitVec.eq_of_toNat_eq hz
    · intro hz
      rw [hz]
      rfl
  have hreserved : TakesReserved g dirInum isDir freeBlocks d →
      ¬∀ i < g.groupsCount, d.bgFreeInodesCount i = 0 := by
    rintro ⟨i, hgroup, -⟩ hall
    obtain ⟨hi, hfree⟩ := chooseGroup_spec hparent hgroup
    exact hfree (hall i hi)
  have hgroup : (chooseGroup g dirInum isDir freeBlocks d = none →
        ∀ i < g.groupsCount, d.bgFreeInodesCount i = 0) ↔
      ¬(isDir = false ∧ MissesGroup g dirInum d.bgFreeInodesCount) := by
    cases isDir with
    | true =>
      simp only [Bool.true_eq_false, false_and, not_false_eq_true, iff_true]
      exact dirGroup_none h
    | false =>
      have hmisses : chooseGroup g dirInum false freeBlocks d = none ∧
            (∃ i < g.groupsCount, d.bgFreeInodesCount i ≠ 0) ↔
          MissesGroup g dirInum d.bgFreeInodesCount :=
        fileGroup_misses_iff (inode_groupOf_lt hparent.1 hparent.2)
      rw [← hmisses]
      simp only [true_and, not_and, not_exists, not_not]
  rw [hzero, hcounts, or_imp, hgroup]
  apply and_congr_right
  intro _
  constructor
  · exact fun hall htakes => hreserved htakes (hall htakes)
  · exact fun hno htakes => absurd htakes hno

end Complete

theorem InodeConsistent.not_takesReserved {s : InodeFs} (h : InodeConsistent g s) {dirInum : Nat}
    (hparent : 1 ≤ dirInum ∧ dirInum ≤ g.inodesCount) (isDir : Bool)
    (freeBlocks : Nat → BitVec 16) : ¬TakesReserved g dirInum isDir freeBlocks s.disk := by
  rintro ⟨i, hgroup, hlt⟩
  obtain ⟨hi, hfree⟩ := chooseGroup_spec hparent hgroup
  have hfound := h.countsAgree.found hi hfree
  have hord := h.ordinary hi hfound (findNextZeroBit_zero hfound)
  have hfirst := hord.1
  omega

def threeGroups : InodeGeometry :=
  { smallInodes with
    inodesCount := 48
    groupsCount := 3
    groups_pos := Nat.succ_pos 2
    count_eq := by decide
    count_lt := by decide }

/-- Only the inodes of the second group are free. Inode 33 is a directory in the third one. -/
def freeInSecond : InodeFs where
  disk :=
    { bitmap := fun i _ => if i = 1 then 0 else 0xffff
      bgFreeInodesCount := fun i => if i = 1 then 16 else 0
      bgUsedDirsCount := fun i => if i = 1 then 0 else 1
      sFreeInodesCount := 16 }
  dirs := {2, 33}

theorem freeInSecond_consistent : InodeConsistent threeGroups freeInSecond := by
  constructor
  case group => decide
  case total => decide
  case dirCount => decide
  case reserved =>
    intro inum hpos hlt _
    have hall : ∀ n < 11, 1 ≤ n → freeInSecond.disk.used threeGroups n = true := by decide
    exact hall inum hlt hpos
  case dirs_used => decide

/-- A file in directory 33 gets no inode. -/
theorem second_group_missed :
    InodeConsistent threeGroups freeInSecond ∧
      (∃ d, ext2AllocInode threeGroups 33 false (fun _ => 0) 1 freeInSecond.disk = some (d, 0)) ∧
      (freeInSecond.disk.bitmap 1).zeros threeGroups.inodesPerGroup = 16 :=
  ⟨freeInSecond_consistent, ⟨_, rfl⟩, by decide⟩

theorem ext2AllocInode_complete_iff_root :
    ∃ d inum, ext2AllocInode threeGroups 2 false (fun _ => 0) 1 freeInSecond.disk = some (d, inum) ∧
      ((inum = 0 → ∀ i < threeGroups.groupsCount,
          (freeInSecond.disk.bitmap i).zeros threeGroups.inodesPerGroup = 0) ↔
        ¬(false = false ∧ MissesGroup threeGroups 2 freeInSecond.disk.bgFreeInodesCount) ∧
          ¬TakesReserved threeGroups 2 false (fun _ => 0) freeInSecond.disk) :=
  ext2AllocInode_complete_iff freeInSecond_consistent.countsAgree (by decide) false (fun _ => 0)
    (by decide)

end Hurd.Ext2fs
