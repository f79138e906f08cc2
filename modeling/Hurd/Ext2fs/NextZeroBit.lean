import Hurd.Ext2fs.Bitmap

/-!
# The result of the bit search

`find_next_zero_bit` counts in `unsigned long` and returns a `uint32_t`. Where an `unsigned long` has
64 bits the mask for a first word that is not searched as a whole hides all of it.
-/

namespace Hurd.Ext2fs

/-- `find_next_zero_bit`, as its callers see it. -/
def nextZeroBit (longBits : Nat) (addr : BitString) (size offset : Nat) : Nat :=
  findNextZeroBit longBits addr size offset % 2 ^ 32

/-- `r` is the first zero bit from `offset` on, or at least `size` if there is none. -/
def IsNextZero (addr : BitString) (size offset r : Nat) : Prop :=
  (offset ≤ r ∧ r < size ∧ addr.bit r = false ∧ ∀ i, offset ≤ i → i < r → addr.bit i = true) ∨
    size ≤ r ∧ ∀ i, offset ≤ i → i < size → addr.bit i = true

/-- The bit that is looked for, or the end, has a number below 2^32, and with 64 bits it is not in the
word in whose middle the search starts. -/
def NextInReach (longBits : Nat) (addr : BitString) (size offset : Nat) : Prop :=
  ∃ x, FirstZero addr size offset x ∧ x < 2 ^ 32 ∧
    (longBits = 32 ∨ offset % 32 = 0 ∨ x = size ∨ offset / 32 * 32 + 32 ≤ x)

/-- The first zero bit is in the word in whose middle the search starts, and the next one behind that
word, or else the end, is a multiple of 2^32 further on. -/
def NextCoincides (addr : BitString) (size offset : Nat) : Prop :=
  ∃ x y, FirstZero addr size offset x ∧ x < size ∧
    FirstZero addr size (offset / 32 * 32 + 32) y ∧ y % 2 ^ 32 = x

variable {addr : BitString} {longBits size offset r x : Nat}

theorem FirstZero.isNextZero_iff (h : FirstZero addr size offset x) :
    IsNextZero addr size offset r ↔ r = x ∨ x = size ∧ size ≤ r := by
  constructor
  · rintro (⟨hle, hlt, hzero, hones⟩ | ⟨hge, hones⟩)
    · exact .inl (FirstZero.unique ⟨hle, hlt.le, fun _ => hzero, hones⟩ h)
    · exact .inr ⟨h.unique ⟨h.start_le.trans h.le_size, le_rfl, by omega, hones⟩, hge⟩
  · intro hr
    rcases Nat.lt_or_ge x size with hx | hx
    · obtain rfl : r = x := hr.resolve_right (by omega)
      exact .inl ⟨h.start_le, hx, h.zero hx, h.ones⟩
    · obtain rfl : x = size := le_antisymm h.le_size hx
      exact .inr ⟨by omega, h.ones⟩

theorem searchStart_le (hlong : longBits = 32 ∨ longBits = 64) (h : offset ≤ size) :
    offset ≤ searchStart longBits size offset := by
  unfold searchStart
  split_ifs <;> omega

theorem FirstZero.of_start (hlong : longBits = 32 ∨ longBits = 64)
    (h : FirstZero addr size offset x)
    (hx : longBits = 32 ∨ offset % 32 = 0 ∨ x = size ∨ offset / 32 * 32 + 32 ≤ x) :
    FirstZero addr size (searchStart longBits size offset) x := by
  have hle := h.start_le
  have hsize := h.le_size
  refine ⟨?_, hsize, h.zero, fun i hi hlt => h.ones i ?_ hlt⟩
  · unfold searchStart
    split_ifs <;> omega
  · exact (searchStart_le hlong (hle.trans hsize)).trans hi

theorem findNextZeroBit_firstZero (addr : BitString) (hlong : longBits = 32 ∨ longBits = 64) (h : offset ≤ size) :
    FirstZero addr size (searchStart longBits size offset)
      (findNextZeroBit longBits addr size offset) := by
  rcases Nat.lt_or_eq_of_le h with hlt | rfl
  · exact findNextZeroBit_spec hlt
  · have hstart := searchStart_le hlong (le_refl offset)
    have hend : findNextZeroBit longBits addr offset offset = offset := if_pos le_rfl
    rw [hend]
    exact ⟨min_le_left _ _, le_rfl, fun hlt => absurd hlt (lt_irrefl offset),
      fun i hi hlt => by omega⟩

theorem exists_firstZero (addr : BitString) (h : offset ≤ size) :
    ∃ x, FirstZero addr size offset x := by
  have hspec := findNextZeroBit_firstZero addr (.inl rfl) h
  have hstart : searchStart 32 size offset = offset := by
    unfold searchStart
    split_ifs <;> omega
  exact ⟨_, hstart ▸ hspec⟩

/-- The result is the first zero bit exactly if that is in reach, or by the accident that the bit found
instead has the same number in 32 bits. -/
theorem nextZeroBit_iff (hlong : longBits = 32 ∨ longBits = 64) (h : offset ≤ size) :
    IsNextZero addr size offset (nextZeroBit longBits addr size offset) ↔
      NextInReach longBits addr size offset ∨ longBits = 64 ∧ NextCoincides addr size offset := by
  obtain ⟨x, hx⟩ := exists_firstZero addr h
  have hy := findNextZeroBit_firstZero addr hlong h
  rw [nextZeroBit, hx.isNextZero_iff]
  generalize findNextZeroBit longBits addr size offset = y at hy ⊢
  have hxge := hx.start_le
  have hxle := hx.le_size
  have hyle := hy.le_size
  by_cases hreach : longBits = 32 ∨ offset % 32 = 0 ∨ x = size ∨ offset / 32 * 32 + 32 ≤ x
  · -- the search starts before the bit
    obtain rfl := hy.unique (hx.of_start hlong hreach)
    constructor
    · intro hr
      exact .inl ⟨y, hx, by omega, hreach⟩
    · rintro (⟨x', hx', hsmall, -⟩ | ⟨-, x', y', hx', -, -, hr⟩)
      · obtain rfl := hx.unique hx'
        exact .inl (Nat.mod_eq_of_lt hsmall)
      · obtain rfl := hx.unique hx'
        exact .inl (by omega)
  · have hnot := hreach
    simp only [not_or] at hreach
    obtain ⟨h32, hoff, hend, hword⟩ := hreach
    have h64 := hlong.resolve_left h32
    have hstart : searchStart longBits size offset = min size (offset / 32 * 32 + 32) := by
      rw [searchStart, if_neg hoff, h64]
      omega
    rw [hstart] at hy
    have hyge := hy.start_le
    constructor
    · intro hr
      -- the next word lies in the bitmap, or its end would be found, which is too close
      have hin : offset / 32 * 32 + 32 ≤ size := by omega
      rw [min_eq_right hin] at hy
      exact .inr ⟨h64, x, y, hx, by omega, hy, by omega⟩
    · rintro (⟨x', hx', -, hreach'⟩ | ⟨-, x', y', hx', -, hy', hr⟩)
      · obtain rfl := hx.unique hx'
        exact absurd hreach' hnot
      · obtain rfl := hx.unique hx'
        have hyge' := hy'.start_le
        have hyle' := hy'.le_size
        rw [min_eq_right (by omega)] at hy
        obtain rfl := hy.unique hy'
        exact .inl hr

theorem nextZeroBit_iff_second : IsNextZero (fun _ => 1) 40 32 (nextZeroBit 64 (fun _ => 1) 40 32) := by
  have hx : FirstZero (fun _ => 1) 40 32 33 := by
    refine ⟨by decide, by decide, fun _ => by decide, fun i hi hlt => ?_⟩
    obtain rfl : i = 32 := by omega
    decide
  exact (nextZeroBit_iff (.inr rfl) (by decide)).mpr (.inl ⟨33, hx, by decide, .inr (.inl rfl)⟩)

/-- The bitmap is empty, and the search from bit 1 on finds nothing in its word. -/
theorem nextZeroBit_misses : ¬ ∀ (longBits : Nat) (addr : BitString) (size offset : Nat),
    longBits = 32 ∨ longBits = 64 → offset ≤ size →
    IsNextZero addr size offset (nextZeroBit longBits addr size offset) := by
  intro h
  have hr : nextZeroBit 64 (fun _ => 0) 32 1 = 32 := by decide
  have hnext := h 64 (fun _ => 0) 32 1 (.inr rfl) (by decide)
  rw [hr] at hnext
  rcases hnext with ⟨-, hlt, -⟩ | ⟨-, hones⟩
  · exact absurd hlt (by decide)
  · exact absurd (hones 1 le_rfl (by decide)) (by decide)

end Hurd.Ext2fs
