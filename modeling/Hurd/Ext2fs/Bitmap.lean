import Hurd.Framework.BitString

/-!
# Bitmap perusal

The bit operations of `ext2fs/ext2fs.h`, the searches of `ext2fs/bitmap.c` and the byte search of
`ext2fs/balloc.c`, over a bitmap block read as little-endian words. Each search that reports a
position inside its range reports a zero bit.
-/

namespace Hurd.Ext2fs

open BitString

def testBit (num : Nat) (bitmap : BitString) : Bool := bitmap (num / 32) &&& mask num ≠ 0

/-- `set_bit`: the previous state of the bit, and the bitmap afterwards. -/
def setBit (num : Nat) (bitmap : BitString) : Bool × BitString :=
  if testBit num bitmap then (true, bitmap) else (false, bitmap.setBit num)

/-- `clear_bit`: the previous state of the bit, and the bitmap afterwards. -/
def clearBit (num : Nat) (bitmap : BitString) : Bool × BitString :=
  if testBit num bitmap then (true, bitmap.clearBit num) else (false, bitmap)

/-- `ffs`: one more than the position of the lowest bit set, or 0. -/
def ffs (word : BitVec 32) : Nat :=
  match (List.range 32).find? fun i => word.getLsbD i with
  | some i => i + 1
  | none => 0

def ffz (word : BitVec 32) : Nat := ffs (~~~word) - 1

/-- From the label `found_first` on: `size` bits of `tmp` are left to look at. -/
def foundFirst (tmp : BitVec 32) (result size : Nat) : Nat :=
  let tmp := tmp ||| BitVec.allOnes 32 <<< size
  if ~~~tmp = 0 then result + size else result + ffz tmp

/-- The loop over whole words, of which `n` are left, and what follows it. -/
def scanWords (addr : BitString) : Nat → Nat → Nat → Nat → Nat
  | 0, p, result, size => if size = 0 then result else foundFirst (addr p) result size
  | n + 1, p, result, size =>
      if ~~~addr p ≠ 0 then result + ffz (addr p)
      else scanWords addr n (p + 1) (result + 32) (size - 32)

/-- `find_next_zero_bit`, on a machine whose `unsigned long` has `longBits` bits: the mask for the
first word is shifted in that width before it is cut down to 32 bits. -/
def findNextZeroBit (longBits : Nat) (addr : BitString) (size offset : Nat) : Nat :=
  let result := offset / 32 * 32
  if size ≤ offset then size
  else
    let left := size - result
    if offset % 32 ≠ 0 then
      let tmp := addr (offset / 32) |||
        (BitVec.allOnes longBits >>> (32 - offset % 32)).setWidth 32
      if left < 32 then foundFirst tmp result left
      else if ~~~tmp ≠ 0 then result + ffz tmp
      else scanWords addr ((left - 32) / 32) (offset / 32 + 1) (result + 32) (left - 32)
    else scanWords addr (left / 32) (offset / 32) result left

def findFirstZeroBit (longBits : Nat) (buf : BitString) (len : Nat) : Nat :=
  findNextZeroBit longBits buf len 0

/-- The byte at index `n` of the bitmap block. -/
def byteAt (bitmap : BitString) (n : Nat) : BitVec 8 :=
  (bitmap (n / 4) >>> (8 * (n % 4))).setWidth 8

/-- `memscan (buf + start, 0, len)`, as an index into `buf`. -/
def memscan (buf : BitString) : Nat → Nat → Nat
  | start, 0 => start
  | start, len + 1 => if byteAt buf start = 0 then start else memscan buf (start + 1) len

@[simp] theorem testBit_eq (num : Nat) (bitmap : BitString) : testBit num bitmap = bitmap.bit num := by
  by_cases h : bitmap.bit num = true
  · rw [h]
    exact decide_eq_true (bit_mask.mpr h)
  · rw [Bool.not_eq_true] at h
    rw [h]
    apply decide_eq_false
    rw [bit_mask, h]
    decide

theorem getLsbD_of_not_eq_zero {v : BitVec 32} (h : ~~~v = 0) {t : Nat} (ht : t < 32) :
    v.getLsbD t = true := by
  have hbit := congrArg (fun w => BitVec.getLsbD w t) h
  simpa only [BitVec.getLsbD_not, ht, decide_true, Bool.true_and, BitVec.ofNat_eq_ofNat,
    BitVec.getLsbD_zero, Bool.not_eq_false'] using hbit

theorem ffs_spec {word : BitVec 32} (h : word ≠ 0) :
    ∃ i, ffs word = i + 1 ∧ i < 32 ∧ word.getLsbD i = true ∧ ∀ j < i, word.getLsbD j = false := by
  unfold ffs
  cases hfind : (List.range 32).find? fun i => word.getLsbD i with
  | some i =>
    obtain ⟨hbit, hmem, hbelow⟩ := List.find?_range_eq_some.mp hfind
    exact ⟨i, rfl, List.mem_range.mp hmem, hbit, fun j hj => by simpa using hbelow j hj⟩
  | none =>
    exfalso
    apply h
    apply BitVec.eq_of_getLsbD_eq
    intro i hi
    have hnone := List.find?_eq_none.mp hfind i (List.mem_range.mpr hi)
    simpa using hnone

theorem ffz_spec {word : BitVec 32} (h : ~~~word ≠ 0) :
    ffz word < 32 ∧ word.getLsbD (ffz word) = false ∧ ∀ j < ffz word, word.getLsbD j = true := by
  obtain ⟨i, hffs, hi, hbit, hbelow⟩ := ffs_spec h
  have hffz : ffz word = i := by
    rw [ffz, hffs]
    rfl
  rw [hffz]
  refine ⟨hi, by simpa [hi] using hbit, fun j hj => ?_⟩
  have hj32 : j < 32 := by omega
  simpa [hj32] using hbelow j hj

theorem bit_of_word {addr : BitString} {p t : Nat} (ht : t < 32) :
    addr.bit (p * 32 + t) = (addr p).getLsbD t := by
  have hdiv : (p * 32 + t) / 32 = p := by omega
  have hmod : (p * 32 + t) % 32 = t := by omega
  rw [bit, hdiv, hmod]

/-- The first zero bit from `start` on, or the end if there is none. -/
structure FirstZero (addr : BitString) (size start x : Nat) : Prop where
  start_le : start ≤ x
  le_size : x ≤ size
  zero : x < size → addr.bit x = false
  ones : ∀ i, start ≤ i → i < x → addr.bit i = true

section Search

variable {addr : BitString} {longBits size offset start x y : Nat}

theorem FirstZero.unique (h : FirstZero addr size start x) (h' : FirstZero addr size start y) :
    x = y := by
  rcases Nat.lt_trichotomy x y with hlt | heq | hgt
  · have hone := h'.ones x h.start_le hlt
    rw [h.zero (hlt.trans_le h'.le_size)] at hone
    cases hone
  · exact heq
  · have hone := h.ones y h'.start_le hgt
    rw [h'.zero (hgt.trans_le h.le_size)] at hone
    cases hone

theorem FirstZero.from_earlier (h : FirstZero addr size start x) (hle : offset ≤ start)
    (hones : ∀ i, offset ≤ i → i < start → addr.bit i = true) : FirstZero addr size offset x where
  start_le := hle.trans h.start_le
  le_size := h.le_size
  zero := h.zero
  ones i hi hx := by
    by_cases hs : i < start
    · exact hones i hi hs
    · exact h.ones i (by omega) hx

theorem foundFirst_spec (tmp : BitVec 32) (result : Nat) (hsize : size ≤ 32) :
    ∃ t ≤ size, foundFirst tmp result size = result + t ∧
      (t < size → tmp.getLsbD t = false) ∧ ∀ j < t, tmp.getLsbD j = true := by
  have hmask : ∀ j < size, (tmp ||| BitVec.allOnes 32 <<< size).getLsbD j = tmp.getLsbD j := by
    intro j hj
    rw [BitVec.getLsbD_or, BitVec.getLsbD_shiftLeft]
    simp [hj]
  unfold foundFirst
  dsimp only
  split_ifs with hones
  · refine ⟨size, le_rfl, rfl, fun h => absurd h (lt_irrefl size), fun j hj => ?_⟩
    rw [← hmask j hj]
    exact getLsbD_of_not_eq_zero hones (by omega)
  · obtain ⟨hlt, hbit, hbelow⟩ := ffz_spec hones
    generalize ffz (tmp ||| BitVec.allOnes 32 <<< size) = i at hlt hbit hbelow ⊢
    have hi : i < size := by
      by_contra hge
      rw [BitVec.getLsbD_or, Bool.or_eq_false_iff, BitVec.getLsbD_shiftLeft,
        BitVec.getLsbD_allOnes] at hbit
      have hsub : i - size < 32 := by omega
      simp [hlt, hge, hsub] at hbit
    refine ⟨i, hi.le, rfl, fun _ => (hmask i hi).symm.trans hbit, fun j hj => ?_⟩
    rw [← hmask j (hj.trans hi)]
    exact hbelow j hj

theorem ones_of_word {p t : Nat} (ht : t ≤ 32) (hones : ∀ j < t, (addr p).getLsbD j = true) :
    ∀ i, p * 32 ≤ i → i < p * 32 + t → addr.bit i = true := by
  intro i hi hlt
  obtain ⟨j, rfl⟩ := Nat.exists_eq_add_of_le hi
  rw [bit_of_word (by omega)]
  exact hones j (by omega)

theorem scanWords_spec (addr : BitString) {n : Nat} (p size : Nat) (hn : n = size / 32) :
    FirstZero addr (p * 32 + size) (p * 32) (scanWords addr n p (p * 32) size) := by
  induction n generalizing p size with
  | zero =>
    rw [scanWords]
    split_ifs with hsize
    · exact ⟨le_rfl, by omega, fun h => by omega, fun i hi hlt => by omega⟩
    · obtain ⟨t, ht, heq, hbit, hones⟩ :=
        foundFirst_spec (addr p) (p * 32) (by omega : size ≤ 32)
      rw [heq]
      refine ⟨by omega, by omega, fun h => ?_, ones_of_word (by omega) hones⟩
      rw [bit_of_word (by omega)]
      exact hbit (by omega)
  | succ n ih =>
    rw [scanWords]
    split_ifs with hzero
    · obtain ⟨hlt, hbit, hones⟩ := ffz_spec hzero
      exact ⟨by omega, by omega, fun _ => (bit_of_word hlt).trans hbit, ones_of_word hlt.le hones⟩
    · have hrest := ih (p + 1) (size - 32) (by omega)
      rw [show (p + 1) * 32 + (size - 32) = p * 32 + size by omega,
        show (p + 1) * 32 = p * 32 + 32 by omega] at hrest
      apply hrest.from_earlier (by omega)
      exact ones_of_word le_rfl fun j hj => getLsbD_of_not_eq_zero (not_not.mp hzero) hj

theorem FirstZero.of_masked {tmp : BitVec 32} {p t skip : Nat}
    (hmask : ∀ j < 32, tmp.getLsbD j = (addr.bit (p * 32 + j) || decide (j < skip)))
    (ht : t ≤ 32) (hle : p * 32 + t ≤ size)
    (hzero : p * 32 + t < size → t < 32 ∧ tmp.getLsbD t = false)
    (hones : ∀ j < t, tmp.getLsbD j = true) :
    FirstZero addr size (min size (p * 32 + skip)) (p * 32 + t) := by
  have hbit : p * 32 + t < size → addr.bit (p * 32 + t) = false ∧ skip ≤ t := by
    intro hlt
    obtain ⟨ht32, hfalse⟩ := hzero hlt
    rw [hmask t ht32, Bool.or_eq_false_iff] at hfalse
    exact ⟨hfalse.1, by simpa using hfalse.2⟩
  refine ⟨by omega, hle, fun hlt => (hbit hlt).1, fun i hi hlt => ?_⟩
  obtain ⟨j, rfl⟩ := Nat.exists_eq_add_of_le (show p * 32 ≤ i by omega)
  have hone := hones j (by omega)
  rw [hmask j (by omega), Bool.or_eq_true] at hone
  exact hone.resolve_right (by simp; omega)

/-- Where `find_next_zero_bit` begins to look. The mask for the first word has more than 32 bits where
`unsigned long` has. -/
def searchStart (longBits size offset : Nat) : Nat :=
  min size (offset / 32 * 32 +
    if offset % 32 = 0 then 0 else min 32 (longBits - (32 - offset % 32)))

theorem findNextZeroBit_spec (h : offset < size) :
    FirstZero addr size (searchStart longBits size offset)
      (findNextZeroBit longBits addr size offset) := by
  have hend : offset / 32 * 32 + (size - offset / 32 * 32) = size := by omega
  unfold findNextZeroBit searchStart
  dsimp only
  rw [if_neg (Nat.not_le.mpr h)]
  by_cases hoff : offset % 32 = 0
  · have hscan := scanWords_spec addr (offset / 32) (size - offset / 32 * 32) rfl
    rw [hend] at hscan
    rw [if_neg (not_not.mpr hoff), if_pos hoff, Nat.add_zero, min_eq_right (by omega)]
    exact hscan
  · rw [if_pos hoff, if_neg hoff]
    generalize htmp : addr (offset / 32) |||
      (BitVec.allOnes longBits >>> (32 - offset % 32)).setWidth 32 = tmp
    generalize hskip : min 32 (longBits - (32 - offset % 32)) = skip
    have hmask : ∀ j < 32,
        tmp.getLsbD j = (addr.bit (offset / 32 * 32 + j) || decide (j < skip)) := by
      intro j hj
      rw [bit_of_word hj, ← htmp, BitVec.getLsbD_or, BitVec.getLsbD_setWidth,
        BitVec.getLsbD_ushiftRight, BitVec.getLsbD_allOnes]
      congr 1
      simp only [hj, decide_true, Bool.true_and, decide_eq_decide]
      omega
    by_cases hshort : size - offset / 32 * 32 < 32
    · obtain ⟨t, ht, heq, hbit, hones⟩ := foundFirst_spec tmp (offset / 32 * 32)
        (by omega : size - offset / 32 * 32 ≤ 32)
      rw [if_pos hshort, heq]
      exact .of_masked hmask (by omega) (by omega)
        (fun hlt => ⟨by omega, hbit (by omega)⟩) hones
    · rw [if_neg hshort]
      by_cases hzero : ~~~tmp ≠ 0
      · obtain ⟨hlt, hbit, hones⟩ := ffz_spec hzero
        rw [if_pos hzero]
        exact .of_masked hmask hlt.le (by omega) (fun _ => ⟨hlt, hbit⟩) hones
      · have hscan := scanWords_spec addr (offset / 32 + 1)
          (size - offset / 32 * 32 - 32) rfl
        rw [show (offset / 32 + 1) * 32 + (size - offset / 32 * 32 - 32) = size by omega,
          show (offset / 32 + 1) * 32 = offset / 32 * 32 + 32 by omega] at hscan
        rw [if_neg hzero]
        apply hscan.from_earlier (by omega)
        intro i hi hlt
        obtain ⟨j, rfl⟩ := Nat.exists_eq_add_of_le (show offset / 32 * 32 ≤ i by omega)
        have hone := getLsbD_of_not_eq_zero (not_not.mp hzero) (t := j) (by omega)
        rw [hmask j (by omega), Bool.or_eq_true] at hone
        exact hone.resolve_right (by simp; omega)

theorem findNextZeroBit_zero (h : findNextZeroBit longBits addr size offset < size) :
    addr.bit (findNextZeroBit longBits addr size offset) = false := by
  by_cases hlt : offset < size
  · exact (findNextZeroBit_spec hlt).zero h
  · rw [findNextZeroBit, if_pos (by omega)] at h
    omega

end Search

theorem bit_of_byteAt {bitmap : BitString} {n t : Nat} (h : byteAt bitmap n = 0) (ht : t < 8) :
    bitmap.bit (8 * n + t) = false := by
  have hdiv : (8 * n + t) / 32 = n / 4 := by omega
  have hmod : (8 * n + t) % 32 = 8 * (n % 4) + t := by omega
  have hbyte := congrArg (fun v => BitVec.getLsbD v t) h
  simp only [byteAt, BitVec.getLsbD_setWidth, BitVec.getLsbD_ushiftRight] at hbyte
  rw [bit, hdiv, hmod]
  simpa [ht] using hbyte

theorem memscan_zero {buf : BitString} {start len : Nat} (h : memscan buf start len < start + len) :
    byteAt buf (memscan buf start len) = 0 := by
  induction len generalizing start with
  | zero =>
    rw [memscan] at h
    omega
  | succ len ih =>
    rw [memscan] at h ⊢
    split_ifs at h ⊢ with hbyte
    · exact hbyte
    · exact ih (by omega)

end Hurd.Ext2fs
