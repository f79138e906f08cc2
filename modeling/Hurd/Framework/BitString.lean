import Mathlib.Data.BitVec
import Hurd.Framework.Count

/-!
# Bit strings in words

A bit string of any length, stored in 32-bit words with the low bits first: how its bits change
under the two mask operations, and the number of its zero bits.
-/

namespace Hurd

open Function Finset

abbrev BitString := Nat → BitVec 32

namespace BitString

def bit (w : BitString) (n : Nat) : Bool := (w (n / 32)).getLsbD (n % 32)

/-- The word that has only bit `n % 32` set. -/
def mask (n : Nat) : BitVec 32 := 1#32 <<< (n % 32)

def setBit (w : BitString) (n : Nat) : BitString :=
  update w (n / 32) (w (n / 32) ||| mask n)

def clearBit (w : BitString) (n : Nat) : BitString :=
  update w (n / 32) (w (n / 32) &&& ~~~mask n)

theorem getLsbD_mask {n i : Nat} (hi : i < 32) : (mask n).getLsbD i = decide (i = n % 32) := by
  have hn : n % 32 < 32 := Nat.mod_lt n (by decide)
  rw [mask, BitVec.getLsbD_shiftLeft]
  by_cases h : i = n % 32
  · subst h
    simp [hn]
  · by_cases hlt : i < n % 32
    · simp [h, hlt]
    · have hone : (1#32).getLsbD (i - n % 32) = false := by
        rw [BitVec.getLsbD_one]
        simp
        omega
      simp [h, hone]

theorem bit_mask {w : BitString} {n : Nat} : w (n / 32) &&& mask n ≠ 0 ↔ bit w n = true := by
  have hn : n % 32 < 32 := Nat.mod_lt n (by decide)
  constructor
  · intro h
    by_contra hbit
    apply h
    apply BitVec.eq_of_getLsbD_eq
    intro i hi
    rw [BitVec.getLsbD_and, getLsbD_mask hi]
    by_cases hin : i = n % 32
    · subst hin
      simpa [bit] using hbit
    · simp [hin]
  · intro h hzero
    have hlsb := congrArg (fun v => BitVec.getLsbD v (n % 32)) hzero
    simp only [BitVec.getLsbD_and, getLsbD_mask hn] at hlsb
    rw [bit] at h
    simp [h] at hlsb

theorem bit_update (w : BitString) (n : Nat) (v : BitVec 32) (m : Nat) :
    bit (update w (n / 32) v) m =
      if m / 32 = n / 32 then v.getLsbD (m % 32) else bit w m := by
  rw [bit, update_apply]
  split_ifs <;> rfl

theorem mod_eq_iff {n m : Nat} (hq : m / 32 = n / 32) : m % 32 = n % 32 ↔ m = n := by
  omega

@[simp] theorem bit_setBit (w : BitString) (n m : Nat) :
    bit (setBit w n) m = (bit w m || decide (m = n)) := by
  have hm : m % 32 < 32 := Nat.mod_lt m (by decide)
  rw [setBit, bit_update]
  split_ifs with hq
  · rw [BitVec.getLsbD_or, getLsbD_mask hm, ← hq, decide_eq_decide.mpr (mod_eq_iff hq)]
    rfl
  · have hne : m ≠ n := by
      intro h
      exact hq (by rw [h])
    rw [decide_eq_false hne, Bool.or_false]

@[simp] theorem bit_clearBit (w : BitString) (n m : Nat) :
    bit (clearBit w n) m = (bit w m && !decide (m = n)) := by
  have hm : m % 32 < 32 := Nat.mod_lt m (by decide)
  rw [clearBit, bit_update]
  split_ifs with hq
  · rw [BitVec.getLsbD_and, BitVec.getLsbD_not, getLsbD_mask hm, ← hq,
      decide_eq_decide.mpr (mod_eq_iff hq), decide_eq_true hm, Bool.true_and]
    rfl
  · have hne : m ≠ n := by
      intro h
      exact hq (by rw [h])
    rw [decide_eq_false hne, Bool.not_false, Bool.and_true]

/-- The number of zero bits among the first `n`. -/
def zeros (w : BitString) (n : Nat) : Nat :=
  ((Finset.range n).filter fun j => bit w j = false).card

theorem zeros_le (w : BitString) (n : Nat) : zeros w n ≤ n := by
  have h := card_filter_le (Finset.range n) fun j => bit w j = false
  rwa [card_range] at h

theorem zeros_update {w w' : BitString} {n j : Nat} {b : Bool} (hj : j < n)
    (h : bit w' = update (bit w) j b) :
    zeros w' n + (if bit w j = false then 1 else 0) =
      zeros w n + (if b = false then 1 else 0) := by
  rw [zeros, zeros, h]
  exact card_filter_update (Finset.range n) (fun b => b = false) (bit w)
    (mem_range.mpr hj) b

theorem zeros_setBit {w : BitString} {n j : Nat} (hj : j < n) (hzero : bit w j = false) :
    zeros (setBit w j) n + 1 = zeros w n := by
  have hbits : bit (setBit w j) = update (bit w) j true := by
    funext m
    by_cases hm : m = j
    · simp [hm]
    · simp [hm]
  simpa [hzero] using zeros_update hj hbits

theorem zeros_clearBit {w : BitString} {n j : Nat} (hj : j < n) (hone : bit w j = true) :
    zeros (clearBit w j) n = zeros w n + 1 := by
  have hbits : bit (clearBit w j) = update (bit w) j false := by
    funext m
    by_cases hm : m = j
    · simp [hm]
    · simp [hm]
  simpa [hone] using zeros_update hj hbits

end BitString

end Hurd
