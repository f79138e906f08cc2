import Mathlib.Data.Int.Basic

/-!
# Cyclic intervals

Intervals of the positions `0 .. n - 1` of a ring, given by their first and their last position. An
interval whose last position comes before the first one goes through the end of the ring.
-/

namespace Hurd

variable {n r a b i : Int}

/-- `i` lies between `a` and `b` when the ring is walked upwards from `a`. -/
def CyclicMem (a b i : Int) : Prop := if a ≤ b then a ≤ i ∧ i ≤ b else a ≤ i ∨ i ≤ b

instance : Decidable (CyclicMem a b i) := by
  unfold CyclicMem
  infer_instance

/-- The position of `x` when the ring is turned so that `r` comes first. -/
def turnBack (n r x : Int) : Int := if x - r < 0 then x - r + n else x - r

/-- The position whose place is `x` when `r` comes first. -/
def turnForth (n r x : Int) : Int := if n ≤ x + r then x + r - n else x + r

theorem turnBack_bounds (hr : 0 ≤ r ∧ r < n) (ha : 0 ≤ a ∧ a < n) :
    0 ≤ turnBack n r a ∧ turnBack n r a < n := by
  unfold turnBack
  split <;> omega

theorem turnForth_bounds (hr : 0 ≤ r ∧ r < n) (ha : 0 ≤ a ∧ a < n) :
    0 ≤ turnForth n r a ∧ turnForth n r a < n := by
  unfold turnForth
  split <;> omega

theorem turnBack_self : turnBack n r r = 0 := by
  unfold turnBack
  split <;> omega

theorem turnBack_turnForth (ha : 0 ≤ a ∧ a < n) :
    turnBack n r (turnForth n r a) = a := by
  unfold turnBack turnForth
  split <;> split <;> omega

theorem cyclicMem_turnBack (hr : 0 ≤ r ∧ r < n) (ha : 0 ≤ a ∧ a < n) (hb : 0 ≤ b ∧ b < n)
    (hi : 0 ≤ i ∧ i < n) :
    CyclicMem (turnBack n r a) (turnBack n r b) (turnBack n r i) ↔ CyclicMem a b i := by
  unfold CyclicMem turnBack
  split <;> split <;> split <;> split <;> split <;> omega

theorem cyclicMem_turnForth (hr : 0 ≤ r ∧ r < n) (ha : 0 ≤ a ∧ a < n) (hb : 0 ≤ b ∧ b < n)
    (hi : 0 ≤ i ∧ i < n) :
    CyclicMem (turnForth n r a) (turnForth n r b) i ↔ CyclicMem a b (turnBack n r i) := by
  rw [← cyclicMem_turnBack hr (turnForth_bounds hr ha) (turnForth_bounds hr hb) hi,
    turnBack_turnForth ha, turnBack_turnForth hb]

end Hurd
