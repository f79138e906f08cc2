import Mathlib.Algebra.BigOperators.Group.Finset.Piecewise

/-!
# Counting under a point update

A counter beside a table is right when every write to the table moves the counter by what the old
and the new entry contribute.
-/

namespace Hurd

open List Function Finset

variable {α β : Type*} [DecidableEq α]

theorem sum_update {M : Type*} [AddCommMonoid M] (s : Finset α) (c : β → M) (f : α → β) {a : α}
    (ha : a ∈ s) (b : β) :
    ∑ x ∈ s, c (update f a b x) + c (f a) = ∑ x ∈ s, c (f x) + c b := by
  have hrest : ∑ x ∈ s.erase a, c (update f a b x) = ∑ x ∈ s.erase a, c (f x) := by
    apply sum_congr rfl
    intro x hx
    simp [ne_of_mem_erase hx]
  have hnew := add_sum_erase s (fun x => c (update f a b x)) ha
  have hold := add_sum_erase s (fun x => c (f x)) ha
  simp only [update_self] at hnew
  rw [← hnew, ← hold, hrest, add_comm (c b), add_comm (c (f a)), add_right_comm]

theorem card_filter_update (s : Finset α) (p : β → Prop) [DecidablePred p] (f : α → β) {a : α}
    (ha : a ∈ s) (b : β) :
    (s.filter fun x => p (update f a b x)).card + (if p (f a) then 1 else 0) =
      (s.filter fun x => p (f x)).card + (if p b then 1 else 0) := by
  simp only [card_filter]
  exact sum_update s (fun v => if p v then 1 else 0) f ha b

section Lists

variable {l : List β} {i : Nat} {x y : β}

theorem countP_set_add (p : β → Bool) (l : List β) (hi : l[i]? = some x) (y : β) :
    (l.set i y).countP p + (if p x then 1 else 0) = l.countP p + (if p y then 1 else 0) := by
  obtain ⟨hlt, hget⟩ := List.getElem?_eq_some_iff.mp hi
  have hpos : p x = true → 0 < l.countP p := fun hx =>
    countP_pos_iff.mpr ⟨x, mem_of_getElem? hi, hx⟩
  rw [countP_set hlt, hget]
  split_ifs <;> simp_all

theorem mem_set_of_ne {z : β} (hi : l[i]? = some x) (hz : z ∈ l) (hne : z ≠ x) :
    z ∈ l.set i y := by
  obtain ⟨j, hj⟩ := mem_iff_getElem?.mp hz
  apply mem_iff_getElem?.mpr
  refine ⟨j, ?_⟩
  have hij : i ≠ j := by
    intro heq
    rw [heq, hj] at hi
    exact hne (Option.some.inj hi)
  rw [List.getElem?_set_ne hij, hj]

theorem mem_set_self (hi : l[i]? = some x) : y ∈ l.set i y := by
  obtain ⟨hlt, -⟩ := List.getElem?_eq_some_iff.mp hi
  exact mem_iff_getElem?.mpr ⟨i, by simp [hlt]⟩

end Lists

end Hurd
