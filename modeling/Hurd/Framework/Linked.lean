import Mathlib.Data.List.GetD
import Mathlib.Data.List.Nodup

/-!
# Linked lists

A list that is linked by a function from each element to the next one, and a family of lists that
have no element in common.
-/

namespace Hurd

open Function List

variable {α : Type*} {next next' : α → α} {stop a : α} {l : List α} {k : Nat}

/-- The function leads from each element of the list to the next one, and from the last one to
`stop`. -/
def Linked (next : α → α) (stop : α) (l : List α) : Prop :=
  ∀ k < l.length, next (l.getD k stop) = l.getD (k + 1) stop

theorem Linked.congr (h : Linked next stop l) (heq : ∀ a ∈ l, next' a = next a) :
    Linked next' stop l := by
  intro k hk
  have hmem : l.getD k stop ∈ l := by
    rw [getD_eq_getElem _ _ hk]
    exact getElem_mem hk
  rw [heq _ hmem]
  exact h k hk

theorem Linked.snoc (h : Linked next stop l) (hnew : next' a = stop)
    (hlast : ∀ k, k + 1 = l.length → next' (l.getD k stop) = a)
    (hother : ∀ k, k + 1 < l.length → next' (l.getD k stop) = next (l.getD k stop)) :
    Linked next' stop (l ++ [a]) := by
  intro k hk
  rw [length_append, length_singleton] at hk
  by_cases hend : k = l.length
  · have hout : (l ++ [a]).getD (l.length + 1) stop = stop := getD_eq_default _ _ (by simp)
    rw [hend, hout, getD_append_right _ _ _ _ (Nat.le_refl _), Nat.sub_self]
    exact hnew
  · have hlt : k < l.length := by omega
    rw [getD_append _ _ _ _ hlt]
    by_cases hprev : k + 1 = l.length
    · rw [hprev, getD_append_right _ _ _ _ (Nat.le_refl _), Nat.sub_self]
      exact hlast k hprev
    · rw [getD_append _ _ _ _ (by omega), hother k (by omega)]
      exact h k hlt

theorem getD_take_of_lt {d : α} {n : Nat} (hk : k < n) : (l.take n).getD k d = l.getD k d := by
  simp [List.getD, List.getElem?_take_of_lt hk]

theorem mem_take_iff {d : α} {n : Nat} :
    a ∈ l.take n ↔ ∃ k < l.length, k < n ∧ l.getD k d = a := by
  rw [mem_take_iff_getElem]
  constructor
  · rintro ⟨k, hk, rfl⟩
    exact ⟨k, by omega, by omega, getD_eq_getElem _ _ (by omega)⟩
  · rintro ⟨k, hk, hn, rfl⟩
    exact ⟨k, by omega, (getD_eq_getElem _ _ hk).symm⟩

theorem Linked.take {n : Nat} (h : Linked next stop l) (hn : n ≤ l.length)
    (hlast : ∀ k, k + 1 = n → next' (l.getD k stop) = stop)
    (hother : ∀ k, k + 1 < n → next' (l.getD k stop) = next (l.getD k stop)) :
    Linked next' stop (l.take n) := by
  intro k hk
  rw [length_take] at hk
  rw [getD_take_of_lt (by omega)]
  by_cases hend : k + 1 = n
  · have hout : (l.take n).getD (k + 1) stop = stop :=
      getD_eq_default _ _ (by rw [length_take]; omega)
    rw [hout]
    exact hlast k hend
  · rw [getD_take_of_lt (by omega), hother k (by omega)]
    exact h k (by omega)

section Scattered

variable {ι : Type*} {d : α} {f : ι → List α} {i : ι}

/-- No element is in two places of the lists. -/
def Scattered (d : α) (f : ι → List α) : Prop :=
  ∀ i j k m, k < (f i).length → m < (f j).length → (f i).getD k d = (f j).getD m d → i = j ∧ k = m

theorem Scattered.eq_of_mem (h : Scattered d f) {j : ι} (hi : a ∈ f i) (hj : a ∈ f j) : i = j := by
  obtain ⟨k, hk, rfl⟩ := getElem_of_mem hi
  obtain ⟨m, hm, heq⟩ := getElem_of_mem hj
  refine (h i j k m hk hm ?_).1
  rw [getD_eq_getElem _ _ hk, getD_eq_getElem _ _ hm, heq]

theorem Scattered.nodup (h : Scattered d f) (i : ι) : (f i).Nodup := by
  rw [nodup_iff_injective_get]
  intro a b hab
  apply Fin.ext
  refine (h i i a b a.isLt b.isLt ?_).2
  rw [getD_eq_getElem _ _ a.isLt, getD_eq_getElem _ _ b.isLt]
  exact hab

variable [DecidableEq ι]

theorem Scattered.snoc (h : Scattered d f) (ha : ∀ j, a ∉ f j) :
    Scattered d (update f i (f i ++ [a])) := by
  have hget : ∀ j k, k < (f j).length →
      (update f i (f i ++ [a]) j).getD k d = (f j).getD k d := by
    intro j k hk
    by_cases hj : j = i
    · subst hj
      rw [update_self, getD_append _ _ _ _ hk]
    · rw [update_of_ne hj]
  have hmem : ∀ j k, k < (f j).length → (f j).getD k d ≠ a := by
    intro j k hk heq
    apply ha j
    rw [← heq, getD_eq_getElem _ _ hk]
    exact getElem_mem hk
  have hcase : ∀ j k, k < (update f i (f i ++ [a]) j).length →
      k < (f j).length ∨ j = i ∧ k = (f i).length ∧
        (update f i (f i ++ [a]) j).getD k d = a := by
    intro j k hk
    by_cases hj : j = i
    · subst hj
      rw [update_self, length_append, length_singleton] at hk
      by_cases hlt : k < (f j).length
      · exact .inl hlt
      · have hend : k = (f j).length := by omega
        refine .inr ⟨rfl, hend, ?_⟩
        rw [update_self, hend, getD_append_right _ _ _ _ (Nat.le_refl _), Nat.sub_self]
        rfl
    · rw [update_of_ne hj] at hk
      exact .inl hk
  intro j j' k k' hk hk' heq
  rcases hcase j k hk with hlt | ⟨hj, hk, ha⟩
  · rcases hcase j' k' hk' with hlt' | ⟨-, -, ha'⟩
    · rw [hget j k hlt, hget j' k' hlt'] at heq
      exact h j j' k k' hlt hlt' heq
    · rw [ha', hget j k hlt] at heq
      exact absurd heq (hmem j k hlt)
  · rcases hcase j' k' hk' with hlt' | ⟨hj', hk', -⟩
    · rw [ha, hget j' k' hlt'] at heq
      exact absurd heq.symm (hmem j' k' hlt')
    · exact ⟨hj.trans hj'.symm, hk.trans hk'.symm⟩

theorem Scattered.take (h : Scattered d f) (n : Nat) :
    Scattered d (update f i ((f i).take n)) := by
  have hget : ∀ j k, k < (update f i ((f i).take n) j).length →
      k < (f j).length ∧ (update f i ((f i).take n) j).getD k d = (f j).getD k d := by
    intro j k hk
    by_cases hj : j = i
    · subst hj
      rw [update_self, length_take] at hk
      rw [update_self, getD_take_of_lt (by omega)]
      exact ⟨by omega, rfl⟩
    · rw [update_of_ne hj] at hk ⊢
      exact ⟨hk, rfl⟩
  intro j j' k k' hk hk' heq
  obtain ⟨hlt, hkeq⟩ := hget j k hk
  obtain ⟨hlt', hkeq'⟩ := hget j' k' hk'
  rw [hkeq, hkeq'] at heq
  exact h j j' k k' hlt hlt' heq

end Scattered

end Hurd
