import Mathlib.Data.Finset.Insert
import Mathlib.Data.Finset.Erase

/-!
# Objects that are found by number

A table that has the objects of a finite set in it, each under its number.
-/

namespace Hurd

open Function

variable {ι κ : Type*}

/-- The table has exactly the objects of `K` in it, each under its number. -/
def Indexed (table : κ → Option ι) (K : Finset ι) (num : ι → κ) : Prop :=
  ∀ k x, table k = some x ↔ x ∈ K ∧ num x = k

namespace Indexed

variable {table : κ → Option ι} {K : Finset ι} {num : ι → κ} {k : κ} {x y : ι}

theorem find (h : Indexed table K num) (hx : x ∈ K) : table (num x) = some x :=
  (h _ x).mpr ⟨hx, rfl⟩

theorem injOn (h : Indexed table K num) (hx : x ∈ K) (hy : y ∈ K) (hxy : num x = num y) :
    x = y := by
  have hfind := h.find hx
  rw [hxy, h.find hy] at hfind
  exact (Option.some.inj hfind).symm

theorem eq_none_iff (h : Indexed table K num) : table k = none ↔ ∀ x ∈ K, num x ≠ k := by
  constructor
  · intro hnone x hx hk
    rw [← hk, h.find hx] at hnone
    cases hnone
  · intro hk
    cases hf : table k with
    | none => rfl
    | some x => exact absurd ((h k x).mp hf).2 (hk x ((h k x).mp hf).1)

variable [DecidableEq ι] [DecidableEq κ]

theorem add (h : Indexed table K num) (hx : x ∉ K) (hk : table k = none) :
    Indexed (update table k (some x)) (insert x K) (update num x k) := by
  intro j y
  have hnum : y ∈ K → update num x k y = num y := by
    intro hy
    exact update_of_ne (fun heq : y = x => hx (heq ▸ hy)) k num
  rw [Finset.mem_insert]
  by_cases hj : j = k
  · rw [hj, update_self, Option.some.injEq]
    constructor
    · rintro rfl
      exact ⟨.inl rfl, update_self x k num⟩
    · rintro ⟨rfl | hy, hyk⟩
      · rfl
      · rw [hnum hy] at hyk
        exact absurd hyk ((h.eq_none_iff.mp hk) y hy)
  · rw [update_of_ne hj, h j y]
    constructor
    · rintro ⟨hy, hyj⟩
      exact ⟨.inr hy, (hnum hy).trans hyj⟩
    · rintro ⟨rfl | hy, hyj⟩
      · rw [update_self] at hyj
        exact absurd hyj.symm hj
      · exact ⟨hy, (hnum hy).symm.trans hyj⟩

theorem remove (h : Indexed table K num) (hx : x ∈ K) :
    Indexed (update table (num x) none) (K.erase x) num := by
  intro j y
  rw [Finset.mem_erase]
  by_cases hj : j = num x
  · rw [hj, update_self]
    constructor
    · intro hnone
      cases hnone
    · rintro ⟨⟨hne, hy⟩, hyj⟩
      exact absurd (h.injOn hy hx hyj) hne
  · rw [update_of_ne hj, h j y]
    constructor
    · rintro ⟨hy, hyj⟩
      refine ⟨⟨?_, hy⟩, hyj⟩
      rintro rfl
      exact hj hyj.symm
    · rintro ⟨⟨-, hy⟩, hyj⟩
      exact ⟨hy, hyj⟩

end Indexed

end Hurd
