import Mathlib.Logic.Relation

/-!
# Climbing to a root

A relation that leads from each element to the one above it, as far as there is one.
-/

namespace Hurd

open Relation

variable {α : Type*} {r r' : α → α → Prop} {a g x root : α}

theorem climb_transfer (Q : α → Prop)
    (hstep : ∀ a b, Q a → a ≠ root → r a b →
      ReflTransGen r' a root ∨ r' a b ∧ (Q b ∨ b = root))
    (h : ReflTransGen r a root) (ha : Q a ∨ a = root) : ReflTransGen r' a root := by
  induction h using ReflTransGen.head_induction_on with
  | refl => exact .refl
  | @head a b hab _ ih =>
    by_cases hroot : a = root
    · rw [hroot]
    · rcases hstep a b (ha.resolve_right hroot) hroot hab with hdone | ⟨hab', hb⟩
      · exact hdone
      · exact .head hab' (ih hb)

theorem climb_of_avoiding (hr : Relator.RightUnique r)
    (havoid : ReflTransGen (fun a b => a ≠ x ∧ r a b) a g) (h : ReflTransGen r a x) :
    ReflTransGen r g x := by
  induction havoid using ReflTransGen.head_induction_on with
  | refl => exact h
  | head hab _ ih =>
    rcases ReflTransGen.cases_head h with heq | ⟨c, hac, hcx⟩
    · exact absurd heq hab.1
    · rw [hr hab.2 hac] at ih
      exact ih hcx

theorem climb_back (hr : Relator.RightUnique r) (hcircle : TransGen r a a)
    (h : ReflTransGen r a g) : ReflTransGen r g a := by
  induction h with
  | refl => exact .refl
  | @tail b c _ hbc ih =>
    have hba : TransGen r b a := by
      rcases reflTransGen_iff_eq_or_transGen.mp ih with heq | hba
      · exact heq ▸ hcircle
      · exact hba
    obtain ⟨c', hbc', hca⟩ := TransGen.head'_iff.mp hba
    rw [hr hbc hbc']
    exact hca

theorem eq_of_climb_self (hself : ∀ b, r a b → b = a) (h : ReflTransGen r a x) : x = a := by
  induction h with
  | refl => rfl
  | tail _ hbc ih =>
    subst ih
    exact hself _ hbc

end Hurd
