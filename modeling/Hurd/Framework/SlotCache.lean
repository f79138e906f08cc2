import Mathlib.Logic.Function.Basic

/-!
# Caches in slots

A cache that forgets: each slot holds one key with a value, or nothing. What it holds agrees with
the truth, and no key is held twice, as long as every change is one of those below.
-/

namespace Hurd

open Function

variable {ι κ β : Type*}

/-- Every value held agrees with the truth about its key, and no two slots hold the same key. -/
structure SlotsAgree (Agree : κ → β → Prop) (slots : ι → Option (κ × β)) : Prop where
  agree : ∀ {p k v}, slots p = some (k, v) → Agree k v
  unique : ∀ {p q k v w}, slots p = some (k, v) → slots q = some (k, w) → p = q

namespace SlotsAgree

variable {Agree Agree' : κ → β → Prop} {slots slots' : ι → Option (κ × β)} {p : ι} {k : κ} {v : β}

theorem empty : SlotsAgree Agree fun _ : ι => none where
  agree h := by cases h
  unique h := by cases h

theorem forget (h : SlotsAgree Agree slots) (hsub : ∀ p e, slots' p = some e → slots p = some e) :
    SlotsAgree Agree slots' where
  agree hp := h.agree (hsub _ _ hp)
  unique hp hq := h.unique (hsub _ _ hp) (hsub _ _ hq)

theorem change (h : SlotsAgree Agree slots)
    (hagree : ∀ p k v, slots p = some (k, v) → Agree k v → Agree' k v) :
    SlotsAgree Agree' slots where
  agree hp := hagree _ _ _ hp (h.agree hp)
  unique hp hq := h.unique hp hq

variable [DecidableEq ι]

theorem clear (h : SlotsAgree Agree slots) (p : ι) :
    SlotsAgree Agree (update slots p none) := by
  apply h.forget
  intro q e hq
  by_cases hqp : q = p
  · rw [hqp, update_self] at hq
    cases hq
  · rwa [update_of_ne hqp] at hq

theorem store (h : SlotsAgree Agree slots) (hagree : Agree' k v)
    (hchange : ∀ k' w, k' ≠ k → Agree k' w → Agree' k' w)
    (hother : ∀ q w, slots q = some (k, w) → q = p) :
    SlotsAgree Agree' (update slots p (some (k, v))) := by
  -- a slot holds the new pair, or what it held
  have hcases : ∀ q e, update slots p (some (k, v)) q = some e →
      q = p ∧ e = (k, v) ∨ q ≠ p ∧ slots q = some e := by
    intro q e hq
    by_cases hqp : q = p
    · subst hqp
      rw [update_self, Option.some.injEq] at hq
      exact .inl ⟨rfl, hq.symm⟩
    · rw [update_of_ne hqp] at hq
      exact .inr ⟨hqp, hq⟩
  constructor
  · intro q k' w hq
    rcases hcases q _ hq with ⟨-, he⟩ | ⟨hqp, hold⟩
    · cases he
      exact hagree
    · apply hchange k' w _ (h.agree hold)
      intro hk
      exact hqp (hother q w (hk ▸ hold))
  · intro q r k' w w' hq hr
    rcases hcases q _ hq with ⟨hqp, he⟩ | ⟨hqp, hq⟩ <;>
      rcases hcases r _ hr with ⟨hrp, he'⟩ | ⟨hrp, hr⟩
    · rw [hqp, hrp]
    · cases he
      exact absurd (hother r w' hr) hrp
    · cases he'
      exact absurd (hother q w hq) hqp
    · exact h.unique hq hr

end SlotsAgree

end Hurd
