import Mathlib.Data.List.Basic

/-!
# Machines that reply

An object whose operations may fail and otherwise give a reply, and the rule by which one such
machine does what another one does: related states stay related, fail alike and reply alike.
-/

namespace Hurd

open Option

variable {σ τ ℓ ρ : Type*}

/-- The state after a sequence of operations, and their replies. -/
def runReplies (step : σ → ℓ → Option (σ × ρ)) : σ → List ℓ → Option (σ × List ρ)
  | s, [] => some (s, [])
  | s, l :: ls =>
      (step s l).bind fun t => (runReplies step t.1 ls).map fun u => (u.1, t.2 :: u.2)

/-- `f` takes what the one machine does to what the other one does. -/
def Commutes (f : σ → τ) (r : Option (σ × ρ)) (r' : Option (τ × ρ)) : Prop :=
  r.map (Prod.map f id) = r'

variable {step : σ → ℓ → Option (σ × ρ)} {step' : τ → ℓ → Option (τ × ρ)}

theorem runReplies_commutes (f : σ → τ) (Inv : σ → Prop) (ok : ℓ → Prop)
    (hstep : ∀ s l, Inv s → ok l → Commutes f (step s l) (step' (f s) l))
    (hinv : ∀ s l t, Inv s → ok l → step s l = some t → Inv t.1) {ls : List ℓ}
    (hok : ∀ l ∈ ls, ok l) {s : σ} (hs : Inv s) :
    Commutes f (runReplies step s ls) (runReplies step' (f s) ls) := by
  induction ls generalizing s with
  | nil => rfl
  | cons l ls ih =>
    have hl := hok l List.mem_cons_self
    have hnow := hstep s l hs hl
    unfold Commutes at hnow ⊢
    rw [runReplies, runReplies, ← hnow]
    cases h : step s l with
    | none => rfl
    | some t =>
      have hrest := ih (fun k hk => hok k (List.mem_cons_of_mem l hk)) (hinv s l t hs hl h)
      unfold Commutes at hrest
      simp only [bind_some, map_some, map_map, Prod.map_fst, ← hrest]
      rfl

theorem runReplies_invariant (Inv : σ → Prop)
    (hinv : ∀ s l t, Inv s → step s l = some t → Inv t.1) {ls : List ℓ} {s t : σ} {rs : List ρ}
    (hs : Inv s) (hrun : runReplies step s ls = some (t, rs)) : Inv t := by
  induction ls generalizing s rs with
  | nil =>
    obtain ⟨rfl, -⟩ := Prod.mk.inj (Option.some.inj hrun)
    exact hs
  | cons l ls ih =>
    obtain ⟨u, hu, hrest⟩ := bind_eq_some_iff.mp hrun
    obtain ⟨v, hv, heq⟩ := map_eq_some_iff.mp hrest
    obtain ⟨rfl, -⟩ := Prod.mk.inj heq
    exact ih (hinv s l u hs hu) hv

end Hurd
