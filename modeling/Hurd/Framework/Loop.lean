import Hurd.Framework.Run

/-!
# Unbounded loops

A loop whose rounds are given by `Round`: the states it visits, its result after at most a
number of rounds, and the rules that prove an invariant of the first and the existence of the
second.
-/

namespace Hurd

variable {σ ρ : Type*}

/-- Run at most `fuel` rounds of `for (;;) body`. -/
def iterate (body : σ → Round σ ρ) : Nat → σ → Option ρ
  | 0, _ => none
  | fuel + 1, s =>
      match body s with
      | .next t => iterate body fuel t
      | .stop r => some r

/-- `t` is the state at the head of some round of the loop entered in state `s`. -/
inductive Visits (body : σ → Round σ ρ) (s : σ) : σ → Prop
  | here : Visits body s s
  | next {t u : σ} : Visits body s t → body t = .next u → Visits body s u

variable {body : σ → Round σ ρ}

theorem iterate_next {s t : σ} (h : body s = .next t) (fuel : Nat) :
    iterate body (fuel + 1) s = iterate body fuel t := by
  rw [iterate, h]

theorem iterate_stop {s : σ} {r : ρ} (h : body s = .stop r) (fuel : Nat) :
    iterate body (fuel + 1) s = some r := by
  rw [iterate, h]

theorem Visits.invariant (Inv : σ → Prop) {s t : σ} (hinit : Inv s)
    (hround : ∀ t u, Visits body s t → Inv t → body t = .next u → Inv u)
    (h : Visits body s t) : Inv t := by
  induction h with
  | here => exact hinit
  | next hv hb ih => exact hround _ _ hv ih hb

theorem iterate_of_measure (Inv : σ → Prop) (measure : σ → Nat)
    (hround : ∀ s t, Inv s → body s = .next t → Inv t ∧ measure t < measure s)
    {fuel : Nat} {s : σ} (hs : Inv s) (hfuel : measure s < fuel) :
    ∃ r, iterate body fuel s = some r := by
  induction fuel generalizing s with
  | zero => omega
  | succ fuel ih =>
    cases hb : body s with
    | next t =>
      obtain ⟨ht, hlt⟩ := hround s t hs hb
      obtain ⟨r, hr⟩ := ih ht (by omega)
      exact ⟨r, (iterate_next hb fuel).trans hr⟩
    | stop r => exact ⟨r, iterate_stop hb fuel⟩

theorem iterate_of_forever (Stays : σ → Prop)
    (hround : ∀ s, Stays s → ∃ t, body s = .next t ∧ Stays t) {s : σ} (hs : Stays s)
    (fuel : Nat) : iterate body fuel s = none := by
  induction fuel generalizing s with
  | zero => rfl
  | succ fuel ih =>
    obtain ⟨t, ht, hstays⟩ := hround s hs
    exact (iterate_next ht fuel).trans (ih hstays)

theorem iterate_of_fixed {s : σ} (h : body s = .next s) (fuel : Nat) :
    iterate body fuel s = none :=
  iterate_of_forever (· = s) (fun _ ht => ⟨s, ht ▸ h, rfl⟩) rfl fuel

theorem Visits.iterate_eq_some {s t : σ} (h : Visits body s t) {fuel : Nat} {r : ρ}
    (hr : iterate body fuel s = some r) : ∃ fuel', iterate body fuel' t = some r := by
  induction h with
  | here => exact ⟨fuel, hr⟩
  | next _ hb ih =>
    obtain ⟨fuel', hr'⟩ := ih
    cases fuel' with
    | zero => cases hr'
    | succ fuel' => exact ⟨fuel', (iterate_next hb fuel').symm.trans hr'⟩

end Hurd
