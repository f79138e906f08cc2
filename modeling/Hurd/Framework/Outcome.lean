import Mathlib.Logic.Basic

/-!
# Functions that may stop

What is known of the parts of a computation in `Except` when its result is known.
-/

namespace Hurd

variable {ε α β : Type*} {x : Except ε α}

theorem exceptBind_eq_ok {f : α → Except ε β} {b : β} :
    x.bind f = .ok b ↔ ∃ a, x = .ok a ∧ f a = .ok b := by
  cases x with
  | error e => simp [Except.bind]
  | ok a => simp [Except.bind]

theorem exceptMap_eq_ok {f : α → β} {b : β} : x.map f = .ok b ↔ ∃ a, x = .ok a ∧ f a = b := by
  cases x with
  | error e => simp [Except.map]
  | ok a => simp [Except.map]

theorem exceptBind_eq_error {f : α → Except ε β} {e : ε} :
    x.bind f = .error e ↔ x = .error e ∨ ∃ a, x = .ok a ∧ f a = .error e := by
  cases x with
  | error e => simp [Except.bind]
  | ok a => simp [Except.bind]

theorem exceptMap_eq_error {f : α → β} {e : ε} : x.map f = .error e ↔ x = .error e := by
  cases x with
  | error e => simp [Except.map]
  | ok a => simp [Except.map]

/-- How a computation has stopped, if it has. -/
def stopOf : Except ε α → Option ε
  | .ok _ => none
  | .error e => some e

theorem eq_error_of_stopOf {e : ε} (h : stopOf x = some e) : x = .error e := by
  cases x with
  | ok a => cases h
  | error d => exact congrArg Except.error (Option.some.inj h)

/-- The computation has a result as `P` says, or stops in a way that is admitted. -/
def Yields (admits : ε → Prop) (P : α → Prop) : Except ε α → Prop
  | .ok a => P a
  | .error e => admits e

variable {admits : ε → Prop} {P : α → Prop} {Q : β → Prop}

theorem Yields.bind {f : α → Except ε β} (h : Yields admits P x)
    (hf : ∀ a, P a → Yields admits Q (f a)) : Yields admits Q (x.bind f) := by
  cases x with
  | ok a => exact hf a h
  | error e => exact h

theorem Yields.map {f : α → β} (h : Yields admits P x) (hf : ∀ a, P a → Q (f a)) :
    Yields admits Q (x.map f) := by
  cases x with
  | ok a => exact hf a h
  | error e => exact h

theorem Yields.mono {P' : α → Prop} (h : Yields admits P x) (hp : ∀ a, P a → P' a) :
    Yields admits P' x := by
  cases x with
  | ok a => exact hp a h
  | error e => exact h

theorem Yields.and {P' : α → Prop} (h : Yields admits P x) (h' : Yields admits P' x) :
    Yields admits (fun a => P a ∧ P' a) x := by
  cases x with
  | ok a => exact ⟨h, h'⟩
  | error e => exact h

theorem Yields.of_ok {a : α} (h : Yields admits P x) (hx : x = .ok a) : P a := by
  rw [hx] at h
  exact h

theorem Yields.of_error {e : ε} (h : Yields admits P x) (hx : x = .error e) : admits e := by
  rw [hx] at h
  exact h

end Hurd
