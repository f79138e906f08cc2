import Mathlib.Data.Finset.Basic

/-!
# Locks and references

A program that takes locks and references and gives them back. It cannot go on where it would wait
for a lock that it holds itself, or where an assertion fails; and it is wrong to give back what it
does not hold.
-/

namespace Hurd

/-- The locks that are held, and the references, each as often as it has been taken. -/
@[ext] structure Holding (ι : Type) where
  locks : Finset ι
  refs : Multiset ι
  deriving DecidableEq

/-- Why a program does not come to its end. -/
inductive Halt where
  /-- It waits for itself, or an assertion has failed. -/
  | stuck
  /-- It has given back what it does not hold. -/
  | wrong
  deriving DecidableEq

abbrev Locking (ι α : Type) := StateT (Holding ι) (Except Halt) α

namespace Locking

variable {ι α β : Type}

section Operations

variable [DecidableEq ι]

def lock (n : ι) : Locking ι Unit := fun h =>
  if n ∈ h.locks then .error .stuck else .ok ((), { h with locks := insert n h.locks })

def unlock (n : ι) : Locking ι Unit := fun h =>
  if n ∈ h.locks then .ok ((), { h with locks := h.locks.erase n }) else .error .wrong

/-- Take a reference. -/
def ref (n : ι) : Locking ι Unit := fun h => .ok ((), { h with refs := n ::ₘ h.refs })

/-- Release a reference. -/
def rele (n : ι) : Locking ι Unit := fun h =>
  if n ∈ h.refs then .ok ((), { h with refs := h.refs.erase n }) else .error .wrong

/-- Unlock, and release a reference. -/
def put (n : ι) : Locking ι Unit := do
  unlock n
  rele n

def assert (p : Prop) [Decidable p] : Locking ι Unit := fun h =>
  if p then .ok ((), h) else .error .stuck

def wait : Locking ι α := fun _ => .error .stuck

end Operations

/-- From `h` the program comes to an end, or goes wrong before. -/
def Ends (c : Locking ι α) (h : Holding ι) : Prop := c.run h ≠ .error .stuck

/-- From `h` the program comes to an end with just `h'` held, and gives back only what it holds. -/
def Leaves (c : Locking ι α) (h h' : Holding ι) : Prop := ∃ a, c.run h = .ok (a, h')

/-- If the program comes to an end, it is `p` that decides whether it leaves `h'`. -/
def Decides (c : Locking ι α) (h h' : Holding ι) (p : Prop) : Prop :=
  Ends c h → (Leaves c h h' ↔ p)

variable {h h' : Holding ι} {p : Prop}

@[simp] theorem cons_ne_self (n : ι) (refs : Multiset ι) : n ::ₘ refs ≠ refs := by
  intro heq
  have hcard := congrArg Multiset.card heq
  rw [Multiset.card_cons] at hcard
  omega

theorem decides_congr {c d : Locking ι α} {k : Holding ι} (heq : c.run h = d.run k) :
    Decides c h h' p ↔ Decides d k h' p := by
  unfold Decides Ends Leaves
  rw [heq]

theorem decides_stuck {c : Locking ι α} (heq : c.run h = .error .stuck) : Decides c h h' p :=
  fun hends => absurd heq hends

theorem decides_wrong {c : Locking ι α} (heq : c.run h = .error .wrong) :
    Decides c h h' p ↔ ¬p := by
  have hends : Ends c h := by
    unfold Ends
    rw [heq]
    simp
  have hnot : ¬Leaves c h h' := by
    unfold Leaves
    rw [heq]
    simp
  unfold Decides
  simp only [hends, hnot, true_imp_iff, false_iff]

@[simp] theorem decides_pure (a : α) : Decides (pure a) h h' p ↔ (h = h' ↔ p) := by
  have hrun : (pure a : Locking ι α).run h = .ok (a, h) := rfl
  have hleaves : Leaves (pure a : Locking ι α) h h' ↔ h = h' := by
    unfold Leaves
    rw [hrun]
    simp
  unfold Decides Ends
  rw [hleaves, hrun]
  simp

theorem decides_bind {c : Locking ι β} {g : β → Locking ι α} {b : β} {k : Holding ι}
    (hrun : c.run h = .ok (b, k)) : Decides (c >>= g) h h' p ↔ Decides (g b) k h' p := by
  apply decides_congr
  rw [StateT.run_bind, hrun]
  rfl

theorem decides_bind_stuck {c : Locking ι β} {g : β → Locking ι α}
    (hrun : c.run h = .error .stuck) : Decides (c >>= g) h h' p := by
  apply decides_stuck
  rw [StateT.run_bind, hrun]
  rfl

theorem Decides.bind {c : Locking ι β} {g : β → Locking ι α} {k : Holding ι}
    (hc : Decides c h k True) (hg : ∀ b, Decides (g b) k h' p) : Decides (c >>= g) h h' p := by
  by_cases hstuck : c.run h = .error .stuck
  · exact decides_bind_stuck hstuck
  · obtain ⟨b, hrun⟩ := (hc hstuck).mpr trivial
    exact (decides_bind hrun).mpr (hg b)

theorem decides_bind_wrong {c : Locking ι β} {g : β → Locking ι α}
    (hrun : c.run h = .error .wrong) : Decides (c >>= g) h h' p ↔ ¬p := by
  apply decides_wrong
  rw [StateT.run_bind, hrun]
  rfl

theorem Decides.bind_of {c : Locking ι β} {g : β → Locking ι α} {k : Holding ι} {q : Prop}
    (hc : Decides c h k q) (hgood : q → ∀ b, Decides (g b) k h' p) (hp : ¬q → ¬p)
    (hbad : ¬q → ∀ b l, l ≠ k → Decides (g b) l h' p) : Decides (c >>= g) h h' p := by
  cases hrun : c.run h with
  | error halt =>
    cases halt with
    | stuck => exact decides_bind_stuck hrun
    | wrong =>
      have hq : ¬q := (decides_wrong hrun).mp hc
      exact (decides_bind_wrong hrun).mpr (hp hq)
  | ok result =>
    obtain ⟨b, l⟩ := result
    have hends : Ends c h := by
      unfold Ends
      rw [hrun]
      simp
    have hleaves : Leaves c h k ↔ l = k := by
      unfold Leaves
      rw [hrun]
      simp
    have hiff := (hc hends).symm.trans hleaves
    rw [decides_bind hrun]
    by_cases hl : l = k
    · rw [hl]
      exact hgood (hiff.mpr hl) b
    · exact hbad (fun hq => hl (hiff.mp hq)) b l hl

variable {n : ι} {f : Unit → Locking ι α}

@[simp] theorem decides_ref : Decides (ref n >>= f) h h' p ↔
    Decides (f ()) { h with refs := n ::ₘ h.refs } h' p := decides_bind rfl

@[simp] theorem decides_assert {a : Prop} [Decidable a] :
    Decides (assert a >>= f) h h' p ↔ (a → Decides (f ()) h h' p) := by
  by_cases ha : a
  · simp only [ha, true_imp_iff]
    exact decides_bind (if_pos ha)
  · simp only [ha, false_imp_iff, iff_true]
    exact decides_bind_stuck (if_neg ha)

@[simp] theorem decides_wait {c : α → Locking ι β} :
    Decides ((wait : Locking ι α) >>= c) h h' p := decides_bind_stuck rfl

variable [DecidableEq ι]

@[simp] theorem decides_lock : Decides (lock n >>= f) h h' p ↔
    (n ∉ h.locks → Decides (f ()) { h with locks := insert n h.locks } h' p) := by
  by_cases hmem : n ∈ h.locks
  · simp only [hmem, not_true_eq_false, false_imp_iff, iff_true]
    exact decides_bind_stuck (if_pos hmem)
  · simp only [hmem, not_false_eq_true, true_imp_iff]
    exact decides_bind (if_neg hmem)

@[simp] theorem decides_unlock : Decides (unlock n >>= f) h h' p ↔
    if n ∈ h.locks then Decides (f ()) { h with locks := h.locks.erase n } h' p else ¬p := by
  by_cases hmem : n ∈ h.locks
  · rw [if_pos hmem]
    exact decides_bind (if_pos hmem)
  · rw [if_neg hmem]
    exact decides_bind_wrong (if_neg hmem)

@[simp] theorem decides_rele : Decides (rele n >>= f) h h' p ↔
    if n ∈ h.refs then Decides (f ()) { h with refs := h.refs.erase n } h' p else ¬p := by
  by_cases hmem : n ∈ h.refs
  · rw [if_pos hmem]
    exact decides_bind (if_pos hmem)
  · rw [if_neg hmem]
    exact decides_bind_wrong (if_neg hmem)

theorem decides_unlock_wrong (hwrong : n ∈ h.locks →
      (Decides (f ()) { h with locks := h.locks.erase n } h' p ↔ ¬p)) :
    Decides (unlock n >>= f) h h' p ↔ ¬p := by
  rw [decides_unlock]
  split
  · exact hwrong ‹_›
  · exact Iff.rfl

theorem decides_rele_wrong (hwrong : n ∈ h.refs →
      (Decides (f ()) { h with refs := h.refs.erase n } h' p ↔ ¬p)) :
    Decides (rele n >>= f) h h' p ↔ ¬p := by
  rw [decides_rele]
  split
  · exact hwrong ‹_›
  · exact Iff.rfl

@[simp] theorem decides_put : Decides (put n >>= f) h h' p ↔
    Decides (unlock n >>= fun _ => rele n >>= f) h h' p := by
  rw [put, bind_assoc]

end Locking

end Hurd
