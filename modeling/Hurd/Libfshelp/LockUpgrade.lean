import Hurd.Libfshelp.FileLockInvariant

/-!
# Interrupted upgrades

An atomic upgrade announces itself in the type of the box before it sleeps. When it is interrupted
the announcement stays, also when no other upgrade waits.
-/

namespace Hurd.Fshelp

open List Option

section Upgrade

variable {ι : Type*}

/-- The type of a box without an announcement. -/
def LockWord.plain : LockWord → LockWord
  | .shex => .sh
  | w => w

/-- An announcement has its call, among those that wait or are `held`. -/
def Announced (held : List (LockCall ι)) (s : LockBox ι) : Prop :=
  s.type = .shex → ∃ c, (s.Pending c ∨ c ∈ held) ∧ c.upgrading = true

variable {held : List (LockCall ι)} {s t : LockBox ι} {c : LockCall ι} {u : ι}

theorem Announced.of_ne (h : s.type ≠ .shex) : Announced held s := fun ht => absurd ht h

theorem Announced.weaken (h : Announced [] s) : Announced held s := by
  intro ht
  obtain ⟨c, hc, hup⟩ := h ht
  exact ⟨c, .inl (by simpa using hc), hup⟩

theorem Announced.settle (h : Announced [c] s) (hc : c.upgrading = false) : Announced [] s := by
  intro ht
  obtain ⟨c', hc' | hc', hup⟩ := h ht
  · exact ⟨c', .inl hc', hup⟩
  · have he : c' = c := by simpa using hc'
    simp [he, hc] at hup

theorem Announced.wake (h : Announced held s) : Announced held s.wake := by
  intro ht
  simpa using h (by simpa using ht)

theorem Announced.wakeIf (h : Announced held s) (p : Prop) [Decidable p] :
    Announced held (if p then s.wake else s) := by
  split
  · exact h.wake
  · exact h

theorem Announced.condWait (h : Announced [c] s) {c' : LockCall ι}
    (hup : c.upgrading = true → c'.upgrading = true) : Announced [] (s.condWait c') := by
  intro ht
  obtain ⟨d, hd | hd, hdup⟩ := h ht
  · exact ⟨d, .inl (hd.imp_left (mem_append_left _)), hdup⟩
  · have he : d = c := by simpa using hd
    exact ⟨c', .inl (.inl (by simp [LockBox.condWait])), hup (he ▸ hdup)⟩

variable [DecidableEq ι]

theorem Announced.releaseExclusive : Announced held (releaseExclusive u s) := by
  apply Announced.wake
  exact .of_ne (by simp)

theorem Announced.releaseShared (h : Announced held s) : Announced held (releaseShared u s) := by
  unfold Fshelp.releaseShared
  apply Announced.wakeIf
  split
  · apply Announced.wake
    exact .of_ne (by simp)
  · exact h

variable [Fintype ι]

end Upgrade

end Hurd.Fshelp
