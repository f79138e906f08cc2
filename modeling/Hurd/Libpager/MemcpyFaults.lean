import Hurd.Libpager.Memcpy

/-!
# What `pager_memcpy` reports

Until a fault the variables say how far the copy has come. The handler counts from the start of the
window, which is the offset of the copy only where that is the start of a page.
-/

namespace Hurd.PagerMemcpy

open Libpager List Option

variable {env : Env} {prot offset other size m k : Nat} {s : Copy}

theorem moves_add (prot offset other m k : Nat) :
    moves prot offset other (m + k) =
      moves prot offset other m ++ moves prot (offset + m) (other + m) k := by
  unfold moves
  rw [List.range_add, List.map_append, List.map_map]
  congr 1
  apply List.map_congr_left
  intro i _
  simp only [Function.comp_apply, Nat.add_assoc]

/-- The first `m` bytes have been copied, without a fault. -/
structure Copied (prot offset other size m : Nat) (s : Copy) : Prop where
  le : m ≤ size
  offset_eq : s.offset = offset + m
  other_eq : s.other = other + m
  n_eq : s.n = size - m
  moved_eq : s.moved = moves prot offset other m
  fault_eq : s.fault = none

theorem Copied.advance (h : Copied prot offset other size m s) (hk : k ≤ s.n) :
    Copied prot offset other size (m + k) (s.advance prot k) := by
  have hle := h.le
  have hn := h.n_eq
  refine ⟨by omega, ?_, ?_, ?_, ?_, h.fault_eq⟩
  · rw [Copy.advance, h.offset_eq, Nat.add_assoc]
  · rw [Copy.advance, h.other_eq, Nat.add_assoc]
  · rw [Copy.advance, hn, Nat.sub_sub]
  · rw [Copy.advance, h.moved_eq, h.offset_eq, h.other_eq, moves_add]

/-- The copy is over before its end, after `m` bytes: a window could not be mapped or copied, or the
next byte is in a page with an error. -/
structure Ended (env : Env) (prot offset other size : Nat) (err : Option Errno) (s : Copy) (m : Nat) :
    Prop where
  le : m ≤ size
  n_eq : s.n = size - m
  moved_eq : s.moved = moves prot offset other m
  err_ne : err ≠ none
  cause : s.fault = none ∧ (∃ o, env.vmMap o = err ∨ env.vmCopy o = err) ∨
    s.fault = some (offset + m) ∧ err = env.pagerGetError (offset + m)

/-- A local function comes back as it should. -/
def Returns (env : Env) (prot offset other size : Nat) (Next : Copy → Prop) : Status → Prop
  | .next s => Next s
  | .leave err s => ∃ m, Ended env prot offset other size err s m
  | .abort => False

end Hurd.PagerMemcpy
