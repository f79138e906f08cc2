import Mathlib.Algebra.Group.Prod
import Mathlib.Algebra.Order.Ring.Nat
import Mathlib.Algebra.Ring.Int.Defs

/-!
# Resource usage

`struct rusage` and `rusage_add` of `proc/wait.c`. With `rusage_add` for addition usages are a
commutative monoid.
-/

namespace Hurd.Proc

/-- `struct timeval`, as it is kept normalised. -/
structure Timeval where
  sec : Nat
  usec : Nat
  usec_lt : usec < 1000000

namespace Timeval

def zero : Timeval := ⟨0, 0, Nat.succ_pos 999999⟩

def timeradd (a b : Timeval) : Timeval :=
  if h : 1000000 ≤ a.usec + b.usec then
    ⟨a.sec + b.sec + 1, a.usec + b.usec - 1000000, by have := a.usec_lt; have := b.usec_lt; omega⟩
  else ⟨a.sec + b.sec, a.usec + b.usec, by omega⟩

/-- The time in microseconds. -/
def total (a : Timeval) : Nat := a.sec * 1000000 + a.usec

theorem total_injective : Function.Injective total := by
  intro a b h
  have ha := a.usec_lt
  have hb := b.usec_lt
  cases a
  cases b
  simp only [total] at h
  simp only [mk.injEq]
  omega

@[simp] theorem total_timeradd (a b : Timeval) : (timeradd a b).total = a.total + b.total := by
  unfold timeradd total
  split
  · simp only
    omega
  · simp only
    omega

end Timeval

/-- The fields of `struct rusage` that are counters. -/
inductive Counter where
  | maxrss | ixrss | idrss | isrss | minflt | majflt | nswap | inblock | oublock | msgsnd | msgrcv
  | nsignals | nvcsw | nivcsw

structure Rusage where
  utime : Timeval
  stime : Timeval
  counters : Counter → Int

namespace Rusage

def zero : Rusage := ⟨.zero, .zero, fun _ => 0⟩

/-- `rusage_add` -/
def add (acc b : Rusage) : Rusage :=
  ⟨acc.utime.timeradd b.utime, acc.stime.timeradd b.stime, fun c => acc.counters c + b.counters c⟩

instance instZero : Zero Rusage := ⟨zero⟩

instance instAdd : Add Rusage := ⟨add⟩

/-- The usage as a tuple of numbers. -/
def totals (a : Rusage) : Nat × Nat × (Counter → Int) := (a.utime.total, a.stime.total, a.counters)

theorem totals_injective : Function.Injective totals := by
  intro a b h
  cases a
  cases b
  simp only [totals, Prod.mk.injEq] at h
  rw [mk.injEq]
  exact ⟨Timeval.total_injective h.1, Timeval.total_injective h.2.1, h.2.2⟩

theorem totals_zero : totals 0 = 0 := rfl

theorem totals_add (a b : Rusage) : totals (a + b) = totals a + totals b := by
  change ((a.utime.timeradd b.utime).total, (a.stime.timeradd b.stime).total, _) = _
  rw [Timeval.total_timeradd, Timeval.total_timeradd]
  rfl

theorem ext_totals {a b : Rusage} (h : totals a = totals b) : a = b := totals_injective h

instance instAddCommMonoid : AddCommMonoid Rusage where
  add_assoc a b c := ext_totals (by simp only [totals_add, add_assoc])
  zero_add a := ext_totals (by rw [totals_add, totals_zero, zero_add])
  add_zero a := ext_totals (by rw [totals_add, totals_zero, add_zero])
  add_comm a b := ext_totals (by rw [totals_add, totals_add, add_comm])
  nsmul := nsmulRec

end Rusage

end Hurd.Proc
