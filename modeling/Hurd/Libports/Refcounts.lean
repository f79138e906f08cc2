import Hurd.Libports.PortDeref

/-!
# Packed counts

The operations of `libshouldbeinlibc/refcount.h` as changes of two independent counters. Each is a
single addition to the word that holds both, so a carry or a borrow of the hard count goes into the
weak one.
-/

namespace Hurd.Ports

open Option

/-- `refcounts_init`, or `none` when its assertion fails. -/
def refcountsInit (hard weak : BitVec 32) : Option (BitVec 64) :=
  if hard ≠ 0 ∨ weak ≠ 0 then some (References.value ⟨hard, weak⟩) else none

def refcountsPromote (ref : BitVec 64) : Option (BitVec 64) :=
  checked (ref + References.value ⟨1, uint32Max⟩) fun r =>
    r.hard ≠ uint32Max ∧ r.weak ≠ uint32Max

inductive RefcountsOp where
  | ref | unsafeRef | deref | promote | demote | refWeak | unsafeRefWeak | derefWeak
  deriving DecidableEq, Repr

namespace RefcountsOp

/-- A call, or `none` when one of its assertions fails. -/
def run (value : BitVec 64) : RefcountsOp → Option (BitVec 64)
  | .ref => refcountsRef value
  | .unsafeRef => refcountsUnsafeRef value
  | .deref => refcountsDeref value
  | .promote => refcountsPromote value
  | .demote => refcountsDemote value
  | .refWeak => refcountsRefWeak value
  | .unsafeRefWeak => refcountsUnsafeRefWeak value
  | .derefWeak => refcountsDerefWeak value

/-- What the atomic operation of a call makes of the word, before its assertions are checked. -/
def word (value : BitVec 64) : RefcountsOp → BitVec 64
  | .ref | .unsafeRef => value + References.value ⟨1, 0⟩
  | .deref => value - References.value ⟨1, 0⟩
  | .promote => value + References.value ⟨1, uint32Max⟩
  | .demote => value + References.value ⟨uint32Max, 0⟩
  | .refWeak | .unsafeRefWeak => value + References.value ⟨0, 1⟩
  | .derefWeak => value - References.value ⟨0, 1⟩

/-- What the call adds to the hard count. -/
def hardChange : RefcountsOp → Int
  | .ref | .unsafeRef | .promote => 1
  | .deref | .demote => -1
  | .refWeak | .unsafeRefWeak | .derefWeak => 0

/-- What the call adds to the weak count. -/
def weakChange : RefcountsOp → Int
  | .refWeak | .unsafeRefWeak | .demote => 1
  | .derefWeak | .promote => -1
  | .ref | .unsafeRef | .deref => 0

end RefcountsOp

/-- Two independent counters. -/
structure Counters where
  hard : Int
  weak : Int
  deriving DecidableEq

namespace Counters

def apply (c : Counters) (op : RefcountsOp) : Counters :=
  ⟨c.hard + op.hardChange, c.weak + op.weakChange⟩

def InRange (c : Counters) : Prop :=
  (0 ≤ c.hard ∧ c.hard < 2 ^ 32) ∧ 0 ≤ c.weak ∧ c.weak < 2 ^ 32

instance (c : Counters) : Decidable c.InRange := inferInstanceAs (Decidable (_ ∧ _))

/-- Neither counter leaves its range. -/
def StaysInRange : Counters → List RefcountsOp → Prop
  | _, [] => True
  | c, op :: ops => (c.apply op).InRange ∧ StaysInRange (c.apply op) ops

/-- A counter at its greatest value is incremented, and no assertion of the call tells. -/
def Wraps (c : Counters) : RefcountsOp → Prop
  | .ref | .unsafeRef => c.hard = 2 ^ 32 - 1
  | .promote => c.hard = 2 ^ 32 - 1 ∧ c.weak ≠ 2 ^ 32 - 1
  | .demote => c.weak = 2 ^ 32 - 1 ∧ c.hard ≠ 0
  | .refWeak | .unsafeRefWeak => c.weak = 2 ^ 32 - 1
  | .deref | .derefWeak => False

/-- Neither counter has its greatest value. -/
structure Below (c : Counters) : Prop where
  hard : 0 ≤ c.hard ∧ c.hard < 2 ^ 32 - 1
  weak : 0 ≤ c.weak ∧ c.weak < 2 ^ 32 - 1

theorem Below.inRange {c : Counters} (h : c.Below) : c.InRange := by
  have hhard := h.hard
  have hweak := h.weak
  unfold InRange
  omega

end Counters

open Counters

/-- The word holds these counts. -/
structure Represents (value : BitVec 64) (c : Counters) : Prop where
  toNat : (value.toNat : Int) = c.weak * 2 ^ 32 + c.hard
  inRange : c.InRange

theorem Represents.references_eq {value : BitVec 64} {c : Counters} (h : Represents value c) :
    ((references value).hard.toNat : Int) = c.hard ∧
      ((references value).weak.toNat : Int) = c.weak := by
  obtain ⟨⟨hlow, hhigh⟩, hlow', hhigh'⟩ := h.inRange
  have hvalue : value.toNat = c.weak.toNat * 2 ^ 32 + c.hard.toNat := by
    have := h.toNat
    omega
  rw [references_hard hvalue (by omega), references_weak hvalue (by omega) (by omega)]
  omega

theorem promotion_toNat : (References.value ⟨1, uint32Max⟩).toNat = (2 ^ 32 - 1) * 2 ^ 32 + 1 := rfl

theorem represents_value (hard weak : BitVec 32) :
    Represents (References.value ⟨hard, weak⟩) ⟨hard.toNat, weak.toNat⟩ := by
  have hhard := hard.isLt
  have hweak := weak.isLt
  have hvalue : (weak ++ hard).toNat = weak.toNat * 2 ^ 32 + hard.toNat := by
    rw [BitVec.toNat_append, ← Nat.shiftLeft_add_eq_or_of_lt hard.isLt, Nat.shiftLeft_eq]
  constructor
  · rw [References.value, hvalue]
    dsimp only
    omega
  · unfold InRange
    dsimp only
    omega

section Call

variable {value value' : BitVec 64} {c : Counters}

theorem RefcountsOp.word_toNat (value : BitVec 64) (op : RefcountsOp) :
    ((op.word value).toNat : Int) =
      (value.toNat + op.weakChange * 2 ^ 32 + op.hardChange) % 2 ^ 64 := by
  have hlt := value.isLt
  cases op with
  | ref | unsafeRef =>
    rw [word, BitVec.toNat_add, oneHard_toNat, weakChange, hardChange]
    omega
  | deref =>
    rw [word, BitVec.toNat_sub, oneHard_toNat, weakChange, hardChange]
    omega
  | promote =>
    rw [word, BitVec.toNat_add, promotion_toNat, weakChange, hardChange]
    omega
  | demote =>
    rw [word, BitVec.toNat_add, demotion_toNat, weakChange, hardChange]
    omega
  | refWeak | unsafeRefWeak =>
    rw [word, BitVec.toNat_add, oneWeak_toNat, weakChange, hardChange]
    omega
  | derefWeak =>
    rw [word, BitVec.toNat_sub, oneWeak_toNat, weakChange, hardChange]
    omega

theorem Represents.word (h : Represents value c) {op : RefcountsOp} (hop : (c.apply op).InRange) :
    Represents (op.word value) (c.apply op) := by
  refine ⟨?_, hop⟩
  have hsum := op.word_toNat value
  rw [h.toNat] at hsum
  unfold InRange at hop
  simp only [Counters.apply] at hop ⊢
  generalize op.hardChange = hard at *
  generalize op.weakChange = weak at *
  omega

theorem references_toNat (value : BitVec 64) :
    (references value).hard.toNat = value.toNat % 2 ^ 32 ∧
      (references value).weak.toNat = value.toNat / 2 ^ 32 := by
  have hlt := value.isLt
  have hvalue : value.toNat = value.toNat / 2 ^ 32 * 2 ^ 32 + value.toNat % 2 ^ 32 := by omega
  exact ⟨references_hard hvalue (by omega), references_weak hvalue (by omega) (by omega)⟩

/-- The first assertion of a call: neither count that it changes is the one that stands for an
overflow. -/
def RefcountsOp.Detects (op : RefcountsOp) (r : References) : Prop :=
  op.hardChange ≠ 0 ∧ r.hard = uint32Max ∨ op.weakChange ≠ 0 ∧ r.weak = uint32Max

theorem run_eq_some_iff {op : RefcountsOp} (href : op ≠ .ref) (hrefWeak : op ≠ .refWeak) :
    op.run value = some value' ↔
      ¬ op.Detects (references (op.word value)) ∧ op.word value = value' := by
  cases op with
  | ref => exact absurd rfl href
  | refWeak => exact absurd rfl hrefWeak
  | unsafeRef | deref | unsafeRefWeak | derefWeak =>
    simp [RefcountsOp.run, refcountsUnsafeRef, refcountsDeref, refcountsUnsafeRefWeak,
      refcountsDerefWeak, checked_eq_some, RefcountsOp.Detects, RefcountsOp.hardChange,
      RefcountsOp.weakChange, RefcountsOp.word]
  | promote | demote =>
    simp [RefcountsOp.run, refcountsPromote, refcountsDemote, checked_eq_some,
      RefcountsOp.Detects, RefcountsOp.hardChange, RefcountsOp.weakChange, RefcountsOp.word]

theorem refcountsRef_eq_some (h : refcountsRef value = some value') :
    refcountsUnsafeRef value = some value' := by
  obtain ⟨v, hv, hlast⟩ := bind_eq_some_iff.mp h
  exact (checked_eq_some.mp hlast).2 ▸ hv

theorem refcountsRefWeak_eq_some (h : refcountsRefWeak value = some value') :
    refcountsUnsafeRefWeak value = some value' := by
  obtain ⟨v, hv, hlast⟩ := bind_eq_some_iff.mp h
  exact (checked_eq_some.mp hlast).2 ▸ hv

theorem run_eq_some {op : RefcountsOp} (h : op.run value = some value') :
    ¬ op.Detects (references (op.word value)) ∧ op.word value = value' := by
  by_cases href : op = .ref
  · subst href
    have hunsafe : RefcountsOp.unsafeRef.run value = some value' := refcountsRef_eq_some h
    have hfirst := (run_eq_some_iff (by decide) (by decide)).mp hunsafe
    exact hfirst
  by_cases hrefWeak : op = .refWeak
  · subst hrefWeak
    have hunsafe : RefcountsOp.unsafeRefWeak.run value = some value' := refcountsRefWeak_eq_some h
    have hfirst := (run_eq_some_iff (by decide) (by decide)).mp hunsafe
    exact hfirst
  · exact (run_eq_some_iff href hrefWeak).mp h

theorem one_toNat : (1 : BitVec 32).toNat = 1 := rfl

theorem zero_toNat : (0 : BitVec 32).toNat = 0 := rfl

theorem refcountsRef_eq (hzero : (value + References.value ⟨1, 0⟩).toNat ≠ 1) :
    refcountsRef value = refcountsUnsafeRef value := by
  rw [refcountsRef, refcountsUnsafeRef, checked]
  split
  · rw [bind_some, checked_eq_some]
    obtain ⟨hhard, hweak⟩ := references_toNat (value + References.value ⟨1, 0⟩)
    refine ⟨?_, rfl⟩
    rw [decide_eq_true_iff, ← BitVec.toNat_inj, ← BitVec.toNat_inj, hhard, hweak, one_toNat,
      zero_toNat]
    omega
  · rfl

theorem refcountsRefWeak_eq (hzero : (value + References.value ⟨0, 1⟩).toNat ≠ 2 ^ 32) :
    refcountsRefWeak value = refcountsUnsafeRefWeak value := by
  rw [refcountsRefWeak, refcountsUnsafeRefWeak, checked]
  split
  · rw [bind_some, checked_eq_some]
    obtain ⟨hhard, hweak⟩ := references_toNat (value + References.value ⟨0, 1⟩)
    refine ⟨?_, rfl⟩
    rw [decide_eq_true_iff, ← BitVec.toNat_inj, ← BitVec.toNat_inj, hhard, hweak, one_toNat,
      zero_toNat]
    omega
  · rfl

theorem run_eq_none_iff {op : RefcountsOp} (hhard : op = .ref → (op.word value).toNat ≠ 1)
    (hweak : op = .refWeak → (op.word value).toNat ≠ 2 ^ 32) :
    op.run value = none ↔ op.Detects (references (op.word value)) := by
  have hreturns : op.run value = some (op.word value) ↔
      ¬ op.Detects (references (op.word value)) := by
    refine ⟨fun h => (run_eq_some h).1, fun h => ?_⟩
    by_cases href : op = .ref
    · subst href
      have hunsafe : RefcountsOp.unsafeRef.run value = some _ :=
        (run_eq_some_iff (by decide) (by decide)).mpr ⟨h, rfl⟩
      exact (refcountsRef_eq (hhard rfl)).trans hunsafe
    by_cases hrefWeak : op = .refWeak
    · subst hrefWeak
      have hunsafe : RefcountsOp.unsafeRefWeak.run value = some _ :=
        (run_eq_some_iff (by decide) (by decide)).mpr ⟨h, rfl⟩
      exact (refcountsRefWeak_eq (hweak rfl)).trans hunsafe
    · exact (run_eq_some_iff href hrefWeak).mpr ⟨h, rfl⟩
  cases hrun : op.run value with
  | none =>
    rw [hrun] at hreturns
    simpa using hreturns
  | some v =>
    have := (run_eq_some hrun).1
    simpa using this

theorem detects_iff (op : RefcountsOp) (value : BitVec 64) :
    op.Detects (references value) ↔ op.hardChange ≠ 0 ∧ value.toNat % 2 ^ 32 = 2 ^ 32 - 1 ∨
      op.weakChange ≠ 0 ∧ value.toNat / 2 ^ 32 = 2 ^ 32 - 1 := by
  have hmax : uint32Max.toNat = 2 ^ 32 - 1 := rfl
  obtain ⟨hhard, hweak⟩ := references_toNat value
  rw [RefcountsOp.Detects, ← BitVec.toNat_inj, ← BitVec.toNat_inj, hhard, hweak, hmax]

theorem Represents.run_eq_none (h : Represents value c) {op : RefcountsOp}
    (hop : ¬ (c.apply op).InRange) : op.run value = none ↔ ¬ c.Wraps op := by
  have hword := op.word_toNat value
  have hold := h.inRange
  rw [h.toNat] at hword
  simp only [Counters.InRange, Counters.apply] at hold hop
  have hhard : op = .ref → (op.word value).toNat ≠ 1 := by
    rintro rfl
    simp only [RefcountsOp.hardChange, RefcountsOp.weakChange] at hword hop
    omega
  have hweak : op = .refWeak → (op.word value).toNat ≠ 2 ^ 32 := by
    rintro rfl
    simp only [RefcountsOp.hardChange, RefcountsOp.weakChange] at hword hop
    omega
  rw [run_eq_none_iff hhard hweak, detects_iff]
  clear hhard hweak
  cases op <;>
    simp only [RefcountsOp.hardChange, RefcountsOp.weakChange, Counters.Wraps, not_false_iff,
      iff_true] at hword hop ⊢ <;>
    omega

theorem Counters.Below.not_wraps (h : c.Below) (op : RefcountsOp) : ¬ c.Wraps op := by
  obtain ⟨hhard, hweak⟩ := h
  cases op <;> simp only [Counters.Wraps, not_false_iff] <;> omega

theorem Represents.run_below (h : Represents value c) (hc : c.Below) {op : RefcountsOp}
    (hrun : op.run value = some value') : (c.apply op).Below := by
  have hin : (c.apply op).InRange := by
    by_contra hout
    rw [(h.run_eq_none hout).mpr (hc.not_wraps op)] at hrun
    cases hrun
  have hdetects := (run_eq_some hrun).1
  rw [RefcountsOp.Detects, not_or, not_and, not_and, ← ne_eq, ← ne_eq, ne_uint32Max_iff,
    ne_uint32Max_iff] at hdetects
  obtain ⟨hlast, hlast'⟩ := (h.word hin).references_eq
  obtain ⟨hhard, hweak⟩ := hc
  obtain ⟨⟨hlow, hhigh⟩, hlow', hhigh'⟩ := hin
  simp only [Counters.apply] at hlow hlow' hlast hlast'
  constructor
  · dsimp only [Counters.apply]
    refine ⟨hlow, ?_⟩
    by_cases hsame : op.hardChange = 0
    · omega
    · have := hdetects.1 hsame
      omega
  · dsimp only [Counters.apply]
    refine ⟨hlow', ?_⟩
    by_cases hsame : op.weakChange = 0
    · omega
    · have := hdetects.2 hsame
      omega

end Call

/-- The counters after several calls -/
def Counters.applyAll (c : Counters) (ops : List RefcountsOp) : Counters :=
  ops.foldl Counters.apply c

/-- The word after several calls, whatever their assertions say -/
def wordAll (value : BitVec 64) (ops : List RefcountsOp) : BitVec 64 :=
  ops.foldl (fun value op => op.word value) value

section Sequence

variable {value value' : BitVec 64} {c : Counters}

theorem Represents.wordAll (h : Represents value c) {ops : List RefcountsOp}
    (hops : c.StaysInRange ops) : Represents (wordAll value ops) (c.applyAll ops) := by
  induction ops generalizing value c with
  | nil => exact h
  | cons op ops ih => exact ih (h.word hops.1) hops.2

theorem Represents.runAll (h : Represents value c) (hc : c.Below) {ops : List RefcountsOp}
    (hrun : runLabels RefcountsOp.run value ops = some value') :
    c.StaysInRange ops ∧ value' = Hurd.Ports.wordAll value ops ∧ (c.applyAll ops).Below := by
  induction ops generalizing value c with
  | nil => exact ⟨trivial, (some.inj hrun).symm, hc⟩
  | cons op ops ih =>
    obtain ⟨v, hv, hrest⟩ := bind_eq_some_iff.mp hrun
    have hbelow := h.run_below hc hv
    have hword := h.word hbelow.inRange
    rw [← (run_eq_some hv).2] at hrest
    obtain ⟨hstays, hlast, hends⟩ := ih hword hbelow hrest
    exact ⟨⟨hbelow.inRange, hstays⟩, hlast, hends⟩

/-- The word is that of two independent counters as long as these stay in their ranges. A call that
would take one out of its range fails, unless the count is at its greatest value and wraps; and with
no such value at the start, every call after a sequence of calls that return fails so. -/
theorem packed_counts {hard weak : BitVec 32} (h : refcountsInit hard weak = some value) :
    (∀ ops, Counters.StaysInRange ⟨hard.toNat, weak.toNat⟩ ops →
      Represents (wordAll value ops) (Counters.applyAll ⟨hard.toNat, weak.toNat⟩ ops) ∧
      ∀ op, ¬ ((Counters.applyAll ⟨hard.toNat, weak.toNat⟩ ops).apply op).InRange →
        (op.run (wordAll value ops) = none ↔
          ¬ (Counters.applyAll ⟨hard.toNat, weak.toNat⟩ ops).Wraps op)) ∧
    (hard ≠ uint32Max → weak ≠ uint32Max → ∀ ops value',
      runLabels RefcountsOp.run value ops = some value' →
      Counters.StaysInRange ⟨hard.toNat, weak.toNat⟩ ops ∧ value' = wordAll value ops ∧
      ∀ op, ¬ ((Counters.applyAll ⟨hard.toNat, weak.toNat⟩ ops).apply op).InRange →
        op.run value' = none) := by
  have hrep : Represents value ⟨hard.toNat, weak.toNat⟩ := by
    unfold refcountsInit at h
    split_ifs at h
    exact some.inj h ▸ represents_value hard weak
  constructor
  · intro ops hops
    have hword := hrep.wordAll hops
    exact ⟨hword, fun op hop => hword.run_eq_none hop⟩
  · intro hhard hweak ops value' hrun
    rw [ne_uint32Max_iff] at hhard hweak
    have hbelow : Counters.Below ⟨hard.toNat, weak.toNat⟩ := by
      constructor <;> dsimp only <;> omega
    obtain ⟨hstays, rfl, hends⟩ := hrep.runAll hbelow hrun
    refine ⟨hstays, rfl, fun op hop => ?_⟩
    exact ((hrep.wordAll hstays).run_eq_none hop).mpr (hends.not_wraps op)

theorem packed_counts_demoted :
    ∃ value, refcountsInit 1 0 = some value ∧
      runLabels RefcountsOp.run value [.demote] = some (wordAll value [.demote]) ∧
      ¬ ((Counters.applyAll ⟨1, 0⟩ [.demote]).apply .deref).InRange ∧
      RefcountsOp.deref.run (wordAll value [.demote]) = none := by
  refine ⟨_, rfl, by decide, by decide, ?_⟩
  exact ((packed_counts (rfl : refcountsInit 1 0 = _)).2 (by decide) (by decide) [.demote] _
    (by decide)).2.2 .deref (by decide)

/-- A hard count at its greatest value overflows into the weak count, and no assertion fails. -/
theorem hard_count_carries :
    ∃ value, refcountsInit uint32Max 0 = some value ∧ references value = ⟨uint32Max, 0⟩ ∧
      (RefcountsOp.ref.run value).map references = some ⟨0, 1⟩ :=
  ⟨_, rfl, by decide, by decide⟩

end Sequence

end Hurd.Ports
