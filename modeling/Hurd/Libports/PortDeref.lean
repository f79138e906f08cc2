import Hurd.Framework.Count
import Hurd.Framework.Run

/-!
# Hard and weak references

A `refcounts_t` of `libshouldbeinlibc/refcount.h` keeps two counts in one word, so that a hard
reference becomes a weak one by a single atomic addition. `ports_port_deref` and
`ports_port_deref_weak` deallocate an object when the counts that they have left are both zero.

Every access to the word is one atomic step. Between two of them a thread keeps the counts that it
has seen, and other threads run.
-/

namespace Hurd.Ports

open List Option

structure References where
  hard : BitVec 32
  weak : BitVec 32
  deriving DecidableEq, Repr

/-- The word that `union _references` makes of the counts. -/
def References.value (r : References) : BitVec 64 := r.weak ++ r.hard

/-- The counts that `union _references` makes of a word. -/
def references (value : BitVec 64) : References where
  hard := value.extractLsb' 0 32
  weak := value.extractLsb' 32 32

def uint32Max : BitVec 32 := BitVec.allOnes 32

/-- An atomic operation has left `value`; its assertion is checked. -/
def checked (value : BitVec 64) (assertion : References → Bool) : Option (BitVec 64) :=
  if assertion (references value) then some value else none

def refcountsUnsafeRef (ref : BitVec 64) : Option (BitVec 64) :=
  checked (ref + References.value ⟨1, 0⟩) fun r => r.hard ≠ uint32Max

def refcountsRef (ref : BitVec 64) : Option (BitVec 64) :=
  (refcountsUnsafeRef ref).bind fun value =>
    checked value fun r => ¬(r.hard = 1 ∧ r.weak = 0)

def refcountsDeref (ref : BitVec 64) : Option (BitVec 64) :=
  checked (ref - References.value ⟨1, 0⟩) fun r => r.hard ≠ uint32Max

def refcountsDemote (ref : BitVec 64) : Option (BitVec 64) :=
  checked (ref + References.value ⟨uint32Max, 0⟩) fun r =>
    r.hard ≠ uint32Max ∧ r.weak ≠ uint32Max

def refcountsUnsafeRefWeak (ref : BitVec 64) : Option (BitVec 64) :=
  checked (ref + References.value ⟨0, 1⟩) fun r => r.weak ≠ uint32Max

def refcountsRefWeak (ref : BitVec 64) : Option (BitVec 64) :=
  (refcountsUnsafeRefWeak ref).bind fun value =>
    checked value fun r => ¬(r.hard = 0 ∧ r.weak = 1)

def refcountsDerefWeak (ref : BitVec 64) : Option (BitVec 64) :=
  checked (ref - References.value ⟨0, 1⟩) fun r => r.weak ≠ uint32Max

/-- Where a call of `ports_port_deref` or `ports_port_deref_weak` is. -/
inductive Call where
  /-- Behind `refcounts_demote`, with its result. -/
  | demoted (result : References)
  /-- In the `dropweak_routine` of the class. -/
  | dropping
  /-- Behind the last access to the counts, with its result. -/
  | returned (result : References)
  deriving DecidableEq, Repr

/-- The call still has the weak reference that it made of its hard one. -/
def Call.holds : Call → Bool
  | .demoted _ | .dropping => true
  | .returned _ => false

/-- An object of a port class. Beside its word there are the hard and the weak references that
their holders have not given back, the calls under way, and the number of times that
`_ports_complete_deallocate` was called. Which holder has which reference does not matter: any
reference that is out may be used by the next call. -/
structure PortInfo where
  refcounts : BitVec 64
  hard : Nat
  weak : Nat
  calls : List Call
  deallocated : Nat
  deriving DecidableEq, Repr

/-- `_ports_create_port_internal`, or `ports_import_port` of a right that has senders. -/
def PortInfo.create (senders : Bool) : PortInfo where
  refcounts := References.value ⟨if senders then 2 else 1, 0⟩
  hard := if senders then 2 else 1
  weak := 0
  calls := []
  deallocated := 0

/-- A holder uses one of its references, or a call under way goes on. -/
inductive PortEvent where
  | ref | refWeak | deref | derefWeak
  | advance (call : Nat)
  deriving DecidableEq, Repr

/-- The weak references that calls under way have made for themselves. -/
def PortInfo.temporary (s : PortInfo) : Nat := s.calls.countP Call.holds

/-- Holders use references that they have. A `dropweak_routine` has the one of its call. -/
def PortEvent.Enabled (s : PortInfo) : PortEvent → Prop
  | .ref | .refWeak => 0 < s.hard + s.weak + s.calls.count .dropping
  | .deref => 0 < s.hard
  | .derefWeak => 0 < s.weak
  | .advance call => call < s.calls.length

instance portEventEnabledDecidable (s : PortInfo) (e : PortEvent) : Decidable (e.Enabled s) :=
  match e with
  | .ref => inferInstanceAs (Decidable (0 < s.hard + s.weak + s.calls.count .dropping))
  | .refWeak => inferInstanceAs (Decidable (0 < s.hard + s.weak + s.calls.count .dropping))
  | .deref => inferInstanceAs (Decidable (0 < s.hard))
  | .derefWeak => inferInstanceAs (Decidable (0 < s.weak))
  | .advance call => inferInstanceAs (Decidable (call < s.calls.length))

/-- `refcounts_deref_weak` by the call numbered `k`. -/
def callDerefWeak (k : Nat) (s : PortInfo) : Option PortInfo :=
  (refcountsDerefWeak s.refcounts).map fun value =>
    { s with refcounts := value, calls := s.calls.set k (.returned (references value)) }

/-- The call numbered `k` goes on. -/
def advanceCall (k : Nat) (s : PortInfo) : Option PortInfo :=
  match s.calls[k]? with
  | none => none
  | some (.demoted result) =>
      if result.hard = 0 ∧ 1 < result.weak then some { s with calls := s.calls.set k .dropping }
      else callDerefWeak k s
  | some .dropping => callDerefWeak k s
  | some (.returned result) =>
      let s := { s with calls := s.calls.eraseIdx k }
      if result.hard = 0 ∧ result.weak = 0 then
        some { s with deallocated := s.deallocated + 1 }
      else some s

/-- One step of the object, or `none` when an assertion fails. -/
def portStep (dropweak : Bool) (s : PortInfo) : PortEvent → Option PortInfo
  | .ref => (refcountsRef s.refcounts).map fun value =>
      { s with refcounts := value, hard := s.hard + 1 }
  | .refWeak => (refcountsRefWeak s.refcounts).map fun value =>
      { s with refcounts := value, weak := s.weak + 1 }
  | .deref =>
      if dropweak then
        (refcountsDemote s.refcounts).map fun value =>
          { s with
            refcounts := value
            hard := s.hard - 1
            calls := .demoted (references value) :: s.calls }
      else
        (refcountsDeref s.refcounts).map fun value =>
          { s with
            refcounts := value
            hard := s.hard - 1
            calls := .returned (references value) :: s.calls }
  | .derefWeak => (refcountsDerefWeak s.refcounts).map fun value =>
      { s with
        refcounts := value
        weak := s.weak - 1
        calls := .returned (references value) :: s.calls }
  | .advance call => advanceCall call s

/-- The word holds `hard` and `weak`, and neither count is at its limit. -/
structure Packs (value : BitVec 64) (hard weak : Nat) : Prop where
  toNat : value.toNat = weak * 2 ^ 32 + hard
  hard_lt : hard < 2 ^ 32 - 1
  weak_lt : weak < 2 ^ 32 - 1

theorem oneHard_toNat : (References.value ⟨1, 0⟩).toNat = 1 := rfl

theorem oneWeak_toNat : (References.value ⟨0, 1⟩).toNat = 2 ^ 32 := rfl

theorem demotion_toNat : (References.value ⟨uint32Max, 0⟩).toNat = 2 ^ 32 - 1 := rfl

theorem references_hard {value : BitVec 64} {hard weak : Nat}
    (h : value.toNat = weak * 2 ^ 32 + hard) (hhard : hard < 2 ^ 32) :
    (references value).hard.toNat = hard := by
  simp only [references, BitVec.extractLsb'_toNat, h, Nat.shiftRight_eq_div_pow]
  omega

theorem references_weak {value : BitVec 64} {hard weak : Nat}
    (h : value.toNat = weak * 2 ^ 32 + hard) (hhard : hard < 2 ^ 32) (hweak : weak < 2 ^ 32) :
    (references value).weak.toNat = weak := by
  have hdiv : (weak * 2 ^ 32 + hard) / 2 ^ 32 = weak := by omega
  simp only [references, BitVec.extractLsb'_toNat, h, Nat.shiftRight_eq_div_pow]
  rw [hdiv, Nat.mod_eq_of_lt hweak]

theorem ne_uint32Max_iff (b : BitVec 32) : b ≠ uint32Max ↔ b.toNat < 2 ^ 32 - 1 := by
  have hlt := b.isLt
  have hmax : uint32Max.toNat = 2 ^ 32 - 1 := rfl
  rw [ne_eq, ← BitVec.toNat_inj, hmax]
  omega

theorem checked_eq_some {value value' : BitVec 64} {assertion : References → Bool} :
    checked value assertion = some value' ↔ assertion (references value) = true ∧
      value = value' := by
  simp [checked]

section Packs

variable {value value' : BitVec 64} {hard weak : Nat}

theorem Packs.hard_eq (h : Packs value hard weak) : (references value).hard.toNat = hard :=
  references_hard h.toNat (by have := h.hard_lt; omega)

theorem Packs.weak_eq (h : Packs value hard weak) : (references value).weak.toNat = weak :=
  references_weak h.toNat (by have := h.hard_lt; omega) (by have := h.weak_lt; omega)

theorem Packs.zero_iff (h : Packs value hard weak) :
    (references value).hard = 0 ∧ (references value).weak = 0 ↔ hard = 0 ∧ weak = 0 := by
  rw [← BitVec.toNat_inj, ← BitVec.toNat_inj, h.hard_eq, h.weak_eq]
  rfl

theorem Packs.ref (h : Packs value hard weak) (hr : refcountsRef value = some value') :
    Packs value' (hard + 1) weak := by
  obtain ⟨mid, hmid, hr⟩ := bind_eq_some_iff.mp hr
  obtain ⟨hmax, rfl⟩ := checked_eq_some.mp hmid
  obtain ⟨-, rfl⟩ := checked_eq_some.mp hr
  obtain ⟨htoNat, hhard, hweak⟩ := h
  have hsum : (value + References.value ⟨1, 0⟩).toNat = weak * 2 ^ 32 + (hard + 1) := by
    rw [BitVec.toNat_add, oneHard_toNat, htoNat]
    omega
  have hlt := (ne_uint32Max_iff _).mp (of_decide_eq_true hmax)
  rw [references_hard hsum (by omega)] at hlt
  exact ⟨hsum, hlt, hweak⟩

theorem Packs.refWeak (h : Packs value hard weak) (hr : refcountsRefWeak value = some value') :
    Packs value' hard (weak + 1) := by
  obtain ⟨mid, hmid, hr⟩ := bind_eq_some_iff.mp hr
  obtain ⟨hmax, rfl⟩ := checked_eq_some.mp hmid
  obtain ⟨-, rfl⟩ := checked_eq_some.mp hr
  obtain ⟨htoNat, hhard, hweak⟩ := h
  have hsum : (value + References.value ⟨0, 1⟩).toNat = (weak + 1) * 2 ^ 32 + hard := by
    rw [BitVec.toNat_add, oneWeak_toNat, htoNat]
    omega
  have hlt := (ne_uint32Max_iff _).mp (of_decide_eq_true hmax)
  rw [references_weak hsum (by omega) (by omega)] at hlt
  exact ⟨hsum, hhard, hlt⟩

theorem Packs.deref (h : Packs value (hard + 1) weak) :
    ∃ value', refcountsDeref value = some value' ∧ Packs value' hard weak := by
  obtain ⟨htoNat, hhard, hweak⟩ := h
  have hdiff : (value - References.value ⟨1, 0⟩).toNat = weak * 2 ^ 32 + hard := by
    rw [BitVec.toNat_sub, oneHard_toNat, htoNat]
    omega
  have hlt : hard < 2 ^ 32 - 1 := by omega
  refine ⟨_, checked_eq_some.mpr ⟨?_, rfl⟩, hdiff, hlt, hweak⟩
  rw [decide_eq_true_iff, ne_uint32Max_iff, references_hard hdiff (by omega)]
  exact hlt

theorem Packs.derefWeak (h : Packs value hard (weak + 1)) :
    ∃ value', refcountsDerefWeak value = some value' ∧ Packs value' hard weak := by
  obtain ⟨htoNat, hhard, hweak⟩ := h
  have hdiff : (value - References.value ⟨0, 1⟩).toNat = weak * 2 ^ 32 + hard := by
    rw [BitVec.toNat_sub, oneWeak_toNat, htoNat]
    omega
  have hlt : weak < 2 ^ 32 - 1 := by omega
  refine ⟨_, checked_eq_some.mpr ⟨?_, rfl⟩, hdiff, hhard, hlt⟩
  rw [decide_eq_true_iff, ne_uint32Max_iff, references_weak hdiff (by omega) (by omega)]
  exact hlt

theorem Packs.demote (h : Packs value (hard + 1) weak)
    (hr : refcountsDemote value = some value') : Packs value' hard (weak + 1) := by
  obtain ⟨hmax, rfl⟩ := checked_eq_some.mp hr
  obtain ⟨htoNat, hhard, hweak⟩ := h
  have hsum : (value + References.value ⟨uint32Max, 0⟩).toNat = (weak + 1) * 2 ^ 32 + hard := by
    rw [BitVec.toNat_add, demotion_toNat, htoNat]
    omega
  have hlt := (ne_uint32Max_iff _).mp (of_decide_eq_true hmax).2
  rw [references_weak hsum (by omega) (by omega)] at hlt
  exact ⟨hsum, by omega, hlt⟩

end Packs

/-- The call has left no reference and has not deallocated the object yet. -/
def Call.last : Call → Bool
  | .returned result => result.hard = 0 ∧ result.weak = 0
  | .demoted _ | .dropping => false

theorem holds_returned (result : References) : (Call.returned result).holds = false := rfl

theorem countP_holds_returned (result : References) (calls : List Call) :
    (Call.returned result :: calls).countP Call.holds = calls.countP Call.holds :=
  countP_cons_of_neg (by simp [holds_returned])

/-- The calls that have deallocated the object or are about to. -/
def PortInfo.ending (s : PortInfo) : Nat := s.deallocated + s.calls.countP Call.last

/-- The word counts the references that are out. A deallocation has been made, or is about to be
made, exactly when there are none. -/
structure PortInv (s : PortInfo) : Prop where
  packs : Packs s.refcounts s.hard (s.weak + s.temporary)
  out : 0 < s.hard + s.weak + s.temporary → s.ending = 0
  gone : s.hard + s.weak + s.temporary = 0 → s.ending = 1

theorem portInv_create (senders : Bool) : PortInv (.create senders) := by
  cases senders <;> exact ⟨⟨by decide, by decide, by decide⟩, by decide, by decide⟩

theorem countP_eraseIdx_add (p : Call → Bool) (calls : List Call) {k : Nat} {c : Call}
    (hk : calls[k]? = some c) :
    (calls.eraseIdx k).countP p + (if p c then 1 else 0) = calls.countP p := by
  obtain ⟨hlt, rfl⟩ := List.getElem?_eq_some_iff.mp hk
  rw [← countP_cons]
  exact (getElem_cons_eraseIdx_perm hlt).countP_eq p

theorem Packs.last_returned {value : BitVec 64} {hard weak : Nat} (h : Packs value hard weak) :
    (Call.returned (references value)).last = decide (hard + weak = 0) := by
  have hzero := h.zero_iff
  simp only [Call.last, hzero, decide_eq_decide]
  omega

theorem PortInv.giveBack {s s' : PortInfo} (h : PortInv s)
    (hpacks : Packs s'.refcounts s'.hard (s'.weak + s'.temporary))
    (hone : s'.hard + s'.weak + s'.temporary + 1 = s.hard + s.weak + s.temporary)
    (hending : s'.ending = s.ending +
      if (Call.returned (references s'.refcounts)).last then 1 else 0) : PortInv s' := by
  have hout := h.out (by omega)
  rw [hpacks.last_returned] at hending
  constructor
  · exact hpacks
  · intro hpos
    rw [hending, hout, if_neg (by simp only [decide_eq_true_iff]; omega)]
  · intro hzero
    rw [hending, hout, if_pos (by simp only [decide_eq_true_iff]; omega)]

theorem PortInv.callDerefWeak {s : PortInfo} (h : PortInv s) {k : Nat} {c : Call}
    (hk : s.calls[k]? = some c) (hc : c.holds = true) :
    ∃ s', callDerefWeak k s = some s' ∧ PortInv s' := by
  have hpos : 0 < s.temporary := countP_pos_iff.mpr ⟨c, mem_of_getElem? hk, hc⟩
  have hpacks := h.packs
  rw [show s.weak + s.temporary = s.weak + (s.temporary - 1) + 1 by omega] at hpacks
  obtain ⟨value, hvalue, hpacks⟩ := hpacks.derefWeak
  have hheld := countP_set_add Call.holds s.calls hk (.returned (references value))
  have hlast := countP_set_add Call.last s.calls hk (.returned (references value))
  have hclast : c.last = false := by cases c <;> simp_all [Call.holds, Call.last]
  simp only [hc, hclast, holds_returned, if_true, Bool.false_eq_true, if_false] at hheld hlast
  have htemp : PortInfo.temporary { s with
      refcounts := value
      calls := s.calls.set k (.returned (references value)) } = s.temporary - 1 := by
    simp only [PortInfo.temporary] at hheld ⊢
    omega
  refine ⟨_, by simp [Ports.callDerefWeak, hvalue]; rfl, h.giveBack ?_ ?_ ?_⟩
  · rw [htemp]
    exact hpacks
  · rw [htemp]
    simp only
    omega
  · simp only [PortInfo.ending]
    omega

theorem PortInv.advanceCall {s : PortInfo} (h : PortInv s) {k : Nat} (hk : k < s.calls.length) :
    ∃ s', advanceCall k s = some s' ∧ PortInv s' := by
  obtain ⟨c, hc⟩ : ∃ c, s.calls[k]? = some c := ⟨s.calls[k], List.getElem?_eq_getElem hk⟩
  simp only [Ports.advanceCall, hc]
  -- a step that keeps the references out and the calls that end keeps the invariant
  have hkept : ∀ s' : PortInfo, s'.refcounts = s.refcounts → s'.hard = s.hard →
      s'.weak = s.weak → s'.temporary = s.temporary → s'.ending = s.ending → PortInv s' := by
    intro s' hrefcounts hhard hweak htemp hending
    refine ⟨?_, ?_, ?_⟩
    · rw [hrefcounts, hhard, hweak, htemp]
      exact h.packs
    · rw [hhard, hweak, htemp, hending]
      exact h.out
    · rw [hhard, hweak, htemp, hending]
      exact h.gone
  cases c with
  | demoted result =>
    simp only
    split
    · have hheld := countP_set_add Call.holds s.calls hc .dropping
      have hlast := countP_set_add Call.last s.calls hc .dropping
      simp only [Call.holds, Call.last, Nat.add_right_cancel_iff] at hheld hlast
      exact ⟨_, rfl, hkept _ rfl rfl rfl hheld (congrArg (s.deallocated + ·) hlast)⟩
    · exact h.callDerefWeak hc rfl
  | dropping => exact h.callDerefWeak hc rfl
  | returned result =>
    have hheld := countP_eraseIdx_add Call.holds s.calls hc
    have hlast := countP_eraseIdx_add Call.last s.calls hc
    simp only
    split
    · next hzero =>
      refine ⟨_, rfl, hkept _ rfl rfl rfl hheld ?_⟩
      simp only [Call.last, hzero, and_self, decide_true, if_true] at hlast
      simp only [PortInfo.ending]
      omega
    · next hzero =>
      refine ⟨_, rfl, hkept _ rfl rfl rfl hheld ?_⟩
      simp only [Call.last, hzero, decide_false, Bool.false_eq_true, if_false] at hlast
      simp only [PortInfo.ending]
      omega

theorem count_dropping_le (calls : List Call) :
    calls.count .dropping ≤ calls.countP Call.holds := by
  rw [List.count]
  apply countP_mono_left
  intro c _ hc
  rw [eq_of_beq hc]
  rfl

theorem PortInv.take {s s' : PortInfo} (h : PortInv s)
    (he : 0 < s.hard + s.weak + s.calls.count .dropping)
    (hpacks : Packs s'.refcounts s'.hard (s'.weak + s'.temporary))
    (hmore : s.hard + s.weak + s.temporary ≤ s'.hard + s'.weak + s'.temporary)
    (hending : s'.ending = s.ending) : PortInv s' := by
  have hle := count_dropping_le s.calls
  have hpos : 0 < s.hard + s.weak + s.temporary := by
    simp only [PortInfo.temporary]
    omega
  refine ⟨hpacks, fun _ => hending.trans (h.out hpos), ?_⟩
  intro hzero
  omega

theorem portInv_step {dropweak : Bool} {s s' : PortInfo} {e : PortEvent} (h : PortInv s)
    (he : e.Enabled s) (hs : portStep dropweak s e = some s') : PortInv s' := by
  cases e with
  | ref =>
    obtain ⟨value, hvalue, rfl⟩ := map_eq_some_iff.mp hs
    exact h.take he (h.packs.ref hvalue) (by simp only [PortInfo.temporary]; omega) rfl
  | refWeak =>
    obtain ⟨value, hvalue, rfl⟩ := map_eq_some_iff.mp hs
    have hpacks := h.packs.refWeak hvalue
    rw [Nat.add_right_comm] at hpacks
    exact h.take he hpacks (by simp only [PortInfo.temporary]; omega) rfl
  | deref =>
    obtain ⟨hard, hhard⟩ := Nat.exists_eq_succ_of_ne_zero (Nat.ne_of_gt he)
    have hpacks := h.packs
    rw [hhard] at hpacks
    simp only [portStep] at hs
    split at hs
    · obtain ⟨value, hvalue, rfl⟩ := map_eq_some_iff.mp hs
      have hpacks := hpacks.demote hvalue
      have htemp : (Call.demoted (references value) :: s.calls).countP Call.holds =
          s.temporary + 1 := countP_cons_of_pos rfl
      have hout := h.out (by omega)
      refine ⟨?_, fun _ => hout, ?_⟩
      · simp only [PortInfo.temporary, htemp, hhard]
        exact hpacks
      · simp only [PortInfo.temporary, htemp]
        omega
    · obtain ⟨value, hvalue, rfl⟩ := map_eq_some_iff.mp hs
      obtain ⟨value', hvalue', hpacks⟩ := hpacks.deref
      cases hvalue.symm.trans hvalue'
      refine h.giveBack ?_ ?_ ?_
      · rw [show s.hard - 1 = hard by omega]
        exact hpacks
      · simp only [PortInfo.temporary, countP_holds_returned]
        omega
      · simp only [PortInfo.ending, countP_cons]
        omega
  | derefWeak =>
    obtain ⟨value, hvalue, rfl⟩ := map_eq_some_iff.mp hs
    obtain ⟨weak, hweak⟩ := Nat.exists_eq_succ_of_ne_zero (Nat.ne_of_gt he)
    have hpacks := h.packs
    rw [show s.weak + s.temporary = s.weak - 1 + s.temporary + 1 by omega] at hpacks
    obtain ⟨value', hvalue', hpacks⟩ := hpacks.derefWeak
    cases hvalue.symm.trans hvalue'
    refine h.giveBack hpacks ?_ ?_
    · simp only [PortInfo.temporary, countP_holds_returned]
      omega
    · simp only [PortInfo.ending, countP_cons]
      omega
  | advance call =>
    obtain ⟨t, ht, hinv⟩ := h.advanceCall he
    rw [← Option.some.inj (ht.symm.trans hs)]
    exact hinv

theorem portInv_reach {dropweak senders : Bool} {s : PortInfo}
    (h : Reach (portStep dropweak) PortEvent.Enabled (.create senders) s) : PortInv s :=
  h.invariant PortInv (portInv_create senders) fun _ _ _ => portInv_step

/-- An object is deallocated at most once, and from then on no reference to it is out. A call under
way can go on, and when the last one has come to its end with no reference out, the object has
been deallocated. -/
theorem port_deallocated_once (dropweak senders : Bool) {s : PortInfo}
    (h : Reach (portStep dropweak) PortEvent.Enabled (.create senders) s) :
    s.deallocated ≤ 1 ∧
      (0 < s.deallocated → s.hard = 0 ∧ s.weak = 0 ∧ ∀ c ∈ s.calls, c.holds = false) ∧
      (∀ k < s.calls.length, (portStep dropweak s (.advance k)).isSome) ∧
      (s.hard = 0 → s.weak = 0 → s.calls = [] → s.deallocated = 1) := by
  have hinv := portInv_reach h
  have hgone : 0 < s.deallocated → s.hard + s.weak + s.temporary = 0 := by
    intro hpos
    have hending : 0 < s.ending := by
      simp only [PortInfo.ending]
      omega
    by_contra hout
    have hzero := hinv.out (by omega)
    omega
  refine ⟨?_, ?_, ?_, ?_⟩
  · by_contra hmore
    have hending := hinv.gone (hgone (by omega))
    simp only [PortInfo.ending] at hending
    omega
  · intro hpos
    have hzero := hgone hpos
    refine ⟨by omega, by omega, ?_⟩
    intro c hc
    have hnone : s.calls.countP Call.holds = 0 := by
      simp only [PortInfo.temporary] at hzero
      omega
    simpa using countP_eq_zero.mp hnone c hc
  · intro k hk
    obtain ⟨t, ht, _⟩ := hinv.advanceCall hk
    simp [portStep, ht]
  · intro hhard hweak hcalls
    have htemp : s.temporary = 0 := by simp [PortInfo.temporary, hcalls]
    have hending := hinv.gone (by omega)
    simpa [PortInfo.ending, hcalls] using hending

/-- The last hard and the last weak reference are dropped at the same time: the call with the hard
one has made a weak one of it when the other call comes to its end. -/
def dropSchedule : List PortEvent :=
  [.refWeak, .deref, .derefWeak, .advance 0, .advance 0, .advance 0, .advance 0]

theorem port_deallocated_once_race :
    ∃ s, Reach (portStep true) PortEvent.Enabled (.create false) s ∧ s.calls = [] ∧
      s.deallocated = 1 := by
  have hrun : (runLabels (portStep true) (.create false) dropSchedule).map
      (fun s => (s.hard, s.weak, s.calls)) = some (0, 0, []) := by decide
  obtain ⟨s, hs, hview⟩ := map_eq_some_iff.mp hrun
  simp only [Prod.mk.injEq] at hview
  obtain ⟨hhard, hweak, hcalls⟩ := hview
  have hreach : Reach (portStep true) PortEvent.Enabled (.create false) s :=
    Reach.labels dropSchedule .start (by decide) hs
  exact ⟨s, hreach, hcalls, (port_deallocated_once true false hreach).2.2.2 hhard hweak hcalls⟩

end Hurd.Ports
