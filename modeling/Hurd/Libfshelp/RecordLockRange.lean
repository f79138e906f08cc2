import Hurd.Libfshelp.RecordLockEdit

/-!
# The ranges of admitted requests

`fshelp_rlock_tweak` adds the offset that `l_whence` stands for to `l_start`, and admits the request
unless the sum or `l_len` is negative.
-/

namespace Hurd.Fshelp

/-- `INT64_MAX` -/
def maxOff : Int := 2 ^ 63 - 1

/-- Values of type `loff_t`. -/
def IsLoff (x : Int) : Prop := -2 ^ 63 ≤ x ∧ x ≤ maxOff

/-- The offsets of the object and of the open are not negative, and `l_start` and `l_len` are any
64-bit values. -/
structure TweakArgs.Loffs (a : TweakArgs) : Prop where
  objSize_nonneg : 0 ≤ a.objSize
  objSize_le : a.objSize ≤ maxOff
  curPointer_nonneg : 0 ≤ a.curPointer
  curPointer_le : a.curPointer ≤ maxOff
  start_loff : IsLoff a.lock.start
  len_loff : IsLoff a.lock.len

/-- The offset that `l_whence` stands for. -/
def TweakArgs.base (a : TweakArgs) : Int :=
  match a.lock.whence with
  | .seekCur => a.curPointer
  | .seekEnd => a.objSize
  | .seekSet | .other => 0

/-- The range of a request that the checks let through. -/
def Checked.range : Checked → Option (Int × Int)
  | .fail _ => none
  | .unlock start len | .get start len _ | .set _ start len _ => some (start, len)

/-- The range of the request, if it is admitted, begins and ends at offsets. -/
def RangeFits (a : TweakArgs) : Prop :=
  ∀ start len, (checkArgs a).range = some (start, len) →
    0 ≤ start ∧ start ≤ maxOff ∧ start + len ≤ maxOff

theorem wrap64_eq {x : Int} (hle : -2 ^ 63 ≤ x) (hlt : x < 2 ^ 63) : wrap64 x = x := by
  unfold wrap64
  rw [Int.bmod_def]
  split <;> omega

theorem wrap64_neg {x : Int} (hle : 2 ^ 63 ≤ x) (hlt : x < 2 ^ 64) : wrap64 x < 0 := by
  unfold wrap64
  rw [Int.bmod_def]
  split <;> omega

theorem finish_range {x base start l y n : Int} {k : Int → Int → Checked}
    (hk : ∀ s l, (k s l).range = some (s, l)) (hbase : 0 ≤ base ∧ base ≤ maxOff)
    (hstart : IsLoff start) (hx : x = wrap64 (base + start)) :
    (if x < 0 then Checked.fail .einval else if l < 0 then .fail .einval else k x l).range =
      some (y, n) ↔ y = base + start ∧ n = l ∧ 0 ≤ y ∧ y ≤ maxOff ∧ 0 ≤ l := by
  unfold IsLoff maxOff at *
  by_cases hsum : base + start < 2 ^ 63
  · have hexact : x = base + start := hx.trans (wrap64_eq (by omega) hsum)
    split_ifs with hneg hlen
    · simp only [Checked.range, reduceCtorEq, false_iff]
      omega
    · simp only [Checked.range, reduceCtorEq, false_iff]
      omega
    · rw [hk, Option.some.injEq, Prod.mk.injEq]
      omega
  · have hneg : x < 0 := by
      rw [hx]
      exact wrap64_neg (by omega) (by omega)
    rw [if_pos hneg]
    simp only [Checked.range, reduceCtorEq, false_iff]
    omega

theorem checkRange_range {a : TweakArgs} (h : a.Loffs) {k : Int → Int → Checked}
    (hk : ∀ s l, (k s l).range = some (s, l)) {y n : Int}
    (hr : (checkRange a k).range = some (y, n)) :
    y = a.base + a.lock.start ∧ n = a.lock.len ∧ 0 ≤ y ∧ y ≤ maxOff := by
  unfold checkRange at hr
  unfold TweakArgs.base
  cases hw : a.lock.whence with
  | seekSet =>
    have hstart := h.start_loff
    rw [hw] at hr
    have hx : a.lock.start = wrap64 (0 + a.lock.start) := by
      rw [zero_add, wrap64_eq]
      · exact hstart.1
      · have := hstart.2
        unfold maxOff at this
        omega
    obtain ⟨hy, hn, h0, hle, -⟩ := (finish_range hk ⟨Int.le_refl 0, by decide⟩ hstart hx).mp hr
    exact ⟨hy, hn, h0, hle⟩
  | seekCur =>
    rw [hw] at hr
    obtain ⟨hy, hn, h0, hle, -⟩ := (finish_range hk
      ⟨h.curPointer_nonneg, h.curPointer_le⟩ h.start_loff rfl).mp hr
    exact ⟨hy, hn, h0, hle⟩
  | seekEnd =>
    rw [hw] at hr
    obtain ⟨hy, hn, h0, hle, -⟩ := (finish_range hk
      ⟨h.objSize_nonneg, h.objSize_le⟩ h.start_loff rfl).mp hr
    exact ⟨hy, hn, h0, hle⟩
  | other =>
    rw [hw] at hr
    cases hr

theorem checkArgs_range {a : TweakArgs} (h : a.Loffs) {y n : Int}
    (hr : (checkArgs a).range = some (y, n)) :
    y = a.base + a.lock.start ∧ n = a.lock.len ∧ 0 ≤ y ∧ y ≤ maxOff := by
  unfold checkArgs at hr
  split at hr
  · cases hr
  · split at hr
    · cases hr
    · cases hr
    · cases hr
    · exact checkRange_range h (fun _ _ => rfl) hr
    · exact checkRange_range h (fun _ _ => rfl) hr
    · exact checkRange_range h (fun _ _ => rfl) hr
    · split at hr
      · cases hr
      · exact checkRange_range h (fun _ _ => rfl) hr
    · split at hr
      · cases hr
      · exact checkRange_range h (fun _ _ => rfl) hr

/-- The range of a request fits exactly if it is refused or its true end is an offset. -/
theorem rangeFits_iff {a : TweakArgs} (h : a.Loffs) :
    RangeFits a ↔ ((checkArgs a).range = none ∨ a.base + a.lock.start + a.lock.len ≤ maxOff) := by
  constructor
  · intro hfits
    cases hr : (checkArgs a).range with
    | none => exact .inl rfl
    | some p =>
      obtain ⟨hy, hn, -⟩ := checkArgs_range h hr
      have hend := (hfits p.1 p.2 hr).2.2
      rw [hy, hn] at hend
      exact .inr hend
  · intro hcond y n hr
    obtain ⟨hy, hn, h0, hle⟩ := checkArgs_range h hr
    refine ⟨h0, hle, ?_⟩
    rcases hcond with hnone | hend
    · rw [hr] at hnone
      cases hnone
    · rw [hy, hn]
      exact hend

/-- A request for bytes of an object of 4096 bytes, from its end. -/
def fromEnd (start len : Int) : TweakArgs where
  openWrite := true
  objSize := 4096
  curPointer := 0
  cmd := .setlk64
  lock := { type := .lock .wrlck, whence := .seekEnd, start := start, len := len, pid := 0 }
  rendezvous := false

theorem fromEnd_loffs {start len : Int} (hs : IsLoff start) (hl : IsLoff len) :
    (fromEnd start len).Loffs :=
  ⟨(by decide : (0 : Int) ≤ 4096), (by decide : (4096 : Int) ≤ maxOff), Int.le_refl 0,
    (by decide : (0 : Int) ≤ maxOff), hs, hl⟩

theorem rangeFits_iff_fromEnd : RangeFits (fromEnd (-96) 96) ↔
    ((checkArgs (fromEnd (-96) 96)).range = none ∨ (4096 : Int) + -96 + 96 ≤ maxOff) :=
  rangeFits_iff (fromEnd_loffs ⟨by decide, by decide⟩ ⟨by decide, by decide⟩)

/-- The end of an admitted request is not an offset. -/
theorem range_overflows : ¬ ∀ a : TweakArgs, a.Loffs → RangeFits a := by
  intro h
  have hfits := h (fromEnd 0 maxOff) (fromEnd_loffs ⟨by decide, by decide⟩ ⟨by decide, by decide⟩)
  have hend := (hfits 4096 maxOff (by decide)).2.2
  revert hend
  decide

end Hurd.Fshelp
