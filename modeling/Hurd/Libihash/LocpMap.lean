import Hurd.Libihash.FiniteMap

/-!
# Tables of records by location

A table with integer keys other than 0, of which each value has a location pointer: what
`hurd_ihash_find`, `hurd_ihash_add` and `hurd_ihash_locp_remove` of a value that is in the table do to
the finite map, when memory may run out.
-/

namespace Hurd.Ihash

open Function

variable {V : Type*} {ht : Table V} {m : Nat → Option V} {k : Nat} {v : V}

/-- The table has what the finite map says, and every value in it points to its slot. -/
structure Holds (ht : Table V) (m : Nat → Option V) : Prop where
  refines : Refines (· ≠ 0) (ht, m)
  locp : LocpOk ht
  hasLocp : ht.hasLocp = true
  fctHash : ht.fctHash = none
  fctCmp : ht.fctCmp = none

theorem Holds.compare_eq (h : Holds ht m) (a b : Nat) : compare ht a b = (a == b) := by
  simp only [compare, h.fctCmp]

theorem Holds.not_shadowed (h : Holds ht m) (hk : k ≠ 0) : ¬ Shadowed ht k := by
  intro hs
  exact hk (h.refines.sound.zeroShadowed h.fctHash h.fctCmp hs).1

theorem Holds.not_noRoom (h : Holds ht m) : ¬ NoRoom ht k :=
  fun hno => absurd hno.2.2.1 (Nat.not_le.mpr h.refines.load)

theorem holds_freshTable (cleanup : Bool) :
    Holds (freshTable true cleanup none none : Table V) fun _ => none := by
  have hlaws : KeyLaws (· ≠ 0) (freshTable true cleanup none none : Table V) := by
    have hint : KeyLaws (fun _ => True) (freshTable true cleanup none none : Table V) := keyLaws_int
    refine ⟨?_, ?_, ?_, ?_⟩
    · intro a _
      exact hint.refl a trivial
    · intro a b _ _
      exact hint.symm a b trivial trivial
    · intro a b c _ _ _
      exact hint.trans a b c trivial trivial trivial
    · intro a b _ _
      exact hint.hash a b trivial trivial
  refine ⟨refines_freshTable hlaws, ?_, rfl, rfl, rfl⟩
  intro _ i hi
  exact absurd hi (Nat.not_lt_zero i)

theorem Holds.find (h : Holds ht m) (hk : k ≠ 0) : hurdIhashFind k ht = m k :=
  h.refines.represents.eq_of_iff hk
    (h.refines.sound.hurdIhashFind_iff hk (h.not_shadowed hk))

theorem Holds.slot (h : Holds ht m) (hk : k ≠ 0) (hm : m k = some v) :
    ∃ i < ht.size, ht.items i = { value := .live v, key := k } ∧
      ht.locp v = some { array := ht.array, index := i } := by
  obtain ⟨i, hi, hv, hkey⟩ := (h.refines.represents k hk v).mp hm
  rw [h.compare_eq, beq_iff_eq] at hkey
  refine ⟨i, hi, ?_, h.locp h.hasLocp i hi v hv⟩
  rw [← hv, ← hkey]

theorem Holds.locpRemove (h : Holds ht m) (hk : k ≠ 0) (hm : m k = some v) :
    ∃ l ht', ht.locp v = some l ∧ hurdIhashLocpRemove l ht = some ht' ∧
      Holds ht' (update m k none) := by
  obtain ⟨i, hi, hitem, hlocp⟩ := h.slot hk hm
  have hv : (ht.items i).value = .live v := by rw [hitem]
  have hrem := h.refines.sound.removed_bury hi hv
  rw [hitem] at hrem
  refine ⟨_, bury i v ht, hlocp, ?_, ⟨hrem.sound, ?_, h.refines.load⟩, hrem.locp h.locp, h.hasLocp,
    h.fctHash, h.fctCmp⟩
  · rw [hurdIhashLocpRemove, if_pos ⟨rfl, hi⟩]
    exact locpRemove_eq hv
  · have hrep := hrem.represents h.refines.represents
    have hmap : (fun x => if compare ht k x then none else m x) = update m k none := by
      funext x
      by_cases hx : x = k
      · subst hx
        simp [h.compare_eq]
      · have hne : k ≠ x := Ne.symm hx
        simp [h.compare_eq, hx, hne]
    rwa [hmap] at hrep

theorem Holds.added {ht' : Table V} (h : Holds ht m) (hv : ∀ x, x ≠ 0 → m x = some v → x = k)
    (hadd : Added (· ≠ 0) k v ht ht') : Holds ht' (update m k (some v)) := by
  refine ⟨⟨hadd.sound, ?_, ?_⟩, hadd.locp h.locp ?_, hadd.setup.hasLocp.trans h.hasLocp,
    hadd.setup.fctHash.trans h.fctHash, hadd.setup.fctCmp.trans h.fctCmp⟩
  · have hrep := hadd.represents h.refines.represents
    have hmap : (fun x => if compare ht k x then some v else m x) =
        update m k (some v) := by
      funext x
      by_cases hx : x = k
      · subst hx
        simp [h.compare_eq]
      · have hne : k ≠ x := Ne.symm hx
        simp [h.compare_eq, hx, hne]
    rwa [hmap] at hrep
  · rw [hadd.setup.maxLoad]
    exact h.refines.load
  · intro i hi hlive
    have hkey := h.refines.sound.keys i hi (by simp [hlive, Slot.valid])
    have hm : m (ht.items i).key = some v :=
      (h.refines.represents _ hkey v).mpr ⟨i, hi, hlive, by simp [h.compare_eq]⟩
    rw [h.compare_eq, beq_iff_eq]
    exact hv _ hkey hm

variable [DecidableEq V]

theorem hurdIhashAdd_calloc (h : Counted ht) (hroom : ¬ NoRoom ht k) (calloc : Nat → Bool) (v : V) :
    hurdIhashAdd calloc k v ht = some (ht, .enomem) ∨
      hurdIhashAdd calloc k v ht = hurdIhashAdd (fun _ => true) k v ht ∨
      ht.size ≠ 0 ∧
        hurdIhashAdd calloc k v ht = some (put k v (findIndex ht k) ht, .success) ∧
        ((ht.items (findIndex ht k)).value.valid = false ∨
          compare ht (ht.items (findIndex ht k)).key k = true) := by
  by_cases hload : ht.size ≠ 0 ∧ hurdIhashGetEffectiveLoad ht ≤ ht.maxLoad
  · refine .inr (.inl ?_)
    have hadd : addOne k v ht = _ := addOne_of_room h (h.pow hload.1) hload.2 hroom
    simp only [hurdIhashAdd, if_pos hload, hadd]
    rfl
  · have hrehash : hurdIhashAdd (fun _ => true) k v ht = _ := hurdIhashAdd_eq_rehash (.inl hload)
    rw [hrehash]
    simp only [hurdIhashAdd, if_neg hload, Option.bind_some]
    cases hfirst : calloc 0 with
    | true => exact .inr (.inl rfl)
    | false =>
      simp only [Bool.false_eq_true, if_false]
      by_cases hsize : ht.size = 0
      · rw [if_pos hsize]
        exact .inl rfl
      · rw [if_neg hsize, addOne_eq h (h.pow hsize)]
        by_cases huse : (ht.items (findIndex ht k)).value.valid = false ∨
            compare ht (ht.items (findIndex ht k)).key k = true
        · rw [if_pos huse]
          exact .inr (.inr ⟨hsize, rfl, huse⟩)
        · rw [if_neg huse]
          cases hsecond : calloc 1 with
          | true =>
            simp only [Option.bind_some, if_true]
            exact .inr (.inl trivial)
          | false =>
            simp only [Option.bind_some, Bool.false_eq_true, if_false]
            exact .inl trivial

theorem Holds.add_memory (h : Holds ht m) (hk : k ≠ 0)
    (hv : ∀ x, x ≠ 0 → m x = some v → x = k) :
    ∃ ht', hurdIhashAdd (fun _ => true) k v ht = some (ht', .success) ∧
      Holds ht' (update m k (some v)) := by
  obtain ⟨ht', hrun, hadd⟩ :=
    h.refines.sound.hurdIhashAdd_added hk h.not_noRoom (fun _ => h.not_shadowed hk) v
  exact ⟨ht', hrun, h.added hv hadd⟩

theorem Holds.add (h : Holds ht m) (hk : k ≠ 0) (hv : ∀ x, x ≠ 0 → m x = some v → x = k)
    (calloc : Nat → Bool) :
    hurdIhashAdd calloc k v ht = some (ht, .enomem) ∨
      ∃ ht', hurdIhashAdd calloc k v ht = some (ht', .success) ∧
        Holds ht' (update m k (some v)) := by
  have hsound := h.refines.sound
  rcases hurdIhashAdd_calloc hsound.counted h.not_noRoom calloc v with
    hno | hsame | ⟨hsize, hput, huse⟩
  · exact .inl hno
  · obtain ⟨ht', hrun, hholds⟩ := h.add_memory hk hv
    exact .inr ⟨ht', hsame.trans hrun, hholds⟩
  · refine .inr ⟨_, hput, h.added hv ?_⟩
    exact hsound.added_put hk (hsound.target hk hsize (h.not_shadowed hk) huse)

end Hurd.Ihash
