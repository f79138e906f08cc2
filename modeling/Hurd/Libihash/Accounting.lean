import Hurd.Framework.Count
import Hurd.Framework.Run
import Hurd.Libihash.Table

/-!
# The counters of a hash table

`nr_items` and `nr_free` count the slots they stand for in every reachable state, whatever the
hash and the comparison are, and a new item finds a slot except in one case: with a maximum load
of 128 a table whose slots are all taken is neither enlarged nor able to take another key.
-/

namespace Hurd.Ihash

open Function Finset

variable {V : Type*}

/-- The number of slots of the array in use whose value satisfies `p`. -/
def countSlots (ht : Table V) (p : Slot V → Bool) : Nat :=
  ((Finset.range ht.size).filter fun i => p (ht.items i).value = true).card

/-- The size is a power of two, at least that of the first array. -/
def PowSize (n : Nat) : Prop := ∃ e, 5 ≤ e ∧ n = 2 ^ e

structure Counted (ht : Table V) : Prop where
  size : ht.size = 0 ∨ PowSize ht.size
  items : ht.nrItems = countSlots ht Slot.valid
  free : ht.nrFree = countSlots ht Slot.isEmpty

theorem PowSize.pos {n : Nat} (h : PowSize n) : 32 ≤ n := by
  obtain ⟨e, he, rfl⟩ := h
  calc 32 = 2 ^ 5 := rfl
    _ ≤ 2 ^ e := Nat.pow_le_pow_right Nat.two_pos he

theorem Counted.pow {ht : Table V} (h : Counted ht) (hsize : ht.size ≠ 0) : PowSize ht.size :=
  h.size.resolve_left hsize

theorem ctz_two_pow (e : Nat) : ctz (2 ^ e) = e := by
  have hlt : e < 2 ^ e := Nat.lt_two_pow_self
  rw [ctz, List.findIdx_eq (by simpa using hlt)]
  constructor
  · simp
  · intro j hj
    simp [Nat.testBit_two_pow_of_ne (show e ≠ j by omega)]

theorem scaleLoad_eq {n : Nat} (h : PowSize n) (k : Nat) : scaleLoad n k = k * 128 / n := by
  obtain ⟨e, -, rfl⟩ := h
  rw [scaleLoad, ctz_two_pow]
  split
  · rename_i he
    have hpow : 2 ^ e = 2 ^ (e - 7) * 128 := by
      rw [show (128 : Nat) = 2 ^ 7 from rfl, ← Nat.pow_add]
      congr 1
      omega
    rw [Nat.shiftRight_eq_div_pow, hpow, Nat.mul_div_mul_right _ _ (by decide)]
  · rename_i he
    have hpow : 2 ^ (7 - e) * 2 ^ e = 128 := by
      rw [← Nat.pow_add, show 7 - e + e = 7 by omega]
    rw [Nat.shiftLeft_eq, ← hpow, ← Nat.mul_assoc, Nat.mul_div_cancel _ (Nat.two_pow_pos e)]

theorem scaleLoad_le_iff {n : Nat} (h : PowSize n) (k load : Nat) :
    scaleLoad n k ≤ load ↔ k * 128 < (load + 1) * n := by
  have hpos := h.pos
  rw [scaleLoad_eq h, ← Nat.lt_add_one_iff, Nat.div_lt_iff_lt_mul (by omega)]

section Slots

variable {ht : Table V}

theorem countSlots_le (ht : Table V) (p : Slot V → Bool) : countSlots ht p ≤ ht.size := by
  have h := card_filter_le (Finset.range ht.size) fun i => p (ht.items i).value = true
  simpa [countSlots] using h

theorem countSlots_pos {p : Slot V → Bool} {i : Nat} (hi : i < ht.size)
    (hp : p (ht.items i).value = true) : 0 < countSlots ht p := by
  apply card_pos.mpr
  exact ⟨i, by simp [hi, hp]⟩

theorem exists_of_countSlots_lt {p : Slot V → Bool} (h : countSlots ht p < ht.size) :
    ∃ i < ht.size, p (ht.items i).value = false := by
  by_contra hall
  simp only [not_exists, not_and, Bool.not_eq_false] at hall
  have hset : (Finset.range ht.size).filter (fun i => p (ht.items i).value = true) =
      Finset.range ht.size := by
    apply filter_true_of_mem
    intro i hi
    exact hall i (by simpa using hi)
  simp [countSlots, hset] at h

theorem countSlots_lt {p : Slot V → Bool} {i : Nat} (hi : i < ht.size)
    (hp : p (ht.items i).value = false) : countSlots ht p < ht.size := by
  have hsub : (Finset.range ht.size).filter (fun i => p (ht.items i).value = true) ⊂
      Finset.range ht.size := by
    apply filter_ssubset.mpr
    exact ⟨i, by simpa using hi, by simp [hp]⟩
  simpa [countSlots] using card_lt_card hsub

theorem countSlots_update {idx : Nat} (hidx : idx < ht.size) (item : Item V)
    (p : Slot V → Bool) {ht' : Table V} (hsize : ht'.size = ht.size)
    (hitems : ht'.items = update ht.items idx item) :
    countSlots ht' p + (if p (ht.items idx).value = true then 1 else 0) =
      countSlots ht p + (if p item.value = true then 1 else 0) := by
  have h := card_filter_update (Finset.range ht.size) (fun it : Item V => p it.value = true)
    ht.items (by simpa using hidx) item
  simpa [countSlots, hsize, hitems] using h

end Slots

section FindIndex

variable {ht : Table V} {key : Nat}

def home (ht : Table V) (key : Nat) : Nat := hash ht key % ht.size

theorem home_lt (h : PowSize ht.size) (key : Nat) : home ht key < ht.size :=
  Nat.mod_lt _ (by have := h.pos; omega)

theorem findIndex_ends (h : PowSize ht.size) :
    SearchEnds ht.size (fun i => (ht.items i).value.isEmpty)
      (fun i => compare ht (ht.items i).key key) (fun i => (ht.items i).value.isDeleted)
      (home ht key) (findIndex ht key) := by
  obtain ⟨e, he, hsize⟩ := id h
  have hmask : ∀ x, x &&& (ht.size - 1) = x % ht.size := by
    intro x
    rw [hsize, Nat.and_two_pow_sub_one_eq_mod]
  simp only [findIndex, hmask]
  exact search_ends (home_lt h key) fun i _ => rfl

theorem findIndex_lt (h : PowSize ht.size) : findIndex ht key < ht.size :=
  (findIndex_ends h).lt (home_lt h key)

theorem isEmpty_or (s : Slot V) : s.isEmpty = true ∨ s.isDeleted = true ∨ s.valid = true := by
  cases s <;> simp [Slot.isEmpty, Slot.isDeleted, Slot.valid]

theorem findIndex_usable (h : PowSize ht.size)
    (hroom : ∃ i < ht.size, (ht.items i).value.valid = false) :
    (ht.items (findIndex ht key)).value.valid = false ∨
      compare ht (ht.items (findIndex ht key)).key key = true := by
  have hend : SearchEnds _ _ _ _ _ (findIndex ht key) := findIndex_ends h
  generalize findIndex ht key = r at hend ⊢
  cases hend with
  | hit j _ _ _ hhit => exact .inr hhit
  | grave j m _ _ _ hg _ =>
    left
    generalize (ht.items (probe ht.size (home ht key) m)).value = s at hg ⊢
    cases s <;> simp_all [Slot.isDeleted, Slot.valid]
  | empty j _ _ he =>
    left
    generalize (ht.items (probe ht.size (home ht key) j)).value = s at he ⊢
    cases s <;> simp_all [Slot.isEmpty, Slot.valid]
  | full hp hg =>
    obtain ⟨i, hi, hfree⟩ := hroom
    obtain ⟨j, hj, rfl⟩ := exists_probe (home_lt h key) hi
    have he := (hp j hj).1
    have hd := hg j hj
    rcases isEmpty_or (ht.items (probe ht.size (home ht key) j)).value with hs | hs | hs
    · simp [hs] at he
    · simp [hs] at hd
    · simp [hs] at hfree

theorem findIndex_full (h : PowSize ht.size)
    (hfull : ∀ i < ht.size, (ht.items i).value.valid = true) {i : Nat} (hi : i < ht.size)
    (hkey : compare ht (ht.items i).key key = true) :
    compare ht (ht.items (findIndex ht key)).key key = true := by
  have hnonempty : ∀ i < ht.size, (ht.items i).value.isEmpty = false := by
    intro i hi
    have hv := hfull i hi
    generalize (ht.items i).value = s at hv ⊢
    cases s <;> simp_all [Slot.isEmpty, Slot.valid]
  obtain ⟨j, hj, rfl⟩ := exists_probe (home_lt h key) hi
  have hreach : Reaches ht.size (fun i => (ht.items i).value.isEmpty) (home ht key)
      (probe ht.size (home ht key) j) :=
    ⟨j, hj, rfl, fun m _ => hnonempty _ (probe_lt (home_lt h key) m)⟩
  rcases (findIndex_ends h).of_reaches hreach (hnonempty _ hi) hkey with he | ⟨-, -, hhit⟩
  · rw [he]
    exact hkey
  · exact hhit

end FindIndex

section AddOne

variable [DecidableEq V] {ht : Table V} {key idx : Nat} {value : V}

/-- The table after an item has been stored at `idx`, over the old one if there is one. -/
def put (key : Nat) (value : V) (idx : Nat) (ht : Table V) : Table V :=
  { ht with
    nrItems := if (ht.items idx).value.valid then ht.nrItems else ht.nrItems + 1
    nrFree := if (ht.items idx).value.isEmpty then ht.nrFree - 1 else ht.nrFree
    items := update ht.items idx { value := .live value, key := key }
    locp := setLocp ht value idx
    cleaned := match (ht.items idx).value with
      | .live w => if ht.cleanup then ht.cleaned ++ [.value w] else ht.cleaned
      | _ => ht.cleaned }

theorem fillSlot_eq (h : Counted ht) (hidx : idx < ht.size)
    (hfree : (ht.items idx).value.valid = false) :
    fillSlot key value idx ht = some (put key value idx ht) := by
  have hpos : (ht.items idx).value.isEmpty = true → 0 < ht.nrFree := by
    intro he
    rw [h.free]
    exact countSlots_pos hidx he
  cases hv : (ht.items idx).value with
  | empty =>
    rw [hv] at hpos
    have hne : ht.nrFree ≠ 0 := Nat.ne_of_gt (hpos rfl)
    simp [fillSlot, put, hv, Slot.isEmpty, Slot.valid, hne]
  | deleted => simp [fillSlot, put, hv, Slot.isEmpty, Slot.valid]
  | live w => simp [hv, Slot.valid] at hfree

theorem addOne_eq (h : Counted ht) (hsize : PowSize ht.size) :
    addOne key value ht =
      if (ht.items (findIndex ht key)).value.valid = false ∨
          compare ht (ht.items (findIndex ht key)).key key = true then
        some (put key value (findIndex ht key) ht, true)
      else some (ht, false) := by
  have hlt : findIndex ht key < ht.size := findIndex_lt hsize
  simp only [addOne]
  generalize findIndex ht key = idx at hlt ⊢
  by_cases hfree : (ht.items idx).value.valid = false
  · simp [indexValid, indexEmpty, hfree, fillSlot_eq h hlt hfree]
  · have hitems : 0 < ht.nrItems := by
      rw [h.items]
      exact countSlots_pos hlt (by simpa using hfree)
    cases hv : (ht.items idx).value with
    | empty => simp [hv, Slot.valid] at hfree
    | deleted => simp [hv, Slot.valid] at hfree
    | live w =>
      cases hkey : compare ht (ht.items idx).key key with
      | false => simp [indexValid, indexEmpty, hv, hkey, Slot.valid]
      | true =>
        have hback : ht.nrItems - 1 + 1 = ht.nrItems := by omega
        simp [indexValid, indexEmpty, hv, hkey, Slot.valid, Slot.isEmpty, locpRemove,
          fillSlot, put, setLocp, hback]

theorem counted_put (h : Counted ht) (hidx : idx < ht.size) : Counted (put key value idx ht) := by
  have hitems := countSlots_update hidx { value := Slot.live value, key := key } Slot.valid
    (show (put key value idx ht).size = ht.size from rfl) rfl
  have hfree := countSlots_update hidx { value := Slot.live value, key := key } Slot.isEmpty
    (show (put key value idx ht).size = ht.size from rfl) rfl
  have h₁ := h.items
  have h₂ := h.free
  refine ⟨h.size, ?_, ?_⟩
  · cases hv : (ht.items idx).value <;>
      simp [hv, Slot.valid, put] at hitems ⊢ <;> omega
  · cases hv : (ht.items idx).value <;>
      simp [hv, Slot.isEmpty, put] at hfree ⊢ <;> omega

theorem addOne_put (h : Counted ht) (hsize : PowSize ht.size) (hroom : ht.nrItems < ht.size) :
    addOne key value ht = some (put key value (findIndex ht key) ht, true) := by
  rw [addOne_eq h hsize, if_pos]
  rw [h.items] at hroom
  exact findIndex_usable hsize (exists_of_countSlots_lt hroom)

end AddOne

section Rehash

variable {ht : Table V} {key : Nat} {value : V}

/-- What no operation changes but those that configure the table. -/
structure SameSetup (ht ht' : Table V) : Prop where
  hasLocp : ht'.hasLocp = ht.hasLocp
  maxLoad : ht'.maxLoad = ht.maxLoad
  cleanup : ht'.cleanup = ht.cleanup
  fctHash : ht'.fctHash = ht.fctHash
  fctCmp : ht'.fctCmp = ht.fctCmp

/-- What the operations on the array in use leave as it is. -/
structure Kept (ht ht' : Table V) : Prop extends SameSetup ht ht' where
  size : ht'.size = ht.size
  array : ht'.array = ht.array

theorem SameSetup.trans {ht₁ ht₂ : Table V} (h : SameSetup ht ht₁) (h' : SameSetup ht₁ ht₂) :
    SameSetup ht ht₂ :=
  ⟨h'.hasLocp.trans h.hasLocp, h'.maxLoad.trans h.maxLoad, h'.cleanup.trans h.cleanup,
    h'.fctHash.trans h.fctHash, h'.fctCmp.trans h.fctCmp⟩

theorem Kept.refl (ht : Table V) : Kept ht ht := ⟨⟨rfl, rfl, rfl, rfl, rfl⟩, rfl, rfl⟩

theorem Kept.trans {ht₁ ht₂ : Table V} (h : Kept ht ht₁) (h' : Kept ht₁ ht₂) : Kept ht ht₂ :=
  ⟨h.toSameSetup.trans h'.toSameSetup, h'.size.trans h.size, h'.array.trans h.array⟩

theorem sameSetup_newArray (old ht : Table V) : SameSetup ht (newArray old ht) :=
  ⟨rfl, rfl, rfl, rfl, rfl⟩

theorem kept_put [DecidableEq V] (key : Nat) (value : V) (idx : Nat) (ht : Table V) :
    Kept ht (put key value idx ht) := ⟨⟨rfl, rfl, rfl, rfl, rfl⟩, rfl, rfl⟩

/-- The number of live slots among the first `i`. -/
def liveBelow (ht : Table V) (i : Nat) : Nat :=
  ((Finset.range i).filter fun j => (ht.items j).value.valid = true).card

theorem liveBelow_succ (ht : Table V) (i : Nat) :
    liveBelow ht (i + 1) = liveBelow ht i + if (ht.items i).value.valid = true then 1 else 0 := by
  simp only [liveBelow, range_add_one, filter_insert]
  split
  · rw [card_insert_of_notMem (by simp)]
  · rfl

theorem liveBelow_le {i j : Nat} (hij : i ≤ j) : liveBelow ht i ≤ liveBelow ht j := by
  apply card_le_card
  apply filter_subset_filter
  intro x hx
  simp only [mem_range] at hx ⊢
  omega

theorem counted_newArray (old : Table V) (h : Counted ht) : Counted (newArray old ht) ∧
    PowSize (newArray old ht).size := by
  have hpow : PowSize (newArray old ht).size := by
    simp only [newArray]
    split_ifs with hzero hload
    · exact ⟨5, Nat.le_refl 5, rfl⟩
    · obtain ⟨e, he, hs⟩ := h.pow hzero
      refine ⟨e + 1, by omega, ?_⟩
      rw [hs, Nat.shiftLeft_eq, Nat.pow_succ]
      rfl
    · exact h.pow hzero
  refine ⟨⟨.inr hpow, ?_, ?_⟩, hpow⟩
  · simp [newArray, countSlots, Slot.valid]
  · simp [newArray, countSlots, Slot.isEmpty]

variable [DecidableEq V]

theorem put_nrItems_le (key : Nat) (value : V) (idx : Nat) (ht : Table V) :
    (put key value idx ht).nrItems ≤ ht.nrItems + 1 := by
  simp only [put]
  split <;> omega

theorem rehashLoop_rule (old : Table V) (P : Nat → Table V → Prop) (h : Counted ht) (hsize : PowSize ht.size)
    (hempty : ht.nrItems = 0) (hroom : liveBelow old old.size ≤ ht.size) (hinit : P 0 ht)
    (hskip : ∀ i < old.size, (old.items i).value.valid = false → ∀ ht', P i ht' → P (i + 1) ht')
    (hput : ∀ i < old.size, ∀ v, (old.items i).value = .live v → ∀ ht', Counted ht' →
      Kept ht ht' → ht'.nrItems < ht'.size → P i ht' →
      P (i + 1) (put (old.items i).key v (findIndex ht' (old.items i).key) ht')) :
    ∃ ht', (List.range old.size).foldlM (rehashOne old) ht = some ht' ∧ Counted ht' ∧
      Kept ht ht' ∧ ht'.nrItems ≤ liveBelow old old.size ∧ P old.size ht' := by
  refine foldlM_range_rule (fun i ht' => Counted ht' ∧ Kept ht ht' ∧
    ht'.nrItems ≤ liveBelow old i ∧ P i ht') ⟨h, .refl ht, by simp [hempty], hinit⟩ ?_
  intro i hi ht' ⟨hcount, hkept, hle, hp⟩
  have hsucc := liveBelow_succ old i
  cases hv : (old.items i).value with
  | empty =>
    exact ⟨ht', by simp [rehashOne, hv], hcount, hkept, by omega,
      hskip i hi (by simp [hv, Slot.valid]) ht' hp⟩
  | deleted =>
    exact ⟨ht', by simp [rehashOne, hv], hcount, hkept, by omega,
      hskip i hi (by simp [hv, Slot.valid]) ht' hp⟩
  | live v =>
    have hmono : liveBelow old (i + 1) ≤ liveBelow old old.size := liveBelow_le (by omega)
    simp only [hv, Slot.valid, if_true] at hsucc
    have hpow : PowSize ht'.size := hkept.size ▸ hsize
    have hlt : ht'.nrItems < ht'.size := by
      rw [hkept.size]
      omega
    have hadd : addOne (old.items i).key v ht' = _ := addOne_put hcount hpow hlt
    have hle' := put_nrItems_le (old.items i).key v (findIndex ht' (old.items i).key) ht'
    refine ⟨put (old.items i).key v (findIndex ht' (old.items i).key) ht', ?_,
      counted_put hcount (findIndex_lt hpow), hkept.trans (kept_put _ _ _ _), by omega,
      hput i hi v hv ht' hcount hkept hlt hp⟩
    simp [rehashOne, hv, hadd]

end Rehash

section Add

variable {ht : Table V} {key : Nat} {value : V}

/-- All slots are taken, none by the key, and the maximum load lets the table stay as it is. -/
def NoRoom (ht : Table V) (key : Nat) : Prop :=
  ht.size ≠ 0 ∧ ht.nrItems = ht.size ∧ 128 ≤ ht.maxLoad ∧
    ∀ i < ht.size, compare ht (ht.items i).key key = false

theorem Counted.full (h : Counted ht) (hfull : ht.nrItems = ht.size) {i : Nat}
    (hi : i < ht.size) : (ht.items i).value.valid = true := by
  by_contra hfree
  have hlt := countSlots_lt hi (by simpa using hfree)
  rw [← h.items] at hlt
  omega

theorem effectiveLoad_le (h : PowSize ht.size) : hurdIhashGetEffectiveLoad ht ≤ 128 := by
  rw [hurdIhashGetEffectiveLoad, scaleLoad_le_iff h]
  have := h.pos
  omega

theorem Counted.load_full (h : Counted ht) (hpow : PowSize ht.size) (hfull : ht.nrItems = ht.size) :
    hurdIhashGetEffectiveLoad ht = 128 := by
  have hpos := hpow.pos
  have hfree : ht.nrFree = 0 := by
    rw [h.free, countSlots, card_eq_zero, filter_eq_empty_iff]
    intro i hi
    have hv := h.full hfull (show i < ht.size by simpa using hi)
    cases hs : (ht.items i).value <;> simp_all [Slot.valid, Slot.isEmpty]
  rw [hurdIhashGetEffectiveLoad, scaleLoad_eq hpow, hfree, Nat.sub_zero,
    Nat.mul_div_cancel_left _ (by omega)]

variable [DecidableEq V]

theorem addOne_of_room (h : Counted ht) (hpow : PowSize ht.size)
    (hload : hurdIhashGetEffectiveLoad ht ≤ ht.maxLoad) (hroom : ¬ NoRoom ht key) :
    addOne key value ht = some (put key value (findIndex ht key) ht, true) := by
  have hle := countSlots_le ht Slot.valid
  rw [← h.items] at hle
  by_cases hlt : ht.nrItems < ht.size
  · exact addOne_put h hpow hlt
  · have hfull : ht.nrItems = ht.size := by omega
    have hpos := hpow.pos
    have hex : ∃ i < ht.size, compare ht (ht.items i).key key = true := by
      by_contra hnone
      simp only [not_exists, not_and, Bool.not_eq_true] at hnone
      rw [h.load_full hpow hfull] at hload
      exact hroom ⟨by omega, hfull, hload, hnone⟩
    obtain ⟨i, hi, hkey⟩ := hex
    rw [addOne_eq h hpow, if_pos]
    exact .inr (findIndex_full hpow (fun i hi => h.full hfull hi) hi hkey)

omit [DecidableEq V] in
theorem newArray_room (h : Counted ht)
    (hload : ¬ (ht.size ≠ 0 ∧ hurdIhashGetEffectiveLoad ht ≤ ht.maxLoad)) :
    liveBelow ht ht.size < (newArray ht ht).size := by
  have hitems : liveBelow ht ht.size = ht.nrItems := h.items.symm
  have hle := countSlots_le ht Slot.valid
  rw [← h.items] at hle
  rw [hitems]
  simp only [newArray]
  by_cases hzero : ht.size = 0
  · simp [hzero, minSize]
    omega
  · have hpow := h.pow hzero
    have hpos := hpow.pos
    have heff := effectiveLoad_le hpow
    rw [if_neg hzero]
    split_ifs with hgrow
    · rw [Nat.shiftLeft_eq]
      omega
    · have hbelow : hurdIhashGetLoad ht ≤ 127 := by
        have hgt : ht.maxLoad < hurdIhashGetEffectiveLoad ht := by
          by_contra hge
          exact hload ⟨hzero, by omega⟩
        omega
      rw [hurdIhashGetLoad, scaleLoad_le_iff hpow] at hbelow
      omega

theorem hurdIhashAdd_eq_rehash (hfail : ¬ (ht.size ≠ 0 ∧
      hurdIhashGetEffectiveLoad ht ≤ ht.maxLoad) ∨ addOne key value ht = some (ht, false)) :
    hurdIhashAdd (fun _ => true) key value ht =
      (rehash key value ht (newArray ht ht)).map fun ht => (ht, .success) := by
  have hfirst : (if ht.size ≠ 0 ∧ hurdIhashGetEffectiveLoad ht ≤ ht.maxLoad then
      addOne key value ht else some (ht, false)) = some (ht, false) := by
    rcases hfail with hload | hadd
    · rw [if_neg hload]
    · rw [hadd, ite_self]
  rw [hurdIhashAdd, hfirst]
  rfl

theorem hurdIhashAdd_cases (value : V) (h : Counted ht) (hroom : ¬ NoRoom ht key) :
    (PowSize ht.size ∧ hurdIhashGetEffectiveLoad ht ≤ ht.maxLoad ∧
      addOne key value ht = some (put key value (findIndex ht key) ht, true) ∧
      hurdIhashAdd (fun _ => true) key value ht =
        some (put key value (findIndex ht key) ht, .success)) ∨
    ∃ ht', ¬ (ht.size ≠ 0 ∧ hurdIhashGetEffectiveLoad ht ≤ ht.maxLoad) ∧
      (List.range ht.size).foldlM (rehashOne ht) (newArray ht ht) = some ht' ∧
      Counted ht' ∧ Kept (newArray ht ht) ht' ∧ ht'.nrItems < ht'.size ∧
      hurdIhashAdd (fun _ => true) key value ht =
        some (put key value (findIndex ht' key) ht', .success) := by
  by_cases hload : ht.size ≠ 0 ∧ hurdIhashGetEffectiveLoad ht ≤ ht.maxLoad
  · left
    have hpow := h.pow hload.1
    have hadd : addOne key value ht = _ := addOne_of_room h hpow hload.2 hroom
    refine ⟨hpow, hload.2, hadd, ?_⟩
    rw [hurdIhashAdd, if_pos hload, hadd]
    rfl
  · right
    obtain ⟨hnew, hpow⟩ := counted_newArray ht h
    have hsize := newArray_room h hload
    obtain ⟨ht', hloop, hcount, hkept, hle, -⟩ :=
      rehashLoop_rule ht (fun _ _ => True) hnew hpow rfl (by omega) trivial
        (fun _ _ _ _ _ => trivial) (fun _ _ _ _ _ _ _ _ _ => trivial)
    have hlt : ht'.nrItems < ht'.size := by
      rw [hkept.size]
      omega
    have hadd : addOne key value ht' = _ := addOne_put hcount (hkept.size ▸ hpow) hlt
    refine ⟨ht', hload, hloop, hcount, hkept, hlt, ?_⟩
    rw [hurdIhashAdd_eq_rehash (.inl hload)]
    simp [rehash, hloop, hadd]

theorem hurdIhashAdd_counted (value : V) (h : Counted ht) (hroom : ¬ NoRoom ht key) :
    ∃ ht', hurdIhashAdd (fun _ => true) key value ht = some (ht', .success) ∧ Counted ht' := by
  rcases hurdIhashAdd_cases value h hroom with ⟨hpow, -, -, hadd⟩ | ⟨ht', -, -, hcount, -, hlt, hadd⟩
  · exact ⟨_, hadd, counted_put h (findIndex_lt hpow)⟩
  · exact ⟨_, hadd, counted_put hcount (findIndex_lt (hcount.pow (by omega)))⟩

end Add

section Remove

variable {ht : Table V} {idx : Nat}

/-- The table after the item at `idx` has been removed. -/
def bury (idx : Nat) (v : V) (ht : Table V) : Table V :=
  { ht with
    cleaned := if ht.cleanup then ht.cleaned ++ [.value v] else ht.cleaned
    items := update ht.items idx { value := .deleted, key := 0 }
    nrItems := ht.nrItems - 1 }

theorem locpRemove_eq {v : V} (hv : (ht.items idx).value = .live v) :
    locpRemove idx ht = some (bury idx v ht) := by
  simp [locpRemove, hv, bury]

theorem kept_bury (idx : Nat) (v : V) (ht : Table V) : Kept ht (bury idx v ht) :=
  ⟨⟨rfl, rfl, rfl, rfl, rfl⟩, rfl, rfl⟩

theorem counted_bury {v : V} (h : Counted ht) (hidx : idx < ht.size)
    (hv : (ht.items idx).value = .live v) : Counted (bury idx v ht) := by
  have hitems := countSlots_update hidx { value := Slot.deleted, key := 0 } Slot.valid
    (show (bury idx v ht).size = ht.size from rfl) rfl
  have hfree := countSlots_update hidx { value := Slot.deleted, key := 0 } Slot.isEmpty
    (show (bury idx v ht).size = ht.size from rfl) rfl
  have h₁ := h.items
  have h₂ := h.free
  simp [hv, Slot.valid, Slot.isEmpty] at hitems hfree
  refine ⟨h.size, ?_, ?_⟩
  · simp only [bury] at hitems ⊢
    omega
  · simp only [bury] at hfree ⊢
    omega

theorem exists_live {s : Slot V} (hs : s.valid = true) : ∃ v, s = .live v := by
  cases s with
  | live v => exact ⟨v, rfl⟩
  | empty => simp [Slot.valid] at hs
  | deleted => simp [Slot.valid] at hs

theorem hurdIhashRemove_counted (key : Nat) (h : Counted ht) :
    ∃ ht' b, hurdIhashRemove key ht = some (ht', b) ∧ Counted ht' := by
  by_cases hsize : ht.size = 0
  · exact ⟨ht, false, by simp [hurdIhashRemove, hsize], h⟩
  · cases hvalid : indexValid ht (findIndex ht key) key with
    | false => exact ⟨ht, false, by simp [hurdIhashRemove, hsize, hvalid], h⟩
    | true =>
      have hlive : (ht.items (findIndex ht key)).value.valid = true := by
        simp only [indexValid, indexEmpty, Bool.not_not, Bool.and_eq_true] at hvalid
        exact hvalid.1
      obtain ⟨v, hv⟩ := exists_live hlive
      refine ⟨bury (findIndex ht key) v ht, true, ?_,
        counted_bury h (findIndex_lt (h.pow hsize)) hv⟩
      simp [hurdIhashRemove, hsize, hvalid, locpRemove_eq hv]

end Remove

section LocpAdd

variable [DecidableEq V] {ht : Table V}

/-- The table after `hurd_ihash_locp_add` has overridden the item at `l`. -/
def override (l : Locp) (value : V) (ht : Table V) : Table V :=
  { ht with
    cleaned := if ht.cleanup then ht.cleaned ++ [.locp l] else ht.cleaned
    items := update ht.items l.index
      { ht.items l.index with value := .live value }
    locp := setLocp ht value l.index }

theorem kept_override (l : Locp) (value : V) (ht : Table V) : Kept ht (override l value ht) :=
  ⟨⟨rfl, rfl, rfl, rfl, rfl⟩, rfl, rfl⟩

theorem counted_override (value : V) {l : Locp} (h : Counted ht) (hidx : l.index < ht.size)
    (hv : (ht.items l.index).value.valid = true) : Counted (override l value ht) := by
  obtain ⟨w, hw⟩ := exists_live hv
  have hitems := countSlots_update hidx { ht.items l.index with value := Slot.live value }
    Slot.valid (show (override l value ht).size = ht.size from rfl) rfl
  have hfree := countSlots_update hidx { ht.items l.index with value := Slot.live value }
    Slot.isEmpty (show (override l value ht).size = ht.size from rfl) rfl
  simp [hw, Slot.valid, Slot.isEmpty] at hitems hfree
  exact ⟨h.size, h.items.trans hitems.symm, h.free.trans hfree.symm⟩

/-- A slot as `hurd_ihash_locp_find` returns it for some key. -/
def SlotFound (ht : Table V) (key : Nat) (locp : Option Locp) : Prop :=
  locp = (hurdIhashLocpFind key ht).2

omit [DecidableEq V] in
theorem SlotFound.cases {k : Nat} {locp : Option Locp} (h : SlotFound ht k locp) :
    (ht.size = 0 ∧ locp = none) ∨
      (ht.size ≠ 0 ∧ locp = some { array := ht.array, index := findIndex ht k }) := by
  by_cases hsize : ht.size = 0
  · exact .inl ⟨hsize, by simpa [SlotFound, hurdIhashLocpFind, hsize] using h⟩
  · exact .inr ⟨hsize, by simpa [SlotFound, hurdIhashLocpFind, hsize] using h⟩

theorem hurdIhashLocpAdd_cases (key : Nat) (value : V) {k : Nat} {locp : Option Locp}
    (h : Counted ht)
    (hslot : locp = none ∨ SlotFound ht k locp) :
    hurdIhashLocpAdd (fun _ => true) locp key value ht =
        hurdIhashAdd (fun _ => true) key value ht ∨
    (PowSize ht.size ∧ (ht.items (findIndex ht k)).value.valid = false ∧
      hurdIhashLocpAdd (fun _ => true) locp key value ht =
        some (put key value (findIndex ht k) ht, .success)) ∨
    (PowSize ht.size ∧ (ht.items (findIndex ht k)).value.valid = true ∧
      compare ht (ht.items (findIndex ht k)).key key = true ∧
      hurdIhashLocpAdd (fun _ => true) locp key value ht =
        some (override { array := ht.array, index := findIndex ht k } value ht, .success)) := by
  rcases hslot with rfl | hslot
  · exact .inl rfl
  · rcases hslot.cases with ⟨hzero, rfl⟩ | ⟨hsize, rfl⟩
    · exact .inl rfl
    · have hpow := h.pow hsize
      have hlt : findIndex ht k < ht.size := findIndex_lt hpow
      by_cases hload : hurdIhashGetEffectiveLoad ht > ht.maxLoad
      · left
        simp [hurdIhashLocpAdd, hsize, hlt, hload]
      · cases hvalid : (ht.items (findIndex ht k)).value.valid with
        | false =>
          right; left
          refine ⟨hpow, rfl, ?_⟩
          simp [hurdIhashLocpAdd, hsize, hlt, hload, hvalid, fillSlot_eq h hlt hvalid]
        | true =>
          cases hkey : compare ht (ht.items (findIndex ht k)).key key with
          | false =>
            left
            simp [hurdIhashLocpAdd, hsize, hlt, hvalid, hkey]
          | true =>
            right; right
            refine ⟨hpow, rfl, rfl, ?_⟩
            simp [hurdIhashLocpAdd, hsize, hlt, hload, hvalid, hkey, override]

end LocpAdd

section Runs

variable [DecidableEq V]

/-- The call is made as the interface asks: slots come from a lookup in the table as it is,
location pointers designate items, and the maximum load is in the documented range. -/
def CallOk (ht : Table V) : Op V → Prop
  | .locpAdd locp _ _ => locp = none ∨ ∃ k, SlotFound ht k locp
  | .locpRemove locp => locp.array = ht.array ∧ locp.index < ht.size ∧
      (ht.items locp.index).value.valid = true
  | .setMaxLoad maxLoad => 64 ≤ maxLoad ∧ maxLoad ≤ 128
  | .add _ _ | .remove _ | .find _ | .locpFind _ => True

/-- The key that a call adds, if any, has room. -/
def HasRoom (ht : Table V) : Op V → Prop
  | .add key _ | .locpAdd _ key _ => ¬ NoRoom ht key
  | _ => True

theorem opRun_counted {ht : Table V} (h : Counted ht) {op : Op V} (hcall : CallOk ht op)
    (hroom : HasRoom ht op) : ∃ ht' r, opRun ht op = some (ht', r) ∧ Counted ht' := by
  cases op with
  | add key value =>
    obtain ⟨ht', hadd, hcount⟩ := hurdIhashAdd_counted value h hroom
    exact ⟨ht', .err .success, by simp [opRun, hadd], hcount⟩
  | locpAdd locp key value =>
    obtain ⟨k, hslot⟩ : ∃ k, locp = none ∨ SlotFound ht k locp := by
      rcases hcall with hnone | ⟨k, hslot⟩
      · exact ⟨0, .inl hnone⟩
      · exact ⟨k, .inr hslot⟩
    rcases hurdIhashLocpAdd_cases key value h hslot with
      hadd | ⟨hpow, hfree, hadd⟩ | ⟨hpow, hlive, hkey, hadd⟩
    · obtain ⟨ht', hadd', hcount⟩ := hurdIhashAdd_counted value h hroom
      exact ⟨ht', .err .success, by simp [opRun, hadd, hadd'], hcount⟩
    · exact ⟨_, .err .success, by simp [opRun, hadd]; rfl, counted_put h (findIndex_lt hpow)⟩
    · exact ⟨_, .err .success, by simp [opRun, hadd]; rfl,
        counted_override value h (findIndex_lt hpow) hlive⟩
  | remove key =>
    obtain ⟨ht', b, hrem, hcount⟩ := hurdIhashRemove_counted key h
    exact ⟨ht', .flag b, by simp [opRun, hrem], hcount⟩
  | locpRemove locp =>
    obtain ⟨harray, hidx, hvalid⟩ := hcall
    obtain ⟨v, hv⟩ := exists_live hvalid
    refine ⟨bury locp.index v ht, .none, ?_, counted_bury h hidx hv⟩
    simp [opRun, hurdIhashLocpRemove, harray, hidx, locpRemove_eq hv]
  | find key => exact ⟨ht, _, rfl, h⟩
  | locpFind key => exact ⟨ht, _, rfl, h⟩
  | setMaxLoad maxLoad => exact ⟨_, .none, rfl, h.size, h.items, h.free⟩

omit [DecidableEq V] in
theorem counted_freshTable (hasLocp cleanup : Bool) (fctHash : Option (Nat → Nat))
    (fctCmp : Option (Nat → Nat → Bool)) :
    Counted (freshTable hasLocp cleanup fctHash fctCmp : Table V) := by
  have hnone : ∀ p, countSlots (freshTable hasLocp cleanup fctHash fctCmp : Table V) p = 0 := by
    intro p
    have hle := countSlots_le (freshTable hasLocp cleanup fctHash fctCmp : Table V) p
    exact Nat.le_zero.mp hle
  exact ⟨.inl rfl, (hnone _).symm, (hnone _).symm⟩

theorem counted_of_reach {ok : Table V → Op V → Prop} {init ht : Table V} (hinit : Counted init)
    (hok : ∀ ht op, ok ht op → CallOk ht op ∧ HasRoom ht op) (h : Reach opStep ok init ht) :
    Counted ht := by
  refine h.invariant Counted hinit ?_
  intro ht op ht' hcount hop hstep
  obtain ⟨ht₁, r, hrun, hcount₁⟩ := opRun_counted hcount (hok ht op hop).1 (hok ht op hop).2
  have he : ht₁ = ht' := by simpa [opStep, hrun] using hstep
  exact he ▸ hcount₁

/-- In every run in which no key is added to a table that has no room for it, the counters are
those of the array, its size is a power of two, and no assertion fails in a further such call. -/
theorem ihash_accounting (hasLocp cleanup : Bool) (fctHash : Option (Nat → Nat))
    (fctCmp : Option (Nat → Nat → Bool)) {ht : Table V}
    (h : Reach opStep (fun ht op => CallOk ht op ∧ HasRoom ht op)
      (freshTable hasLocp cleanup fctHash fctCmp) ht) :
    ht.nrItems = countSlots ht Slot.valid ∧ ht.nrFree = countSlots ht Slot.isEmpty ∧
      (ht.size = 0 ∨ ∃ e, ht.size = 2 ^ e) ∧
      ∀ op, CallOk ht op → HasRoom ht op → (opRun ht op).isSome := by
  have hcount : Counted ht := counted_of_reach (counted_freshTable _ _ _ _) (fun _ _ h => h) h
  refine ⟨hcount.items, hcount.free, ?_, ?_⟩
  · exact hcount.size.imp_right fun ⟨e, _, hs⟩ => ⟨e, hs⟩
  · intro op hcall hroom
    obtain ⟨ht', r, hrun, -⟩ := opRun_counted hcount hcall hroom
    simp [hrun]

end Runs

section Packed

/-- A table without an array, to be filled up before it is enlarged. -/
def packing : Table Nat := hurdIhashSetMaxLoad 128 (freshTable false false none none)

/-- Its array `a` of 32 slots, the first `i` of which hold the keys below `i`. -/
def packed (a i : Nat) : Table Nat :=
  { packing with
    nrItems := i
    items := fun j =>
      if j < i then { value := .live j, key := j } else { value := .empty, key := 0 }
    array := a
    size := 32
    nrFree := 32 - i }

variable {a i : Nat}

theorem powSize_packed : PowSize (packed a i).size := ⟨5, Nat.le_refl 5, rfl⟩

theorem findIndex_packed (hi : i < 32) : findIndex (packed a i) i = i := by
  have hmask : i &&& 31 = i := by
    rw [Nat.and_two_pow_sub_one_eq_mod i 5, Nat.mod_eq_of_lt (by omega)]
  have hfree : ((packed a i).items i).value = .empty := by simp [packed]
  have hhash : hash (packed a i) i = i := rfl
  have hsize : (packed a i).size = 32 := rfl
  simp [findIndex, hhash, hsize, hmask, search, hfree, Slot.isEmpty]

theorem addOne_packed (hi : i < 32) :
    addOne i i (packed a i) = some (packed a (i + 1), true) := by
  have hitems : update (packed a i).items i { value := .live i, key := i } =
      (packed a (i + 1)).items := by
    funext j
    by_cases hj : j = i
    · simp [hj, packed]
    · have hiff : j < i + 1 ↔ j < i := by omega
      simp only [packed, update_of_ne hj, hiff]
  have hfree : ((packed a i).items i).value = .empty := by simp [packed]
  have hroom : ¬ ((packed a i).nrFree = 0) := by
    simp only [packed]
    omega
  have hleft : (packed a i).nrFree - 1 = (packed a (i + 1)).nrFree := by
    simp only [packed]
    omega
  have hfill : fillSlot i i i (packed a i) = some (packed a (i + 1)) := by
    simp only [fillSlot, hfree, Slot.isEmpty, hitems, hleft]
    simp [hroom]
    rfl
  simp [addOne, findIndex_packed hi, indexValid, indexEmpty, hfree, Slot.valid, hfill]

theorem packed_add (hi : i < 32) : opStep (packed a i) (.add i i) = some (packed a (i + 1)) := by
  have hload : (packed a i).size ≠ 0 ∧
      hurdIhashGetEffectiveLoad (packed a i) ≤ (packed a i).maxLoad :=
    ⟨by simp [packed], effectiveLoad_le powSize_packed⟩
  simp only [opStep, opRun, hurdIhashAdd, if_pos hload, addOne_packed hi]
  rfl

theorem addOne_packed_full : addOne 32 32 (packed a 32) = some (packed a 32, false) := by
  have hlt : findIndex (packed a 32) 32 < 32 := findIndex_lt powSize_packed
  have hitem : (packed a 32).items (findIndex (packed a 32) 32) =
      { value := .live (findIndex (packed a 32) 32), key := findIndex (packed a 32) 32 } := by
    simp [packed] at hlt ⊢
    omega
  have hne : compare (packed a 32) (findIndex (packed a 32) 32) 32 = false := by
    have hcmp : ∀ x, compare (packed a 32) x 32 = (x == 32) := fun _ => rfl
    rw [hcmp]
    simp
    omega
  simp [addOne, indexValid, indexEmpty, hitem, Slot.valid, hne]

theorem rehashLoop_packed :
    (List.range 32).foldlM (rehashOne (packed a 32)) (packed (a + 1) 0) =
      some (packed (a + 1) 32) := by
  have hround : ∀ i < 32, ∀ ht, ht = packed (a + 1) i →
      ∃ ht', rehashOne (packed a 32) ht i = some ht' ∧ ht' = packed (a + 1) (i + 1) := by
    intro i hi ht hht
    have hitem : (packed a 32).items i = { value := .live i, key := i } := by simp [packed, hi]
    simp [rehashOne, hitem, hht, addOne_packed hi]
  obtain ⟨ht, hloop, rfl⟩ := foldlM_range_rule (fun i ht => ht = packed (a + 1) i) rfl hround
  exact hloop

theorem packed_reach (hi : i < 32) :
    Reach opStep (fun ht op => CallOk ht op ∧ HasRoom ht op) (freshTable false false none none)
      (packed 1 (i + 1)) := by
  induction i with
  | zero =>
    have hnew : newArray packing packing = packed 1 0 := by
      simp [newArray, packed, packing, hurdIhashSetMaxLoad, freshTable, hurdIhashSetCleanup,
        hurdIhashInit, minSize]
    have hadd : hurdIhashAdd (fun _ => true) 0 0 packing = some (packed 1 1, .success) := by
      have hfill : addOne 0 0 (packed 1 0) = some (packed 1 1, true) := addOne_packed hi
      have hnone : packing.size = 0 := rfl
      rw [hurdIhashAdd_eq_rehash (.inl fun h => h.1 hnone), hnew]
      simp [rehash, hnone, hfill]
    refine .step (.add 0 0) (.step (.setMaxLoad 128) .start ⟨⟨by decide, by decide⟩, trivial⟩ rfl)
      ⟨trivial, fun h => h.1 rfl⟩ ?_
    have hstep : opStep packing (.add 0 0) = some (packed 1 1) := by simp [opStep, opRun, hadd]
    exact hstep
  | succ i ih =>
    refine .step (.add (i + 1) (i + 1)) (ih (by omega)) ⟨trivial, ?_⟩ (packed_add hi)
    intro h
    exact Nat.ne_of_lt hi h.2.1

theorem ihash_accounting_packed :
    (packed 1 32).nrItems = countSlots (packed 1 32) Slot.valid ∧
      (packed 1 32).nrFree = countSlots (packed 1 32) Slot.isEmpty ∧
      ((packed 1 32).size = 0 ∨ ∃ e, (packed 1 32).size = 2 ^ e) ∧
      ∀ op, CallOk (packed 1 32) op → HasRoom (packed 1 32) op →
        (opRun (packed 1 32) op).isSome :=
  ihash_accounting false false none none (packed_reach (by decide))

/-- The 33rd key fails the assertion that an item always finds a slot once the table has been
reorganized. -/
theorem ihash_full_table_asserts :
    ∃ ht : Table Nat, Reach opStep CallOk (freshTable false false none none) ht ∧
      ht.maxLoad = 128 ∧ CallOk ht (.add 32 32) ∧ opRun ht (.add 32 32) = none := by
  have hreach : Reach opStep CallOk (freshTable false false none none) (packed 1 32) :=
    (packed_reach (by decide)).mono fun _ _ h => h.1
  refine ⟨packed 1 32, hreach, rfl, trivial, ?_⟩
  have hload : ¬ hurdIhashGetLoad (packed 1 32) > (packed 1 32).maxLoad := by
    have hle : hurdIhashGetLoad (packed 1 32) ≤ 128 := by
      rw [hurdIhashGetLoad, scaleLoad_le_iff powSize_packed]
      decide
    exact Nat.not_lt.mpr hle
  have hnew : newArray (packed 1 32) (packed 1 32) = packed 2 0 := by
    simp only [newArray, if_neg hload]
    simp [packed]
  have hrehash : rehash 32 32 (packed 1 32) (packed 2 0) = none := by
    have hloop : (List.range 32).foldlM (rehashOne (packed 1 32)) (packed 2 0) = _ :=
      rehashLoop_packed
    have hsize : (packed 1 32).size = 32 := rfl
    simp [rehash, hsize, hloop, addOne_packed_full]
  simp [opRun, hurdIhashAdd_eq_rehash (.inr addOne_packed_full), hnew, hrehash]

end Packed

end Hurd.Ihash
