import Hurd.Libihash.Accounting

/-!
# A hash table as a finite map

A table answers like a finite map on its keys as long as every key is reached from its home slot
without crossing an empty slot, no key is stored twice, and no search for a stored key is stopped
by a tombstone. Tombstones carry the key 0, which only an integer key can be equal to.
-/

namespace Hurd.Ihash

open Function

variable {V : Type*}

/-- The keys in use are compared by an equivalence that the hash respects. -/
structure KeyLaws (keyOk : Nat → Prop) (ht : Table V) : Prop where
  refl : ∀ a, keyOk a → compare ht a a = true
  symm : ∀ a b, keyOk a → keyOk b → compare ht a b = true → compare ht b a = true
  trans : ∀ a b c, keyOk a → keyOk b → keyOk c → compare ht a b = true →
    compare ht b c = true → compare ht a c = true
  hash : ∀ a b, keyOk a → keyOk b → compare ht a b = true → hash ht a = hash ht b

/-- The layout of a table that can be searched. -/
structure Sound (keyOk : Nat → Prop) (ht : Table V) : Prop where
  counted : Counted ht
  laws : KeyLaws keyOk ht
  keys : ∀ i < ht.size, (ht.items i).value.valid = true → keyOk (ht.items i).key
  graves : ∀ i < ht.size, (ht.items i).value.isDeleted = true → (ht.items i).key = 0
  path : ∀ i < ht.size, (ht.items i).value.valid = true →
    Reaches ht.size (fun i => (ht.items i).value.isEmpty) (home ht (ht.items i).key) i
  unique : ∀ i < ht.size, ∀ j < ht.size, (ht.items i).value.valid = true →
    (ht.items j).value.valid = true → compare ht (ht.items i).key (ht.items j).key = true → i = j

/-- The table has `v` under a key equal to `k`. -/
def Stores (ht : Table V) (k : Nat) (v : V) : Prop :=
  ∃ i < ht.size, (ht.items i).value = .live v ∧ compare ht (ht.items i).key k = true

/-- A tombstone that compares equal to the stored key `k` is probed before it. -/
def Shadowed (ht : Table V) (k : Nat) : Prop :=
  ∃ i < ht.size, (ht.items i).value.valid = true ∧ compare ht (ht.items i).key k = true ∧
    ∃ x < ht.size, (ht.items x).value.isDeleted = true ∧ compare ht (ht.items x).key k = true ∧
      ProbedBefore ht.size (home ht k) x i

section Setup

variable {ht ht' : Table V}

theorem SameSetup.compare (h : SameSetup ht ht') : compare ht' = compare ht := by
  funext a b
  simp [Ihash.compare, h.fctCmp]

theorem SameSetup.hash (h : SameSetup ht ht') : hash ht' = hash ht := by
  funext k
  simp [Ihash.hash, h.fctHash]

theorem Kept.home (h : Kept ht ht') (k : Nat) : home ht' k = home ht k := by
  simp [Ihash.home, h.hash, h.size]

theorem KeyLaws.same {keyOk : Nat → Prop} (h : KeyLaws keyOk ht) (hs : SameSetup ht ht') :
    KeyLaws keyOk ht' := by
  constructor
  · simpa [hs.compare] using h.refl
  · simpa [hs.compare] using h.symm
  · simpa [hs.compare] using h.trans
  · simpa [hs.compare, hs.hash] using h.hash

theorem isEmpty_of_valid {s : Slot V} (hs : s.valid = true) : s.isEmpty = false := by
  cases s <;> simp_all [Slot.valid, Slot.isEmpty]

theorem isDeleted_of_not_valid {s : Slot V} (hs : s.valid = false) (he : s.isEmpty = false) :
    s.isDeleted = true := by
  cases s <;> simp_all [Slot.valid, Slot.isEmpty, Slot.isDeleted]

theorem not_valid_of_free {s : Slot V} (hs : s.isEmpty = true ∨ s.isDeleted = true) :
    s.valid = false := by
  cases s <;> simp_all [Slot.valid, Slot.isEmpty, Slot.isDeleted]

end Setup

section Search

variable {keyOk : Nat → Prop} {ht : Table V} {k : Nat}

theorem KeyLaws.join (h : KeyLaws keyOk ht) {a b c : Nat} (ha : keyOk a) (hb : keyOk b)
    (hc : keyOk c) (hac : compare ht a c = true) (hbc : compare ht b c = true) :
    compare ht a b = true :=
  h.trans a c b ha hc hb hac (h.symm b c hb hc hbc)

theorem Sound.findIndex_stored (h : Sound keyOk ht) (hk : keyOk k) (hshadow : ¬ Shadowed ht k)
    {i : Nat} (hi : i < ht.size) (hv : (ht.items i).value.valid = true)
    (hkey : compare ht (ht.items i).key k = true) : findIndex ht k = i := by
  have hpow : PowSize ht.size := h.counted.pow (by omega)
  have hhome : home ht (ht.items i).key = home ht k := by
    simp only [home, h.laws.hash _ _ (h.keys i hi hv) hk hkey]
  have hreach := h.path i hi hv
  rw [hhome] at hreach
  have hlt : findIndex ht k < ht.size := findIndex_lt hpow
  rcases (findIndex_ends hpow).of_reaches hreach (isEmpty_of_valid hv) hkey with
    he | ⟨hbefore, hempty, hhit⟩
  · exact he
  · cases hr : (ht.items (findIndex ht k)).value.valid with
    | true =>
      have hjoin := h.laws.join (h.keys _ hlt hr) (h.keys i hi hv) hk hhit hkey
      exact h.unique _ hlt i hi hr hv hjoin
    | false =>
      have hgrave := isDeleted_of_not_valid hr hempty
      exact absurd ⟨i, hi, hv, hkey, _, hlt, hgrave, hhit, hbefore⟩ hshadow

theorem Sound.findIndex_absent (h : Sound keyOk ht) (hsize : ht.size ≠ 0)
    (habsent : ∀ i < ht.size, (ht.items i).value.valid = true →
      compare ht (ht.items i).key k = false)
    (hroom : ∃ i < ht.size, (ht.items i).value.valid = false) :
    Reaches ht.size (fun i => (ht.items i).value.isEmpty) (home ht k) (findIndex ht k) ∧
      (ht.items (findIndex ht k)).value.valid = false := by
  have hpow := h.counted.pow hsize
  have hmiss : ∀ i < ht.size, (ht.items i).value.isEmpty = false →
      compare ht (ht.items i).key k = true → (ht.items i).value.isDeleted = true := by
    intro i hi hempty hkey
    cases hv : (ht.items i).value.valid with
    | true => simp [habsent i hi hv] at hkey
    | false => exact isDeleted_of_not_valid hv hempty
  rcases (findIndex_ends hpow).of_miss (home_lt hpow k) hmiss with ⟨-, hreach, hfree⟩ | ⟨-, hall⟩
  · exact ⟨hreach, not_valid_of_free hfree⟩
  · obtain ⟨i, hi, hv⟩ := hroom
    have hboth := hall i hi
    have hgrave := isDeleted_of_not_valid hv hboth.1
    simp [hboth.2] at hgrave

/-- Slot `idx` is where an item with key `k` belongs: on the path of the key, free or taken by
that key, which no other slot has. -/
structure Target (ht : Table V) (k idx : Nat) : Prop where
  lt : idx < ht.size
  reach : Reaches ht.size (fun i => (ht.items i).value.isEmpty) (home ht k) idx
  only : ∀ j < ht.size, (ht.items j).value.valid = true →
    compare ht (ht.items j).key k = true → j = idx
  old : (ht.items idx).value.valid = true → compare ht (ht.items idx).key k = true

theorem Sound.target_stored (h : Sound keyOk ht) (hk : keyOk k) {i : Nat} (hi : i < ht.size)
    (hv : (ht.items i).value.valid = true) (hkey : compare ht (ht.items i).key k = true) :
    Target ht k i := by
  have hhome : home ht (ht.items i).key = home ht k := by
    simp only [home, h.laws.hash _ _ (h.keys i hi hv) hk hkey]
  refine ⟨hi, hhome ▸ h.path i hi hv, ?_, fun _ => hkey⟩
  intro j hj hvj hkj
  exact h.unique j hj i hi hvj hv (h.laws.join (h.keys j hj hvj) (h.keys i hi hv) hk hkj hkey)

theorem Sound.target_absent (h : Sound keyOk ht) (hsize : ht.size ≠ 0)
    (habsent : ∀ i < ht.size, (ht.items i).value.valid = true →
      compare ht (ht.items i).key k = false)
    (hroom : ∃ i < ht.size, (ht.items i).value.valid = false) :
    Target ht k (findIndex ht k) := by
  obtain ⟨hreach, hfree⟩ := h.findIndex_absent hsize habsent hroom
  refine ⟨findIndex_lt (h.counted.pow hsize), hreach, ?_, ?_⟩
  · intro j hj hv hkey
    simp [habsent j hj hv] at hkey
  · intro hv
    simp [hfree] at hv

theorem Sound.target (h : Sound keyOk ht) (hk : keyOk k) (hsize : ht.size ≠ 0)
    (hshadow : ¬ Shadowed ht k)
    (huse : (ht.items (findIndex ht k)).value.valid = false ∨
      compare ht (ht.items (findIndex ht k)).key k = true) :
    Target ht k (findIndex ht k) := by
  have hlt : findIndex ht k < ht.size := findIndex_lt (h.counted.pow hsize)
  by_cases hstored : ∃ i < ht.size, (ht.items i).value.valid = true ∧
      compare ht (ht.items i).key k = true
  · obtain ⟨i, hi, hv, hkey⟩ := hstored
    rw [h.findIndex_stored hk hshadow hi hv hkey]
    exact h.target_stored hk hi hv hkey
  · have habsent : ∀ i < ht.size, (ht.items i).value.valid = true →
        compare ht (ht.items i).key k = false := by
      intro i hi hv
      by_contra hkey
      exact hstored ⟨i, hi, hv, by simpa using hkey⟩
    refine h.target_absent hsize habsent ⟨findIndex ht k, hlt, ?_⟩
    rcases huse with hfree | hkey
    · exact hfree
    · by_contra hv
      exact hstored ⟨_, hlt, by simpa using hv, hkey⟩

end Search

section Write

variable {keyOk : Nat → Prop} {ht ht' : Table V} {k idx : Nat} {v : V}

theorem Sound.write (h : Sound keyOk ht) (hkept : Kept ht ht') (hcount : Counted ht')
    (hitems : ht'.items = update ht.items idx { value := .live v, key := k })
    (hk : keyOk k) (htarget : Target ht k idx) : Sound keyOk ht' := by
  have hother : ∀ i, i ≠ idx → ht'.items i = ht.items i := by
    intro i hi
    simp [hitems, hi]
  have hself : ht'.items idx = { value := .live v, key := k } := by simp [hitems]
  have hempty : ∀ i, (ht.items i).value.isEmpty = false → (ht'.items i).value.isEmpty = false := by
    intro i hi
    by_cases hii : i = idx
    · simp [hii, hself, Slot.isEmpty]
    · rwa [hother i hii]
  constructor
  · exact hcount
  · exact h.laws.same hkept.toSameSetup
  · intro i hi hv
    rw [hkept.size] at hi
    by_cases hii : i = idx
    · simpa [hii, hself] using hk
    · rw [hother i hii] at hv ⊢
      exact h.keys i hi hv
  · intro i hi hd
    rw [hkept.size] at hi
    by_cases hii : i = idx
    · simp [hii, hself, Slot.isDeleted] at hd
    · rw [hother i hii] at hd ⊢
      exact h.graves i hi hd
  · intro i hi hv
    rw [hkept.size] at hi ⊢
    rw [hkept.home]
    by_cases hii : i = idx
    · subst i
      rw [hself]
      exact htarget.reach.mono hempty
    · rw [hother i hii] at hv ⊢
      exact (h.path i hi hv).mono hempty
  · intro i hi j hj hvi hvj hkey
    rw [hkept.size] at hi hj
    rw [hkept.compare] at hkey
    by_cases hii : i = idx
    · by_cases hjj : j = idx
      · rw [hii, hjj]
      · rw [hii, hself, hother j hjj] at hkey
        rw [hother j hjj] at hvj
        exact absurd (htarget.only j hj hvj (h.laws.symm _ _ hk (h.keys j hj hvj) hkey)) hjj
    · rw [hother i hii] at hvi hkey
      by_cases hjj : j = idx
      · rw [hjj, hself] at hkey
        exact absurd (htarget.only i hi hvi hkey) hii
      · rw [hother j hjj] at hvj hkey
        exact h.unique i hi j hj hvi hvj hkey

theorem Sound.stores_write (h : Sound keyOk ht) (hkept : Kept ht ht')
    (hitems : ht'.items = update ht.items idx { value := .live v, key := k })
    (hk : keyOk k) (htarget : Target ht k idx) {x : Nat} (hx : keyOk x) (w : V) :
    Stores ht' x w ↔ if compare ht k x = true then w = v else Stores ht x w := by
  have hother : ∀ i, i ≠ idx → ht'.items i = ht.items i := by
    intro i hi
    simp [hitems, hi]
  have hself : ht'.items idx = { value := .live v, key := k } := by simp [hitems]
  simp only [Stores, hkept.size, hkept.compare]
  by_cases hkx : compare ht k x = true
  · rw [if_pos hkx]
    constructor
    · rintro ⟨i, hi, hv, hkey⟩
      by_cases hii : i = idx
      · rw [hii, hself] at hv
        simpa using hv.symm
      · rw [hother i hii] at hv hkey
        have hvalid : (ht.items i).value.valid = true := by simp [hv, Slot.valid]
        have hjoin := h.laws.join (h.keys i hi hvalid) hk hx hkey hkx
        exact absurd (htarget.only i hi hvalid hjoin) hii
    · rintro rfl
      exact ⟨idx, htarget.lt, by simp [hself], by simpa [hself] using hkx⟩
  · rw [if_neg hkx]
    constructor
    · rintro ⟨i, hi, hv, hkey⟩
      by_cases hii : i = idx
      · rw [hii, hself] at hkey
        exact absurd hkey hkx
      · rw [hother i hii] at hv hkey
        exact ⟨i, hi, hv, hkey⟩
    · rintro ⟨i, hi, hv, hkey⟩
      have hvalid : (ht.items i).value.valid = true := by simp [hv, Slot.valid]
      have hii : i ≠ idx := by
        intro he
        subst i
        have hki := h.keys idx htarget.lt hvalid
        have hsame := h.laws.symm _ _ hki hk (htarget.old hvalid)
        exact hkx (h.laws.trans _ _ _ hk hki hx hsame hkey)
      exact ⟨i, hi, by rw [hother i hii]; exact hv, by rw [hother i hii]; exact hkey⟩

theorem Sound.bury (h : Sound keyOk ht) (hidx : idx < ht.size)
    (hv : (ht.items idx).value = .live v) : Sound keyOk (bury idx v ht) := by
  have hkept := kept_bury idx v ht
  have hother : ∀ i, i ≠ idx → (Ihash.bury idx v ht).items i = ht.items i := by
    intro i hi
    simp [Ihash.bury, hi]
  have hself : (Ihash.bury idx v ht).items idx = { value := .deleted, key := 0 } := by
    simp [Ihash.bury]
  have hlive : ∀ i, ((Ihash.bury idx v ht).items i).value.valid = true →
      i ≠ idx ∧ (ht.items i).value.valid = true := by
    intro i hvalid
    by_cases hii : i = idx
    · simp [hii, hself, Slot.valid] at hvalid
    · rw [hother i hii] at hvalid
      exact ⟨hii, hvalid⟩
  constructor
  · exact counted_bury h.counted hidx hv
  · exact h.laws.same hkept.toSameSetup
  · intro i hi hvalid
    obtain ⟨hii, hvalid⟩ := hlive i hvalid
    rw [hother i hii]
    exact h.keys i hi hvalid
  · intro i hi hd
    by_cases hii : i = idx
    · rw [hii, hself]
    · rw [hother i hii] at hd ⊢
      exact h.graves i hi hd
  · intro i hi hvalid
    obtain ⟨hii, hvalid⟩ := hlive i hvalid
    rw [hkept.home, hother i hii]
    refine (h.path i hi hvalid).mono ?_
    intro x hx
    by_cases hxx : x = idx
    · simp [hxx, hself, Slot.isEmpty]
    · rwa [hother x hxx]
  · intro i hi j hj hvi hvj hkey
    obtain ⟨hii, hvi⟩ := hlive i hvi
    obtain ⟨hjj, hvj⟩ := hlive j hvj
    rw [hkept.compare, hother i hii, hother j hjj] at hkey
    exact h.unique i hi j hj hvi hvj hkey

theorem Sound.stores_bury (h : Sound keyOk ht) (hidx : idx < ht.size)
    (hv : (ht.items idx).value = .live v) {x : Nat} (hx : keyOk x) (w : V) :
    Stores (Ihash.bury idx v ht) x w ↔
      ¬ compare ht (ht.items idx).key x = true ∧ Stores ht x w := by
  have hkept := kept_bury idx v ht
  have hother : ∀ i, i ≠ idx → (Ihash.bury idx v ht).items i = ht.items i := by
    intro i hi
    simp [Ihash.bury, hi]
  have hvalid : (ht.items idx).value.valid = true := by simp [hv, Slot.valid]
  simp only [Stores, hkept.size, hkept.compare]
  constructor
  · rintro ⟨i, hi, hvi, hkey⟩
    by_cases hii : i = idx
    · simp [hii, Ihash.bury] at hvi
    · rw [hother i hii] at hvi hkey
      have hvalid' : (ht.items i).value.valid = true := by simp [hvi, Slot.valid]
      refine ⟨?_, i, hi, hvi, hkey⟩
      intro hkx
      have hjoin := h.laws.join (h.keys i hi hvalid') (h.keys idx hidx hvalid) hx hkey hkx
      exact hii (h.unique i hi idx hidx hvalid' hvalid hjoin)
  · rintro ⟨hkx, i, hi, hvi, hkey⟩
    have hii : i ≠ idx := by
      rintro rfl
      exact hkx hkey
    exact ⟨i, hi, by rw [hother i hii]; exact hvi, by rw [hother i hii]; exact hkey⟩

end Write

section Locp

variable {ht ht' : Table V} {k idx : Nat} {v : V}

/-- Every stored value points to its slot. -/
def LocpOk (ht : Table V) : Prop :=
  ht.hasLocp = true → ∀ i < ht.size, ∀ v, (ht.items i).value = .live v →
    ht.locp v = some { array := ht.array, index := i }

theorem LocpOk.write [DecidableEq V] (h : LocpOk ht) (hkept : Kept ht ht') {key : Nat}
    (hitems : ht'.items = update ht.items idx { value := .live v, key := key })
    (hlocp : ht'.locp = setLocp ht v idx)
    (honce : ∀ i < ht.size, (ht.items i).value = .live v → i = idx) : LocpOk ht' := by
  intro hhas i hi w hw
  rw [hkept.hasLocp] at hhas
  rw [hkept.size] at hi
  rw [hlocp, hkept.array, setLocp, if_pos hhas]
  by_cases hii : i = idx
  · subst i
    have he : v = w := by simpa [hitems] using hw
    simp [he]
  · have hw' : (ht.items i).value = .live w := by simpa [hitems, hii] using hw
    have hne : w ≠ v := by
      intro he
      exact hii (honce i hi (he ▸ hw'))
    simpa [hne] using h hhas i hi w hw'

theorem LocpOk.bury (h : LocpOk ht) : LocpOk (bury idx v ht) := by
  intro hhas i hi w hw
  by_cases hii : i = idx
  · simp [hii, Ihash.bury] at hw
  · exact h hhas i hi w (by simpa [Ihash.bury, hii] using hw)

theorem LocpOk.inj (h : LocpOk ht) (hhas : ht.hasLocp = true) {i j : Nat} (hi : i < ht.size)
    (hj : j < ht.size) (hvi : (ht.items i).value = .live v) (hvj : (ht.items j).value = .live v) :
    i = j := by
  have he := (h hhas i hi v hvi).symm.trans (h hhas j hj v hvj)
  simpa using he

end Locp

section Rehash

variable [DecidableEq V] {keyOk : Nat → Prop} {ht : Table V}

/-- The rehashing loop after `i` old slots. -/
structure Rehashed (keyOk : Nat → Prop) (old : Table V) (i : Nat) (ht : Table V) : Prop where
  sound : Sound keyOk ht
  noGraves : ∀ j < ht.size, (ht.items j).value.isDeleted = false
  stores : ∀ x, keyOk x → ∀ w, Stores ht x w ↔
    ∃ j < i, (old.items j).value = .live w ∧ compare old (old.items j).key x = true
  locp : LocpOk old → LocpOk ht

omit [DecidableEq V] in
theorem rehashed_newArray (h : Sound keyOk ht) : Rehashed keyOk ht 0 (newArray ht ht) := by
  have hslot : ∀ i, (newArray ht ht).items i = { value := .empty, key := 0 } := fun _ => rfl
  refine ⟨⟨(counted_newArray ht h.counted).1, h.laws.same (sameSetup_newArray ht ht),
    ?_, ?_, ?_, ?_⟩, ?_, ?_, ?_⟩
  · simp [hslot, Slot.valid]
  · simp [hslot, Slot.isDeleted]
  · simp [hslot, Slot.valid]
  · simp [hslot, Slot.valid]
  · simp [hslot, Slot.isDeleted]
  · simp [Stores, hslot]
  · intro _ _ i _ v hv
    simp [hslot] at hv

theorem Rehashed.next {old : Table V} (hold : Sound keyOk old) {i : Nat} (hi : i < old.size) {v : V}
    (hv : (old.items i).value = .live v) (hset : SameSetup old ht) (hroom : ht.nrItems < ht.size)
    (h : Rehashed keyOk old i ht) :
    Rehashed keyOk old (i + 1)
      (put (old.items i).key v (findIndex ht (old.items i).key) ht) := by
  have hvalid : (old.items i).value.valid = true := by simp [hv, Slot.valid]
  have hkey := hold.keys i hi hvalid
  have hlater : ∀ j < i, ∀ w, (old.items j).value = .live w →
      ¬ compare old (old.items j).key (old.items i).key = true := by
    intro j hj w hw hcmp
    have he := hold.unique j (by omega) i hi (by simp [hw, Slot.valid]) hvalid hcmp
    omega
  have habsent : ∀ j < ht.size, (ht.items j).value.valid = true →
      compare ht (ht.items j).key (old.items i).key = false := by
    intro j hj hvj
    obtain ⟨w, hw⟩ := exists_live hvj
    by_contra hcmp
    obtain ⟨j', hj', hw', hcmp'⟩ := (h.stores _ hkey w).mp ⟨j, hj, hw, by simpa using hcmp⟩
    exact hlater j' hj' w hw' hcmp'
  have hfree : ∃ j < ht.size, (ht.items j).value.valid = false := by
    rw [h.sound.counted.items] at hroom
    exact exists_of_countSlots_lt hroom
  have htarget := h.sound.target_absent (by omega) habsent hfree
  generalize findIndex ht (old.items i).key = idx at htarget ⊢
  have hkept := kept_put (old.items i).key v idx ht
  have hitems : (put (old.items i).key v idx ht).items =
      update ht.items idx { value := .live v, key := (old.items i).key } := rfl
  refine ⟨h.sound.write hkept (counted_put h.sound.counted htarget.lt) hitems hkey htarget,
    ?_, ?_, ?_⟩
  · intro j hj
    by_cases hjj : j = idx
    · simp [hjj, hitems, Slot.isDeleted]
    · simpa [hitems, hjj] using h.noGraves j hj
  · intro x hx w
    rw [h.sound.stores_write hkept hitems hkey htarget hx w, h.stores x hx w, hset.compare]
    by_cases hcmp : compare old (old.items i).key x = true
    · rw [if_pos hcmp]
      constructor
      · rintro rfl
        exact ⟨i, by omega, hv, hcmp⟩
      · rintro ⟨j, hj, hw, hcmp'⟩
        by_cases hji : j = i
        · subst j
          simpa [hv] using hw.symm
        · have hkj := hold.keys j (by omega) (by simp [hw, Slot.valid])
          exact absurd (hold.laws.join hkj hkey hx hcmp' hcmp) (hlater j (by omega) w hw)
    · rw [if_neg hcmp]
      constructor
      · rintro ⟨j, hj, hw, hcmp'⟩
        exact ⟨j, by omega, hw, hcmp'⟩
      · rintro ⟨j, hj, hw, hcmp'⟩
        have hji : j ≠ i := by
          rintro rfl
          exact hcmp hcmp'
        exact ⟨j, by omega, hw, hcmp'⟩
  · intro hlocp
    refine fun hhas => (h.locp hlocp).write hkept hitems rfl ?_ hhas
    intro j hj hw
    have hhas' : old.hasLocp = true := by
      rw [← hset.hasLocp, ← hkept.hasLocp]
      exact hhas
    have hkj := h.sound.keys j hj (by simp [hw, Slot.valid])
    obtain ⟨j', hj', hw', -⟩ := (h.stores _ hkj v).mp ⟨j, hj, hw, h.sound.laws.refl _ hkj⟩
    have he := hlocp.inj hhas' (by omega) hi hw' hv
    omega

theorem rehashLoop_rehashed (h : Sound keyOk ht) {ht' : Table V}
    (hload : ¬ (ht.size ≠ 0 ∧ hurdIhashGetEffectiveLoad ht ≤ ht.maxLoad))
    (hloop : (List.range ht.size).foldlM (rehashOne ht) (newArray ht ht) = some ht') :
    Rehashed keyOk ht ht.size ht' := by
  obtain ⟨hnew, hpow⟩ := counted_newArray ht h.counted
  have hroom := newArray_room h.counted hload
  obtain ⟨ht₁, hloop₁, -, -, -, hre⟩ :=
    rehashLoop_rule ht (Rehashed keyOk ht) hnew hpow rfl (by omega) (rehashed_newArray h)
      (by
        intro i _ hfree ht' hre
        refine ⟨hre.sound, hre.noGraves, ?_, hre.locp⟩
        intro x hx w
        rw [hre.stores x hx w]
        constructor
        · rintro ⟨j, hj, hw, hcmp⟩
          exact ⟨j, by omega, hw, hcmp⟩
        · rintro ⟨j, hj, hw, hcmp⟩
          have hji : j ≠ i := by
            rintro rfl
            simp [hw, Slot.valid] at hfree
          exact ⟨j, by omega, hw, hcmp⟩)
      (by
        intro i hi v hv ht' _ hkept hlt hre
        exact hre.next h hi hv ((sameSetup_newArray ht ht).trans hkept.toSameSetup) hlt)
  have he : ht₁ = ht' := by simpa [hloop₁] using hloop
  exact he ▸ hre

end Rehash

section Operations

variable {keyOk : Nat → Prop} {ht ht' : Table V} {k : Nat} {v : V}

/-- `v` has been added under `k`. -/
structure Added (keyOk : Nat → Prop) (k : Nat) (v : V) (ht ht' : Table V) : Prop where
  sound : Sound keyOk ht'
  setup : SameSetup ht ht'
  stores : ∀ x, keyOk x → ∀ w, Stores ht' x w ↔
    if compare ht k x = true then w = v else Stores ht x w
  locp : LocpOk ht → (∀ i < ht.size, (ht.items i).value = .live v →
    compare ht (ht.items i).key k = true) → LocpOk ht'

/-- What was stored under `k` is gone. -/
structure Removed (keyOk : Nat → Prop) (k : Nat) (ht ht' : Table V) : Prop where
  sound : Sound keyOk ht'
  setup : SameSetup ht ht'
  stores : ∀ x, keyOk x → ∀ w, Stores ht' x w ↔ ¬ compare ht k x = true ∧ Stores ht x w
  locp : LocpOk ht → LocpOk ht'

theorem Sound.removed_bury (h : Sound keyOk ht) {idx : Nat} (hidx : idx < ht.size)
    (hv : (ht.items idx).value = .live v) :
    Removed keyOk (ht.items idx).key ht (Ihash.bury idx v ht) where
  sound := h.bury hidx hv
  setup := (kept_bury idx v ht).toSameSetup
  stores _ hx w := h.stores_bury hidx hv hx w
  locp := LocpOk.bury

theorem KeyLaws.compare_left (h : KeyLaws keyOk ht) {a b x : Nat} (ha : keyOk a) (hb : keyOk b)
    (hx : keyOk x) (hab : compare ht a b = true) : compare ht a x = compare ht b x := by
  apply Bool.eq_iff_iff.mpr
  constructor
  · exact h.trans b a x hb ha hx (h.symm a b ha hb hab)
  · exact h.trans a b x ha hb hx hab

theorem Sound.find_iff (h : Sound keyOk ht) (hk : keyOk k) (hshadow : ¬ Shadowed ht k)
    (hsize : ht.size ≠ 0) (v : V) :
    (if indexValid ht (findIndex ht k) k then (ht.items (findIndex ht k)).value.get? else none) =
      some v ↔ Stores ht k v := by
  have hlt : findIndex ht k < ht.size := findIndex_lt (h.counted.pow hsize)
  constructor
  · intro hfind
    cases hvalid : indexValid ht (findIndex ht k) k with
    | false => simp [hvalid] at hfind
    | true =>
      rw [hvalid, if_pos rfl] at hfind
      refine ⟨findIndex ht k, hlt, ?_, ?_⟩
      · cases hs : (ht.items (findIndex ht k)).value <;> simp_all [Slot.get?]
      · simp only [indexValid, Bool.and_eq_true] at hvalid
        exact hvalid.2
  · rintro ⟨i, hi, hv, hkey⟩
    have hvi : (ht.items i).value.valid = true := by simp [hv, Slot.valid]
    rw [h.findIndex_stored hk hshadow hi hvi hkey]
    simp [indexValid, indexEmpty, hkey, hv, Slot.get?, Slot.valid]

theorem Sound.hurdIhashFind_iff (h : Sound keyOk ht) (hk : keyOk k) (hshadow : ¬ Shadowed ht k)
    (v : V) : hurdIhashFind k ht = some v ↔ Stores ht k v := by
  by_cases hsize : ht.size = 0
  · simp [hurdIhashFind, hsize, Stores]
  · simpa [hurdIhashFind, hsize] using h.find_iff hk hshadow hsize v

theorem Sound.hurdIhashLocpFind_iff (h : Sound keyOk ht) (hk : keyOk k)
    (hshadow : ¬ Shadowed ht k) (v : V) :
    (hurdIhashLocpFind k ht).1 = some v ↔ Stores ht k v := by
  by_cases hsize : ht.size = 0
  · simp [hurdIhashLocpFind, hsize, Stores]
  · simpa [hurdIhashLocpFind, hsize] using h.find_iff hk hshadow hsize v

theorem Sound.hurdIhashRemove_removed (h : Sound keyOk ht) (hk : keyOk k)
    (hshadow : ¬ Shadowed ht k) :
    ∃ ht' b, hurdIhashRemove k ht = some (ht', b) ∧ (b = true ↔ ∃ v, Stores ht k v) ∧
      Removed keyOk k ht ht' := by
  by_cases hstored : ∃ i < ht.size, (ht.items i).value.valid = true ∧
      compare ht (ht.items i).key k = true
  · obtain ⟨i, hi, hvi, hkey⟩ := hstored
    obtain ⟨v, hv⟩ := exists_live hvi
    have hfind := h.findIndex_stored hk hshadow hi hvi hkey
    have hki := h.keys i hi hvi
    have hrem := h.removed_bury hi hv
    refine ⟨Ihash.bury i v ht, true, ?_, ?_, ⟨hrem.sound, hrem.setup, ?_, hrem.locp⟩⟩
    · have hsize : ht.size ≠ 0 := by omega
      simp [hurdIhashRemove, hsize, hfind, indexValid, indexEmpty, hvi, hkey, locpRemove_eq hv]
    · simp only [true_iff]
      exact ⟨v, i, hi, hv, hkey⟩
    · intro x hx w
      rw [hrem.stores x hx w, h.laws.compare_left hki hk hx hkey]
  · have hnone : ∀ w, ¬ Stores ht k w := by
      rintro w ⟨i, hi, hv, hkey⟩
      exact hstored ⟨i, hi, by simp [hv, Slot.valid], hkey⟩
    have hinvalid : ht.size ≠ 0 → indexValid ht (findIndex ht k) k = false := by
      intro hsize
      by_contra hvalid
      simp only [Bool.not_eq_false, indexValid, indexEmpty, Bool.not_not, Bool.and_eq_true]
        at hvalid
      exact hstored ⟨_, findIndex_lt (h.counted.pow hsize), hvalid.1, hvalid.2⟩
    refine ⟨ht, false, ?_, ?_, ⟨h, ⟨rfl, rfl, rfl, rfl, rfl⟩, ?_, id⟩⟩
    · by_cases hsize : ht.size = 0
      · simp [hurdIhashRemove, hsize]
      · simp [hurdIhashRemove, hsize, hinvalid hsize]
    · simpa using hnone
    · intro x hx w
      constructor
      · rintro ⟨i, hi, hv, hkey⟩
        refine ⟨?_, i, hi, hv, hkey⟩
        intro hkx
        have hvi : (ht.items i).value.valid = true := by simp [hv, Slot.valid]
        exact hstored ⟨i, hi, hvi, h.laws.join (h.keys i hi hvi) hk hx hkey hkx⟩
      · exact fun hs => hs.2

variable [DecidableEq V]

theorem Sound.added_put (h : Sound keyOk ht) (hk : keyOk k) {idx : Nat}
    (htarget : Target ht k idx) : Added keyOk k v ht (put k v idx ht) where
  sound := h.write (kept_put k v idx ht) (counted_put h.counted htarget.lt) rfl hk htarget
  setup := (kept_put k v idx ht).toSameSetup
  stores x hx w := h.stores_write (kept_put k v idx ht) rfl hk htarget hx w
  locp hlocp hsingle := by
    refine hlocp.write (kept_put k v idx ht) rfl rfl ?_
    intro i hi hv
    exact htarget.only i hi (by simp [hv, Slot.valid]) (hsingle i hi hv)

theorem Sound.added_override (h : Sound keyOk ht) (hk : keyOk k) {l : Locp}
    (hidx : l.index < ht.size) (hvi : (ht.items l.index).value.valid = true)
    (hkey : compare ht (ht.items l.index).key k = true) :
    Added keyOk k v ht (override l v ht) := by
  have hki := h.keys _ hidx hvi
  have htarget := h.target_stored hki hidx hvi (h.laws.refl _ hki)
  have hkept := kept_override l v ht
  have hcount := counted_override v h.counted hidx hvi
  refine ⟨h.write hkept hcount rfl hki htarget, hkept.toSameSetup, ?_, ?_⟩
  · intro x hx w
    rw [h.stores_write hkept rfl hki htarget hx w, h.laws.compare_left hki hk hx hkey]
  · intro hlocp hsingle
    refine hlocp.write hkept rfl rfl ?_
    intro i hi hv
    have hv' : (ht.items i).value.valid = true := by simp [hv, Slot.valid]
    exact h.unique i hi _ hidx hv' hvi (h.laws.join (h.keys i hi hv') hki hk (hsingle i hi hv) hkey)

theorem Sound.hurdIhashAdd_added (h : Sound keyOk ht) (hk : keyOk k) (hroom : ¬ NoRoom ht k)
    (hshadow : hurdIhashGetEffectiveLoad ht ≤ ht.maxLoad → ¬ Shadowed ht k) (v : V) :
    ∃ ht', hurdIhashAdd (fun _ => true) k v ht = some (ht', .success) ∧
      Added keyOk k v ht ht' := by
  rcases hurdIhashAdd_cases v h.counted hroom with
    ⟨hpow, hload, hone, hadd⟩ | ⟨ht', hload, hloop, hcount, hkept, hlt, hadd⟩
  · have huse : (ht.items (findIndex ht k)).value.valid = false ∨
        compare ht (ht.items (findIndex ht k)).key k = true := by
      by_contra huse
      simp [addOne_eq h.counted hpow, if_neg huse] at hone
    have hpos := hpow.pos
    exact ⟨_, hadd, h.added_put hk (h.target hk (by omega) (hshadow hload) huse)⟩
  · have hre := rehashLoop_rehashed h hload hloop
    have hset : SameSetup ht ht' := (sameSetup_newArray ht ht).trans hkept.toSameSetup
    have hclear : ¬ Shadowed ht' k := by
      rintro ⟨-, -, -, -, x, hx, hgrave, -⟩
      simp [hre.noGraves x hx] at hgrave
    have hfree : ∃ i < ht'.size, (ht'.items i).value.valid = false := by
      rw [hcount.items] at hlt
      exact exists_of_countSlots_lt hlt
    have hput : Added keyOk k v ht' _ :=
      hre.sound.added_put hk (hre.sound.target hk (by omega) hclear
        (findIndex_usable (hcount.pow (by omega)) hfree))
    refine ⟨_, hadd, hput.sound, hset.trans hput.setup, ?_, ?_⟩
    · intro x hx w
      rw [hput.stores x hx w, hset.compare, hre.stores x hx w]
      rfl
    · intro hlocp hsingle
      refine hput.locp (hre.locp hlocp) ?_
      intro i hi hv
      have hki := hre.sound.keys i hi (by simp [hv, Slot.valid])
      obtain ⟨j, hj, hvj, hcmp⟩ :=
        (hre.stores _ hki v).mp ⟨i, hi, hv, hre.sound.laws.refl _ hki⟩
      have hkj := h.keys j hj (by simp [hvj, Slot.valid])
      rw [hset.compare]
      exact h.laws.trans _ _ _ hki hkj hk (h.laws.symm _ _ hkj hki hcmp) (hsingle j hj hvj)

theorem Sound.hurdIhashLocpAdd_added (h : Sound keyOk ht) (hk : keyOk k) (hroom : ¬ NoRoom ht k)
    (hshadow : ¬ Shadowed ht k) {k' : Nat} (hk' : keyOk k') (heq : compare ht k' k = true)
    (hshadow' : ¬ Shadowed ht k') {locp : Option Locp}
    (hslot : locp = none ∨ SlotFound ht k' locp) (v : V) :
    ∃ ht', hurdIhashLocpAdd (fun _ => true) locp k v ht = some (ht', .success) ∧
      Added keyOk k v ht ht' := by
  rcases hurdIhashLocpAdd_cases k v h.counted hslot with
    hadd | ⟨hpow, hfree, hadd⟩ | ⟨hpow, hvi, hkey, hadd⟩
  · obtain ⟨ht', hadd', hdone⟩ := h.hurdIhashAdd_added hk hroom (fun _ => hshadow) v
    exact ⟨ht', hadd.trans hadd', hdone⟩
  · have hpos := hpow.pos
    have htarget := h.target hk' (by omega) hshadow' (.inl hfree)
    refine ⟨_, hadd, h.added_put hk ⟨htarget.lt, ?_, ?_, ?_⟩⟩
    · have hhome : home ht k' = home ht k := by
        simp only [home, h.laws.hash _ _ hk' hk heq]
      exact hhome ▸ htarget.reach
    · intro j hj hv hkey
      have hkj := h.keys j hj hv
      exact htarget.only j hj hv (h.laws.join hkj hk' hk hkey heq)
    · intro hv
      simp [hfree] at hv
  · exact ⟨_, hadd, h.added_override hk (findIndex_lt hpow) hvi hkey⟩

end Operations

section Runs

variable {keyOk : Nat → Prop} {ht : Table V} {m : Nat → Option V}

/-- The finite map `m` is what the table has. -/
def Represents (keyOk : Nat → Prop) (ht : Table V) (m : Nat → Option V) : Prop :=
  ∀ x, keyOk x → ∀ v, m x = some v ↔ Stores ht x v

/-- What a call does to the finite map; equal keys are those that compare equal. The key that
`hurd_ihash_locp_remove` removes is the one in the slot. -/
def mapStep (ht : Table V) (m : Nat → Option V) : Op V → Nat → Option V
  | .add key value, x => if compare ht key x then some value else m x
  | .locpAdd _ key value, x => if compare ht key x then some value else m x
  | .remove key, x => if compare ht key x then none else m x
  | .locpRemove locp, x => if compare ht (ht.items locp.index).key x then none else m x
  | .find _, x | .locpFind _, x | .setMaxLoad _, x => m x

/-- What a call returns according to the finite map. -/
def ResultOk (m : Nat → Option V) : Op V → Result V → Prop
  | .add _ _, r | .locpAdd _ _ _, r => r = .err .success
  | .remove key, r => r = .flag (m key).isSome
  | .find key, r => r = .value (m key)
  | .locpFind key, r => ∃ slot, r = .valueAt (m key) slot
  | .locpRemove _, r | .setMaxLoad _, r => r = .none

/-- The table and the finite map take a step together. -/
def simStep [DecidableEq V] (s : Table V × (Nat → Option V)) (op : Op V) :
    Option (Table V × (Nat → Option V)) :=
  (opStep s.1 op).map fun ht => (ht, mapStep s.1 s.2 op)

/-- The call is made as the interface asks, with keys in use and the default load: the slot of
`hurd_ihash_locp_add` comes from a lookup of an equal key in the table as it is, and the pointer
of `hurd_ihash_locp_remove` designates an item. -/
def UseOk (keyOk : Nat → Prop) (ht : Table V) : Op V → Prop
  | .add key _ | .remove key | .find key | .locpFind key => keyOk key
  | .locpAdd locp key _ => keyOk key ∧ (locp = none ∨
      ∃ k, keyOk k ∧ compare ht k key = true ∧ SlotFound ht k locp)
  | .locpRemove locp => locp.array = ht.array ∧ locp.index < ht.size ∧
      (ht.items locp.index).value.valid = true
  | .setMaxLoad _ => False

/-- The call searches the array in use for the key. -/
def Looks (ht : Table V) : Op V → Nat → Prop
  | .add key _, k => k = key ∧ hurdIhashGetEffectiveLoad ht ≤ ht.maxLoad
  | .locpAdd _ key _, k => compare ht k key = true
  | .remove key, k | .find key, k | .locpFind key, k => k = key
  | .locpRemove _, _ | .setMaxLoad _, _ => False

/-- A value that the call stores is not in the table under another key. -/
def StoredOnce (ht : Table V) : Op V → Prop
  | .add key value | .locpAdd _ key value => ∀ i < ht.size, (ht.items i).value = .live value →
      compare ht (ht.items i).key key = true
  | _ => True

theorem Added.represents {k : Nat} {v : V} {ht' : Table V} (h : Added keyOk k v ht ht')
    (hrep : Represents keyOk ht m) :
    Represents keyOk ht' fun x => if compare ht k x then some v else m x := by
  intro x hx w
  rw [h.stores x hx w]
  by_cases hkx : compare ht k x = true
  · simp only [hkx, if_true, Option.some.injEq]
    exact eq_comm
  · simpa [hkx] using hrep x hx w

theorem Removed.represents {k : Nat} {ht' : Table V} (h : Removed keyOk k ht ht')
    (hrep : Represents keyOk ht m) :
    Represents keyOk ht' fun x => if compare ht k x then none else m x := by
  intro x hx w
  rw [h.stores x hx w]
  by_cases hkx : compare ht k x = true
  · simp [hkx]
  · simpa [hkx] using hrep x hx w

theorem Represents.eq_of_iff (hrep : Represents keyOk ht m) {k : Nat} (hk : keyOk k)
    {o : Option V} (ho : ∀ v, o = some v ↔ Stores ht k v) : o = m k := by
  apply Option.ext
  intro v
  rw [ho v, hrep k hk v]

/-- The table and its finite map between two calls. -/
structure Refines (keyOk : Nat → Prop) (s : Table V × (Nat → Option V)) : Prop where
  sound : Sound keyOk s.1
  represents : Represents keyOk s.1 s.2
  load : s.1.maxLoad < 128

variable [DecidableEq V]

/-- One call: it returns what the finite map says, and the two go on together. -/
theorem Refines.opRun {op : Op V} (h : Refines keyOk (ht, m)) (huse : UseOk keyOk ht op)
    (hclear : ∀ k, Looks ht op k → ¬ Shadowed ht k) :
    ∃ ht' r, opRun ht op = some (ht', r) ∧ ResultOk m op r ∧
      Refines keyOk (ht', mapStep ht m op) ∧ SameSetup ht ht' ∧
      (LocpOk ht → StoredOnce ht op → LocpOk ht') := by
  have hsound := h.sound
  have hrep := h.represents
  have hroom : ∀ k, ¬ NoRoom ht k := fun k hno => absurd hno.2.2.1 (Nat.not_le.mpr h.load)
  have hsame : SameSetup ht ht := ⟨rfl, rfl, rfl, rfl, rfl⟩
  cases op with
  | add key value =>
    obtain ⟨ht', hadd, hdone⟩ := hsound.hurdIhashAdd_added huse (hroom key)
      (fun hload => hclear key ⟨rfl, hload⟩) value
    refine ⟨ht', .err .success, by simp [Ihash.opRun, hadd], rfl,
      ⟨hdone.sound, hdone.represents hrep, ?_⟩, hdone.setup, hdone.locp⟩
    rw [hdone.setup.maxLoad]
    exact h.load
  | locpAdd locp key value =>
    obtain ⟨hk, hslot⟩ := huse
    obtain ⟨k', hk', heq, hslot⟩ : ∃ k', keyOk k' ∧ compare ht k' key = true ∧
        (locp = none ∨ SlotFound ht k' locp) := by
      rcases hslot with hnone | ⟨k', hk', heq, hslot⟩
      · exact ⟨key, hk, hsound.laws.refl key hk, .inl hnone⟩
      · exact ⟨k', hk', heq, .inr hslot⟩
    obtain ⟨ht', hadd, hdone⟩ := hsound.hurdIhashLocpAdd_added hk (hroom key)
      (hclear key (hsound.laws.refl key hk)) hk' heq (hclear k' heq) hslot value
    refine ⟨ht', .err .success, by simp [Ihash.opRun, hadd], rfl,
      ⟨hdone.sound, hdone.represents hrep, ?_⟩, hdone.setup, hdone.locp⟩
    rw [hdone.setup.maxLoad]
    exact h.load
  | remove key =>
    obtain ⟨ht', b, hrem, hb, hdone⟩ :=
      hsound.hurdIhashRemove_removed huse (hclear key rfl)
    have hflag : b = (m key).isSome := by
      apply Bool.eq_iff_iff.mpr
      rw [hb, Option.isSome_iff_exists]
      exact exists_congr fun v => (hrep key huse v).symm
    refine ⟨ht', .flag b, by simp [Ihash.opRun, hrem], by simp [ResultOk, hflag],
      ⟨hdone.sound, hdone.represents hrep, ?_⟩, hdone.setup, fun hl _ => hdone.locp hl⟩
    rw [hdone.setup.maxLoad]
    exact h.load
  | locpRemove locp =>
    obtain ⟨harray, hidx, hvalid⟩ := huse
    obtain ⟨v, hv⟩ := exists_live hvalid
    have hdone := hsound.removed_bury hidx hv
    refine ⟨bury locp.index v ht, .none, ?_, rfl,
      ⟨hdone.sound, hdone.represents hrep, h.load⟩, hdone.setup, fun hl _ => hdone.locp hl⟩
    simp [Ihash.opRun, hurdIhashLocpRemove, harray, hidx, locpRemove_eq hv]
  | find key =>
    have hfind := hrep.eq_of_iff huse (hsound.hurdIhashFind_iff huse (hclear key rfl))
    exact ⟨ht, _, rfl, by simp [ResultOk, hfind], h, hsame, fun hl _ => hl⟩
  | locpFind key =>
    have hfind := hrep.eq_of_iff huse (hsound.hurdIhashLocpFind_iff huse (hclear key rfl))
    exact ⟨ht, _, rfl, ⟨_, by rw [hfind]⟩, h, hsame, fun hl _ => hl⟩
  | setMaxLoad maxLoad => exact absurd huse id

omit [DecidableEq V] in
theorem refines_freshTable {hasLocp cleanup : Bool} {fctHash : Option (Nat → Nat)}
    {fctCmp : Option (Nat → Nat → Bool)}
    (hlaws : KeyLaws keyOk (freshTable hasLocp cleanup fctHash fctCmp : Table V)) :
    Refines keyOk ((freshTable hasLocp cleanup fctHash fctCmp : Table V), fun _ => none) := by
  have hsize : ∀ i, ¬ i < (freshTable hasLocp cleanup fctHash fctCmp : Table V).size :=
    fun i => Nat.not_lt_zero i
  refine ⟨⟨counted_freshTable _ _ _ _, hlaws, ?_, ?_, ?_, ?_⟩, ?_,
    show maxLoadDefault < 128 by decide⟩
  · exact fun i hi => absurd hi (hsize i)
  · exact fun i hi => absurd hi (hsize i)
  · exact fun i hi => absurd hi (hsize i)
  · exact fun i hi => absurd hi (hsize i)
  · intro x _ v
    simp only [reduceCtorEq, Stores, false_iff]
    rintro ⟨i, hi, -⟩
    exact hsize i hi

theorem Refines.simStep {op : Op V} {s s' : Table V × (Nat → Option V)} (h : Refines keyOk s)
    (huse : UseOk keyOk s.1 op) (hclear : ∀ k, Looks s.1 op k → ¬ Shadowed s.1 k)
    (hstep : simStep s op = some s') :
    Refines keyOk s' ∧ SameSetup s.1 s'.1 ∧ (LocpOk s.1 → StoredOnce s.1 op → LocpOk s'.1) := by
  obtain ⟨ht', r, hrun, -, href, hset, hlocp⟩ := h.opRun huse hclear
  have hs' : s' = (ht', mapStep s.1 s.2 op) := by
    simpa [Ihash.simStep, opStep, hrun] using hstep.symm
  subst s'
  exact ⟨href, hset, hlocp⟩

theorem reach_simStep {ok : Table V × (Nat → Option V) → Op V → Prop}
    {init : Table V × (Nat → Option V)} {op : Op V} {ht' : Table V}
    (h : Reach simStep ok init (ht, m)) (hop : ok (ht, m) op) (hstep : opStep ht op = some ht') :
    Reach simStep ok init (ht', mapStep ht m op) :=
  .step op h hop (by simp [simStep, hstep])

section GeneralizedKeys

variable {hasLocp cleanup : Bool} {fctHash : Nat → Nat} {fctCmp : Nat → Nat → Bool}

/-- The functions of the generalized key interface: an equivalence on the pointers to keys, and a
hash that respects it. -/
structure GkiLaws (fctHash : Nat → Nat) (fctCmp : Nat → Nat → Bool) : Prop where
  refl : ∀ a, a ≠ 0 → fctCmp a a = true
  symm : ∀ a b, a ≠ 0 → b ≠ 0 → fctCmp a b = true → fctCmp b a = true
  trans : ∀ a b c, a ≠ 0 → b ≠ 0 → c ≠ 0 → fctCmp a b = true → fctCmp b c = true →
    fctCmp a c = true
  hash : ∀ a b, a ≠ 0 → b ≠ 0 → fctCmp a b = true → fctHash a = fctHash b

omit [DecidableEq V] in
theorem keyLaws_gki (h : GkiLaws fctHash fctCmp) :
    KeyLaws (· ≠ 0) (freshTable hasLocp cleanup (some fctHash) (some fctCmp) : Table V) := by
  have hcmp : ∀ a b, a ≠ 0 →
      compare (freshTable hasLocp cleanup (some fctHash) (some fctCmp) : Table V) a b =
        fctCmp a b := by
    intro a b ha
    simp [compare, freshTable, ha]
  constructor
  · intro a ha
    simpa [hcmp a a ha] using h.refl a ha
  · intro a b ha hb hab
    rw [hcmp a b ha] at hab
    simpa [hcmp b a hb] using h.symm a b ha hb hab
  · intro a b c ha hb hc hab hbc
    rw [hcmp a b ha] at hab
    rw [hcmp b c hb] at hbc
    simpa [hcmp a c ha] using h.trans a b c ha hb hc hab hbc
  · intro a b ha hb hab
    rw [hcmp a b ha] at hab
    exact h.hash a b ha hb hab

omit [DecidableEq V] in
theorem not_shadowed_gki (h : Sound keyOk ht) (hcmp : ht.fctCmp = some fctCmp) (k : Nat) :
    ¬ Shadowed ht k := by
  rintro ⟨-, -, -, -, x, hx, hgrave, hkey, -⟩
  rw [h.graves x hx hgrave] at hkey
  simp [compare, hcmp] at hkey

theorem refines_of_reach_gki (hlaws : GkiLaws fctHash fctCmp)
    {ok : Table V × (Nat → Option V) → Op V → Prop} (hok : ∀ s op, ok s op → UseOk (· ≠ 0) s.1 op)
    {s : Table V × (Nat → Option V)}
    (h : Reach simStep ok
      (freshTable hasLocp cleanup (some fctHash) (some fctCmp), fun _ => none) s) :
    Refines (· ≠ 0) s ∧ s.1.fctCmp = some fctCmp ∧ s.1.hasLocp = hasLocp ∧
      ((∀ s op, ok s op → StoredOnce s.1 op) → LocpOk s.1) := by
  refine h.invariant (fun s => Refines (· ≠ 0) s ∧ s.1.fctCmp = some fctCmp ∧
    s.1.hasLocp = hasLocp ∧ ((∀ s op, ok s op → StoredOnce s.1 op) → LocpOk s.1))
    ⟨refines_freshTable (keyLaws_gki hlaws), rfl, rfl, ?_⟩ ?_
  · intro _ _ i hi
    exact absurd hi (Nat.not_lt_zero i)
  · intro s op s' ⟨href, hcmp, hhas, hlocp⟩ hop hstep
    obtain ⟨href', hset, hlocp'⟩ := href.simStep (hok s op hop)
      (fun k _ => not_shadowed_gki href.sound hcmp k) hstep
    exact ⟨href', hset.fctCmp.trans hcmp, hset.hasLocp.trans hhas,
      fun honce => hlocp' (hlocp honce) (honce s op hop)⟩

/-- With generalized keys every call returns what the finite map says, in every run; and when a
value is stored under one key at a time, its location pointer designates its slot. -/
theorem ihash_gki_finite_map (cleanup : Bool) (hlaws : GkiLaws fctHash fctCmp) :
    (∀ (hasLocp : Bool) (ht : Table V) (m : Nat → Option V),
      Reach simStep (fun s op => UseOk (· ≠ 0) s.1 op)
        (freshTable hasLocp cleanup (some fctHash) (some fctCmp), fun _ => none) (ht, m) →
      ∀ op, UseOk (· ≠ 0) ht op → ∃ ht' r, opRun ht op = some (ht', r) ∧ ResultOk m op r) ∧
    ∀ (ht : Table V) (m : Nat → Option V),
      Reach simStep (fun s op => UseOk (· ≠ 0) s.1 op ∧ StoredOnce s.1 op)
        (freshTable true cleanup (some fctHash) (some fctCmp), fun _ => none) (ht, m) →
      ∀ i < ht.size, ∀ v, (ht.items i).value = .live v →
        ht.locp v = some { array := ht.array, index := i } := by
  constructor
  · intro hasLocp ht m h op huse
    obtain ⟨href, hcmp, -, -⟩ := refines_of_reach_gki hlaws (fun _ _ h => h) h
    obtain ⟨ht', r, hrun, hres, -⟩ := href.opRun huse
      fun k _ => not_shadowed_gki href.sound hcmp k
    exact ⟨ht', r, hrun, hres⟩
  · intro ht m h
    obtain ⟨-, -, hhas, hlocp⟩ := refines_of_reach_gki hlaws (fun _ _ h => h.1) h
    exact hlocp (fun _ _ h => h.2) hhas

theorem gkiLaws_mod : GkiLaws (fun k => k % 10) fun a b => a % 10 == b % 10 where
  refl := by simp
  symm a b _ _ hab := by
    simp only [beq_iff_eq] at hab ⊢
    exact hab.symm
  trans a b c _ _ _ hab hbc := by
    simp only [beq_iff_eq] at hab hbc ⊢
    exact hab.trans hbc
  hash a b _ _ hab := by simpa using hab

/-- A table for such keys. -/
def modTable : Table Nat :=
  freshTable true false (some fun k => k % 10) (some fun a b => a % 10 == b % 10)

theorem ihash_gki_finite_map_mod :
    ∃ (ht : Table Nat) (m : Nat → Option Nat),
      opStep modTable (.add 13 100) = some ht ∧ m 23 = some 100 ∧
      (∃ ht' r, opRun ht (.find 23) = some (ht', r) ∧ ResultOk m (.find 23) r) ∧
      ∀ i < ht.size, ∀ v, (ht.items i).value = .live v →
        ht.locp v = some { array := ht.array, index := i } := by
  have hmap : _ ∧ ∀ (ht : Table Nat) (m : Nat → Option Nat), _ :=
    ihash_gki_finite_map false gkiLaws_mod
  have hkey : UseOk (· ≠ 0) modTable (.add 13 100) := show (13 : Nat) ≠ 0 by decide
  obtain ⟨ht, r, hrun, -⟩ := hmap.1 true modTable _ .start (.add 13 100) hkey
  have hstep : opStep modTable (.add 13 100) = some ht := by
    simp [opStep, hrun]
  refine ⟨ht, mapStep modTable (fun _ => none) (.add 13 100), hstep, rfl, ?_, ?_⟩
  · exact hmap.1 true ht _ (reach_simStep .start hkey hstep) (.find 23)
      (show (23 : Nat) ≠ 0 by decide)
  · refine hmap.2 ht _ (reach_simStep .start ⟨hkey, ?_⟩ hstep)
    exact fun i hi => absurd hi (Nat.not_lt_zero i)

/-- `HURD_IHASH_ITERATE_ITEMS`: the keys and values that the block is run for. `HURD_IHASH_ITERATE`
runs it for the values. -/
def hurdIhashIterateItems (ht : Table V) : List (Nat × V) :=
  (List.range ht.size).filterMap fun i => (ht.items i).value.get?.map fun v => ((ht.items i).key, v)

omit [DecidableEq V] in
theorem itemAt_eq_some {s : Item V} {k : Nat} {v : V} :
    s.value.get?.map (fun v => (s.key, v)) = some (k, v) ↔ s.value = .live v ∧ s.key = k := by
  cases hs : s.value <;> simp [Slot.get?, and_comm]

omit [DecidableEq V] in
theorem mem_iterateItems {ht : Table V} {k : Nat} {v : V} :
    (k, v) ∈ hurdIhashIterateItems ht ↔
      ∃ i < ht.size, (ht.items i).value = .live v ∧ (ht.items i).key = k := by
  rw [hurdIhashIterateItems, List.mem_filterMap]
  simp only [List.mem_range, itemAt_eq_some]

/-- An iteration over a table in a run comes to each key of the finite map once, with its value. -/
theorem ihash_iterates_map (hasLocp cleanup : Bool) (hlaws : GkiLaws fctHash fctCmp)
    {ht : Table V} {m : Nat → Option V}
    (h : Reach simStep (fun s op => UseOk (· ≠ 0) s.1 op)
      (freshTable hasLocp cleanup (some fctHash) (some fctCmp), fun _ => none) (ht, m)) :
    (hurdIhashIterateItems ht).Pairwise (fun x y => fctCmp x.1 y.1 = false) ∧
      (∀ k v, (k, v) ∈ hurdIhashIterateItems ht → m k = some v) ∧
      ∀ k ≠ 0, ∀ v, m k = some v → ∃ k', (k', v) ∈ hurdIhashIterateItems ht ∧ fctCmp k' k = true := by
  obtain ⟨href, hcmp, -, -⟩ := refines_of_reach_gki hlaws (fun _ _ h => h) h
  have hsound := href.sound
  have hcompare : ∀ a b, a ≠ 0 → compare ht a b = fctCmp a b := by
    intro a b ha
    have hfct : ht.fctCmp = some fctCmp := hcmp
    simp [compare, hfct, ha]
  have hkey : ∀ i < ht.size, ∀ v, (ht.items i).value = .live v → (ht.items i).key ≠ 0 :=
    fun i hi v hv => hsound.keys i hi (by rw [hv]; rfl)
  refine ⟨?_, ?_, ?_⟩
  · apply List.pairwise_filterMap.mpr
    apply List.Pairwise.imp_of_mem _ List.pairwise_lt_range
    intro i j hi hj hlt x hx y hy
    obtain ⟨hv, hk⟩ := itemAt_eq_some.mp hx
    obtain ⟨hv', hk'⟩ := itemAt_eq_some.mp hy
    have hne := hkey i (List.mem_range.mp hi) x.2 hv
    rw [← hk, ← hk', ← hcompare _ _ hne, ← Bool.not_eq_true]
    intro heq
    have hsame := hsound.unique i (List.mem_range.mp hi) j (List.mem_range.mp hj) (by rw [hv]; rfl)
      (by rw [hv']; rfl) heq
    omega
  · intro k v hkv
    obtain ⟨i, hi, hv, rfl⟩ := mem_iterateItems.mp hkv
    have hk := hkey i hi v hv
    exact (href.represents _ hk v).mpr ⟨i, hi, hv, hsound.laws.refl _ hk⟩
  · intro k hk v hkv
    obtain ⟨i, hi, hv, heq⟩ := (href.represents k hk v).mp hkv
    refine ⟨_, mem_iterateItems.mpr ⟨i, hi, hv, rfl⟩, ?_⟩
    rwa [hcompare _ _ (hkey i hi v hv)] at heq

theorem ihash_iterates_map_mod : ∃ (ht : Table Nat) (k' : Nat),
    opStep modTable (.add 13 100) = some ht ∧ (k', 100) ∈ hurdIhashIterateItems ht ∧
      (k' % 10 == 23 % 10) = true := by
  have hkey : UseOk (· ≠ 0) modTable (.add 13 100) := show (13 : Nat) ≠ 0 by decide
  have hstart : Reach simStep (fun s op => UseOk (· ≠ 0) s.1 op)
      (modTable, fun _ => none) (modTable, fun _ => none) := .start
  obtain ⟨href, hcmp, -, -⟩ := refines_of_reach_gki gkiLaws_mod (fun _ _ h => h) hstart
  obtain ⟨ht, r, hrun, -⟩ := href.opRun hkey fun k _ => not_shadowed_gki href.sound hcmp k
  have hstep : opStep modTable (.add 13 100) = some ht := by
    simp [opStep, hrun]
  obtain ⟨-, -, hmem⟩ :=
    ihash_iterates_map true false gkiLaws_mod (reach_simStep hstart hkey hstep)
  obtain ⟨k', hk', heq⟩ := hmem 23 (by decide) 100 rfl
  exact ⟨ht, k', hstep, hk', heq⟩

end GeneralizedKeys

section IntegerKeys

variable {hasLocp cleanup : Bool}

omit [DecidableEq V] in
theorem keyLaws_int :
    KeyLaws (fun _ => True) (freshTable hasLocp cleanup none none : Table V) := by
  have hcmp : ∀ a b, compare (freshTable hasLocp cleanup none none : Table V) a b = (a == b) :=
    fun _ _ => rfl
  constructor
  · simp [hcmp]
  · simp only [hcmp, beq_iff_eq]
    exact fun a b _ _ hab => hab.symm
  · simp only [hcmp, beq_iff_eq]
    exact fun a b c _ _ _ hab hbc => hab.trans hbc
  · simp only [hcmp, beq_iff_eq]
    rintro a b - - rfl
    rfl

/-- Key 0 is stored in a slot with a tombstone before it. -/
def ZeroShadowed (ht : Table V) : Prop :=
  ∃ i < ht.size, (ht.items i).value.valid = true ∧ (ht.items i).key = 0 ∧
    ∃ x < i, (ht.items x).value.isDeleted = true

omit [DecidableEq V] in
theorem Sound.zeroShadowed (h : Sound keyOk ht) (hhash : ht.fctHash = none)
    (hcmp : ht.fctCmp = none) {k : Nat} (hs : Shadowed ht k) : k = 0 ∧ ZeroShadowed ht := by
  obtain ⟨i, hi, hv, hkey, x, hx, hgrave, hkey', j, hj, hji, m, hm, hmx⟩ := hs
  simp only [compare, hcmp, beq_iff_eq] at hkey hkey'
  have hzero : k = 0 := by rw [← hkey', h.graves x hx hgrave]
  subst hzero
  have hhome : home ht 0 = 0 := by simp [home, hash, hhash]
  simp only [hhome, probe, Nat.zero_add] at hji hmx
  rw [Nat.mod_eq_of_lt hj] at hji
  rw [Nat.mod_eq_of_lt (by omega)] at hmx
  exact ⟨rfl, i, hi, hv, hkey, x, by omega, hgrave⟩

/-- With integer keys every call returns what the finite map says in every run in which key 0 is
not searched for while it is stored behind a tombstone. -/
theorem ihash_int_finite_map (hasLocp cleanup : Bool) {ht : Table V} {m : Nat → Option V}
    (h : Reach simStep (fun s op => UseOk (fun _ => True) s.1 op ∧
        (Looks s.1 op 0 → ¬ ZeroShadowed s.1))
      (freshTable hasLocp cleanup none none, fun _ => none) (ht, m)) :
    (∀ op, UseOk (fun _ => True) ht op → (Looks ht op 0 → ¬ ZeroShadowed ht) →
      ∃ ht' r, opRun ht op = some (ht', r) ∧ ResultOk m op r) ∧
    (∀ k v, m k = some v ↔ ∃ i < ht.size, ht.items i = { value := .live v, key := k }) ∧
    ∀ i < ht.size, ∀ j < ht.size, (ht.items i).value.valid = true →
      (ht.items j).value.valid = true → (ht.items i).key = (ht.items j).key → i = j := by
  have hclear : ∀ (ht : Table V) (m : Nat → Option V) (op : Op V),
      Refines (fun _ => True) (ht, m) → ht.fctHash = none → ht.fctCmp = none →
      (Looks ht op 0 → ¬ ZeroShadowed ht) → ∀ k, Looks ht op k → ¬ Shadowed ht k := by
    intro ht m op href hhash hcmp hzero k hlook hs
    obtain ⟨rfl, hz⟩ := href.sound.zeroShadowed hhash hcmp hs
    exact hzero hlook hz
  obtain ⟨href, hhash, hcmp⟩ : Refines (fun _ => True) (ht, m) ∧ ht.fctHash = none ∧
      ht.fctCmp = none := by
    refine h.invariant (fun s => Refines (fun _ => True) s ∧ s.1.fctHash = none ∧
      s.1.fctCmp = none) ⟨refines_freshTable keyLaws_int, rfl, rfl⟩ ?_
    intro s op s' ⟨href, hhash, hcmp⟩ hop hstep
    obtain ⟨href', hset, -⟩ := href.simStep hop.1 (hclear s.1 s.2 op href hhash hcmp hop.2) hstep
    exact ⟨href', hset.fctHash.trans hhash, hset.fctCmp.trans hcmp⟩
  refine ⟨?_, ?_, ?_⟩
  · intro op huse hzero
    obtain ⟨ht', r, hrun, hres, -⟩ := href.opRun huse (hclear ht m op href hhash hcmp hzero)
    exact ⟨ht', r, hrun, hres⟩
  · intro k v
    rw [href.represents k trivial v]
    simp only [Stores, compare, hcmp, beq_iff_eq]
    refine exists_congr fun i => and_congr_right fun _ => ?_
    constructor
    · rintro ⟨hv, rfl⟩
      rw [← hv]
    · intro hitem
      simp [hitem]
  · intro i hi j hj hvi hvj hkey
    refine href.sound.unique i hi j hj hvi hvj ?_
    simp [compare, hcmp, hkey]

/-- The table after `add (32, 100)`, whose home slot is that of key 0. -/
def crowded : Table Nat :=
  { (freshTable false false none none : Table Nat) with
    nrItems := 1
    nrFree := 31
    size := 32
    array := 1
    items := update (fun _ => { value := .empty, key := 0 }) 0
      { value := .live 100, key := 32 } }

/-- The table after `add (0, 200)` as well. -/
def crowdedZero : Table Nat :=
  { crowded with
    nrItems := 2
    nrFree := 30
    items := update crowded.items 1 { value := .live 200, key := 0 } }

/-- The table after `remove (32)`, which leaves a tombstone before key 0. -/
def hiddenZero : Table Nat :=
  { crowdedZero with
    nrItems := 1
    items := update crowdedZero.items 0 { value := .deleted, key := 0 } }

theorem crowdedZero_reach (ok : Table Nat × (Nat → Option Nat) → Op Nat → Prop)
    (hfirst : ok (freshTable false false none none, fun _ => none) (.add 32 100))
    (hsecond : ∀ m, ok (crowded, m) (.add 0 200)) :
    ∃ m, Reach simStep ok (freshTable false false none none, fun _ => none) (crowdedZero, m) ∧
      m 0 = some 200 :=
  ⟨_, reach_simStep (reach_simStep .start hfirst rfl) (hsecond _) rfl, rfl⟩

theorem ihash_int_finite_map_crowded :
    ∃ m : Nat → Option Nat, m 0 = some 200 ∧
      ((∀ op, UseOk (fun _ => True) crowdedZero op →
        (Looks crowdedZero op 0 → ¬ ZeroShadowed crowdedZero) →
        ∃ ht' r, opRun crowdedZero op = some (ht', r) ∧ ResultOk m op r) ∧
      (∀ k v, m k = some v ↔
        ∃ i < crowdedZero.size, crowdedZero.items i = { value := .live v, key := k }) ∧
      ∀ i < crowdedZero.size, ∀ j < crowdedZero.size,
        (crowdedZero.items i).value.valid = true → (crowdedZero.items j).value.valid = true →
        (crowdedZero.items i).key = (crowdedZero.items j).key → i = j) := by
  have hfresh : ¬ ZeroShadowed (freshTable false false none none : Table Nat) := by
    rintro ⟨i, hi, -⟩
    exact absurd hi (Nat.not_lt_zero i)
  have hcrowded : ¬ ZeroShadowed crowded := by
    rintro ⟨i, -, -, -, x, -, hgrave⟩
    by_cases hx : x = 0
    · simp [hx, crowded, Slot.isDeleted] at hgrave
    · simp [hx, crowded, Slot.isDeleted] at hgrave
  obtain ⟨m, hreach, hm⟩ := crowdedZero_reach (fun s op => UseOk (fun _ => True) s.1 op ∧
    (Looks s.1 op 0 → ¬ ZeroShadowed s.1)) ⟨trivial, fun _ => hfresh⟩
    fun _ => ⟨trivial, fun _ => hcrowded⟩
  exact ⟨m, hm, ihash_int_finite_map false false hreach⟩

/-- After key 32 is removed, key 0 is not found any more, and adding it again stores it twice. -/
theorem ihash_int_hides_zero :
    ∃ m : Nat → Option Nat,
      Reach simStep (fun s op => UseOk (fun _ => True) s.1 op)
        (freshTable false false none none, fun _ => none) (hiddenZero, m) ∧
      m 0 = some 200 ∧ opRun hiddenZero (.find 0) = some (hiddenZero, .value none) ∧
      ∃ ht, opStep hiddenZero (.add 0 300) = some ht ∧
        ht.items 0 = { value := .live 300, key := 0 } ∧
        ht.items 1 = { value := .live 200, key := 0 } := by
  obtain ⟨m, hreach, hm⟩ := crowdedZero_reach
    (fun s op => UseOk (fun _ => True) s.1 op) trivial fun _ => trivial
  refine ⟨_, reach_simStep hreach (show UseOk _ crowdedZero (.remove 32) from trivial)
    (show opStep crowdedZero (.remove 32) = some hiddenZero from rfl), ?_, rfl, _, rfl, rfl, rfl⟩
  exact hm

end IntegerKeys

end Runs

end Hurd.Ihash
