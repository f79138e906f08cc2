import Hurd.Libihash.FiniteMap

/-!
# Adding to a hash table when memory runs out

`hurd_ihash_add` needs an array when there is none or when the load exceeds the maximum.
-/

namespace Hurd.Ihash

open Option

section Usable

variable {V : Type*} {ht : Table V} {key : Nat}

/-- The slot that is found for a key can take it: it is free or has an equal key. -/
def Usable (ht : Table V) (key : Nat) : Prop :=
  (ht.items (findIndex ht key)).value.valid = false ∨
    compare ht (ht.items (findIndex ht key)).key key = true

/-- No slot is `EMPTY` or `DELETED`, and none has a key equal to `key`. -/
def Crowded (ht : Table V) (key : Nat) : Prop :=
  ∀ i < ht.size, (ht.items i).value.valid = true ∧ compare ht (ht.items i).key key = false

theorem crowded_of_not_usable (hpow : PowSize ht.size) (h : ¬ Usable ht key) :
    Crowded ht key := by
  have hfull : ∀ i < ht.size, (ht.items i).value.valid = true := by
    intro i hi
    by_contra hfree
    exact h (findIndex_usable hpow ⟨i, hi, by simpa using hfree⟩)
  intro i hi
  refine ⟨hfull i hi, ?_⟩
  by_contra hkey
  exact h (.inr (findIndex_full hpow hfull hi (by simpa using hkey)))

theorem Usable.stops (h : Usable ht key) :
    (ht.items (findIndex ht key)).value.isEmpty = true ∨
      (ht.items (findIndex ht key)).value.isDeleted = true ∨
        compare ht (ht.items (findIndex ht key)).key key = true := by
  rcases h with hfree | hkey
  · rcases isEmpty_or (ht.items (findIndex ht key)).value with he | hd | hv
    · exact .inl he
    · exact .inr (.inl hd)
    · simp [hfree] at hv
  · exact .inr (.inr hkey)

variable [DecidableEq V] {value : V}

theorem findIndex_put (hpow : PowSize ht.size) (huse : Usable ht key)
    (hrefl : compare ht key key = true) :
    findIndex (put key value (findIndex ht key) ht) key = findIndex ht key := by
  have hend : SearchEnds _ _ _ _ _ (findIndex (put key value (findIndex ht key) ht) key) :=
    findIndex_ends hpow
  have hother : ∀ i, i ≠ findIndex ht key →
      (put key value (findIndex ht key) ht).items i = ht.items i := by
    intro i hi
    simp [put, hi]
  have hself : (put key value (findIndex ht key) ht).items (findIndex ht key) =
      { value := .live value, key := key } := by
    simp [put]
  refine (findIndex_ends hpow).again (findIndex_lt hpow) (home_lt hpow key) huse.stops ?_ ?_ ?_ ?_
    hend
  · intro i hi
    rw [hother i hi]
  · intro i hi
    rw [hother i hi]
    rfl
  · rw [hself]
    rfl
  · rw [hself]
    exact hrefl

/-- The item is in a slot, to which its location pointer points, and is found there if its key
equals itself. -/
structure Entered (key : Nat) (value : V) (ht : Table V) : Prop where
  slot : ∃ i < ht.size, ht.items i = { value := .live value, key := key } ∧
    (ht.hasLocp = true → ht.locp value = some { array := ht.array, index := i })
  found : compare ht key key = true → hurdIhashFind key ht = some value

theorem entered_put (hpow : PowSize ht.size) (huse : Usable ht key) :
    Entered key value (put key value (findIndex ht key) ht) := by
  have hself : (put key value (findIndex ht key) ht).items (findIndex ht key) =
      { value := .live value, key := key } := by
    simp [put]
  refine ⟨⟨findIndex ht key, findIndex_lt hpow, hself, ?_⟩, ?_⟩
  · intro hlocp
    have hon : ht.hasLocp = true := hlocp
    simp [put, setLocp, hon]
  · intro hrefl
    have hkey : compare ht key key = true := hrefl
    have hsize : (put key value (findIndex ht key) ht).size ≠ 0 := by
      have hpos := hpow.pos
      have hsame : (put key value (findIndex ht key) ht).size = ht.size := rfl
      omega
    have hvalid : indexValid (put key value (findIndex ht key) ht) (findIndex ht key) key = true := by
      simp [indexValid, indexEmpty, hself, Slot.valid, hrefl]
    simp only [hurdIhashFind, if_neg hsize, findIndex_put hpow huse hkey, hvalid, if_true, hself]
    rfl

end Usable

section Rehash

variable {V : Type*} [DecidableEq V] {old ht ht' : Table V} {key : Nat} {value : V}

theorem addOne_usable (h : Counted ht) (hpow : PowSize ht.size) (huse : Usable ht key) :
    addOne key value ht = some (put key value (findIndex ht key) ht, true) := by
  exact (addOne_eq h hpow).trans (if_pos huse)

theorem addOne_not_usable (h : Counted ht) (hpow : PowSize ht.size) (huse : ¬ Usable ht key) :
    addOne key value ht = some (ht, false) := by
  exact (addOne_eq h hpow).trans (if_neg huse)

/-- What a round of the rehashing loop has done when it does not fail. -/
inductive RehashRound (old : Table V) (i : Nat) (ht : Table V) : Table V → Prop
  | free : (old.items i).value.valid = false → RehashRound old i ht ht
  | moved (v : V) : (old.items i).value = .live v → Usable ht (old.items i).key →
      RehashRound old i ht (put (old.items i).key v (findIndex ht (old.items i).key) ht)

theorem rehashOne_round {i : Nat} (h : Counted ht) (hpow : PowSize ht.size)
    (hrun : rehashOne old ht i = some ht') : RehashRound old i ht ht' := by
  cases hv : (old.items i).value with
  | empty =>
    have he : ht = ht' := by simpa [rehashOne, hv] using hrun
    exact he ▸ .free (by rw [hv]; rfl)
  | deleted =>
    have he : ht = ht' := by simpa [rehashOne, hv] using hrun
    exact he ▸ .free (by rw [hv]; rfl)
  | live v =>
    by_cases huse : Usable ht (old.items i).key
    · have hadd : addOne (old.items i).key v ht = _ := addOne_usable h hpow huse
      have he : put (old.items i).key v (findIndex ht (old.items i).key) ht = ht' := by
        simpa [rehashOne, hv, hadd] using hrun
      exact he ▸ .moved v hv huse
    · have hadd : addOne (old.items i).key v ht = _ := addOne_not_usable h hpow huse
      simp [rehashOne, hv, hadd] at hrun

theorem rehashLoop_inv (P : Nat → Table V → Prop) (h : Counted ht) (hpow : PowSize ht.size)
    (hinit : P 0 ht)
    (hround : ∀ i < old.size, ∀ ht₁ ht₂, Counted ht₁ → Kept ht ht₁ → P i ht₁ →
      RehashRound old i ht₁ ht₂ → P (i + 1) ht₂)
    (hrun : (List.range old.size).foldlM (rehashOne old) ht = some ht') :
    Counted ht' ∧ Kept ht ht' ∧ P old.size ht' := by
  refine foldlM_range_inv (fun i ht₁ => Counted ht₁ ∧ Kept ht ht₁ ∧ P i ht₁)
    ⟨h, .refl ht, hinit⟩ ?_ hrun
  intro i hi ht₁ ht₂ ⟨hcount, hkept, hp⟩ hone
  have hpow₁ : PowSize ht₁.size := hkept.size ▸ hpow
  have hdone : RehashRound old i ht₁ ht₂ := rehashOne_round hcount hpow₁ hone
  refine ⟨?_, ?_, hround i hi ht₁ ht₂ hcount hkept hp hdone⟩
  · cases hdone with
    | free _ => exact hcount
    | moved v _ _ => exact counted_put hcount (findIndex_lt hpow₁)
  · cases hdone with
    | free _ => exact hkept
    | moved v _ _ => exact hkept.trans (kept_put _ _ _ _)

theorem rehash_inv (P : Nat → Table V → Prop) (h : Counted ht) (hpow : PowSize ht.size)
    (hinit : P 0 ht)
    (hround : ∀ i < old.size, ∀ ht₁ ht₂, Counted ht₁ → Kept ht ht₁ → P i ht₁ →
      RehashRound old i ht₁ ht₂ → P (i + 1) ht₂)
    (hrun : rehash key value old ht = some ht') :
    ∃ ht₁, Counted ht₁ ∧ Kept ht ht₁ ∧ P old.size ht₁ ∧ Usable ht₁ key ∧
      ht' = put key value (findIndex ht₁ key) ht₁ := by
  obtain ⟨ht₁, hloop, hlast⟩ := bind_eq_some_iff.mp hrun
  obtain ⟨hcount, hkept, hp⟩ := rehashLoop_inv P h hpow hinit hround hloop
  have hpow₁ : PowSize ht₁.size := hkept.size ▸ hpow
  by_cases huse : Usable ht₁ key
  · have hadd : addOne key value ht₁ = _ := addOne_usable hcount hpow₁ huse
    simp only [hadd, Option.some.injEq] at hlast
    exact ⟨ht₁, hcount, hkept, hp, huse, hlast.symm⟩
  · have hadd : addOne key value ht₁ = _ := addOne_not_usable hcount hpow₁ huse
    simp [hadd] at hlast

end Rehash

section Add

variable {V : Type*} [DecidableEq V] {ht ht' : Table V} {key : Nat} {value : V}
variable {calloc : Nat → Bool}

/-- The ways `hurd_ihash_add` can go. -/
inductive AddRun (calloc : Nat → Bool) (key : Nat) (value : V) (ht : Table V) :
    Option (Table V × Errno) → Prop
  | inUse : ht.size ≠ 0 → Usable ht key →
      AddRun calloc key value ht (some (put key value (findIndex ht key) ht, .success))
  | noMemory : calloc 0 = false → ht.size = 0 ∨ (calloc 1 = false ∧ Crowded ht key) →
      AddRun calloc key value ht (some (ht, .enomem))
  | reorganized : calloc 0 = true ∨ calloc 1 = true →
      ¬ (ht.size ≠ 0 ∧ hurdIhashGetEffectiveLoad ht ≤ ht.maxLoad) ∨ ¬ Usable ht key →
      AddRun calloc key value ht
        ((rehash key value ht (newArray ht ht)).map fun ht => (ht, .success))

theorem addRun_rehash (h : Counted ht)
    (hwhy : ¬ (ht.size ≠ 0 ∧ hurdIhashGetEffectiveLoad ht ≤ ht.maxLoad) ∨ ¬ Usable ht key) :
    AddRun calloc key value ht (hurdIhashAdd calloc key value ht) := by
  have hfirst : (if ht.size ≠ 0 ∧ hurdIhashGetEffectiveLoad ht ≤ ht.maxLoad then
      addOne key value ht else some (ht, false)) = some (ht, false) := by
    by_cases hload : ht.size ≠ 0 ∧ hurdIhashGetEffectiveLoad ht ≤ ht.maxLoad
    · rw [if_pos hload]
      exact addOne_not_usable h (h.pow hload.1) (hwhy.resolve_left (not_not.mpr hload))
    · rw [if_neg hload]
  simp only [hurdIhashAdd, hfirst, bind_some]
  cases hmem : calloc 0 with
  | true =>
    rw [if_pos rfl]
    exact .reorganized (.inl hmem) hwhy
  | false =>
    rw [if_neg Bool.false_ne_true]
    by_cases hsize : ht.size = 0
    · rw [if_pos hsize]
      exact .noMemory hmem (.inl hsize)
    · have hpow := h.pow hsize
      rw [if_neg hsize]
      by_cases huse : Usable ht key
      · have hadd : addOne key value ht = _ := addOne_usable h hpow huse
        rw [hadd, bind_some]
        exact .inUse hsize huse
      · have hadd : addOne key value ht = _ := addOne_not_usable h hpow huse
        rw [hadd, bind_some]
        -- The second time around `fatal` is set.
        cases hagain : calloc 1 with
        | true =>
          simp only [if_true]
          exact .reorganized (.inr hagain) hwhy
        | false =>
          simp only [Bool.false_eq_true, if_false]
          exact .noMemory hmem (.inr ⟨hagain, crowded_of_not_usable hpow huse⟩)

theorem hurdIhashAdd_run (h : Counted ht) :
    AddRun calloc key value ht (hurdIhashAdd calloc key value ht) := by
  by_cases hkeep : (ht.size ≠ 0 ∧ hurdIhashGetEffectiveLoad ht ≤ ht.maxLoad) ∧ Usable ht key
  · obtain ⟨hload, huse⟩ := hkeep
    have hadd : addOne key value ht = _ := addOne_usable h (h.pow hload.1) huse
    simp only [hurdIhashAdd, if_pos hload, hadd, bind_some]
    exact .inUse hload.1 huse
  · exact addRun_rehash h (not_and_or.mp hkeep)

theorem AddRun.counted {e : Errno} (h : Counted ht)
    (hrun : AddRun calloc key value ht (some (ht', e))) : Counted ht' := by
  generalize hres : some (ht', e) = res at hrun
  cases hrun with
  | inUse hsize _ =>
    cases hres
    exact counted_put h (findIndex_lt (h.pow hsize))
  | noMemory _ _ =>
    cases hres
    exact h
  | reorganized _ _ =>
    obtain ⟨ht₁, hrehash, he⟩ := map_eq_some_iff.mp hres.symm
    cases he
    obtain ⟨hnew, hpow⟩ := counted_newArray ht h
    obtain ⟨ht₂, hcount, hkept, -, -, rfl⟩ :=
      rehash_inv (fun _ _ => True) hnew hpow trivial (fun _ _ _ _ _ _ _ _ => trivial) hrehash
    exact counted_put hcount (findIndex_lt (hkept.size ▸ hpow))

end Add

section Calls

variable {V : Type*} [DecidableEq V]

/-- A call, with what `calloc` answers to the allocations it makes. -/
def callRun (calloc : Nat → Bool) (ht : Table V) : Op V → Option (Table V × Result V)
  | .add key value => (hurdIhashAdd calloc key value ht).map fun p => (p.1, .err p.2)
  | .locpAdd locp key value =>
      (hurdIhashLocpAdd calloc locp key value ht).map fun p => (p.1, .err p.2)
  | .remove key => opRun ht (.remove key)
  | .locpRemove locp => opRun ht (.locpRemove locp)
  | .find key => opRun ht (.find key)
  | .locpFind key => opRun ht (.locpFind key)
  | .setMaxLoad maxLoad => opRun ht (.setMaxLoad maxLoad)

def callStep (ht : Table V) (c : (Nat → Bool) × Op V) : Option (Table V) :=
  (callRun c.1 ht c.2).map Prod.fst

theorem callRun_allocated (ht : Table V) (op : Op V) : callRun (fun _ => true) ht op = opRun ht op := by
  cases op <;> rfl

variable {ht ht' : Table V} {calloc : Nat → Bool}

/-- The ways `hurd_ihash_locp_add` can go. -/
inductive LocpAddRun (calloc : Nat → Bool) (locp : Option Locp) (key : Nat) (value : V)
    (ht : Table V) : Option (Table V × Errno) → Prop
  | left : LocpAddRun calloc locp key value ht (hurdIhashAdd calloc key value ht)
  | invalid : LocpAddRun calloc locp key value ht none
  | filled (l : Locp) : l.index < ht.size → (ht.items l.index).value.valid = false →
      LocpAddRun calloc locp key value ht (some (put key value l.index ht, .success))
  | overridden (l : Locp) : locp = some l → l.array = ht.array → l.index < ht.size →
      hurdIhashGetEffectiveLoad ht ≤ ht.maxLoad → (ht.items l.index).value.valid = true →
      compare ht (ht.items l.index).key key = true →
      LocpAddRun calloc locp key value ht (some (override l value ht, .success))

theorem hurdIhashLocpAdd_run (h : Counted ht) (locp : Option Locp) (key : Nat) (value : V) :
    LocpAddRun calloc locp key value ht (hurdIhashLocpAdd calloc locp key value ht) := by
  cases locp with
  | none => exact .left
  | some l =>
    simp only [hurdIhashLocpAdd]
    by_cases hsize : ht.size = 0
    · rw [if_pos hsize]
      exact .left
    · rw [if_neg hsize]
      by_cases hin : l.array = ht.array ∧ l.index < ht.size
      · rw [if_neg (not_not.mpr hin)]
        by_cases hhard : ((ht.items l.index).value.valid &&
            !compare ht (ht.items l.index).key key) = true ∨
            hurdIhashGetEffectiveLoad ht > ht.maxLoad
        · rw [if_pos (by simpa using hhard)]
          exact .left
        · rw [if_neg (by simpa using hhard)]
          obtain ⟨hkey, hload⟩ := not_or.mp hhard
          cases hvalid : (ht.items l.index).value.valid with
          | false =>
            simp only [Bool.not_false, if_true, fillSlot_eq h hin.2 hvalid]
            exact .filled l hin.2 hvalid
          | true =>
            have heq : compare ht (ht.items l.index).key key = true := by
              simpa [hvalid] using hkey
            simp only [Bool.not_true, Bool.false_eq_true, if_false]
            exact .overridden l rfl hin.1 hin.2 (Nat.le_of_not_lt hload) hvalid heq
      · rw [if_pos hin]
        exact .invalid

/-- The call is to store `value` under `key`. -/
def Op.Stores (op : Op V) (key : Nat) (value : V) : Prop :=
  op = .add key value ∨ ∃ locp, op = .locpAdd locp key value

/-- The call is `hurd_ihash_locp_add` with the slot of an item that has an equal key, in a table
that need not be enlarged. -/
def Op.Overrides (op : Op V) (ht : Table V) : Prop :=
  ∃ l key value, op = .locpAdd (some l) key value ∧ l.array = ht.array ∧ l.index < ht.size ∧
    hurdIhashGetEffectiveLoad ht ≤ ht.maxLoad ∧ (ht.items l.index).value.valid = true ∧
    compare ht (ht.items l.index).key key = true

/-- What a call that returns has done. -/
inductive CallRound (calloc : Nat → Bool) (ht : Table V) (op : Op V) : Table V × Result V → Prop
  | added {key : Nat} {value : V} {ht' : Table V} {e : Errno} : op.Stores key value →
      AddRun calloc key value ht (some (ht', e)) → CallRound calloc ht op (ht', .err e)
  | filled {key idx : Nat} {value : V} : op.Stores key value → idx < ht.size →
      (ht.items idx).value.valid = false →
      CallRound calloc ht op (put key value idx ht, .err .success)
  | overridden {l : Locp} {key : Nat} {value : V} : op.Overrides ht → op.Stores key value →
      l.index < ht.size → (ht.items l.index).value.valid = true →
      CallRound calloc ht op (override l value ht, .err .success)
  | removed {idx : Nat} {v : V} {r : Result V} : (∀ key value, ¬ op.Stores key value) →
      idx < ht.size → (ht.items idx).value = .live v → CallRound calloc ht op (bury idx v ht, r)
  | same {r : Result V} : (∀ key value, ¬ op.Stores key value) → CallRound calloc ht op (ht, r)
  | setMaxLoad (maxLoad : Nat) : op = .setMaxLoad maxLoad →
      CallRound calloc ht op (hurdIhashSetMaxLoad maxLoad ht, .none)

omit [DecidableEq V] in
theorem locpRemove_some {idx : Nat} (h : locpRemove idx ht = some ht') :
    ∃ v, (ht.items idx).value = .live v ∧ ht' = bury idx v ht := by
  cases hv : (ht.items idx).value with
  | live v =>
    rw [locpRemove_eq hv] at h
    exact ⟨v, rfl, (Option.some.inj h).symm⟩
  | empty => simp [locpRemove, hv] at h
  | deleted => simp [locpRemove, hv] at h

theorem callRound_remove (h : Counted ht) {key : Nat} {b : Bool}
    (hrun : hurdIhashRemove key ht = some (ht', b)) :
    CallRound calloc ht (.remove key) (ht', .flag b) := by
  have hno : ∀ k v, ¬ (Op.remove key : Op V).Stores k v := by simp [Op.Stores]
  by_cases hsize : ht.size = 0
  · have he : ht = ht' ∧ false = b := by simpa [hurdIhashRemove, hsize] using hrun
    exact he.1 ▸ .same hno
  · cases hvalid : indexValid ht (findIndex ht key) key with
    | false =>
      have he : ht = ht' ∧ false = b := by simpa [hurdIhashRemove, hsize, hvalid] using hrun
      exact he.1 ▸ .same hno
    | true =>
      simp only [hurdIhashRemove, if_neg hsize, hvalid, if_true] at hrun
      obtain ⟨ht₁, hrem, he⟩ := map_eq_some_iff.mp hrun
      cases he
      obtain ⟨v, hv, rfl⟩ := locpRemove_some hrem
      exact .removed hno (findIndex_lt (h.pow hsize)) hv

theorem callRound_locpAdd (h : Counted ht) {locp : Option Locp} {key : Nat} {value : V} {e : Errno}
    (hrun : hurdIhashLocpAdd calloc locp key value ht = some (ht', e)) :
    CallRound calloc ht (.locpAdd locp key value) (ht', .err e) := by
  have hstores : (Op.locpAdd locp key value).Stores key value := .inr ⟨locp, rfl⟩
  have hway : LocpAddRun calloc locp key value ht _ := hurdIhashLocpAdd_run h locp key value
  rw [hrun] at hway
  generalize hres : some (ht', e) = res at hway
  cases hway with
  | left =>
    have hadd : AddRun calloc key value ht _ := hurdIhashAdd_run h
    rw [← hres] at hadd
    exact .added hstores hadd
  | invalid => cases hres
  | filled l hlt hfree =>
    cases hres
    exact .filled hstores hlt hfree
  | overridden l hl harray hlt hload hvalid hkey =>
    cases hres
    exact .overridden ⟨l, key, value, by rw [hl], harray, hlt, hload, hvalid, hkey⟩ hstores hlt
      hvalid

theorem callRun_round (h : Counted ht) {op : Op V} {p : Table V × Result V}
    (hrun : callRun calloc ht op = some p) : CallRound calloc ht op p := by
  cases op with
  | add key value =>
    obtain ⟨⟨ht', e⟩, hadd, rfl⟩ := map_eq_some_iff.mp hrun
    have hway : AddRun calloc key value ht _ := hurdIhashAdd_run h
    rw [hadd] at hway
    exact .added (.inl rfl) hway
  | locpAdd locp key value =>
    obtain ⟨⟨ht', e⟩, hadd, rfl⟩ := map_eq_some_iff.mp hrun
    exact callRound_locpAdd h hadd
  | remove key =>
    obtain ⟨⟨ht', b⟩, hrem, rfl⟩ := map_eq_some_iff.mp hrun
    exact callRound_remove h hrem
  | locpRemove locp =>
    obtain ⟨ht', hrem, rfl⟩ := map_eq_some_iff.mp hrun
    by_cases hin : locp.array = ht.array ∧ locp.index < ht.size
    · rw [hurdIhashLocpRemove, if_pos hin] at hrem
      obtain ⟨v, hv, rfl⟩ := locpRemove_some hrem
      exact .removed (by simp [Op.Stores]) hin.2 hv
    · rw [hurdIhashLocpRemove, if_neg hin] at hrem
      cases hrem
  | find key =>
    cases hrun
    exact .same (by simp [Op.Stores])
  | locpFind key =>
    cases hrun
    exact .same (by simp [Op.Stores])
  | setMaxLoad maxLoad =>
    cases hrun
    exact .setMaxLoad maxLoad rfl

theorem CallRound.counted {op : Op V} {p : Table V × Result V} (h : Counted ht)
    (hround : CallRound calloc ht op p) : Counted p.1 := by
  cases hround with
  | added _ hadd => exact hadd.counted h
  | filled _ hlt _ => exact counted_put h hlt
  | overridden _ _ hlt hvalid => exact counted_override _ h hlt hvalid
  | removed _ hlt hv => exact counted_bury h hlt hv
  | same _ => exact h
  | setMaxLoad _ _ => exact ⟨h.size, h.items, h.free⟩

theorem counted_of_calls {ok : Table V → (Nat → Bool) × Op V → Prop} {init : Table V}
    (hinit : Counted init) (h : Reach callStep ok init ht) : Counted ht := by
  refine h.invariant Counted hinit ?_
  intro ht₁ c ht₂ hcount _ hstep
  obtain ⟨p, hrun, rfl⟩ := map_eq_some_iff.mp hstep
  exact (callRun_round hcount hrun).counted hcount

theorem reach_calls {ok : Table V → Op V → Prop} {init : Table V} (h : Reach opStep ok init ht) :
    Reach callStep (fun _ _ => True) init ht := by
  induction h with
  | start => exact .start
  | step op _ _ hstep ih =>
    refine .step (fun _ => true, op) ih trivial ?_
    rwa [callStep, callRun_allocated]

end Calls

section Promise

variable {V : Type*} [DecidableEq V] {ht ht' : Table V} {key : Nat} {value : V}
variable {calloc : Nat → Bool}

/-- The table is asked to take a key for which it has no room, but whose maximum load it does not
exceed, and there is memory to reorganize it. -/
def Reorganizes (calloc : Nat → Bool) (ht : Table V) (key : Nat) : Prop :=
  NoRoom ht key ∧ (calloc 0 = true ∨ calloc 1 = true)

/-- No two items have equal keys. -/
def KeysDiffer (ht : Table V) : Prop :=
  ∀ i < ht.size, ∀ j < i, compare ht (ht.items j).key (ht.items i).key = false

/-- `ENOMEM` means that there is no array or no slot for the item, and leaves the table as it was;
otherwise the item is added. -/
def AddPromise (calloc : Nat → Bool) (key : Nat) (value : V) (ht : Table V) : Prop :=
  (hurdIhashAdd calloc key value ht = some (ht, .enomem) ∧ (ht.size = 0 ∨ Crowded ht key)) ∨
    ∃ ht', hurdIhashAdd calloc key value ht = some (ht', .success) ∧ Entered key value ht'

/-- The first `i` items have been put into free slots of the new array. -/
def Filling (old : Table V) (i : Nat) (ht : Table V) : Prop :=
  ht.nrItems = i ∧ ∀ x < ht.size, (ht.items x).value.valid = true →
    ∃ m < i, (ht.items x).key = (old.items m).key

theorem Filling.round {old ht₁ ht₂ : Table V} {i : Nat} (h : Filling old i ht₁)
    (hpow : PowSize ht₁.size) (hfull : (old.items i).value.valid = true)
    (hkeys : ∀ m < i, compare ht₁ (old.items m).key (old.items i).key = false)
    (hround : RehashRound old i ht₁ ht₂) : Filling old (i + 1) ht₂ := by
  cases hround with
  | free hfree => simp [hfull] at hfree
  | moved v hv huse =>
    have hlt : findIndex ht₁ (old.items i).key < ht₁.size := findIndex_lt hpow
    have hfree : (ht₁.items (findIndex ht₁ (old.items i).key)).value.valid = false := by
      by_contra htaken
      obtain ⟨m, hm, he⟩ := h.2 _ hlt (eq_true_of_ne_false htaken)
      have hkey := huse.resolve_left htaken
      rw [he, hkeys m hm] at hkey
      exact absurd hkey Bool.false_ne_true
    refine ⟨by simp [put, hfree, h.1], ?_⟩
    intro x hx hvalid
    by_cases hxi : x = findIndex ht₁ (old.items i).key
    · exact ⟨i, by omega, by simp [put, hxi]⟩
    · have hitem : (put (old.items i).key v (findIndex ht₁ (old.items i).key) ht₁).items x =
          ht₁.items x := by
        simp [put, hxi]
      rw [hitem] at hvalid ⊢
      obtain ⟨m, hm, he⟩ := h.2 x hx hvalid
      exact ⟨m, by omega, he⟩

theorem rehash_noRoom (h : Counted ht) (hroom : NoRoom ht key) (hkeys : KeysDiffer ht) :
    rehash key value ht (newArray ht ht) = none := by
  obtain ⟨hsize, hitems, hmax, hother⟩ := hroom
  have hpow := h.pow hsize
  have hload : ¬ hurdIhashGetLoad ht > ht.maxLoad := by
    have hle : hurdIhashGetLoad ht ≤ 128 := by
      have hpos := hpow.pos
      rw [hurdIhashGetLoad, scaleLoad_le_iff hpow]
      omega
    omega
  have hsame : (newArray ht ht).size = ht.size := by
    simp only [newArray, if_neg hsize, if_neg hload]
  obtain ⟨hnew, hnewpow⟩ := counted_newArray ht h
  have hcmp : ∀ {ht₁}, Kept (newArray ht ht) ht₁ → compare ht₁ = compare ht :=
    fun hkept => hkept.toSameSetup.compare
  have hround : ∀ i < ht.size, ∀ ht₁ ht₂, Counted ht₁ → Kept (newArray ht ht) ht₁ →
      Filling ht i ht₁ → RehashRound ht i ht₁ ht₂ → Filling ht (i + 1) ht₂ := by
    intro i hi ht₁ ht₂ _ hkept hfilling hdone
    refine hfilling.round (hkept.size ▸ hnewpow) (h.full hitems hi) ?_ hdone
    rw [hcmp hkept]
    exact hkeys i hi
  have hstart : Filling ht 0 (newArray ht ht) :=
    ⟨rfl, fun x _ hx => by simp [newArray, Slot.valid] at hx⟩
  cases hrun : rehash key value ht (newArray ht ht) with
  | none => rfl
  | some ht' =>
    obtain ⟨ht₁, hcount, hkept, ⟨hfilled, hfrom⟩, huse, -⟩ :=
      rehash_inv (Filling ht) hnew hnewpow hstart hround hrun
    have hfull : ht₁.nrItems = ht₁.size := by rw [hfilled, hkept.size, hsame]
    have hlt : findIndex ht₁ key < ht₁.size := findIndex_lt (hkept.size ▸ hnewpow)
    have hvalid := hcount.full hfull hlt
    rcases huse with hfree | hkey
    · simp [hvalid] at hfree
    · obtain ⟨m, hm, he⟩ := hfrom _ hlt hvalid
      rw [hcmp hkept, he, hother m hm] at hkey
      exact absurd hkey Bool.false_ne_true

theorem addPromise_of_room (h : Counted ht) (hok : ¬ Reorganizes calloc ht key) :
    AddPromise calloc key value ht := by
  have hrun : AddRun calloc key value ht (hurdIhashAdd calloc key value ht) := hurdIhashAdd_run h
  generalize hres : hurdIhashAdd calloc key value ht = res at hrun
  cases hrun with
  | inUse hsize huse => exact .inr ⟨_, hres, entered_put (h.pow hsize) huse⟩
  | noMemory _ hwhy => exact .inl ⟨hres, hwhy.imp_right And.right⟩
  | reorganized hmem hwhy =>
    have hroom : ¬ NoRoom ht key := fun hno => hok ⟨hno, hmem⟩
    obtain ⟨hnew, hpow⟩ := counted_newArray ht h
    rcases hurdIhashAdd_cases value h hroom with ⟨hpow', hload, hadd, -⟩ | ⟨ht₁, -, hloop, hcount,
      hkept, hlt, -⟩
    · -- The array in use was good enough.
      have hsize : ht.size ≠ 0 := Nat.ne_of_gt (Nat.lt_of_lt_of_le (by decide) hpow'.pos)
      have huse : Usable ht key := by
        by_contra hno
        simp [addOne_not_usable h hpow' hno] at hadd
      exact absurd huse (hwhy.resolve_left (not_not.mpr ⟨hsize, hload⟩))
    · have hpow₁ : PowSize ht₁.size := hkept.size ▸ hpow
      have hadd : addOne key value ht₁ = _ := addOne_put hcount hpow₁ hlt
      have huse : Usable ht₁ key := by
        by_contra hno
        simp [addOne_not_usable hcount hpow₁ hno] at hadd
      refine .inr ⟨_, ?_, entered_put hpow₁ huse⟩
      rw [hres]
      simp [rehash, hloop, hadd]

theorem not_addPromise (h : Counted ht) (hfull : Reorganizes calloc ht key)
    (hkeys : KeysDiffer ht) : ¬ AddPromise calloc key value ht := by
  obtain ⟨hroom, hmem⟩ := hfull
  have hnot : ¬ Usable ht key := by
    have hlt : findIndex ht key < ht.size := findIndex_lt (h.pow hroom.1)
    intro huse
    rcases huse with hfree | hkey
    · simp [h.full hroom.2.1 hlt] at hfree
    · simp [hroom.2.2.2 _ hlt] at hkey
  have hrun : AddRun calloc key value ht (hurdIhashAdd calloc key value ht) := hurdIhashAdd_run h
  have hnone : hurdIhashAdd calloc key value ht = none := by
    generalize hurdIhashAdd calloc key value ht = res at hrun
    cases hrun with
    | inUse _ huse => exact absurd huse hnot
    | noMemory hfirst hsecond =>
      have hagain : calloc 1 = false := (hsecond.resolve_left hroom.1).1
      simp [hfirst, hagain] at hmem
    | reorganized _ _ => rw [rehash_noRoom h hroom hkeys, map_none]
  intro hpromise
  rcases hpromise with ⟨hadd, -⟩ | ⟨ht', hadd, -⟩ <;> simp [hnone] at hadd

/-- In every state and whichever allocations fail, `hurd_ihash_add` keeps its promise unless it
reorganizes a full table, and then it breaks it if no two items have equal keys. -/
theorem add_out_of_memory (hasLocp cleanup : Bool) (fctHash : Option (Nat → Nat))
    (fctCmp : Option (Nat → Nat → Bool)) {ht : Table V}
    (h : Reach callStep (fun _ _ => True) (freshTable hasLocp cleanup fctHash fctCmp) ht)
    (calloc : Nat → Bool) (key : Nat) (value : V) :
    (¬ Reorganizes calloc ht key → AddPromise calloc key value ht) ∧
      (Reorganizes calloc ht key → KeysDiffer ht → ¬ AddPromise calloc key value ht) := by
  have hcount : Counted ht := counted_of_calls (counted_freshTable _ _ _ _) h
  exact ⟨addPromise_of_room hcount, not_addPromise hcount⟩

theorem add_out_of_memory_packed :
    (¬ Reorganizes (fun _ => false) (packed 1 32) 32 →
      AddPromise (fun _ => false) 32 32 (packed 1 32)) ∧
    (Reorganizes (fun _ => false) (packed 1 32) 32 → KeysDiffer (packed 1 32) →
      ¬ AddPromise (fun _ => false) 32 32 (packed 1 32)) :=
  add_out_of_memory false false none none (reach_calls (packed_reach (by decide))) _ 32 32

/-- With memory it fails an assertion instead of adding the item. -/
theorem full_table_not_added :
    ∃ ht : Table Nat, Reach callStep (fun _ _ => True) (freshTable false false none none) ht ∧
      ¬ AddPromise (fun _ => true) 32 32 ht := by
  have hreach : Reach callStep (fun _ _ => True) (freshTable false false none none) (packed 1 32) :=
    reach_calls (packed_reach (by decide))
  have hcount : Counted (packed 1 32) := counted_of_calls (counted_freshTable _ _ _ _) hreach
  have hsize : (packed 1 32).size = 32 := rfl
  have hkey : ∀ i < 32, ((packed 1 32).items i).key = i := by
    intro i hi
    simp [packed, hi]
  have hcmp : ∀ a b, compare (packed 1 32) a b = (a == b) := fun _ _ => rfl
  refine ⟨packed 1 32, hreach, not_addPromise hcount ⟨⟨by decide, rfl, Nat.le_refl 128, ?_⟩,
    .inl rfl⟩ ?_⟩
  · intro i hi
    rw [hsize] at hi
    simp [hcmp, hkey i hi]
    omega
  · intro i hi j hj
    rw [hsize] at hi
    simp [hcmp, hkey i hi, hkey j (by omega)]
    omega

end Promise

end Hurd.Ihash
