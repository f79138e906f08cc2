import Hurd.Ext2fs.DiskCache

/-!
# The list of reusable slots

`disk_cache_info_free_push` tells a slot that is on the list by its link, which the last one does
not have. Pushed again, that one is linked to the first, and the list runs in a circle.
-/

namespace Hurd.Ext2fs

open Option Finset

/-- A push, a pop, or a change of the flags and counts of the slots. -/
inductive FreeEvent where
  | push (i : Nat)
  | pop
  | assign (info : Nat → CacheInfo)

namespace DiskCache

/-- The flags and counts of the slots are other ones. -/
def assign (s : DiskCache) (info : Nat → CacheInfo) : DiskCache :=
  { s with info := fun i => { info i with next := (s.info i).next } }

/-- The condition of the loop in `disk_cache_info_free_pop`. -/
def skips (s : DiskCache) (i : Nat) : Bool := (s.info i).dontReuse || 0 < (s.info i).refCount

/-- The slots that `disk_cache_info_free_pop` takes off the list, with the one that it returns. -/
def taken : Nat → DiskCache → List Nat
  | 0, _ => []
  | fuel + 1, s =>
      match s.free with
      | none => []
      | some i => i :: if s.skips i then taken fuel (s.freeUnlink i) else []

/-- The loop of `disk_cache_info_free_pop` ends within a number of rounds. -/
def PopEnds : Nat → DiskCache → Prop
  | 0, _ => False
  | fuel + 1, s => ∀ i ∈ s.free, s.skips i = true → PopEnds fuel (s.freeUnlink i)

end DiskCache

/-- The cache, and the slots that have been pushed and not taken off since. -/
structure FreeRun where
  cache : DiskCache
  owed : Finset Nat

def FreeRun.step (r : FreeRun) : FreeEvent → Option FreeRun
  | .push i =>
      if i < r.cache.blocks then some ⟨r.cache.freePush i, insert i r.owed⟩ else none
  | .pop =>
      some ⟨(r.cache.freePop (r.cache.blocks + 2)).2,
        r.owed \ (r.cache.taken (r.cache.blocks + 2)).toFinset⟩
  | .assign info => some ⟨r.cache.assign info, r.owed⟩

namespace DiskCache

variable {s t : DiskCache} {i j fuel : Nat}

/-- The number of slots with a successor on the list. -/
def links (s : DiskCache) : Nat :=
  ((Finset.range s.blocks).filter fun i => (s.info i).next.isSome = true).card

theorem freePop_succ (hfree : s.free = some i) : s.freePop (fuel + 1) =
    if s.skips i = true then (s.freeUnlink i).freePop fuel else (some i, s.freeUnlink i) := by
  rw [freePop, hfree]
  rfl

theorem PopEnds.empty (h : PopEnds fuel s) (hpop : s.freePop fuel = (none, t)) : t.free = none := by
  induction fuel generalizing s with
  | zero => exact h.elim
  | succ fuel ih =>
    cases hfree : s.free with
    | none =>
      rw [freePop, hfree] at hpop
      cases hpop
      exact hfree
    | some i =>
      rw [freePop_succ hfree] at hpop
      split at hpop
      · rename_i hskips
        exact ih (h i hfree hskips) hpop
      · cases hpop

/-- The slots that are found from the first one along the links. -/
inductive OnList (s : DiskCache) : Nat → Prop
  | first {i : Nat} (h : s.free = some i) : OnList s i
  | next {i j : Nat} (hi : OnList s i) (h : (s.info i).next = some j) : OnList s j

def Linked (s : DiskCache) : Prop := ∀ i j, (s.info i).next = some j → OnList s i

theorem OnList.ne_none (h : OnList s i) : s.free ≠ none := by
  induction h with
  | first h => simp [h]
  | next _ _ ih => exact ih

theorem next_freeUnlink (s : DiskCache) (i j : Nat) :
    ((s.freeUnlink i).info j).next = if j = i then none else (s.info j).next := by
  by_cases hj : j = i
  · subst hj
    simp [freeUnlink, setInfo]
  · simp [freeUnlink, setInfo, hj]

theorem OnList.freeUnlink (h : OnList s j) (hfree : s.free = some i) :
    j = i ∨ OnList (s.freeUnlink i) j := by
  induction h with
  | first h => exact .inl (Option.some.inj (h.symm.trans hfree))
  | @next k j _ h ih =>
    by_cases hk : k = i
    · exact .inr (.first (hk ▸ h))
    · exact .inr (.next (ih.resolve_left hk) (by rw [next_freeUnlink, if_neg hk, h]))

theorem Linked.freeUnlink (h : Linked s) (hfree : s.free = some i) : Linked (s.freeUnlink i) := by
  intro j k hjk
  rw [next_freeUnlink] at hjk
  split at hjk
  · cases hjk
  · rename_i hne
    exact ((h j k hjk).freeUnlink hfree).resolve_left hne

theorem Linked.freePop (h : Linked s) : Linked (s.freePop fuel).2 := by
  induction fuel generalizing s with
  | zero => exact h
  | succ fuel ih =>
    cases hfree : s.free with
    | none =>
      rw [DiskCache.freePop, hfree]
      exact h
    | some i =>
      rw [freePop_succ hfree]
      split
      · exact ih (h.freeUnlink hfree)
      · exact h.freeUnlink hfree

theorem OnList.freePop (h : OnList s j) :
    j ∈ s.taken fuel ∨ OnList (s.freePop fuel).2 j := by
  induction fuel generalizing s with
  | zero => exact .inr h
  | succ fuel ih =>
    cases hfree : s.free with
    | none => exact absurd hfree h.ne_none
    | some i =>
      rw [freePop_succ hfree, taken, hfree]
      simp only
      rcases h.freeUnlink hfree with rfl | hrest
      · exact .inl List.mem_cons_self
      · by_cases hskips : s.skips i = true
        · rw [if_pos hskips, if_pos hskips]
          exact (ih hrest).imp_left (List.mem_cons_of_mem i)
        · rw [if_neg hskips, if_neg hskips]
          exact .inr hrest

theorem next_freePush (hi : (s.info i).next = none) :
    ((s.freePush i).info j).next = if j = i then s.free else (s.info j).next := by
  rw [freePush, if_pos hi]
  by_cases hj : j = i
  · subst hj
    simp [setInfo]
  · simp [setInfo, hj]

theorem OnList.freePush (h : OnList s j) : OnList (s.freePush i) j := by
  by_cases hi : (s.info i).next = none
  · have hfirst : OnList (s.freePush i) i := .first (by rw [DiskCache.freePush, if_pos hi])
    induction h with
    | first h => exact .next hfirst (by rw [next_freePush hi, if_pos rfl, h])
    | @next k j _ h ih =>
      have hk : k ≠ i := by
        rintro rfl
        rw [hi] at h
        cases h
      exact .next ih (by rw [next_freePush hi, if_neg hk, h])
  · rw [DiskCache.freePush, if_neg hi]
    exact h

theorem Linked.onList_freePush (h : Linked s) (i : Nat) : OnList (s.freePush i) i := by
  by_cases hi : (s.info i).next = none
  · exact .first (by rw [DiskCache.freePush, if_pos hi])
  · obtain ⟨j, hj⟩ := ne_none_iff_exists'.mp hi
    exact (h i j hj).freePush

theorem Linked.freePush (h : Linked s) : Linked (s.freePush i) := by
  intro j k hjk
  by_cases hj : j = i
  · exact hj ▸ h.onList_freePush i
  · by_cases hi : (s.info i).next = none
    · rw [next_freePush hi, if_neg hj] at hjk
      exact (h j k hjk).freePush
    · rw [DiskCache.freePush, if_neg hi] at hjk ⊢
      exact h j k hjk

theorem OnList.assign (h : OnList s j) (info : Nat → CacheInfo) : OnList (s.assign info) j := by
  induction h with
  | first h => exact .first h
  | next _ h ih => exact .next ih h

end DiskCache

/-- The links are those of a list, and what is owed is on it. -/
structure FreeRun.Ok (r : FreeRun) : Prop where
  inside : r.cache.LinksInside
  linked : r.cache.Linked
  onList : ∀ i ∈ r.owed, r.cache.OnList i

theorem FreeRun.Ok.step {r r' : FreeRun} (h : r.Ok) {e : FreeEvent} (hs : r.step e = some r') :
    r'.Ok := by
  cases e with
  | push i =>
    obtain ⟨hi, hs⟩ := ite_none_right_eq_some.mp hs
    cases hs
    refine ⟨h.inside.freePush hi, h.linked.freePush, fun j hj => ?_⟩
    rcases mem_insert.mp hj with rfl | hj
    · exact h.linked.onList_freePush j
    · exact (h.onList j hj).freePush
  | pop =>
    cases hs
    obtain ⟨-, hinside, -⟩ := DiskCache.freePop_spec (r.cache.blocks + 2) h.inside rfl
    refine ⟨hinside, h.linked.freePop, fun j hj => ?_⟩
    obtain ⟨hj, hnot⟩ := mem_sdiff.mp hj
    exact (h.onList j hj).freePop.resolve_left fun hmem => hnot (List.mem_toFinset.mpr hmem)
  | assign info =>
    cases hs
    exact ⟨⟨h.inside.free, h.inside.next⟩, fun i j hij => (h.linked i j hij).assign info,
      fun j hj => (h.onList j hj).assign info⟩

end Hurd.Ext2fs
