import Mathlib.Data.List.Nodup
import Mathlib.Data.List.Perm.Basic

/-!
# Association lists as maps

A list of pairs with distinct keys is the graph of a partial function, in whatever order the pairs
stand.
-/

namespace Hurd

open Function List

variable {κ β : Type*}

/-- The pairs of `l` are the graph of `f`, and no key occurs twice. -/
structure IsMapOf (f : κ → Option β) (l : List (κ × β)) : Prop where
  nodup : (l.map Prod.fst).Nodup
  mem : ∀ k v, f k = some v ↔ (k, v) ∈ l

namespace IsMapOf

variable {f : κ → Option β} {l l' : List (κ × β)} {k : κ} {v w : β}

theorem perm (h : IsMapOf f l) (hp : l.Perm l') : IsMapOf f l' where
  nodup := (hp.map _).nodup_iff.mp h.nodup
  mem k v := (h.mem k v).trans hp.mem_iff

theorem eq_none_iff (h : IsMapOf f l) : f k = none ↔ ∀ v, (k, v) ∉ l := by
  constructor
  · intro hk v hv
    rw [(h.mem k v).mpr hv] at hk
    cases hk
  · intro hk
    cases hf : f k with
    | none => rfl
    | some v => exact absurd ((h.mem k v).mp hf) (hk v)

variable [DecidableEq κ]

theorem insert (h : IsMapOf f l) (hk : f k = none) (v : β) :
    IsMapOf (update f k (some v)) ((k, v) :: l) := by
  have hnone := h.eq_none_iff.mp hk
  constructor
  · rw [map_cons, nodup_cons]
    refine ⟨?_, h.nodup⟩
    intro hmem
    obtain ⟨⟨k', w⟩, hw, rfl⟩ := mem_map.mp hmem
    exact hnone w hw
  · intro k' w
    by_cases hk' : k' = k
    · subst hk'
      rw [update_self, mem_cons]
      simp [hnone w, eq_comm]
    · rw [update_of_ne hk', h.mem, mem_cons]
      simp [hk']

theorem erase (h : IsMapOf f ((k, v) :: l)) : IsMapOf (update f k none) l := by
  obtain ⟨hfirst, hnodup⟩ := nodup_cons.mp h.nodup
  refine ⟨hnodup, ?_⟩
  intro k' w
  by_cases hk' : k' = k
  · subst hk'
    rw [update_self]
    constructor
    · intro heq
      cases heq
    · intro hw
      exact absurd (mem_map_of_mem hw) hfirst
  · rw [update_of_ne hk', h.mem, mem_cons]
    simp [hk']

theorem replace (h : IsMapOf f l) (hv : (k, v) ∈ l)
    (hp : ((k, w) :: l).Perm ((k, v) :: l')) : IsMapOf (update f k (some w)) l' := by
  obtain ⟨front, back, rfl⟩ := append_of_mem hv
  have hrest : ((k, w) :: (front ++ back)).Perm l' := by
    apply List.Perm.cons_inv (a := (k, v))
    calc ((k, v) :: (k, w) :: (front ++ back)).Perm ((k, w) :: (k, v) :: (front ++ back)) :=
          List.Perm.swap ..
      _ |>.Perm ((k, w) :: (front ++ (k, v) :: back)) := perm_middle.symm.cons _
      _ |>.Perm ((k, v) :: l') := hp
  have herased : IsMapOf (update f k none) (front ++ back) :=
    (h.perm perm_middle).erase
  have hinserted := herased.insert (update_self ..) w
  rw [update_idem] at hinserted
  exact hinserted.perm hrest

end IsMapOf

end Hurd
