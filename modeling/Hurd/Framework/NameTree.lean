import Mathlib.Data.Set.Card

/-!
# Trees whose edges bear names

A directed graph with at most one edge of each name out of a node, read as a map from the lists of
names to the nodes that they lead to. When every node has one edge into it, hanging up a new leaf
and taking off a leaf are point updates of that map.
-/

namespace Hurd

open List Option

variable {α κ : Type*}

/-- The node that the names lead to from `a`. -/
def follow (child : α → κ → Option α) : α → List κ → Option α
  | a, [] => some a
  | a, k :: ks => (child a k).bind fun b => follow child b ks

/-- The nodes that some list of names leads to. -/
def followed (child : α → κ → Option α) (root : α) : Set α :=
  {n | ∃ ks, follow child root ks = some n}

theorem follow_append (child : α → κ → Option α) (a : α) (ks ls : List κ) :
    follow child a (ks ++ ls) = (follow child a ks).bind fun b => follow child b ls := by
  induction ks generalizing a with
  | nil => rfl
  | cons k ks ih =>
    rw [cons_append, follow, follow, bind_assoc]
    simp only [ih]

theorem follow_concat (child : α → κ → Option α) (a : α) (ks : List κ) (k : κ) :
    follow child a (ks ++ [k]) = (follow child a ks).bind fun b => child b k := by
  rw [follow_append]
  simp [follow]

/-- No edge leads to the root, and at most one to any other node. -/
structure IsNameTree (child : α → κ → Option α) (root : α) : Prop where
  root : ∀ a k, child a k ≠ some root
  single : ∀ a b k l n, child a k = some n → child b l = some n → a = b ∧ k = l

variable {child : α → κ → Option α} {root : α}

theorem mem_followed_root : root ∈ followed child root := ⟨[], rfl⟩

theorem followed_cases {n : α} (hn : n ∈ followed child root) :
    n = root ∨ ∃ a ∈ followed child root, ∃ k, child a k = some n := by
  obtain ⟨ks, hks⟩ := hn
  induction ks using List.reverseRecOn with
  | nil => exact .inl (some.inj hks).symm
  | append_singleton ks k _ =>
    rw [follow_concat] at hks
    obtain ⟨a, ha, hk⟩ := bind_eq_some_iff.mp hks
    exact .inr ⟨a, ⟨ks, ha⟩, k, hk⟩

namespace IsNameTree

theorem follow_inj (h : IsNameTree child root) {ks ls : List κ} {n : α}
    (hk : follow child root ks = some n) (hl : follow child root ls = some n) : ks = ls := by
  induction ks using List.reverseRecOn generalizing ls n with
  | nil =>
    have hn : root = n := some.inj hk
    induction ls using List.reverseRecOn with
    | nil => rfl
    | append_singleton ls l _ =>
      rw [follow_concat] at hl
      obtain ⟨b, _, hb⟩ := bind_eq_some_iff.mp hl
      exact absurd (hn ▸ hb) (h.root b l)
  | append_singleton ks k ih =>
    rw [follow_concat] at hk
    obtain ⟨a, ha, hak⟩ := bind_eq_some_iff.mp hk
    induction ls using List.reverseRecOn with
    | nil =>
      have hn : root = n := some.inj hl
      exact absurd (hn ▸ hak) (h.root a k)
    | append_singleton ls l _ =>
      rw [follow_concat] at hl
      obtain ⟨b, hb, hbl⟩ := bind_eq_some_iff.mp hl
      obtain ⟨rfl, rfl⟩ := h.single a b k l n hak hbl
      rw [ih ha hb]

end IsNameTree

theorem follow_changed [DecidableEq κ] {new : α → κ → Option α} {p : α} {k : κ}
    (ht : IsNameTree child root) (hothers : ∀ a l, a ≠ p ∨ l ≠ k → new a l = child a l)
    (hold : ∀ a, child p k = some a → ∀ l, child a l = none)
    (hnew : ∀ a, new p k = some a → ∀ l, new a l = none) {ps : List κ}
    (hp : follow child root ps = some p) (ks : List κ) :
    follow new root ks = if ks = ps ++ [k] then new p k else follow child root ks := by
  induction ks using List.reverseRecOn with
  | nil => rw [if_neg (by simp)]; rfl
  | append_singleton ks l ih =>
    rw [follow_concat, follow_concat, ih]
    by_cases hks : ks = ps ++ [k]
    · -- below the two leaves there is nothing
      have hne : ks ++ [l] ≠ ps ++ [k] := by
        intro he
        have hlen := congrArg List.length he
        simp [hks] at hlen
      rw [if_pos hks, if_neg hne, hks, follow_concat, hp, bind_some]
      exact (bind_eq_none_iff.mpr fun a ha => hnew a ha l).trans
        (bind_eq_none_iff.mpr fun a ha => hold a ha l).symm
    · rw [if_neg hks]
      cases ha : follow child root ks with
      | none =>
        have hne : ks ++ [l] ≠ ps ++ [k] := by
          intro he
          rw [(append_singleton_inj.mp he).1, hp] at ha
          cases ha
        rw [if_neg hne]
        rfl
      | some a =>
        rw [bind_some, bind_some]
        by_cases he : ks ++ [l] = ps ++ [k]
        · obtain ⟨rfl, rfl⟩ := append_singleton_inj.mp he
          obtain rfl : a = p := some.inj (ha.symm.trans hp)
          rw [if_pos rfl]
        · rw [if_neg he]
          apply hothers
          by_contra hboth
          obtain ⟨rfl, rfl⟩ := not_or.mp hboth |>.imp not_not.mp not_not.mp
          exact he (by rw [ht.follow_inj ha hp])

/-- `new` has an edge to the node `n`, which had none, and no other edge has changed. -/
structure Grafted (child new : α → κ → Option α) (p : α) (k : κ) (n : α) : Prop where
  absent : child p k = none
  edge : new p k = some n
  others : ∀ a l, a ≠ p ∨ l ≠ k → new a l = child a l
  leaf : ∀ l, child n l = none
  fresh : ∀ a l, child a l ≠ some n

namespace Grafted

variable {new : α → κ → Option α} {p n : α} {k : κ}

theorem follow_eq [DecidableEq κ] (h : Grafted child new p k n)
    (ht : IsNameTree child root) (hn : n ≠ root) {ps : List κ}
    (hp : follow child root ps = some p) (ks : List κ) :
    follow new root ks = if ks = ps ++ [k] then some n else follow child root ks := by
  have hpn : n ≠ p := by
    rintro rfl
    rcases followed_cases ⟨ps, hp⟩ with hroot | ⟨a, _, l, hal⟩
    · exact hn hroot
    · exact h.fresh a l hal
  rw [← h.edge]
  apply follow_changed ht h.others _ _ hp
  · intro a ha
    cases h.absent.symm.trans ha
  · intro a ha l
    cases h.edge.symm.trans ha
    rw [h.others n l (.inl hpn), h.leaf]

theorem followed_eq [DecidableEq κ] (h : Grafted child new p k n) (ht : IsNameTree child root)
    (hn : n ≠ root) (hp : p ∈ followed child root) :
    followed new root = insert n (followed child root) := by
  obtain ⟨ps, hps⟩ := hp
  have hold : follow child root (ps ++ [k]) = none := by
    rw [follow_concat, hps, bind_some, h.absent]
  ext m
  constructor
  · rintro ⟨ks, hks⟩
    rw [h.follow_eq ht hn hps] at hks
    split at hks
    · exact .inl (some.inj hks).symm
    · exact .inr ⟨ks, hks⟩
  · rintro (rfl | ⟨ks, hks⟩)
    · exact ⟨ps ++ [k], by rw [h.follow_eq ht hn hps, if_pos rfl]⟩
    · refine ⟨ks, ?_⟩
      rw [h.follow_eq ht hn hps, if_neg, hks]
      rintro rfl
      rw [hold] at hks
      cases hks

theorem not_mem_followed (h : Grafted child new p k n) (hn : n ≠ root) :
    n ∉ followed child root := by
  intro hmem
  rcases followed_cases hmem with hroot | ⟨a, _, l, hal⟩
  · exact hn hroot
  · exact h.fresh a l hal

end Grafted

/-- The edge to the leaf `n` is gone, and no other edge has changed. -/
structure Pruned (child new : α → κ → Option α) (p : α) (k : κ) (n : α) : Prop where
  edge : child p k = some n
  gone : new p k = none
  others : ∀ a l, a ≠ p ∨ l ≠ k → new a l = child a l
  leaf : ∀ l, child n l = none

namespace Pruned

variable {new : α → κ → Option α} {p n : α} {k : κ}

theorem follow_eq [DecidableEq κ] (h : Pruned child new p k n) (ht : IsNameTree child root)
    {ps : List κ} (hp : follow child root ps = some p) (ks : List κ) :
    follow new root ks = if ks = ps ++ [k] then none else follow child root ks := by
  rw [← h.gone]
  apply follow_changed ht h.others _ _ hp
  · intro a ha
    cases h.edge.symm.trans ha
    exact h.leaf
  · intro a ha
    cases h.gone.symm.trans ha

theorem followed_eq [DecidableEq κ] (h : Pruned child new p k n) (ht : IsNameTree child root)
    (hp : p ∈ followed child root) : followed new root = followed child root \ {n} := by
  obtain ⟨ps, hps⟩ := hp
  have hold : follow child root (ps ++ [k]) = some n := by
    rw [follow_concat, hps, bind_some, h.edge]
  ext m
  constructor
  · rintro ⟨ks, hks⟩
    rw [h.follow_eq ht hps] at hks
    split at hks
    · cases hks
    · rename_i hne
      refine ⟨⟨ks, hks⟩, ?_⟩
      rintro rfl
      exact hne (ht.follow_inj hks hold)
  · rintro ⟨⟨ks, hks⟩, hm⟩
    refine ⟨ks, ?_⟩
    rw [h.follow_eq ht hps, if_neg, hks]
    rintro rfl
    exact hm (some.inj (hks.symm.trans hold))

end Pruned

end Hurd
