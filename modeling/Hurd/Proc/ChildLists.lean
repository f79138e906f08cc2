import Hurd.Framework.Run
import Hurd.Proc.Mgt

/-!
# The lists of children

The lists of the processes that can be used have the processes in them whose parent they are, and
their elements point back at the link that points to them. Every call keeps it so, whether or not
the processes form a tree.
-/

namespace Hurd.Proc

open Function List Option

section Links

variable {s : Procs} {p q r : Nat} {l : Link Nat} {o : Option Nat}

namespace Procs

/-- The fields that are not links are the same. -/
structure SameButLinks (s t : Procs) : Prop where
  known : t.known = s.known
  parent : t.parent = s.parent
  dead : t.dead = s.dead
  waited : t.waited = s.waited
  parentset : t.parentset = s.parentset
  taskNamespace : t.taskNamespace = s.taskNamespace

@[simp] theorem deref_store : (s.store l o).deref = update s.deref l o := by
  funext k
  cases l with
  | first q =>
    cases k with
    | first a =>
      by_cases h : a = q
      · rw [h, update_self]
        exact update_self q o s.ochild
      · rw [update_of_ne (by simpa using h)]
        exact update_of_ne h o s.ochild
    | next a => rw [update_of_ne (by simp)]; rfl
  | next q =>
    cases k with
    | first a => rw [update_of_ne (by simp)]; rfl
    | next a =>
      by_cases h : a = q
      · rw [h, update_self]
        exact update_self q o s.sib
      · rw [update_of_ne (by simpa using h)]
        exact update_of_ne h o s.sib

@[simp] theorem prevsib_store : (s.store l o).prevsib = s.prevsib := by
  cases l <;> rfl

@[simp] theorem deref_storeBack : (s.storeBack o l).deref = s.deref := by
  funext k
  cases k <;> rfl

@[simp] theorem prevsib_storeBack : (s.storeBack o l).prevsib = setBack s.prevsib o l := rfl

theorem sameButLinks_store : SameButLinks s (s.store l o) := by
  cases l <;> exact ⟨rfl, rfl, rfl, rfl, rfl, rfl⟩

theorem SameButLinks.trans {t u : Procs} (h : SameButLinks s t) (h' : SameButLinks t u) :
    SameButLinks s u :=
  ⟨h'.known.trans h.known, h'.parent.trans h.parent, h'.dead.trans h.dead,
    h'.waited.trans h.waited, h'.parentset.trans h.parentset,
    h'.taskNamespace.trans h.taskNamespace⟩

theorem sameButLinks_storeBack : SameButLinks s (s.storeBack o l) :=
  ⟨rfl, rfl, rfl, rfl, rfl, rfl⟩

theorem sameButLinks_unlink : SameButLinks s (s.unlink p) :=
  sameButLinks_storeBack.trans sameButLinks_store

theorem prevsib_unlink : (s.unlink p).prevsib = setBack s.prevsib (s.sib p) (s.prevsib p) := by
  simp [unlink]

theorem deref_unlink (h : s.sib p ≠ some p) :
    (s.unlink p).deref = update s.deref (s.prevsib p) (s.sib p) := by
  have hback : (s.storeBack (s.sib p) (s.prevsib p)).prevsib p = s.prevsib p := setBack_of_ne h
  have hsib : (s.storeBack (s.sib p) (s.prevsib p)).sib = s.sib := rfl
  simp only [unlink, deref_store, deref_storeBack, hback, hsib]

theorem deref_linkFirst : (s.linkFirst p q).deref =
    update (update s.deref (.next p) (s.deref (.first q))) (.first q) (some p) := by
  have hsib : ({ s with
      parent := update s.parent p q
      sib := update s.sib p (s.ochild q)
      prevsib := update s.prevsib p (.first q) } : Procs).deref =
      update s.deref (.next p) (s.deref (.first q)) := by
    have hstore := deref_store (s := s) (l := .next p) (o := s.ochild q)
    exact hstore
  simp only [linkFirst, deref_store, deref_storeBack]
  rw [hsib]

theorem prevsib_linkFirst : (s.linkFirst p q).prevsib =
    setBack (update s.prevsib p (.first q)) (s.deref (.first q)) (.next p) := by
  simp only [linkFirst, prevsib_store, prevsib_storeBack]
  rfl

theorem linkFirst_other : SameButLinks { s with parent := update s.parent p q } (s.linkFirst p q) :=
  ⟨rfl, rfl, rfl, rfl, rfl, rfl⟩

end Procs

end Links

/-- `f` gives the children of each process. -/
structure ListInv (s : Procs) (f : Nat → List Nat) : Prop where
  siblings : Siblings s.deref s.prevsib s.Usable f
  mem_iff : ∀ p q, p ∈ f q ↔ p ∈ s.known ∧ s.parent p = q
  parents : ∀ p ∈ s.known, s.Usable (s.parent p)
  init_known : initProc ∈ s.known
  init_parent : s.parent initProc = initProc

section Invariant

variable {s t : Procs} {f : Nat → List Nat} {p q r : Nat}

theorem usable_congr (hk : t.known = s.known) (hd : t.dead = s.dead) : t.Usable = s.Usable := by
  funext p
  simp only [Procs.Usable, hk, hd]

theorem ListInv.congr (h : ListInv s f) (hderef : t.deref = s.deref) (hback : t.prevsib = s.prevsib)
    (hknown : t.known = s.known) (hparent : t.parent = s.parent) (hdead : t.dead = s.dead) :
    ListInv t f := by
  have husable := usable_congr hknown hdead
  constructor
  · rw [hderef, hback, husable]
    exact h.siblings
  · rw [hknown, hparent]
    exact h.mem_iff
  · rw [hknown, hparent, husable]
    exact h.parents
  · rw [hknown]
    exact h.init_known
  · rw [hparent]
    exact h.init_parent

theorem ListInv.init_usable (h : ListInv s f) : s.Usable initProc := by
  have hinit := h.parents initProc h.init_known
  rwa [h.init_parent] at hinit

theorem ListInv.mem (h : ListInv s f) (hp : p ∈ s.known) : p ∈ f (s.parent p) :=
  (h.mem_iff p _).mpr ⟨hp, rfl⟩

theorem ListInv.children_nil (h : ListInv s f) (hq : ¬ s.Usable q) : f q = [] := by
  rw [eq_nil_iff_forall_not_mem]
  intro p hp
  obtain ⟨hknown, rfl⟩ := (h.mem_iff p q).mp hp
  exact hq (h.parents p hknown)

theorem ListInv.sib_ne (h : ListInv s f) (hp : p ∈ s.known) : s.sib p ≠ some p :=
  (h.siblings.linked _ (h.parents p hp)).next_ne (h.mem hp) (h.siblings.nodup _)

/-- The children of each process when one process has been taken out of its list. -/
def without (f : Nat → List Nat) (s : Procs) (p : Nat) : Nat → List Nat :=
  update f (s.parent p) ((f (s.parent p)).erase p)

theorem ListInv.mem_without (h : ListInv s f) (hp : p ∈ s.known) {x : Nat} :
    x ∈ without f s p q ↔ x ∈ f q ∧ x ≠ p := by
  unfold without
  by_cases hq : q = s.parent p
  · rw [hq, update_self, (h.siblings.nodup _).mem_erase_iff, and_comm]
  · rw [update_of_ne hq]
    refine ⟨fun hx => ⟨hx, ?_⟩, fun hx => hx.1⟩
    rintro rfl
    exact hq ((h.mem_iff x q).mp hx).2.symm

theorem ListInv.unlink (h : ListInv s f) (hp : p ∈ s.known) :
    Siblings (s.unlink p).deref (s.unlink p).prevsib s.Usable (without f s p) := by
  rw [Procs.deref_unlink (h.sib_ne hp), Procs.prevsib_unlink]
  exact h.siblings.remove (h.parents p hp) (h.mem hp)

theorem ListInv.completeExit (h : ListInv s f) (hp : p ∈ s.known) (hdead : s.dead p = true) :
    ListInv { s.unlink p with known := s.known.erase p } (without f s p) := by
  have hne : ∀ q, s.Usable q → q ≠ p := by
    rintro q hq rfl
    exact Bool.noConfusion (hq.2.symm.trans hdead)
  have hsame : Procs.SameButLinks s (s.unlink p) := Procs.sameButLinks_unlink
  have husable : Procs.Usable { s.unlink p with known := s.known.erase p } = s.Usable := by
    funext q
    simp only [Procs.Usable, hsame.dead, Finset.mem_erase, eq_iff_iff]
    exact ⟨fun hq => ⟨hq.1.2, hq.2⟩, fun hq => ⟨⟨hne q hq, hq.1⟩, hq.2⟩⟩
  constructor
  · rw [husable]
    exact h.unlink hp
  · intro x q
    rw [h.mem_without hp, h.mem_iff]
    simp only [hsame.parent, Finset.mem_erase]
    constructor
    · rintro ⟨⟨hx, hq⟩, hxp⟩
      exact ⟨⟨hxp, hx⟩, hq⟩
    · rintro ⟨⟨hxp, hx⟩, hq⟩
      exact ⟨⟨hx, hq⟩, hxp⟩
  · intro x hx
    rw [husable]
    simp only [hsame.parent]
    exact h.parents x (Finset.mem_of_mem_erase hx)
  · exact Finset.mem_erase.mpr ⟨hne _ h.init_usable, h.init_known⟩
  · simp only [hsame.parent]
    exact h.init_parent

theorem setParents_eq {ps : List Nat} {l : Link Nat} {b : Nat → Link Nat} {c fuel : Nat}
    (h : BackLinked s.deref b l ps) (hc : s.deref l = some c) (hfuel : ps.length ≤ fuel) :
    ∃ qs z, ps = qs ++ [z] ∧ setParents r fuel c s =
      some ({ s with parent := fun x => if x ∈ ps then r else s.parent x }, z) := by
  induction ps generalizing s l c fuel with
  | nil => exact absurd (h.symm.trans hc) (by simp)
  | cons a ps ih =>
    obtain ⟨ha, -, hrest⟩ := h
    obtain rfl : a = c := some.inj (ha.symm.trans hc)
    obtain ⟨fuel, rfl⟩ : ∃ n, fuel = n + 1 := ⟨fuel - 1, by simp at hfuel; omega⟩
    cases ps with
    | nil =>
      have hsib : s.sib a = none := hrest
      refine ⟨[], a, rfl, ?_⟩
      simp only [setParents, hsib, mem_singleton]
      congr 3
      funext x
      by_cases hx : x = a
      · rw [hx, update_self, if_pos rfl]
      · rw [update_of_ne hx, if_neg hx]
    | cons x xs =>
      have hsib : s.sib a = some x := hrest.1
      let u : Procs := { s with parent := update s.parent a r }
      have hu : u.deref = s.deref := by
        funext k
        cases k <;> rfl
      obtain ⟨qs, z, hqs, hset⟩ := ih (s := u) (hu ▸ hrest) (hu ▸ hrest.1)
        (by simpa using hfuel)
      refine ⟨a :: qs, z, by rw [hqs, cons_append], ?_⟩
      simp only [setParents, hsib]
      rw [show setParents r fuel x { s with parent := update s.parent a r } = _ from hset]
      congr 3
      funext y
      by_cases hy : y ∈ x :: xs
      · rw [if_pos hy, if_pos (mem_cons_of_mem a hy)]
      · rw [if_neg hy]
        by_cases hya : y = a
        · rw [hya, if_pos mem_cons_self]
          exact update_self a r s.parent
        · rw [if_neg (by simp [hya] at hy ⊢; exact hy)]
          exact update_of_ne hya r s.parent

/-- The children of each process when those of `p` have been put in front of those of `r`. -/
def moved (f : Nat → List Nat) (p r : Nat) : Nat → List Nat := update (update f p []) r (f p ++ f r)

theorem ListInv.length_le (h : ListInv s f) (q : Nat) : (f q).length ≤ s.known.card + 1 := by
  have hsub : (f q).toFinset ⊆ s.known := by
    intro x hx
    exact ((h.mem_iff x q).mp (mem_toFinset.mp hx)).1
  have hcard := Finset.card_le_card hsub
  rw [toFinset_card_of_nodup (h.siblings.nodup q)] at hcard
  omega

theorem ListInv.reparent (h : ListInv s f) (hp : s.Usable p) (hr : s.Usable r) (hpr : p ≠ r)
    {c : Nat} (hc : s.ochild p = some c) :
    ∃ t, reparent s p r c = some t ∧
      Siblings t.deref t.prevsib (fun x => s.Usable x ∧ x ≠ p) (moved f p r) ∧
      Procs.SameButLinks { s with parent := fun x => if x ∈ f p then r else s.parent x } t := by
  obtain ⟨qs, z, hqs, hset⟩ :=
    setParents_eq (r := r) (h.siblings.linked p hp) hc (h.length_le p)
  let u : Procs := { s with parent := fun x => if x ∈ f p then r else s.parent x }
  have hu : u.deref = s.deref := by
    funext k
    cases k <;> rfl
  let v := u.store (.next z) (u.ochild r)
  let w := v.storeBack (v.sib z) (.next z)
  let y := w.store (.first r) (w.ochild p)
  have hrun : Proc.reparent s p r c = some (y.storeBack (y.ochild p) (.first r)) := by
    simp only [Proc.reparent, hset]
    rfl
  have hvz : v.sib z = s.deref (.first r) := by
    change update s.sib z (s.ochild r) z = s.ochild r
    exact update_self _ _ _
  have hyp : y.ochild p = s.deref (.first p) := by
    change update s.ochild r (s.ochild p) p = s.ochild p
    exact update_of_ne hpr _ _
  have hw : Procs.SameButLinks u w := Procs.sameButLinks_store.trans Procs.sameButLinks_storeBack
  have hy : Procs.SameButLinks u y := hw.trans Procs.sameButLinks_store
  refine ⟨_, hrun, ?_, hy.trans Procs.sameButLinks_storeBack⟩
  have hderef : (y.storeBack (y.ochild p) (.first r)).deref =
      update (update s.deref (.next z) (s.deref (.first r))) (.first r) (s.deref (.first p)) := by
    simp only [y, w, v, Procs.deref_storeBack, Procs.deref_store]
    rw [hu]
    rfl
  have hback : (y.storeBack (y.ochild p) (.first r)).prevsib =
      setBack (setBack s.prevsib (s.deref (.first r)) (.next z)) (s.deref (.first p))
        (.first r) := by
    rw [Procs.prevsib_storeBack, hyp]
    simp only [y, Procs.prevsib_store]
    simp only [w, Procs.prevsib_storeBack, hvz]
    rfl
  rw [hderef, hback]
  exact h.siblings.splice hp hr hpr hqs

theorem ListInv.mem_moved (h : ListInv s f) (hpr : p ≠ r) {x : Nat} :
    x ∈ moved f p r q ↔ x ∈ s.known ∧ (if x ∈ f p then r else s.parent x) = q := by
  unfold moved
  by_cases hqr : q = r
  · rw [hqr, update_self, mem_append, h.mem_iff x r]
    by_cases hx : x ∈ f p
    · rw [if_pos hx]
      exact ⟨fun _ => ⟨((h.mem_iff x p).mp hx).1, rfl⟩, fun _ => .inl hx⟩
    · rw [if_neg hx]
      exact ⟨fun hor => hor.resolve_left hx, .inr⟩
  · rw [update_of_ne hqr]
    by_cases hqp : q = p
    · rw [hqp, update_self]
      refine ⟨fun hx => absurd hx not_mem_nil, fun hx => ?_⟩
      by_cases hxp : x ∈ f p
      · rw [if_pos hxp] at hx
        exact absurd hx.2.symm hpr
      · rw [if_neg hxp] at hx
        exact absurd ((h.mem_iff x p).mpr hx) hxp
    · rw [update_of_ne hqp, h.mem_iff]
      by_cases hxp : x ∈ f p
      · rw [if_pos hxp, ((h.mem_iff x p).mp hxp).2]
        exact ⟨fun hx => absurd hx.2.symm hqp, fun hx => absurd hx.2.symm hqr⟩
      · rw [if_neg hxp]

theorem ListInv.unlink_twice (h : ListInv s f) (hp : p ∈ s.known) {u : Procs}
    (hd : u.deref = (s.unlink p).deref) (hb : u.prevsib = (s.unlink p).prevsib) :
    (u.unlink p).deref = u.deref ∧ (u.unlink p).prevsib = u.prevsib := by
  have hne := h.sib_ne hp
  have hlink : s.prevsib p ≠ .next p := by
    intro heq
    have hback := (h.siblings.linked _ (h.parents p hp)).deref_back (h.mem hp)
    rw [heq] at hback
    exact hne hback
  have hd' : u.deref = update s.deref (s.prevsib p) (s.sib p) := hd.trans (Procs.deref_unlink hne)
  have hb' : u.prevsib = setBack s.prevsib (s.sib p) (s.prevsib p) := hb.trans Procs.prevsib_unlink
  have hsib : u.sib p = s.sib p := by
    change u.deref (.next p) = s.deref (.next p)
    rw [hd', update_of_ne hlink.symm]
  have hprev : u.prevsib p = s.prevsib p := by
    rw [hb']
    exact setBack_of_ne hne
  constructor
  · rw [Procs.deref_unlink (hsib ▸ hne), hsib, hprev, hd', update_idem]
  · rw [Procs.prevsib_unlink, hsib, hprev, hb']
    cases s.sib p with
    | none => rfl
    | some x => exact update_idem _ _ _

/-- What is left when `p` has given its children to `r`. -/
structure Left (s t : Procs) (f : Nat → List Nat) (p r : Nat) : Prop where
  siblings : Siblings t.deref t.prevsib (fun x => s.Usable x ∧ x ≠ p) (moved f p r)
  known : t.known = s.known
  parent : t.parent = fun x => if x ∈ f p then r else s.parent x
  dead : t.dead = s.dead
  waited : t.waited = s.waited
  parentset : t.parentset = s.parentset
  taskNamespace : ∀ x, x ≠ p → t.taskNamespace x = s.taskNamespace x

theorem ListInv.root_usable (h : ListInv s f) {fuel tp : Nat} (hp : p ∈ s.known)
    (hroot : namespaceFindRoot s fuel p = some tp) : p = tp ∨ s.Usable tp := by
  induction fuel generalizing p with
  | zero => cases hroot
  | succ fuel ih =>
    rw [namespaceFindRoot] at hroot
    split at hroot
    · have hparent := h.parents p hp
      rcases ih hparent.1 hroot with rfl | husable
      · exact .inr hparent
      · exact .inr husable
    · exact .inl (some.inj hroot)

theorem ListInv.heir_usable (h : ListInv s f) (hp : p ∈ s.known) (hpi : p ≠ initProc)
    (hr : heir s p = some r) : s.Usable r ∧ p ≠ r := by
  unfold heir at hr
  split at hr
  · obtain ⟨tp, htp, rfl⟩ := Option.map_eq_some_iff.mp hr
    by_cases heq : p = tp
    · rw [if_pos heq]
      exact ⟨h.init_usable, hpi⟩
    · rw [if_neg heq]
      exact ⟨(h.root_usable hp htp).resolve_left heq, heq⟩
  · cases hr
    exact ⟨h.init_usable, hpi⟩

theorem ListInv.reparent_left (h : ListInv s f) (hp : s.Usable p) (hr : s.Usable r) (hpr : p ≠ r)
    {c : Nat} (hc : s.ochild p = some c) (ht : Proc.reparent s p r c = some t) :
    Left s t f p r := by
  obtain ⟨u, hu, hsib, hsame⟩ := h.reparent hp hr hpr hc
  cases hu.symm.trans ht
  exact ⟨hsib, hsame.known, hsame.parent, hsame.dead, hsame.waited, hsame.parentset,
    fun x _ => congrFun hsame.taskNamespace x⟩

theorem ListInv.childless (h : ListInv s f) (hp : s.Usable p) (hc : s.ochild p = none) :
    f p = [] := by
  have hlinked := h.siblings.linked p hp
  cases hf : f p with
  | nil => rfl
  | cons a ps =>
    rw [hf] at hlinked
    exact absurd (hlinked.1.symm.trans hc) (by simp)

theorem left_self (h : ListInv s f) (hnil : f p = []) : Left s s f p initProc := by
  have hmoved : moved f p initProc = f := by
    have hgiven : update f p [] = f := update_eq_self_iff.mpr hnil.symm
    rw [moved, hgiven, hnil, nil_append, update_eq_self]
  refine ⟨?_, rfl, by simp [hnil], rfl, rfl, rfl, fun x _ => rfl⟩
  rw [hmoved]
  exact h.siblings.mono fun q hq => hq.1

theorem ListInv.leaveChildren (h : ListInv s f) (hp : s.Usable p) (hpi : p ≠ initProc)
    (ht : leaveChildren s p = some t) :
    ∃ r, (heir s p = some r ∨ f p = [] ∧ r = initProc) ∧ Left s t f p r := by
  unfold Proc.leaveChildren at ht
  cases hc : s.ochild p with
  | none =>
    rw [hc] at ht
    cases ht
    have hnil := h.childless hp hc
    exact ⟨initProc, .inr ⟨hnil, rfl⟩, left_self h hnil⟩
  | some c =>
    rw [hc] at ht
    simp only at ht
    split at ht
    · rename_i hns
      split at ht
      · cases ht
      · rename_i tp htp
        have hheir : heir s p = some (if p = tp then initProc else tp) := by
          rw [heir, if_pos hns, htp]
          rfl
        obtain ⟨hr, hpr⟩ := h.heir_usable hp.1 hpi hheir
        refine ⟨_, .inl hheir, ?_⟩
        split at ht
        · rename_i heq
          rw [if_pos heq] at hr hpr ⊢
          let u : Procs := { s with taskNamespace := update s.taskNamespace p none }
          have hu : ListInv u f := h.congr (by funext k; cases k <;> rfl) rfl rfl rfl rfl
          have hleft := hu.reparent_left hp hr hpr hc ht
          refine ⟨hleft.siblings, hleft.known, hleft.parent, hleft.dead, hleft.waited,
            hleft.parentset, fun x hx => ?_⟩
          rw [hleft.taskNamespace x hx]
          exact update_of_ne hx none s.taskNamespace
        · rename_i hne
          rw [if_neg hne] at hr hpr ⊢
          exact h.reparent_left hp hr hpr hc ht
    · rename_i hns
      have hheir : heir s p = some initProc := by rw [heir, if_neg hns]
      exact ⟨initProc, .inl hheir, h.reparent_left hp h.init_usable hpi hc ht⟩

theorem Left.die (hleft : Left s t f p r) (h : ListInv s f) (hpi : p ≠ initProc)
    (hr : s.Usable r) (hpr : p ≠ r) :
    ListInv { t with dead := update t.dead p true } (moved f p r) := by
  have husable : Procs.Usable { t with dead := update t.dead p true } =
      fun x => s.Usable x ∧ x ≠ p := by
    funext x
    simp only [Procs.Usable, hleft.known, hleft.dead, eq_iff_iff]
    by_cases hx : x = p
    · rw [hx, update_self]
      simp
    · rw [update_of_ne hx]
      simp [hx]
  constructor
  · rw [husable]
    exact hleft.siblings
  · intro x q
    rw [h.mem_moved hpr, ← hleft.known, hleft.parent]
  · intro x hx
    rw [husable]
    change s.Usable (t.parent x) ∧ t.parent x ≠ p
    rw [hleft.parent]
    by_cases hxp : x ∈ f p
    · simp only [hxp, if_true]
      exact ⟨hr, hpr.symm⟩
    · simp only [hxp, if_false]
      have hx' : x ∈ s.known := hleft.known ▸ hx
      exact ⟨h.parents x hx', fun heq => hxp ((h.mem_iff x p).mpr ⟨hx', heq⟩)⟩
  · exact hleft.known ▸ h.init_known
  · change t.parent initProc = initProc
    rw [hleft.parent]
    refine (if_neg fun hmem => hpi ?_).trans h.init_parent
    exact ((h.mem_iff _ p).mp hmem).2.symm.trans h.init_parent

theorem ListInv.heir_or (h : ListInv s f) (hp : p ∈ s.known) (hpi : p ≠ initProc)
    (hr : heir s p = some r ∨ f p = [] ∧ r = initProc) : s.Usable r ∧ p ≠ r := by
  rcases hr with hheir | ⟨-, rfl⟩
  · exact h.heir_usable hp hpi hheir
  · exact ⟨h.init_usable, hpi⟩

theorem namespaceFindRoot_congr (hn : t.taskNamespace = s.taskNamespace) (hq : t.parent = s.parent)
    (fuel : Nat) : namespaceFindRoot t fuel p = namespaceFindRoot s fuel p := by
  induction fuel generalizing p with
  | zero => rfl
  | succ fuel ih => simp only [namespaceFindRoot, hn, hq, ih]

theorem heir_congr (hk : t.known = s.known) (hn : t.taskNamespace = s.taskNamespace)
    (hq : t.parent = s.parent) : heir t p = heir s p := by
  simp only [heir, hn, hk, namespaceFindRoot_congr hn hq]

theorem ListInv.dies (h : ListInv s f) (hp : s.Usable p) (hpi : p ≠ initProc)
    (ht : Proc.leaveChildren { s with waited := update s.waited p false } p = some t) :
    ∃ r, (heir s p = some r ∨ f p = [] ∧ r = initProc) ∧ s.Usable r ∧ p ≠ r ∧
      Left { s with waited := update s.waited p false } t f p r ∧
      ListInv { t with dead := update t.dead p true } (moved f p r) := by
  have hw : ListInv { s with waited := update s.waited p false } f :=
    h.congr (by funext k; cases k <;> rfl) rfl rfl rfl rfl
  obtain ⟨r, hr, hleft⟩ := hw.leaveChildren hp hpi ht
  obtain ⟨husable, hpr⟩ := hw.heir_or hp.1 hpi hr
  have hheir : heir { s with waited := update s.waited p false } p = heir s p :=
    heir_congr rfl rfl rfl
  rw [hheir] at hr
  exact ⟨r, hr, husable, hpr, hleft, hleft.die hw hpi husable hpr⟩

theorem ListInv.place (h : ListInv s f) {u : Procs} {g : Nat → List Nat} (hpi : p ≠ initProc)
    (hsib : Siblings u.deref u.prevsib u.Usable g) (hg : ∀ x q, x ∈ g q ↔ x ∈ f q ∧ x ≠ p)
    (hknown : u.known = insert p s.known) (hparent : u.parent = s.parent)
    (husable : ∀ q, s.Usable q → u.Usable q) (hr : u.Usable r) :
    ListInv (u.linkFirst p r) (update g r (p :: g r)) := by
  have hparent' : (u.linkFirst p r).parent = update s.parent p r := by
    rw [Procs.linkFirst_other.parent, hparent]
  have hknown' : (u.linkFirst p r).known = insert p s.known := hknown
  have hold : ∀ x, x ∈ insert p s.known → x ≠ p → x ∈ s.known :=
    fun x hx hne => (Finset.mem_insert.mp hx).resolve_left hne
  constructor
  · rw [Procs.deref_linkFirst, Procs.prevsib_linkFirst]
    exact hsib.insert hr fun q hmem => ((hg p q).mp hmem).2 rfl
  · intro x q
    rw [hparent', hknown', Finset.mem_insert]
    by_cases hx : x = p
    · rw [hx, update_self]
      by_cases hq : q = r
      · rw [hq, update_self]
        simp
      · rw [update_of_ne hq, hg]
        exact ⟨fun hmem => absurd rfl hmem.2, fun hmem => absurd hmem.2.symm hq⟩
    · rw [update_of_ne hx]
      by_cases hq : q = r
      · rw [hq, update_self, mem_cons, hg, h.mem_iff]
        simp [hx]
      · rw [update_of_ne hq, hg, h.mem_iff]
        simp [hx]
  · intro x hx
    rw [hparent']
    change u.Usable _
    by_cases hxp : x = p
    · rw [hxp, update_self]
      exact hr
    · rw [update_of_ne hxp]
      exact husable _ (h.parents x (hold x (hknown' ▸ hx) hxp))
  · rw [hknown']
    exact Finset.mem_insert_of_mem h.init_known
  · rw [hparent', update_of_ne hpi.symm]
    exact h.init_parent

theorem ListInv.create (h : ListInv s f) (hp : p ∉ s.known) :
    ListInv (completeProc s p) (update f initProc (p :: f initProc)) := by
  have hpi : p ≠ initProc := fun heq => hp (heq ▸ h.init_known)
  have hnot : ¬ s.Usable p := fun hu => hp hu.1
  let u : Procs := { s with
    known := insert p s.known
    ochild := update s.ochild p none
    dead := update s.dead p false
    waited := update s.waited p false
    parentset := update s.parentset p false
    taskNamespace := update s.taskNamespace p none }
  have husable : u.Usable = fun q => s.Usable q ∨ q = p := by
    funext q
    simp only [Procs.Usable, u, Finset.mem_insert, eq_iff_iff]
    by_cases hq : q = p
    · rw [hq, update_self]
      simp
    · rw [update_of_ne hq]
      simp [hq]
  have hsib : Siblings u.deref u.prevsib u.Usable f := by
    rw [husable]
    have hframe : Siblings u.deref u.prevsib s.Usable f := by
      refine h.siblings.frame (fun q hq => ?_) (fun q _ a _ => rfl) (fun q _ a _ => rfl)
      have hqp : q ≠ p := fun heq => hnot (heq ▸ hq)
      change update s.ochild p none q = s.ochild q
      exact update_of_ne hqp none s.ochild
    refine hframe.addOwner (h.children_nil hnot) ?_
    change update s.ochild p none p = none
    exact update_self p none s.ochild
  have husable' : ∀ q, s.Usable q → u.Usable q := by
    intro q hq
    rw [husable]
    exact .inl hq
  refine h.place (u := u) hpi hsib ?_ rfl rfl husable' (husable' _ h.init_usable)
  intro x q
  refine ⟨fun hx => ⟨hx, ?_⟩, fun hx => hx.1⟩
  rintro rfl
  exact hp ((h.mem_iff x q).mp hx).1

theorem ListInv.move (h : ListInv s f) (hp : p ∈ s.known) (hpi : p ≠ initProc) (hr : s.Usable r) :
    ListInv ((s.unlink p).linkFirst p r)
      (update (without f s p) r (p :: without f s p r)) := by
  have hsame : Procs.SameButLinks s (s.unlink p) := Procs.sameButLinks_unlink
  have husable := usable_congr hsame.known hsame.dead
  refine h.place hpi (husable.symm ▸ h.unlink hp) (fun x q => h.mem_without hp) ?_
    hsame.parent (fun q hq => husable.symm ▸ hq) (husable.symm ▸ hr)
  rw [hsame.known, Finset.insert_eq_of_mem hp]

theorem ListInv.child (h : ListInv s f) (hr : s.Usable r) (hp : s.Usable p) (hpi : p ≠ initProc)
    (hs : procChild s r p = some t) :
    s.parentset p = true ∧ t = s ∨ s.parentset p = false ∧ s.parent p = initProc ∧
      t.parent = update s.parent p r ∧ t.known = s.known ∧ t.dead = s.dead ∧
      t.waited = s.waited ∧ t.parentset = update s.parentset p true ∧
      ListInv t (update (without f s p) r (p :: without f s p r)) := by
  unfold procChild at hs
  split at hs
  · rename_i hset
    exact .inl ⟨hset, (some.inj hs).symm⟩
  · rename_i hset
    have hsame : Procs.SameButLinks s (s.unlink p) := Procs.sameButLinks_unlink
    have hmove := h.move hp.1 hpi hr
    have hparent : ((s.unlink p).linkFirst p r).parent = update s.parent p r := by
      rw [Procs.linkFirst_other.parent, hsame.parent]
    have hpset : ((s.unlink p).linkFirst p r).parentset = s.parentset := hsame.parentset
    split at hs
    · cases hs
    · rename_i hinit
      simp only at hs
      refine .inr ⟨by simpa using hset, by simpa using hinit, ?_⟩
      split at hs
      all_goals
        cases hs
        refine ⟨hparent, hsame.known, hsame.dead, hsame.waited, by rw [← hpset], ?_⟩
        exact hmove.congr (by funext k; cases k <;> rfl) rfl rfl rfl rfl

theorem createInitProc_lists :
    ListInv createInitProc fun q => if q = initProc then [initProc] else [] := by
  have hmem : ∀ p q : Nat, p ∈ (if q = initProc then [initProc] else []) ↔
      p = initProc ∧ initProc = q := by
    intro p q
    by_cases hq : q = initProc
    · simp [hq]
    · simp [hq, Ne.symm hq]
  refine ⟨⟨?_, ?_, ?_⟩, ?_, ?_, ?_, ?_⟩
  · intro q hq
    have hqi : q = initProc := Finset.mem_singleton.mp hq.1
    rw [if_pos hqi, hqi]
    exact ⟨rfl, rfl, rfl⟩
  · intro q
    by_cases hq : q = initProc
    · simp [hq]
    · simp [hq]
  · intro q r p hq hr
    exact ((hmem p q).mp hq).2.symm.trans ((hmem p r).mp hr).2
  · intro p q
    rw [hmem]
    exact and_congr_left fun _ => Finset.mem_singleton.symm
  · exact fun p hp => ⟨Finset.mem_singleton_self _, rfl⟩
  · exact Finset.mem_singleton_self _
  · rfl

end Invariant

end Hurd.Proc
