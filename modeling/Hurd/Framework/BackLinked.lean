import Mathlib.Data.List.Nodup

/-!
# Lists with back pointers

Singly linked lists whose elements also point back at the link that points to them, so that an
element can be taken out without a search. A link is the head of a list, which belongs to an owner,
or the next pointer of an element.
-/

namespace Hurd

open Function List Option

/-- A place that points to an element. -/
inductive Link (ι : Type*) where
  | first (owner : ι)
  | next (elem : ι)
  deriving DecidableEq

section Lists

variable {ι : Type*} {d e : Link ι → Option ι} {b c : ι → Link ι} {k l : Link ι} {p x : ι}
  {ps rs : List ι}

/-- From the link on, `d` leads through the list, and `b` points back. -/
def BackLinked (d : Link ι → Option ι) (b : ι → Link ι) : Link ι → List ι → Prop
  | l, [] => d l = none
  | l, p :: ps => d l = some p ∧ b p = l ∧ BackLinked d b (.next p) ps

theorem BackLinked.congr (h : BackLinked d b l ps) (hl : e k = d l)
    (hd : ∀ a ∈ ps, e (.next a) = d (.next a)) (hfirst : ∀ a, d l = some a → c a = k)
    (hb : ∀ a ∈ ps, d l ≠ some a → c a = b a) (hn : ps.Nodup) : BackLinked e c k ps := by
  induction ps generalizing l k with
  | nil => exact hl.trans h
  | cons p ps ih =>
    obtain ⟨hp, hback, hrest⟩ := h
    have hnot : p ∉ ps := (nodup_cons.mp hn).1
    have hc : ∀ a ∈ ps, c a = b a := by
      intro a ha
      refine hb a (mem_cons_of_mem p ha) fun heq => hnot ?_
      rw [some.inj (hp.symm.trans heq)]
      exact ha
    refine ⟨hl.trans hp, hfirst p hp, ?_⟩
    refine ih hrest (hd p mem_cons_self) (fun a ha => hd a (mem_cons_of_mem p ha)) ?_
      (fun a ha _ => hc a ha) (nodup_cons.mp hn).2
    intro a ha
    cases ps with
    | nil => exact absurd (hrest.symm.trans ha) (by simp)
    | cons x xs =>
      obtain rfl : x = a := some.inj (hrest.1.symm.trans ha)
      rw [hc x mem_cons_self, hrest.2.1]

theorem BackLinked.frame (h : BackLinked d b l ps) (hl : e l = d l)
    (hd : ∀ a ∈ ps, e (.next a) = d (.next a)) (hb : ∀ a ∈ ps, c a = b a) :
    BackLinked e c l ps := by
  induction ps generalizing l with
  | nil => exact hl.trans h
  | cons p ps ih =>
    obtain ⟨hp, hback, hrest⟩ := h
    refine ⟨hl.trans hp, (hb p mem_cons_self).trans hback, ?_⟩
    exact ih hrest (hd p mem_cons_self) (fun a ha => hd a (mem_cons_of_mem p ha))
      (fun a ha => hb a (mem_cons_of_mem p ha))

theorem BackLinked.first_mem (h : BackLinked d b l ps) (hx : d l = some x) : x ∈ ps ∧ b x = l := by
  cases ps with
  | nil => exact absurd (h.symm.trans hx) (by simp)
  | cons p ps =>
    obtain rfl : p = x := some.inj (h.1.symm.trans hx)
    exact ⟨mem_cons_self, h.2.1⟩

theorem BackLinked.next_mem (h : BackLinked d b l ps) (hp : p ∈ ps) (hx : d (.next p) = some x) :
    x ∈ ps ∧ b x = .next p := by
  induction ps generalizing l with
  | nil => cases hp
  | cons a ps ih =>
    rcases mem_cons.mp hp with rfl | hp
    · obtain ⟨hmem, hback⟩ := h.2.2.first_mem hx
      exact ⟨mem_cons_of_mem p hmem, hback⟩
    · obtain ⟨hmem, hback⟩ := ih h.2.2 hp
      exact ⟨mem_cons_of_mem a hmem, hback⟩

theorem BackLinked.next_ne (h : BackLinked d b l ps) (hp : p ∈ ps) (hn : ps.Nodup) :
    d (.next p) ≠ some p := by
  induction ps generalizing l with
  | nil => cases hp
  | cons a ps ih =>
    rcases mem_cons.mp hp with rfl | hp
    · exact fun hx => (nodup_cons.mp hn).1 (h.2.2.first_mem hx).1
    · exact ih h.2.2 hp (nodup_cons.mp hn).2

theorem BackLinked.deref_back (h : BackLinked d b l ps) (hp : p ∈ ps) : d (b p) = some p := by
  induction ps generalizing l with
  | nil => cases hp
  | cons a ps ih =>
    rcases mem_cons.mp hp with rfl | hp
    · rw [h.2.1]
      exact h.1
    · exact ih h.2.2 hp

theorem BackLinked.back_cases (h : BackLinked d b l ps) (hp : p ∈ ps) :
    b p = l ∨ ∃ a ∈ ps, b p = .next a := by
  induction ps generalizing l with
  | nil => cases hp
  | cons a ps ih =>
    rcases mem_cons.mp hp with rfl | hp
    · exact .inl h.2.1
    · rcases ih h.2.2 hp with heq | ⟨x, hx, heq⟩
      · exact .inr ⟨a, mem_cons_self, heq⟩
      · exact .inr ⟨x, mem_cons_of_mem a hx, heq⟩

variable [DecidableEq ι]

/-- The element, if there is one, points back at another link. -/
def setBack (b : ι → Link ι) (o : Option ι) (l : Link ι) : ι → Link ι :=
  match o with
  | none => b
  | some x => update b x l

theorem setBack_of_eq (hx : d k = some x) : setBack b (d k) l x = l := by
  rw [hx]
  exact update_self x l b

theorem setBack_of_ne {o : Option ι} (hx : o ≠ some x) : setBack b o l x = b x := by
  cases o with
  | none => rfl
  | some y => exact update_of_ne (fun h => hx (by rw [h])) _ _

theorem BackLinked.remove (h : BackLinked d b l ps) (hp : p ∈ ps) (hn : ps.Nodup)
    (hl : ∀ a ∈ ps, l ≠ .next a) :
    BackLinked (update d (b p) (d (.next p))) (setBack b (d (.next p)) (b p)) l (ps.erase p) := by
  induction ps generalizing l with
  | nil => cases hp
  | cons a ps ih =>
    obtain ⟨hnot, hn'⟩ := nodup_cons.mp hn
    have hback := h.deref_back hp
    obtain ⟨ha, hab, hrest⟩ := h
    by_cases hpa : p = a
    · subst hpa
      rw [erase_cons_head, hab]
      refine hrest.congr (update_self _ _ _) ?_ (fun x hx => setBack_of_eq hx)
        (fun x _ hx => setBack_of_ne hx) hn'
      intro x hx
      exact update_of_ne (hl x (mem_cons_of_mem p hx)).symm _ _
    · have hps : p ∈ ps := (mem_cons.mp hp).resolve_left hpa
      rw [erase_cons_tail (by simpa using fun h => hpa h.symm)]
      refine ⟨?_, ?_, ?_⟩
      · rw [update_of_ne]
        · exact ha
        · rintro rfl
          exact hpa (some.inj (hback.symm.trans ha))
      · rw [setBack_of_ne]
        · exact hab
        · intro hx
          obtain ⟨-, hx⟩ := hrest.next_mem hps hx
          exact hl p hp (hab.symm.trans hx)
      · exact ih hrest hps hn' fun x hx h => hnot (by rw [Link.next.inj h]; exact hx)

theorem BackLinked.rebase (h : BackLinked d b k ps) (hn : ps.Nodup) (hl : ∀ a ∈ ps, l ≠ .next a) :
    BackLinked (update d l (d k)) (setBack b (d k) l) l ps := by
  refine h.congr (update_self _ _ _) ?_ (fun a ha => setBack_of_eq ha)
    (fun a _ ha => setBack_of_ne ha) hn
  intro a ha
  exact update_of_ne (hl a ha).symm _ _

theorem BackLinked.insert (h : BackLinked d b l ps) (hn : (p :: ps).Nodup)
    (hl : ∀ a ∈ p :: ps, l ≠ .next a) :
    BackLinked (update (update d (.next p) (d l)) l (some p))
      (setBack (update b p l) (d l) (.next p)) l (p :: ps) := by
  have hnp : p ∉ ps := (nodup_cons.mp hn).1
  refine ⟨update_self _ _ _, ?_, ?_⟩
  · rw [setBack_of_ne fun heq => hnp (h.first_mem heq).1]
    exact update_self _ _ _
  have hrest : BackLinked (update d (.next p) (d l)) (setBack b (d l) (.next p)) (.next p) ps :=
    h.rebase (nodup_cons.mp hn).2 fun a ha heq => hnp (by rw [Link.next.inj heq]; exact ha)
  apply hrest.frame
  · exact update_of_ne (hl p mem_cons_self).symm _ _
  · exact fun a ha => update_of_ne (hl a (mem_cons_of_mem p ha)).symm _ _
  · intro a ha
    by_cases heq : d l = some a
    · rw [setBack_of_eq heq, setBack_of_eq heq]
    · rw [setBack_of_ne heq, setBack_of_ne heq, update_of_ne fun hap : a = p => hnp (hap ▸ ha)]

theorem BackLinked.join {z : ι} (h : BackLinked d b k (ps ++ [z])) (hr : BackLinked d b l rs)
    (hn : (ps ++ z :: rs).Nodup) (hk : ∀ a ∈ ps ++ [z], k ≠ .next a) :
    BackLinked (update d (.next z) (d l)) (setBack b (d l) (.next z)) k (ps ++ z :: rs) := by
  induction ps generalizing k with
  | nil =>
    have hz : z ∉ rs := (nodup_cons.mp hn).1
    refine ⟨?_, ?_, ?_⟩
    · rw [update_of_ne (hk z mem_cons_self)]
      exact h.1
    · rw [setBack_of_ne fun heq => hz (hr.first_mem heq).1]
      exact h.2.1
    · exact hr.rebase (nodup_cons.mp hn).2
        fun a ha heq => hz (by rw [Link.next.inj heq]; exact ha)
  | cons a ps ih =>
    obtain ⟨hnot, hn⟩ := nodup_cons.mp hn
    obtain ⟨ha, hab, hrest⟩ := h
    refine ⟨?_, ?_, ?_⟩
    · rw [update_of_ne (hk z (by simp))]
      exact ha
    · rw [setBack_of_ne fun heq => hnot (mem_append_right ps
        (mem_cons_of_mem z (hr.first_mem heq).1))]
      exact hab
    · refine ih hrest hn fun x hx heq => hnot ?_
      rw [Link.next.inj heq]
      rcases mem_append.mp hx with hx | hx
      · exact mem_append_left _ hx
      · rw [mem_singleton.mp hx]
        simp

theorem BackLinked.splice {z : ι} (h : BackLinked d b k (ps ++ [z])) (hr : BackLinked d b l rs)
    (hn : (ps ++ z :: rs).Nodup) (hk : ∀ a ∈ ps ++ [z], k ≠ .next a)
    (hl : ∀ a ∈ ps ++ z :: rs, l ≠ .next a) :
    BackLinked (update (update d (.next z) (d l)) l (d k))
      (setBack (setBack b (d l) (.next z)) (d k) l) l (ps ++ z :: rs) := by
  have hjoin := h.join hr hn hk
  have hkz : update d (.next z) (d l) k = d k := update_of_ne (hk z (by simp)) _ _
  have hmoved := hjoin.rebase hn hl
  rwa [hkz] at hmoved

end Lists

section Families

variable {ι : Type*} {d e : Link ι → Option ι} {b c : ι → Link ι} {P Q : ι → Prop}
  {f : ι → List ι} {p q r : ι}

/-- A family of lists without common elements; those of the owners in `P` are linked. -/
structure Siblings (d : Link ι → Option ι) (b : ι → Link ι) (P : ι → Prop) (f : ι → List ι) :
    Prop where
  linked : ∀ q, P q → BackLinked d b (.first q) (f q)
  nodup : ∀ q, (f q).Nodup
  apart : ∀ q r p, p ∈ f q → p ∈ f r → q = r

theorem Siblings.mono (h : Siblings d b P f) (hQ : ∀ q, Q q → P q) : Siblings d b Q f :=
  ⟨fun q hq => h.linked q (hQ q hq), h.nodup, h.apart⟩

theorem Siblings.frame (h : Siblings d b P f) (hfirst : ∀ q, P q → e (.first q) = d (.first q))
    (hnext : ∀ q, P q → ∀ a ∈ f q, e (.next a) = d (.next a))
    (hback : ∀ q, P q → ∀ a ∈ f q, c a = b a) : Siblings e c P f :=
  ⟨fun q hq => (h.linked q hq).frame (hfirst q hq) (hnext q hq) (hback q hq), h.nodup, h.apart⟩

theorem Siblings.addOwner (h : Siblings d b P f) (hf : f p = []) (hd : d (.first p) = none) :
    Siblings d b (fun q => P q ∨ q = p) f := by
  refine ⟨fun q hq => ?_, h.nodup, h.apart⟩
  rcases hq with hq | rfl
  · exact h.linked q hq
  · rw [hf]
    exact hd

variable [DecidableEq ι]

theorem Siblings.replace {l : List ι} (h : Siblings d b P f)
    (hlinked : ∀ q, Q q → q ≠ r → BackLinked e c (.first q) (f q))
    (hr : BackLinked e c (.first r) l) (hl : l.Nodup) (hapart : ∀ q, q ≠ r → ∀ p ∈ l, p ∉ f q) :
    Siblings e c Q (update f r l) := by
  refine ⟨fun q hq => ?_, fun q => ?_, fun q q' p hp hp' => ?_⟩
  · by_cases hqr : q = r
    · rw [hqr, update_self]
      exact hr
    · rw [update_of_ne hqr]
      exact hlinked q hq hqr
  · by_cases hqr : q = r
    · rw [hqr, update_self]
      exact hl
    · rw [update_of_ne hqr]
      exact h.nodup q
  · by_cases hqr : q = r
    · by_cases hqr' : q' = r
      · rw [hqr, hqr']
      · rw [hqr, update_self] at hp
        rw [update_of_ne hqr'] at hp'
        exact absurd hp' (hapart q' hqr' p hp)
    · rw [update_of_ne hqr] at hp
      by_cases hqr' : q' = r
      · rw [hqr', update_self] at hp'
        exact absurd hp (hapart q hqr p hp')
      · rw [update_of_ne hqr'] at hp'
        exact h.apart q q' p hp hp'

theorem Siblings.insert (h : Siblings d b P f) (hq : P q) (hp : ∀ q, p ∉ f q) :
    Siblings (update (update d (.next p) (d (.first q))) (.first q) (some p))
      (setBack (update b p (.first q)) (d (.first q)) (.next p)) P
      (update f q (p :: f q)) := by
  have hn : (p :: f q).Nodup := nodup_cons.mpr ⟨hp q, h.nodup q⟩
  apply h.replace
  · intro r hr hne
    apply (h.linked r hr).frame
    · rw [update_of_ne (by simpa using hne), update_of_ne (by simp)]
    · intro a ha
      have hap : a ≠ p := fun heq => hp r (heq ▸ ha)
      rw [update_of_ne (by simp), update_of_ne (by simpa using hap)]
    · intro a ha
      rw [setBack_of_ne fun heq => hne (h.apart r q a ha ((h.linked q hq).first_mem heq).1),
        update_of_ne fun heq : a = p => hp r (heq ▸ ha)]
  · exact (h.linked q hq).insert hn fun a _ => by simp
  · exact hn
  · intro r hr a ha har
    rcases mem_cons.mp ha with rfl | ha
    · exact hp r har
    · exact hr (h.apart r q a har ha)

theorem Siblings.remove (h : Siblings d b P f) (hq : P q) (hp : p ∈ f q) :
    Siblings (update d (b p) (d (.next p))) (setBack b (d (.next p)) (b p)) P
      (update f q ((f q).erase p)) := by
  have hlist := h.linked q hq
  apply h.replace
  · intro r hr hne
    apply (h.linked r hr).frame
    · apply update_of_ne
      rcases hlist.back_cases hp with heq | ⟨a, -, heq⟩
      · rw [heq]
        simpa using hne
      · rw [heq]
        simp
    · intro a ha
      apply update_of_ne
      rcases hlist.back_cases hp with heq | ⟨x, hx, heq⟩
      · rw [heq]
        simp
      · rw [heq]
        intro hax
        rw [← Link.next.inj hax] at hx
        exact hne (h.apart r q a ha hx)
    · intro a ha
      apply setBack_of_ne
      exact fun heq => hne (h.apart r q a ha (hlist.next_mem hp heq).1)
  · exact hlist.remove hp (h.nodup q) fun a _ => by simp
  · exact (h.nodup q).erase p
  · intro r hr a ha har
    exact hr (h.apart r q a har (mem_of_mem_erase ha))

theorem Siblings.splice {ps : List ι} {z : ι} (h : Siblings d b P f) (hq : P q) (hr : P r)
    (hqr : q ≠ r) (hz : f q = ps ++ [z]) :
    Siblings (update (update d (.next z) (d (.first r))) (.first r) (d (.first q)))
      (setBack (setBack b (d (.first r)) (.next z)) (d (.first q)) (.first r))
      (fun x => P x ∧ x ≠ q) (update (update f q []) r (f q ++ f r)) := by
  have hlq := h.linked q hq
  have hlr := h.linked r hr
  have happ : f q ++ f r = ps ++ z :: f r := by rw [hz, append_assoc, singleton_append]
  have hn : (f q ++ f r).Nodup := by
    refine nodup_append.mpr ⟨h.nodup q, h.nodup r, fun a ha c hc heq => ?_⟩
    exact hqr (h.apart q r a ha (heq ▸ hc))
  have hgiven : Siblings d b (fun x => P x ∧ x ≠ q) (update f q []) := by
    refine ⟨fun x hx => ?_, fun x => ?_, fun x y a hx hy => ?_⟩
    · rw [update_of_ne hx.2]
      exact h.linked x hx.1
    · by_cases hxq : x = q
      · rw [hxq, update_self]
        exact nodup_nil
      · rw [update_of_ne hxq]
        exact h.nodup x
    · by_cases hxq : x = q
      · rw [hxq, update_self] at hx
        cases hx
      · by_cases hyq : y = q
        · rw [hyq, update_self] at hy
          cases hy
        · rw [update_of_ne hxq] at hx
          rw [update_of_ne hyq] at hy
          exact h.apart x y a hx hy
  apply hgiven.replace
  · intro x hx hne
    rw [update_of_ne hx.2]
    apply (h.linked x hx.1).frame
    · rw [update_of_ne (by simpa using hne), update_of_ne (by simp)]
    · intro a ha
      have haz : a ≠ z := by
        rintro rfl
        exact hx.2 (h.apart x q a ha (by rw [hz]; simp))
      rw [update_of_ne (by simp), update_of_ne (by simpa using haz)]
    · intro a ha
      rw [setBack_of_ne fun heq => hx.2 (h.apart x q a ha (hlq.first_mem heq).1), setBack_of_ne]
      exact fun heq => hne (h.apart x r a ha (hlr.first_mem heq).1)
  · rw [hz] at hlq
    rw [happ] at hn ⊢
    exact hlq.splice hlr hn (fun a _ => by simp) (fun a _ => by simp)
  · exact hn
  · intro x hx a ha hax
    by_cases hxq : x = q
    · rw [hxq, update_self] at hax
      cases hax
    · rw [update_of_ne hxq] at hax
      rcases mem_append.mp ha with ha | ha
      · exact hxq (h.apart x q a hax ha)
      · exact hx (h.apart x r a hax ha)

end Families

end Hurd
