import Mathlib.Data.Finset.Insert
import Mathlib.Data.Finset.Erase
import Hurd.Framework.BackLinked

/-!
# Rosters

Elements that are each in the list of one owner, which they name. An element joins the list of the
owner that it names, and leaves the list that it is in.
-/

namespace Hurd

open Function List

/-- The lists of elements, and the owner that each element names. -/
structure Roster (ι : Type*) where
  first : ι → Option ι
  next : ι → Option ι
  back : ι → Link ι
  owner : ι → ι

namespace Roster

variable {ι : Type*} (r : Roster ι)

def deref : Link ι → Option ι
  | .first q => r.first q
  | .next p => r.next p

variable [DecidableEq ι]

/-- `*l = v` -/
def store (l : Link ι) (v : Option ι) : Roster ι :=
  match l with
  | .first q => { r with first := update r.first q v }
  | .next p => { r with next := update r.next p v }

/-- The element is put in front of the list of its owner. -/
def join (p : ι) : Roster ι :=
  { r with
    next := update r.next p (r.first (r.owner p))
    back := setBack (update r.back p (.first (r.owner p))) (r.first (r.owner p)) (.next p)
    first := update r.first (r.owner p) (some p) }

/-- The element is taken out of the list that it is in. -/
def leave (p : ι) : Roster ι :=
  let r := r.store (r.back p) (r.next p)
  { r with back := setBack r.back (r.next p) (r.back p) }

def setOwner (p q : ι) : Roster ι := { r with owner := update r.owner p q }

/-- A new owner has no elements. -/
def addOwner (q : ι) : Roster ι := { r with first := update r.first q none }

/-- The lists of the owners `P` have the elements `K` in them, each in the list of its owner. -/
def Lists (P K : Finset ι) (f : ι → List ι) : Prop :=
  Siblings r.deref r.back (· ∈ P) f ∧ (∀ p q, p ∈ f q ↔ p ∈ K ∧ r.owner p = q) ∧
    ∀ p ∈ K, r.owner p ∈ P

/-- Each element is in the list of its owner and in no other one. -/
def Ok (P K : Finset ι) : Prop := ∃ f, r.Lists P K f

variable {r} {P K : Finset ι} {p q : ι} {f : ι → List ι}

theorem deref_store (l : Link ι) (v : Option ι) : (r.store l v).deref = update r.deref l v := by
  funext k
  cases l with
  | first q =>
    cases k with
    | first a =>
      by_cases h : a = q
      · rw [h, update_self]
        exact update_self q v r.first
      · rw [update_of_ne (by simpa using h)]
        exact update_of_ne h v r.first
    | next a => rw [update_of_ne (by simp)]; rfl
  | next q =>
    cases k with
    | first a => rw [update_of_ne (by simp)]; rfl
    | next a =>
      by_cases h : a = q
      · rw [h, update_self]
        exact update_self q v r.next
      · rw [update_of_ne (by simpa using h)]
        exact update_of_ne h v r.next

theorem deref_join : (r.join p).deref =
    update (update r.deref (.next p) (r.deref (.first (r.owner p)))) (.first (r.owner p))
      (some p) := by
  have hnext : (r.store (.next p) (r.first (r.owner p))).deref = _ := deref_store _ _
  have hboth : ((r.store (.next p) (r.first (r.owner p))).store (.first (r.owner p))
      (some p)).deref = _ := deref_store _ _
  rw [hnext] at hboth
  rw [← show r.first (r.owner p) = r.deref (.first (r.owner p)) from rfl, ← hboth]
  funext k
  cases k <;> rfl

theorem owner_setOwner : (r.setOwner p q).owner = update r.owner p q := rfl

@[simp] theorem owner_join : (r.join p).owner = r.owner := rfl

@[simp] theorem owner_store (l : Link ι) (v : Option ι) : (r.store l v).owner = r.owner := by
  cases l <;> rfl

@[simp] theorem owner_leave : (r.leave p).owner = r.owner :=
  owner_store _ _

theorem back_store (l : Link ι) (v : Option ι) : (r.store l v).back = r.back := by
  cases l <;> rfl

theorem Lists.join (h : r.Lists P K f) (hp : p ∉ K) (hq : r.owner p ∈ P) :
    (r.join p).Lists P (insert p K) (update f (r.owner p) (p :: f (r.owner p))) := by
  obtain ⟨hsib, hmem, hown⟩ := h
  have hnone : ∀ q, p ∉ f q := fun q hpq => hp ((hmem p q).mp hpq).1
  refine ⟨?_, ?_, ?_⟩
  · rw [deref_join]
    exact hsib.insert hq hnone
  · intro x q
    rw [Finset.mem_insert, owner_join]
    by_cases hq : q = r.owner p
    · rw [hq, update_self, mem_cons, hmem]
      constructor
      · rintro (rfl | hx)
        · exact ⟨.inl rfl, rfl⟩
        · exact ⟨.inr hx.1, hx.2⟩
      · rintro ⟨rfl | hx, hxq⟩
        · exact .inl rfl
        · exact .inr ⟨hx, hxq⟩
    · rw [update_of_ne hq, hmem]
      refine ⟨fun hx => ⟨.inr hx.1, hx.2⟩, fun hx => ⟨hx.1.resolve_left ?_, hx.2⟩⟩
      rintro rfl
      exact hq hx.2.symm
  · intro x hx
    rcases Finset.mem_insert.mp hx with rfl | hx
    · exact hq
    · exact hown x hx

theorem Lists.leave (h : r.Lists P K f) (hp : p ∈ K) :
    (r.leave p).Lists P (K.erase p) (update f (r.owner p) ((f (r.owner p)).erase p)) := by
  obtain ⟨hsib, hmem, hown⟩ := h
  have hpf : p ∈ f (r.owner p) := (hmem p _).mpr ⟨hp, rfl⟩
  have hlist := hsib.linked _ (hown p hp)
  have hne : r.next p ≠ some p := hlist.next_ne hpf (hsib.nodup _)
  have hback : r.back p ≠ .next p := by
    intro heq
    have hderef := hlist.deref_back hpf
    rw [heq] at hderef
    exact hne hderef
  have hnext : (r.store (r.back p) (r.next p)).next p = r.next p := by
    change (r.store (r.back p) (r.next p)).deref (.next p) = r.deref (.next p)
    rw [deref_store, update_of_ne hback.symm]
  refine ⟨?_, ?_, ?_⟩
  · have hd : (r.leave p).deref = update r.deref (r.back p) (r.deref (.next p)) := by
      rw [← show r.next p = r.deref (.next p) from rfl, ← deref_store]
      funext k
      cases k <;> rfl
    have hb : (r.leave p).back = setBack r.back (r.deref (.next p)) (r.back p) := by
      change setBack (r.store _ _).back ((r.store _ _).next p) ((r.store _ _).back p) = _
      rw [hnext, back_store]
      rfl
    rw [hd, hb]
    exact hsib.remove (hown p hp) hpf
  · intro x q
    rw [Finset.mem_erase, owner_leave]
    by_cases hq : q = r.owner p
    · rw [hq, update_self, (hsib.nodup _).mem_erase_iff, hmem]
      exact ⟨fun hx => ⟨⟨hx.1, hx.2.1⟩, hx.2.2⟩, fun hx => ⟨hx.1.1, hx.1.2, hx.2⟩⟩
    · rw [update_of_ne hq, hmem]
      refine ⟨fun hx => ⟨⟨?_, hx.1⟩, hx.2⟩, fun hx => ⟨hx.1.2, hx.2⟩⟩
      rintro rfl
      exact hq hx.2.symm
  · intro x hx
    rw [owner_leave]
    exact hown x (Finset.mem_of_mem_erase hx)

omit [DecidableEq ι] in
theorem ok_empty : r.Ok ∅ ∅ :=
  ⟨fun _ => [], ⟨fun q hq => absurd hq (Finset.notMem_empty q), fun _ => nodup_nil,
    fun _ _ _ hp => absurd hp not_mem_nil⟩, fun _ _ => by simp, fun p hp =>
      absurd hp (Finset.notMem_empty p)⟩

omit [DecidableEq ι] in
theorem Ok.first_eq_none_iff (h : r.Ok P K) (hq : q ∈ P) :
    r.first q = none ↔ ∀ p ∈ K, r.owner p ≠ q := by
  obtain ⟨f, hsib, hmem, -⟩ := h
  have hlist := hsib.linked q hq
  constructor
  · intro hnone p hp hpq
    have hpf : p ∈ f q := (hmem p q).mpr ⟨hp, hpq⟩
    cases hf : f q with
    | nil =>
      rw [hf] at hpf
      cases hpf
    | cons a ps =>
      rw [hf] at hlist
      exact absurd (hlist.1.symm.trans hnone) (by simp)
  · intro hnone
    cases hf : f q with
    | nil =>
      rw [hf] at hlist
      exact hlist
    | cons a ps =>
      have ha : a ∈ f q := by rw [hf]; exact mem_cons_self
      exact absurd ((hmem a q).mp ha).2 (hnone a ((hmem a q).mp ha).1)

omit [DecidableEq ι] in
theorem Ok.owner_mem (h : r.Ok P K) (hp : p ∈ K) : r.owner p ∈ P := by
  obtain ⟨f, -, -, hown⟩ := h
  exact hown p hp

theorem Ok.join (h : r.Ok P K) (hp : p ∉ K) (hq : r.owner p ∈ P) :
    (r.join p).Ok P (insert p K) := by
  obtain ⟨f, hf⟩ := h
  exact ⟨_, hf.join hp hq⟩

theorem Ok.leave (h : r.Ok P K) (hp : p ∈ K) : (r.leave p).Ok P (K.erase p) := by
  obtain ⟨f, hf⟩ := h
  exact ⟨_, hf.leave hp⟩

theorem Ok.setOwner (h : r.Ok P K) (hp : p ∉ K) (q : ι) : (r.setOwner p q).Ok P K := by
  obtain ⟨f, hsib, hmem, hown⟩ := h
  have hsame : ∀ x ∈ K, (r.setOwner p q).owner x = r.owner x := by
    intro x hx
    exact update_of_ne (fun heq : x = p => hp (heq ▸ hx)) q r.owner
  refine ⟨f, ⟨hsib.linked, hsib.nodup, hsib.apart⟩, fun x y => ?_, fun x hx => ?_⟩
  · rw [hmem]
    exact and_congr_right fun hx => by rw [hsame x hx]
  · rw [hsame x hx]
    exact hown x hx

theorem Ok.addOwner (h : r.Ok P K) (hq : q ∉ P) : (r.addOwner q).Ok (insert q P) K := by
  obtain ⟨f, hsib, hmem, hown⟩ := h
  have hnil : f q = [] := by
    rw [eq_nil_iff_forall_not_mem]
    intro p hp
    obtain ⟨hp, hpq⟩ := (hmem p q).mp hp
    exact hq (hpq ▸ hown p hp)
  have hframe : Siblings (r.addOwner q).deref (r.addOwner q).back (· ∈ P) f := by
    refine hsib.frame (fun x hx => ?_) (fun _ _ _ _ => rfl) (fun _ _ _ _ => rfl)
    change update r.first q none x = r.first x
    exact update_of_ne (fun heq : x = q => hq (heq ▸ hx)) none r.first
  have hnone : (r.addOwner q).deref (.first q) = none := by
    change update r.first q none q = none
    exact update_self q none r.first
  refine ⟨f, (hframe.addOwner hnil hnone).mono fun x hx => ?_, hmem, fun p hp => ?_⟩
  · exact (Finset.mem_insert.mp hx).symm
  · exact Finset.mem_insert_of_mem (hown p hp)

theorem Ok.dropOwner (h : r.Ok P K) (hq : ∀ p ∈ K, r.owner p ≠ q) : r.Ok (P.erase q) K := by
  obtain ⟨f, hsib, hmem, hown⟩ := h
  refine ⟨f, hsib.mono fun x hx => Finset.mem_of_mem_erase hx, hmem, fun p hp => ?_⟩
  exact Finset.mem_erase.mpr ⟨hq p hp, hown p hp⟩

end Roster

end Hurd
