import Hurd.Framework.Climb
import Hurd.Proc.ChildLists

/-!
# The processes form a tree

Every process is once in the list of its parent, points back at the link that points to it, has a
parent that is not dead, and gets to init from parent to parent.
-/

namespace Hurd.Proc

open Function Relation Finset

/-- The second process is the parent of the first one. -/
def Procs.Under (s : Procs) (p q : Nat) : Prop := s.parent p = q

/-- `f` gives the children of each process, and all are below init. -/
structure TreeInv (s : Procs) (f : Nat → List Nat) : Prop extends ListInv s f where
  climbs : ∀ p ∈ s.known, ReflTransGen s.Under p initProc

section Invariant

variable {s t : Procs} {f : Nat → List Nat} {p q r : Nat}

theorem under_rightUnique : Relator.RightUnique s.Under := by
  intro a b c hb hc
  exact hb.symm.trans hc

theorem under_congr (hparent : t.parent = s.parent) : t.Under = s.Under := by
  funext a b
  simp only [Procs.Under, hparent]

theorem TreeInv.congr (h : TreeInv s f) (hderef : t.deref = s.deref) (hback : t.prevsib = s.prevsib)
    (hknown : t.known = s.known) (hparent : t.parent = s.parent) (hdead : t.dead = s.dead) :
    TreeInv t f := by
  refine ⟨h.toListInv.congr hderef hback hknown hparent hdead, ?_⟩
  rw [hknown, under_congr hparent]
  exact h.climbs

theorem TreeInv.not_under_init (h : TreeInv s f) (hpi : p ≠ initProc) :
    ¬ ReflTransGen s.Under initProc p :=
  fun hclimb => hpi (eq_of_climb_self (fun _ hb => hb.symm.trans h.init_parent) hclimb)

theorem TreeInv.completeExit (h : TreeInv s f) (hp : p ∈ s.known) (hdead : s.dead p = true) :
    TreeInv { s.unlink p with known := s.known.erase p } (without f s p) := by
  have hsame : Procs.SameButLinks s (s.unlink p) := Procs.sameButLinks_unlink
  refine ⟨h.toListInv.completeExit hp hdead, fun x hx => ?_⟩
  have hunder : Procs.Under { s.unlink p with known := s.known.erase p } = s.Under :=
    under_congr hsame.parent
  rw [hunder]
  exact h.climbs x (mem_of_mem_erase hx)

theorem TreeInv.not_child_above (h : TreeInv s f) (hp : p ∈ s.known) (hpi : p ≠ initProc) {x : Nat}
    (hr : ReflTransGen s.Under p r) (hx : ReflTransGen s.Under r x) : x ∉ f p := by
  intro hmem
  have hback : s.Under x p := ((h.mem_iff x p).mp hmem).2
  have hcircle : TransGen s.Under p p := TransGen.tail' (hr.trans hx) hback
  exact h.not_under_init hpi (climb_back under_rightUnique hcircle (h.climbs p hp))

theorem root_above {fuel tp : Nat} (hroot : namespaceFindRoot s fuel p = some tp) :
    ReflTransGen s.Under p tp := by
  induction fuel generalizing p with
  | zero => cases hroot
  | succ fuel ih =>
    rw [namespaceFindRoot] at hroot
    split at hroot
    · exact .head rfl (ih hroot)
    · cases hroot
      exact .refl

theorem TreeInv.heir_above (h : TreeInv s f) (hp : p ∈ s.known)
    (hr : heir s p = some r ∨ f p = [] ∧ r = initProc) : ReflTransGen s.Under p r := by
  rcases hr with hheir | ⟨-, rfl⟩
  · unfold heir at hheir
    split at hheir
    · obtain ⟨tp, htp, rfl⟩ := Option.map_eq_some_iff.mp hheir
      split
      · exact h.climbs p hp
      · exact root_above htp
    · cases hheir
      exact h.climbs p hp
  · exact h.climbs p hp

theorem TreeInv.die (h : TreeInv s f) (hp : s.Usable p) (hpi : p ≠ initProc)
    (hr : heir s p = some r ∨ f p = [] ∧ r = initProc) (hleft : Left s t f p r) :
    TreeInv { t with dead := update t.dead p true } (moved f p r) := by
  obtain ⟨husable, hpr⟩ := h.toListInv.heir_or hp.1 hpi hr
  have habove := h.heir_above hp.1 hr
  have hclimb : ReflTransGen t.Under r initProc := by
    refine climb_transfer (fun a => ReflTransGen s.Under r a) ?_ (h.climbs r husable.1) (.inl .refl)
    intro a b ha _ hab
    have hstays : t.parent a = s.parent a := by
      rw [hleft.parent]
      exact if_neg (h.not_child_above hp.1 hpi habove ha)
    exact .inr ⟨hstays.trans hab, .inl (ha.tail hab)⟩
  refine ⟨hleft.die h.toListInv hpi husable hpr, fun x hx => ?_⟩
  refine climb_transfer (fun _ => True) ?_ (h.climbs x (hleft.known ▸ hx)) (.inl trivial)
  intro a b _ _ hab
  by_cases hap : a ∈ f p
  · refine .inl (.head (b := r) ?_ hclimb)
    change t.parent a = r
    rw [hleft.parent]
    exact if_pos hap
  · refine .inr ⟨?_, .inl trivial⟩
    change t.parent a = b
    rw [hleft.parent]
    exact (if_neg hap).trans hab

theorem TreeInv.exited (h : TreeInv s f) (hp : s.Usable p) (hpi : p ≠ initProc)
    (ht : processHasExited s p = some t) :
    ∃ u g, TreeInv u g ∧ p ∈ u.known ∧ u.dead p = true ∧
      (t = u ∨ t = { u.unlink p with known := u.known.erase p }) := by
  have hlive : ¬ s.dead p = true := by
    rw [hp.2]
    exact Bool.false_ne_true
  rw [processHasExited, if_neg hlive] at ht
  have hw : TreeInv { s with waited := update s.waited p false } f :=
    h.congr (by funext k; cases k <;> rfl) rfl rfl rfl rfl
  split at ht
  · cases ht
  · rename_i u hu
    obtain ⟨r, hr, hleft⟩ := hw.toListInv.leaveChildren hp hpi hu
    have hg := hw.die hp hpi hr hleft
    have hp' : p ∈ u.known := hleft.known ▸ hp.1
    have hdead : update u.dead p true p = true := update_self _ _ _
    split at ht
    · have hrun : some _ = some t := (if_pos ⟨hdead, update_self _ _ _⟩).symm.trans ht
      let v : Procs :=
        { u with dead := update u.dead p true, waited := update u.waited p true }
      have hv : TreeInv v _ := hg.congr (by funext k; cases k <;> rfl) rfl rfl rfl rfl
      exact ⟨v, _, hv, hp', hdead, .inr (Option.some.inj hrun).symm⟩
    · exact ⟨_, _, hg, hp', hdead, .inl (Option.some.inj ht).symm⟩

theorem TreeInv.climbs_placed (h : TreeInv s f) (hparent : t.parent = update s.parent p r)
    (hr : r ∈ s.known) (hbelow : ¬ ReflTransGen s.Under r p) {x : Nat}
    (hx : x ∈ s.known ∨ x = p) : ReflTransGen t.Under x initProc := by
  have hunder : ∀ a b, a ≠ p → s.Under a b → t.Under a b := by
    intro a b ha hab
    rw [Procs.Under, hparent, update_of_ne ha]
    exact hab
  have hup : ReflTransGen t.Under p initProc := by
    refine .head (b := r) ?_ ?_
    · rw [Procs.Under, hparent, update_self]
    · refine climb_transfer (fun a => ReflTransGen s.Under r a) ?_ (h.climbs r hr) (.inl .refl)
      intro a b ha _ hab
      exact .inr ⟨hunder a b (fun heq => hbelow (heq ▸ ha)) hab, .inl (ha.tail hab)⟩
  rcases hx with hx | rfl
  · refine climb_transfer (fun _ => True) ?_ (h.climbs x hx) (.inl trivial)
    intro a b _ _ hab
    by_cases ha : a = p
    · rw [ha]
      exact .inl hup
    · exact .inr ⟨hunder a b ha hab, .inl trivial⟩
  · exact hup

theorem TreeInv.create (h : TreeInv s f) (hp : p ∉ s.known) :
    ∃ g, TreeInv (completeProc s p) g := by
  have hpi : p ≠ initProc := fun heq => hp (heq ▸ h.init_known)
  refine ⟨_, h.toListInv.create hp, fun x hx => ?_⟩
  have hx' : x = p ∨ x ∈ s.known := mem_insert.mp hx
  exact h.climbs_placed rfl h.init_known (h.not_under_init hpi) hx'.symm

theorem TreeInv.move (h : TreeInv s f) (hp : p ∈ s.known) (hpi : p ≠ initProc) (hr : s.Usable r)
    (hbelow : ¬ ReflTransGen s.Under r p) : ∃ g, TreeInv ((s.unlink p).linkFirst p r) g := by
  have hsame : Procs.SameButLinks s (s.unlink p) := Procs.sameButLinks_unlink
  have hparent : ((s.unlink p).linkFirst p r).parent = update s.parent p r := by
    rw [Procs.linkFirst_other.parent, hsame.parent]
  refine ⟨_, h.toListInv.move hp hpi hr, fun x hx => ?_⟩
  have hx' : x ∈ (s.unlink p).known := hx
  exact h.climbs_placed hparent hr.1 hbelow (.inl (hsame.known ▸ hx'))

end Invariant

/-- Where `proc_child` keeps the tree: the child has a parent already, or the new parent is not the
child and not below it. -/
def ChildOk (s : Procs) : Call → Prop
  | .child parentp childp => s.parentset childp = true ∨ ¬ ReflTransGen s.Under parentp childp
  | _ => True

/-- Init does not exit. -/
def InitStays : Call → Prop
  | .taskDied p => p ≠ initProc
  | .reassign _ stubp => stubp ≠ initProc
  | _ => True

/-- The processes form a tree, and the lists are its lists of children. -/
structure WellLinked (s : Procs) : Prop where
  once : ∀ p ∈ s.known, ∃ l, BackLinked s.deref s.prevsib (.first (s.parent p)) l ∧ l.count p = 1
  back : ∀ p ∈ s.known, s.deref (s.prevsib p) = some p
  parents : ∀ p ∈ s.known, s.parent p ∈ s.known ∧ s.dead (s.parent p) = false
  climbs : ∀ p ∈ s.known, ReflTransGen s.Under p initProc

instance initStaysDecidable : (c : Call) → Decidable (InitStays c)
  | .taskDied p => inferInstanceAs (Decidable (p ≠ initProc))
  | .reassign _ stubp => inferInstanceAs (Decidable (stubp ≠ initProc))
  | .create _ | .child _ _ | .makeTaskNamespace _ _ | .wait _ _ => .isTrue trivial

section Runs

variable {s t : Procs} {f : Nat → List Nat}

theorem TreeInv.wellLinked (h : TreeInv s f) : WellLinked s := by
  constructor
  · intro p hp
    refine ⟨f (s.parent p), h.siblings.linked _ (h.parents p hp), ?_⟩
    exact List.count_eq_one_of_mem (h.siblings.nodup _) (h.mem hp)
  · intro p hp
    exact (h.siblings.linked _ (h.parents p hp)).deref_back (h.mem hp)
  · exact h.parents
  · exact h.climbs

theorem TreeInv.child {parentp childp : Nat} (h : TreeInv s f) (hparent : s.Usable parentp)
    (hchild : s.Usable childp) (hok : ChildOk s (.child parentp childp))
    (hs : procChild s parentp childp = some t) : ∃ g, TreeInv t g := by
  unfold procChild at hs
  split at hs
  · cases hs
    exact ⟨f, h⟩
  · rename_i hset
    have hbelow := hok.resolve_left hset
    have hci : childp ≠ initProc := by
      rintro rfl
      exact hbelow (h.climbs parentp hparent.1)
    obtain ⟨g, hg⟩ := h.move hchild.1 hci hparent hbelow
    split at hs
    · cases hs
    · simp only at hs
      split at hs
      · cases hs
        exact ⟨g, hg.congr (by funext k; cases k <;> rfl) rfl rfl rfl rfl⟩
      · cases hs
        exact ⟨g, hg.congr (by funext k; cases k <;> rfl) rfl rfl rfl rfl⟩

theorem TreeInv.taskDied {p : Nat} (h : TreeInv s f) (hp : p ∈ s.known) (hpi : p ≠ initProc)
    (hs : processHasExited s p = some t) : ∃ g, TreeInv t g := by
  cases hdead : s.dead p with
  | true =>
    rw [processHasExited, if_pos hdead] at hs
    cases hs
    exact ⟨f, h⟩
  | false =>
    obtain ⟨u, g, hg, hpu, hdead, rfl | rfl⟩ := h.exited ⟨hp, hdead⟩ hpi hs
    · exact ⟨g, hg⟩
    · exact ⟨_, hg.completeExit hpu hdead⟩

theorem TreeInv.reap {p : Nat} (h : TreeInv s f) (hp : p ∈ s.known) (hdead : s.dead p = true)
    (hs : Proc.completeExit { s with waited := update s.waited p true } p = some t) :
    ∃ g, TreeInv t g := by
  let u : Procs := { s with waited := update s.waited p true }
  have hu : TreeInv u f := h.congr (by funext k; cases k <;> rfl) rfl rfl rfl rfl
  have hrun : some _ = some t := (if_pos ⟨hdead, update_self _ _ _⟩).symm.trans hs
  cases hrun
  exact ⟨_, hu.completeExit hp hdead⟩

theorem TreeInv.reassign {p stubp : Nat} (h : TreeInv s f) (hstub : s.Usable stubp)
    (hsi : stubp ≠ initProc) (hs : procReassign s p stubp = some t) : ∃ g, TreeInv t g := by
  unfold procReassign at hs
  split at hs
  · cases hs
    exact ⟨f, h⟩
  · split at hs
    · cases hs
    · rename_i v hv
      obtain ⟨u, g, hg, hmem, hdead, rfl | rfl⟩ := h.exited hstub hsi hv
      · exact hg.reap hmem hdead hs
      · -- The stub was in a task namespace and has been freed already.
        have hsame : Procs.SameButLinks u (u.unlink stubp) := Procs.sameButLinks_unlink
        obtain ⟨w, hw⟩ : ∃ w : Procs, w = { u.unlink stubp with
            known := u.known.erase stubp
            waited := update (u.unlink stubp).waited stubp true } := ⟨_, rfl⟩
        have hwd : w.deref = (u.unlink stubp).deref := by
          rw [hw]
          funext k
          cases k <;> rfl
        have hwb : w.prevsib = (u.unlink stubp).prevsib := by rw [hw]
        have hwtree : TreeInv w (without g u stubp) :=
          (hg.completeExit hmem hdead).congr (hwd.trans (by funext k; cases k <;> rfl)) hwb
            (by rw [hw]) (by rw [hw]) (by rw [hw])
        have hwdead : w.dead stubp = true ∧ w.waited stubp = true := by
          rw [hw]
          exact ⟨hsame.dead ▸ hdead, update_self _ _ _⟩
        have hws : Proc.completeExit w stubp = some t := by
          rw [hw]
          exact hs
        rw [Proc.completeExit, if_pos hwdead] at hws
        cases hws
        obtain ⟨htd, htb⟩ := hg.toListInv.unlink_twice hmem hwd hwb
        have hsame' : Procs.SameButLinks w (w.unlink stubp) := Procs.sameButLinks_unlink
        have hknown : w.known.erase stubp = w.known := by
          rw [hw]
          exact erase_idem
        refine ⟨_, hwtree.congr ?_ htb hknown hsame'.parent hsame'.dead⟩
        rw [← htd]
        funext k
        cases k <;> rfl

theorem TreeInv.step {c : Call} (h : TreeInv s f) (hok : InitStays c ∧ ChildOk s c)
    (hs : step s c = some t) : ∃ g, TreeInv t g := by
  cases c with
  | create p =>
    simp only [Proc.step] at hs
    split at hs
    · cases hs
    · cases hs
      exact h.create ‹_›
  | child parentp childp =>
    simp only [Proc.step] at hs
    split at hs
    · rename_i husable
      exact h.child husable.1 husable.2 hok.2 hs
    · cases hs
  | makeTaskNamespace p notify =>
    simp only [Proc.step] at hs
    split at hs
    · split at hs
      · cases hs
        exact ⟨f, h⟩
      · cases hs
        exact ⟨f, h.congr (by funext k; cases k <;> rfl) rfl rfl rfl rfl⟩
    · cases hs
  | taskDied p =>
    simp only [Proc.step] at hs
    split at hs
    · exact h.taskDied ‹_› hok.1 hs
    · cases hs
  | wait p child =>
    simp only [Proc.step] at hs
    split at hs
    · rename_i hwait
      exact h.reap hwait.2.1 hwait.2.2.2.1 hs
    · cases hs
  | reassign p stubp =>
    simp only [Proc.step] at hs
    split at hs
    · rename_i husable
      exact h.reassign husable.2 hok.1 hs
    · cases hs

theorem createInitProc_inv :
    TreeInv createInitProc fun q => if q = initProc then [initProc] else [] :=
  ⟨createInitProc_lists, fun _ _ => .single rfl⟩

/-- In every run in which init stays and no process is put under itself or one below it, the
processes form a tree and are linked as its children. -/
theorem process_tree_well_linked
    (h : Reach step (fun s c => InitStays c ∧ ChildOk s c) createInitProc s) : WellLinked s := by
  obtain ⟨f, hf⟩ : ∃ f, TreeInv s f := by
    refine h.invariant (fun s => ∃ f, TreeInv s f) ⟨_, createInitProc_inv⟩ ?_
    rintro s c t ⟨f, hf⟩ hok hs
    exact hf.step hok hs
  exact hf.wellLinked

end Runs

theorem process_tree_well_linked_run :
    ∃ s, Reach step (fun s c => InitStays c ∧ ChildOk s c) createInitProc s ∧ WellLinked s ∧
      s.known = {initProc, 3} ∧ s.parent 3 = initProc := by
  let calls : List Call :=
    [.create 2, .create 3, .child 2 3, .taskDied 2, .wait initProc 2, .create 4, .reassign 3 4]
  obtain ⟨s, hs, hknown, hparent⟩ : ∃ s, runLabels step createInitProc calls = some s ∧
      s.known = {initProc, 3} ∧ s.parent 3 = initProc := ⟨_, rfl, by decide, by decide⟩
  have hbelow : ∀ s : Procs, s.parent 2 = initProc → s.parent initProc = initProc →
      ¬ ReflTransGen s.Under 2 3 := by
    intro s h₂ hinit hclimb
    rcases ReflTransGen.cases_head hclimb with heq | ⟨b, hb, hclimb⟩
    · exact absurd heq (by decide)
    · obtain rfl : initProc = b := h₂.symm.trans hb
      exact absurd (eq_of_climb_self (fun b hb => hb.symm.trans hinit) hclimb) (by decide)
  have hok : AdmitsLabels step (fun s c => InitStays c ∧ ChildOk s c) createInitProc calls :=
    ⟨⟨trivial, trivial⟩, ⟨trivial, trivial⟩, ⟨trivial, .inr (hbelow _ rfl rfl)⟩,
      ⟨by decide, trivial⟩, ⟨trivial, trivial⟩, ⟨trivial, trivial⟩, ⟨by decide, trivial⟩, trivial⟩
  have hreach := Reach.labels calls .start hok hs
  exact ⟨s, hreach, process_tree_well_linked hreach, hknown, hparent⟩

/-- A process can make itself its own parent. -/
theorem process_own_parent :
    ¬ ∀ s, Reach step (fun _ c => InitStays c) createInitProc s → WellLinked s := by
  intro h
  obtain ⟨s, hs, hknown, hparent⟩ : ∃ s,
      runLabels step createInitProc [.create 2, .child 2 2] = some s ∧ 2 ∈ s.known ∧
        s.parent 2 = 2 := ⟨_, rfl, by decide, by decide⟩
  have hreach : Reach step (fun _ c => InitStays c) createInitProc s :=
    Reach.labels [.create 2, .child 2 2] .start ⟨trivial, trivial, trivial⟩ hs
  have hclimb := (h s hreach).climbs 2 hknown
  exact absurd (eq_of_climb_self (fun b hb => hb.symm.trans hparent) hclimb) (by decide)

end Hurd.Proc
