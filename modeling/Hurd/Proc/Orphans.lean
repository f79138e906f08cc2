import Hurd.Proc.Groups

/-!
# The counts of orphaned groups

`pg_orphcnt` counts the members of a group whose parent is in another group of the session. A call
that moves a process to another group counts the process itself.
-/

namespace Hurd.Proc.Server

open Function Finset

variable (s : Server)

/-- With its parent in the group `g`, the process keeps its group from being orphaned. -/
def KeptFrom (g q : Nat) : Prop := g ≠ s.pgrp q ∧ s.session g = s.session (s.pgrp q)

instance keptFromDecidable (g q : Nat) : Decidable (s.KeptFrom g q) :=
  inferInstanceAs (Decidable (_ ∧ _))

/-- The process keeps its group from being orphaned. -/
def keeps (q : Nat) : Bool := decide (s.KeptFrom (s.pgrp (s.tree.parent q)) q)

/-- The counts of the groups are those of the processes `K` that `k` tells to be counted. -/
def Counts (K : Finset Nat) (k : Nat → Bool) : Prop :=
  ∀ pg ∈ s.groups, s.orphcnt pg = ((K.filter fun q => s.pgrp q = pg ∧ k q = true).card : Int)

section Count

variable {s} {t : Server} {K : Finset Nat} {k k' : Nat → Bool} {p pg sess n : Nat}

theorem card_filter_insert (hp : p ∉ K) (a : Nat → Nat) :
    (((insert p K).filter fun q => a q = pg ∧ k q = true).card : Int) =
      (K.filter fun q => a q = pg ∧ k q = true).card + if a p = pg ∧ k p = true then 1 else 0 := by
  rw [filter_insert]
  split
  · rw [card_insert_of_notMem (fun hmem => hp (mem_filter.mp hmem).1)]
    rfl
  · rw [add_zero]

theorem Counts.congr (h : Counts s K k) (hg : t.groups = s.groups) (ho : t.orphcnt = s.orphcnt)
    (hp : ∀ q ∈ K, t.pgrp q = s.pgrp q) (hk : ∀ q ∈ K, k' q = k q) : Counts t K k' := by
  intro pg hpg
  rw [ho, h pg (hg ▸ hpg)]
  congr 2
  refine filter_congr fun q hq => ?_
  rw [hp q hq, hk q hq]

theorem orphcnt_leavePgrp (hpg : pg ∈ (s.leavePgrp p).groups) :
    (s.leavePgrp p).orphcnt pg =
      s.orphcnt pg - if s.pgrp p = pg ∧ s.keeps p = true then 1 else 0 := by
  have hown : Server.pgrp { s with members := s.members.leave p } = s.pgrp := Roster.owner_leave
  have hout : Server.ParentOutside { s with members := s.members.leave p } p (s.pgrp p) ↔
      s.keeps p = true := by
    unfold ParentOutside
    rw [hown, keeps, decide_eq_true_iff]
    rfl
  unfold leavePgrp at hpg ⊢
  simp only at hpg ⊢
  split at hpg
  · rename_i hnone
    have hne : s.pgrp p ≠ pg := by
      unfold freePgrp at hpg
      simp only at hpg
      rintro rfl
      split at hpg <;> exact notMem_erase _ _ hpg
    rw [if_pos hnone, if_neg (fun hand => hne hand.1), sub_zero]
    unfold freePgrp
    simp only
    split <;> rfl
  · rename_i hsome
    rw [if_neg hsome]
    split
    · rename_i hkept
      change update s.orphcnt (s.pgrp p) (s.orphcnt (s.pgrp p) - 1) pg = _
      by_cases heq : s.pgrp p = pg
      · rw [if_pos ⟨heq, hout.mp hkept⟩, heq, update_self]
      · rw [if_neg (fun hand => heq hand.1), update_of_ne (Ne.symm heq), sub_zero]
    · rename_i hkept
      rw [if_neg (fun hand => hkept (hout.mpr hand.2)), sub_zero]

theorem groups_leavePgrp_subset : (s.leavePgrp p).groups ⊆ s.groups := by
  unfold leavePgrp freePgrp
  simp only
  split
  · split <;> exact erase_subset _ _
  · split <;> exact subset_rfl

theorem Counts.leavePgrp (h : Counts s K k) (hp : p ∈ K)
    (hk : k p = s.keeps p ∨ s.pgrp p ∉ (s.leavePgrp p).groups) :
    Counts (s.leavePgrp p) (K.erase p) k := by
  intro pg hpg
  have hcount := h pg (groups_leavePgrp_subset hpg)
  rw [← insert_erase hp, card_filter_insert (notMem_erase p K)] at hcount
  have hsame : s.pgrp p = pg → k p = s.keeps p := by
    rintro rfl
    exact hk.resolve_right fun hgone => hgone hpg
  have hif : (if s.pgrp p = pg ∧ k p = true then (1 : Int) else 0) =
      if s.pgrp p = pg ∧ s.keeps p = true then 1 else 0 := by
    by_cases heq : s.pgrp p = pg
    · rw [hsame heq]
    · rw [if_neg (fun hand => heq hand.1), if_neg (fun hand => heq hand.1)]
  rw [orphcnt_leavePgrp hpg, hcount, pgrp_leavePgrp, hif, add_sub_cancel_right]

theorem Counts.newPgrp (h : Counts s K k) (hs : ∀ q ∈ K, s.pgrp q ∈ s.groups)
    (hpg : pg ∉ s.groups) : Counts (s.newPgrp pg n sess) K k := by
  intro g hg
  have hnone : ∀ q ∈ K, s.pgrp q ≠ pg := fun q hq heq => hpg (heq ▸ hs q hq)
  change update s.orphcnt pg 0 g = _
  rcases mem_insert.mp hg with rfl | hg
  · rw [update_self, filter_false_of_mem fun q hq hand => hnone q hq hand.1]
    rfl
  · rw [update_of_ne (fun heq : g = pg => hpg (heq ▸ hg))]
    exact h g hg

theorem orphcnt_join {g : Nat} (pg : Nat) : ((s.setPgrp p pg).joinPgrp p).orphcnt g =
    s.orphcnt g + if ((s.setPgrp p pg).joinPgrp p).pgrp p = g ∧
      ((s.setPgrp p pg).joinPgrp p).keeps p = true then 1 else 0 := by
  have hkeeps : ((s.setPgrp p pg).joinPgrp p).keeps p = true ↔
      update s.pgrp p pg (s.tree.parent p) ≠ pg ∧
        s.session (update s.pgrp p pg (s.tree.parent p)) = s.session pg := by
    rw [keeps, decide_eq_true_iff, KeptFrom, pgrp_join, session_join, tree_join, update_self]
  obtain ⟨b, hb⟩ : ∃ b, b = ((s.setPgrp p pg).joinPgrp p).keeps p := ⟨_, rfl⟩
  rw [← hb] at hkeeps ⊢
  rw [pgrp_join, update_self]
  have hpg : (s.setPgrp p pg).pgrp p = pg := by
    change update s.pgrp p pg p = pg
    rw [update_self]
  unfold joinPgrp
  simp only
  rw [hpg]
  split
  · rename_i hout
    change update s.orphcnt pg (s.orphcnt pg + 1) g = _
    by_cases hg : pg = g
    · rw [if_pos ⟨hg, hkeeps.mpr hout⟩, hg, update_self]
    · rw [if_neg (fun hand => hg hand.1), update_of_ne (Ne.symm hg), add_zero]
  · rename_i hout
    rw [if_neg (fun hand => hout (hkeeps.mp hand.2)), add_zero]
    rfl

theorem Counts.join (h : Counts s K k) (hp : p ∉ K)
    (hk : ∀ q ∈ K, ((s.setPgrp p pg).joinPgrp p).keeps q = k q) :
    Counts ((s.setPgrp p pg).joinPgrp p) (insert p K) ((s.setPgrp p pg).joinPgrp p).keeps := by
  obtain ⟨u, hu⟩ : ∃ u, u = (s.setPgrp p pg).joinPgrp p := ⟨_, rfl⟩
  have hpgrp : u.pgrp = update s.pgrp p pg := hu ▸ pgrp_join
  have hgroups : u.groups = s.groups := hu ▸ groups_join
  have horph := fun g => orphcnt_join (s := s) (p := p) (g := g) pg
  rw [← hu] at horph
  rw [← hu] at hk ⊢
  intro g hg
  rw [horph, h g (hgroups ▸ hg), card_filter_insert hp]
  have hfilter : K.filter (fun q => u.pgrp q = g ∧ u.keeps q = true) =
      K.filter fun q => s.pgrp q = g ∧ k q = true := by
    refine filter_congr fun q hq => ?_
    rw [hk q hq, hpgrp, update_of_ne fun heq : q = p => hp (heq ▸ hq)]
  rw [hfilter]

theorem Counts.move (h : Counts s K k) (hp : p ∈ K)
    (hk : k p = s.keeps p ∨ s.pgrp p ∉ (s.leavePgrp p).groups)
    (hrest : ∀ q ∈ K.erase p, (((s.leavePgrp p).setPgrp p pg).joinPgrp p).keeps q = k q) :
    Counts (((s.leavePgrp p).setPgrp p pg).joinPgrp p) K
      (((s.leavePgrp p).setPgrp p pg).joinPgrp p).keeps := by
  have hjoin := (h.leavePgrp hp hk).join (notMem_erase p K) hrest
  rwa [insert_erase hp] at hjoin

end Count

/-- The children of the process add the same to their counts, whether it is in `g` or in `g'`. -/
def ChildrenAlike (p g g' : Nat) : Prop :=
  ∀ q ∈ s.tree.known, q ≠ p → s.tree.parent q = p → (s.KeptFrom g q ↔ s.KeptFrom g' q)

/-- Where the calls keep the counts. -/
def OrphansOk (s : Server) : GroupCall → Prop
  | .child parentp childp => s.tree.parentset childp = true ∨
      (s.pgrp childp = s.pgrp parentp ∧ s.keeps childp = false) ∨
      (s.pgrp childp ≠ s.pgrp parentp ∧
        ((∀ q ∈ s.tree.known, s.pgrp q = s.pgrp childp → q = childp) ∨
          (s.keeps childp = true ↔ s.session (s.pgrp parentp) = s.session (s.pgrp childp))) ∧
        s.ChildrenAlike childp (s.pgrp childp) (s.pgrp parentp))
  | .setpgrp callerp pid pgid _ => ∀ p, s.setpgrpProc callerp pid = some p →
      s.SetpgrpRefused callerp p (s.setpgrpPgid p pgid) ∨
      (∃ pg, find s.pghash (s.setpgrpPgid p pgid) = some pg ∧ s.ChildrenAlike p (s.pgrp p) pg) ∨
      (find s.pghash (s.setpgrpPgid p pgid) = none ∧
        ∀ q ∈ s.tree.known, q ≠ p → s.tree.parent q = p → s.pgrp q ≠ s.pgrp p)
  | .setsid p _ _ => s.SetsidRefused p ∨
      ∀ q ∈ s.tree.known, q ≠ p → s.tree.parent q = p → s.keeps q = false
  | .taskDied p => s.tree.dead p = true ∨ ∀ r, heir s.tree p = some r →
      ∀ q ∈ s.tree.known, s.tree.parent q = p → (s.KeptFrom (s.pgrp p) q ↔ s.KeptFrom (s.pgrp r) q)
  | _ => True

section Calls

variable {s} {t u : Server} {f : Nat → List Nat} {p q pg sess n : Nat}

theorem keeps_congr (hparent : t.tree.parent q = s.tree.parent q) (hq : t.pgrp q = s.pgrp q)
    (hr : t.pgrp (s.tree.parent q) = s.pgrp (s.tree.parent q))
    (hsq : t.session (s.pgrp q) = s.session (s.pgrp q))
    (hsr : t.session (s.pgrp (s.tree.parent q)) = s.session (s.pgrp (s.tree.parent q))) :
    t.keeps q = s.keeps q := by
  refine decide_eq_decide.mpr ?_
  rw [KeptFrom, KeptFrom, hparent, hq, hr, hsq, hsr]

theorem keeps_join (hq : q ≠ p) : ((s.setPgrp p pg).joinPgrp p).keeps q =
    decide (s.KeptFrom (if s.tree.parent q = p then pg else s.pgrp (s.tree.parent q)) q) := by
  refine decide_eq_decide.mpr ?_
  rw [KeptFrom, KeptFrom, pgrp_join, session_join, tree_join, update_of_ne hq, update_apply]

theorem keptFrom_leavePgrp {g : Nat} : (s.leavePgrp p).KeptFrom g q ↔ s.KeptFrom g q := by
  rw [KeptFrom, pgrp_leavePgrp, session_leavePgrp]
  rfl

theorem keeps_move (hq : q ≠ p) : (((s.leavePgrp p).setPgrp p pg).joinPgrp p).keeps q =
    decide (s.KeptFrom (if s.tree.parent q = p then pg else s.pgrp (s.tree.parent q)) q) := by
  rw [keeps_join hq, sameProcs_leavePgrp.tree, pgrp_leavePgrp]
  exact decide_eq_decide.mpr keptFrom_leavePgrp

theorem keeps_of_child (hq : s.tree.parent q = p) :
    s.keeps q = decide (s.KeptFrom (s.pgrp p) q) := by
  rw [keeps, hq]

theorem keptFrom_newPgrp {g : Nat} (hpg : pg ∉ s.groups) (hq : s.pgrp q ∈ s.groups)
    (hg : g ∈ s.groups) : (s.newPgrp pg n sess).KeptFrom g q ↔ s.KeptFrom g q := by
  have hsess : ∀ g ∈ s.groups, (s.newPgrp pg n sess).session g = s.session g := by
    intro g hg
    change update s.session pg sess g = _
    rw [update_of_ne fun heq : g = pg => hpg (heq ▸ hg)]
  have hpgrp : (s.newPgrp pg n sess).pgrp = s.pgrp := rfl
  rw [KeptFrom, KeptFrom, hpgrp, hsess g hg, hsess _ hq]

theorem keptFrom_new (hpg : pg ∉ s.groups) (hq : s.pgrp q ∈ s.groups) :
    (s.newPgrp pg n sess).KeptFrom pg q ↔ sess = s.session (s.pgrp q) := by
  have hne : pg ≠ s.pgrp q := fun heq => hpg (heq ▸ hq)
  have hsess : (s.newPgrp pg n sess).session = update s.session pg sess := rfl
  have hpgrp : (s.newPgrp pg n sess).pgrp = s.pgrp := rfl
  rw [KeptFrom, hpgrp, hsess, update_self, update_of_ne hne.symm]
  exact and_iff_right hne

def OrphInv (s : Server) : Prop := Counts s s.tree.known s.keeps

theorem Inv.pgrp_parent_mem (h : Inv s) (hq : q ∈ s.tree.known) :
    s.pgrp (s.tree.parent q) ∈ s.groups := by
  obtain ⟨f, hf⟩ := h.lists
  exact h.groups.pgrp_mem (hf.parents q hq).1

theorem OrphInv.completeProc (ho : OrphInv s) (h : Inv s) (hp : p ∉ s.tree.known) :
    OrphInv (s.completeProc p n) := by
  obtain ⟨f, hf⟩ := h.lists
  let u : Server := { s with
    tree := Proc.completeProc s.tree p
    pid := update s.pid p n
    exec := update s.exec p false
    pidhash := update s.pidhash n (some p) }
  have hu : Counts u s.tree.known s.keeps := ho.congr rfl rfl (fun _ _ => rfl) (fun _ _ => rfl)
  have hknown : (s.completeProc p n).tree.known = insert p s.tree.known := by
    change ((u.setPgrp p (u.pgrp initProc)).joinPgrp p).tree.known = _
    rw [tree_join]
    rfl
  unfold OrphInv
  rw [hknown]
  refine hu.join hp fun q hq => ?_
  have hqp : q ≠ p := fun heq => hp (heq ▸ hq)
  have hparent : u.tree.parent q = s.tree.parent q := by
    change update s.tree.parent p initProc q = _
    rw [update_of_ne hqp]
  have hrp : s.tree.parent q ≠ p := fun heq => hp (heq ▸ (hf.parents q hq).1)
  rw [keeps_join hqp, hparent, if_neg hrp]
  rfl

theorem OrphInv.setpgrp (ho : OrphInv s) (h : Inv s) (hu : Setpgrp s p pg n u)
    (hfound : s.pghash n = some pg → s.ChildrenAlike p (s.pgrp p) pg)
    (hnew : s.pghash n = none →
      ∀ q ∈ s.tree.known, q ≠ p → s.tree.parent q = p → s.pgrp q ≠ s.pgrp p) :
    OrphInv (((u.leavePgrp p).setPgrp p pg).joinPgrp p) := by
  rcases hu.found with ⟨rfl, hn⟩ | ⟨rfl, hn, hpg⟩
  · unfold OrphInv
    rw [sameProcs_move.tree]
    refine ho.move hu.known (.inl rfl) fun q hq => ?_
    obtain ⟨hqp, hq⟩ := mem_erase.mp hq
    rw [keeps_move hqp]
    split
    · rename_i hchild
      rw [keeps_of_child hchild]
      exact decide_eq_decide.mpr (hfound hn q hq hqp hchild).symm
    · rfl
  · have hcounts : Counts (s.newPgrp pg n (s.session (s.pgrp p))) s.tree.known s.keeps :=
      Counts.newPgrp ho (fun _ hq => h.groups.pgrp_mem hq) hpg
    have hout : ∀ q ∈ s.tree.known, ∀ g ∈ s.groups,
        (s.newPgrp pg n (s.session (s.pgrp p))).KeptFrom g q ↔ s.KeptFrom g q :=
      fun q hq g hg => keptFrom_newPgrp hpg (h.groups.pgrp_mem hq) hg
    unfold OrphInv
    rw [sameProcs_move.tree]
    refine hcounts.move hu.known ?_ fun q hq => ?_
    · refine .inl (decide_eq_decide.mpr (hout p hu.known _ (h.pgrp_parent_mem hu.known)).symm)
    · obtain ⟨hqp, hq⟩ := mem_erase.mp hq
      rw [keeps_move hqp]
      split
      · rename_i hchild
        replace hchild : s.tree.parent q = p := hchild
        rw [keeps_of_child hchild]
        refine decide_eq_decide.mpr ?_
        rw [keptFrom_new hpg (h.groups.pgrp_mem hq)]
        exact (and_iff_right (hnew hn q hq hqp hchild).symm).symm
      · exact decide_eq_decide.mpr (hout q hq _ (h.pgrp_parent_mem hq))

theorem OrphInv.setsid (ho : OrphInv s) (h : Inv s) (hp : p ∈ s.tree.known)
    (hsess : sess ∉ (s.leavePgrp p).sessions) (hpg : pg ∉ (s.leavePgrp p).groups)
    (halone : ∀ q ∈ s.tree.known, q ≠ p → s.tree.parent q = p → s.keeps q = false) :
    OrphInv (((((s.leavePgrp p).newSession sess p).newPgrp pg n sess).setPgrp p pg).joinPgrp p) := by
  obtain ⟨f, hf⟩ := h.lists
  have hleave := h.groups.leavePgrp hp
  have hmem : ∀ q ∈ s.tree.known, q ≠ p → s.pgrp q ∈ (s.leavePgrp p).groups := by
    intro q hq hqp
    rw [← pgrp_leavePgrp (s := s) (p := p)]
    exact hleave.pgrp_mem (mem_erase.mpr ⟨hqp, hq⟩)
  obtain ⟨u, hu⟩ : ∃ u, u = (s.leavePgrp p).newSession sess p := ⟨_, rfl⟩
  have hgroups : u.groups = (s.leavePgrp p).groups := by rw [hu]; rfl
  have hpgrp : u.pgrp = s.pgrp := by
    rw [hu]
    exact pgrp_leavePgrp
  have hsession : u.session = s.session := by
    rw [hu]
    exact session_leavePgrp
  have htree : u.tree = s.tree := by
    rw [hu]
    exact sameProcs_leavePgrp.tree
  have hleft : Counts u (s.tree.known.erase p) s.keeps := by
    rw [hu]
    exact ho.leavePgrp hp (.inl rfl)
  have hmem' : ∀ q ∈ s.tree.known.erase p, u.pgrp q ∈ u.groups := by
    intro q hq
    rw [hpgrp, hgroups]
    exact hmem q (mem_of_mem_erase hq) (ne_of_mem_erase hq)
  have hcounts : Counts (u.newPgrp pg n sess) (s.tree.known.erase p) s.keeps :=
    hleft.newPgrp hmem' (hgroups.symm ▸ hpg)
  rw [← hu]
  unfold OrphInv
  rw [tree_join, show (u.newPgrp pg n sess).tree = s.tree from htree]
  rw [← insert_erase hp]
  refine hcounts.join (notMem_erase p _) fun q hq => ?_
  have hqg := hmem' q hq
  obtain ⟨hqp, hq⟩ := mem_erase.mp hq
  rw [keeps_join hqp, show (u.newPgrp pg n sess).tree = s.tree from htree]
  split
  · rename_i hchild
    rw [halone q hq hqp hchild]
    refine decide_eq_false fun hkept => hsess ?_
    rw [keptFrom_new (hgroups.symm ▸ hpg) hqg, hpgrp, hsession] at hkept
    rw [hkept, ← session_leavePgrp (s := s) (p := p)]
    exact hleave.session_mem (hmem q hq hqp)
  · rename_i hother
    refine decide_eq_decide.mpr ?_
    rw [show (u.newPgrp pg n sess).pgrp = s.pgrp from hpgrp,
      keptFrom_newPgrp (hgroups.symm ▸ hpg) hqg
        (hgroups.symm ▸ hmem _ (hf.parents q hq).1 hother), KeptFrom, hpgrp, hsession]
    rfl

theorem OrphInv.adopted (ho : OrphInv s) {parentp childp : Nat} {tree : Procs}
    (ha : Adopted s parentp childp tree) (hsame : s.pgrp childp = s.pgrp parentp)
    (hkept : s.keeps childp = false) : OrphInv { s with tree := tree } := by
  refine Counts.congr (ha.known.symm ▸ ho : Counts s tree.known s.keeps) rfl rfl
    (fun _ _ => rfl) fun q _ => ?_
  by_cases hq : q = childp
  · rw [hq, hkept]
    refine decide_eq_false fun hout => hout.1 ?_
    change s.pgrp (tree.parent childp) = s.pgrp childp
    rw [ha.parent, update_self, hsame]
  · refine keeps_congr ?_ rfl rfl rfl rfl
    change tree.parent q = s.tree.parent q
    rw [ha.parent, update_of_ne hq]

theorem OrphInv.adoptedMove (ho : OrphInv s) (h : Inv s) {parentp childp : Nat} {tree : Procs}
    (hchild : childp ∈ s.tree.known) (ha : Adopted s parentp childp tree)
    (hne : s.pgrp childp ≠ s.pgrp parentp)
    (hcount : (∀ q ∈ s.tree.known, s.pgrp q = s.pgrp childp → q = childp) ∨
      (s.keeps childp = true ↔ s.session (s.pgrp parentp) = s.session (s.pgrp childp)))
    (halike : s.ChildrenAlike childp (s.pgrp childp) (s.pgrp parentp)) :
    OrphInv (((Server.leavePgrp { s with tree := tree } childp).setPgrp childp
      (s.pgrp parentp)).joinPgrp childp) := by
  obtain ⟨u, hu⟩ : ∃ u : Server, u = { s with tree := tree } := ⟨_, rfl⟩
  have hpgrp : u.pgrp = s.pgrp := by rw [hu]; rfl
  have hsession : u.session = s.session := by rw [hu]; rfl
  have hparent : u.tree.parent = update s.tree.parent childp parentp := by
    rw [hu]
    exact ha.parent
  have hknown : u.tree.known = s.tree.known := by
    rw [hu]
    exact ha.known
  have hinv : Inv u := hu ▸ h.adopted ha
  have hcounts : Counts u s.tree.known s.keeps := by
    rw [hu]
    exact ho.congr rfl rfl (fun _ _ => rfl) fun _ _ => rfl
  have hkeptFrom : ∀ g q, u.KeptFrom g q ↔ s.KeptFrom g q := by
    intro g q
    rw [KeptFrom, KeptFrom, hpgrp, hsession]
  rw [← hu]
  unfold OrphInv
  rw [sameProcs_move.tree, hknown]
  refine hcounts.move hchild ?_ fun q hq => ?_
  · rcases hcount with hlast | hcount
    · refine .inr fun hmem => ?_
      have hleave := hinv.groups.leavePgrp (hknown.symm ▸ hchild)
      obtain ⟨q, hq, hqg⟩ := (hleave.used _ hmem).resolve_left id
      rw [pgrp_leavePgrp, hpgrp] at hqg
      obtain ⟨hqc, hq⟩ := mem_erase.mp hq
      exact hqc (hlast q (hknown ▸ hq) hqg)
    · refine .inl (Bool.eq_iff_iff.mpr (hcount.trans ?_))
      rw [keeps, decide_eq_true_iff, hkeptFrom, hparent, update_self, hpgrp]
      exact (and_iff_right hne.symm).symm
  · obtain ⟨hqc, hq⟩ := mem_erase.mp hq
    rw [keeps_move hqc, hparent, update_of_ne hqc, hpgrp]
    split
    · rename_i hchild
      rw [keeps_of_child hchild]
      exact decide_eq_decide.mpr ((hkeptFrom _ q).trans (halike q hq hqc hchild).symm)
    · exact decide_eq_decide.mpr (hkeptFrom _ q)

theorem OrphInv.reap (ho : OrphInv s) (hp : p ∈ s.tree.known) :
    OrphInv ((forget { s with
      tree := { s.tree with waited := update s.tree.waited p true } } p).leavePgrp p) := by
  let v : Procs := { s.tree with waited := update s.tree.waited p true }
  have hsame : Procs.SameButLinks v (v.unlink p) := Procs.sameButLinks_unlink
  obtain ⟨u, hu⟩ : ∃ u, u = forget { s with tree := v } p := ⟨_, rfl⟩
  have hparent : u.tree.parent = s.tree.parent := by
    rw [hu]
    exact hsame.parent
  have hkeeps : ∀ q, u.keeps q = s.keeps q := by
    intro q
    refine keeps_congr (congrFun hparent q) ?_ ?_ ?_ ?_ <;> rw [hu] <;> rfl
  have hcounts : Counts u s.tree.known s.keeps := by
    rw [hu]
    exact ho.congr rfl rfl (fun _ _ => rfl) fun _ _ => rfl
  have hleft := hcounts.leavePgrp hp (.inl (hkeeps p).symm)
  change OrphInv ((forget { s with tree := v } p).leavePgrp p)
  rw [← hu]
  unfold OrphInv
  have hknown : u.tree.known = s.tree.known.erase p := by rw [hu]; rfl
  rw [sameProcs_leavePgrp.tree, hknown]
  refine hleft.congr rfl rfl (fun _ _ => rfl) fun q _ => ?_
  rw [← hkeeps q]
  exact keeps_congr (congrFun (congrArg Procs.parent sameProcs_leavePgrp.tree) q)
    (congrFun pgrp_leavePgrp _) (congrFun pgrp_leavePgrp _) (congrFun session_leavePgrp _)
    (congrFun session_leavePgrp _)

theorem OrphInv.died (ho : OrphInv s) (hf : ListInv s.tree f) {r : Nat} {tree : Procs}
    (hd : Died s f p r tree)
    (halike : ∀ r, heir s.tree p = some r → ∀ q ∈ s.tree.known, s.tree.parent q = p →
      (s.KeptFrom (s.pgrp p) q ↔ s.KeptFrom (s.pgrp r) q)) : OrphInv (s.died p tree) := by
  have hknown : (s.died p tree).tree.known = s.tree.known := hd.left.known
  have hparent : ∀ q, (s.died p tree).tree.parent q = if q ∈ f p then r else s.tree.parent q :=
    fun q => congrFun hd.left.parent q
  unfold OrphInv
  rw [hknown]
  refine ho.congr rfl rfl (fun _ _ => rfl) fun q hq => ?_
  by_cases hqp : q ∈ f p
  · have hchild := ((hf.mem_iff q p).mp hqp).2
    have hheir : heir s.tree p = some r := hd.heir.resolve_right fun hnil =>
      absurd hqp (hnil.1 ▸ List.not_mem_nil)
    rw [keeps_of_child hchild, keeps, hparent, if_pos hqp]
    exact decide_eq_decide.mpr (halike r hheir q hq hchild).symm
  · refine keeps_congr ?_ rfl rfl rfl rfl
    rw [hparent, if_neg hqp]

theorem OrphInv.step (ho : OrphInv s) (h : Inv s) {c : GroupCall}
    (hok : InitLives c ∧ OrphansOk s c) (ht : s.step c = some t) : OrphInv t := by
  obtain ⟨f, hf⟩ := h.lists
  cases c with
  | create p =>
    simp only [Server.step] at ht
    split at ht
    · cases ht
    · rename_i hp
      split at ht
      · cases ht
      · rename_i n u hu
        cases ht
        obtain ⟨-, a, b, rfl⟩ := genpid_spec hu
        refine OrphInv.completeProc ho ⟨?_, h.pids, h.lists, h.parentset⟩ hp
        exact h.groups.congr rfl rfl rfl rfl rfl rfl
  | child parentp childp =>
    simp only [Server.step] at ht
    split at ht
    · rename_i husable
      rcases h.procChild_cases husable.1 husable.2 ht with
        rfl | ⟨tree, ha, hgroup⟩
      · exact ho
      · have hset : ¬ s.tree.parentset childp = true := by
          rw [ha.parentset]
          exact Bool.false_ne_true
        rcases hok.2.resolve_left hset with ⟨hsame, hkept⟩ | ⟨hdiff, hcount, halike⟩
        · rcases hgroup with ⟨-, rfl⟩ | ⟨hne, -⟩
          · exact ho.adopted ha hsame hkept
          · exact absurd hsame hne
        · rcases hgroup with ⟨heq, -⟩ | ⟨hne, rfl⟩
          · exact absurd heq hdiff
          · exact ho.adoptedMove h husable.2.1 ha hne hcount halike
    · cases ht
  | setpgrp callerp pid pgid new =>
    simp only [Server.step] at ht
    split at ht
    · rename_i husable
      rcases h.procSetpgrp_cases husable ht with rfl | ⟨p, pg, u, hp, hperm, hfind, hu, rfl⟩
      · exact ho
      · have hcond := (hok.2 p hp).resolve_left hperm
        rw [hfind] at hcond
        refine ho.setpgrp h hu (fun hpg => ?_) fun hnone => ?_
        · rcases hcond with ⟨g, hg, halike⟩ | ⟨hnone, -⟩
          · cases hg.symm.trans hpg
            exact halike
          · exact absurd (hnone.symm.trans hpg) (by simp)
        · rcases hcond with ⟨g, hg, -⟩ | ⟨-, halone⟩
          · exact absurd (hg.symm.trans hnone) (by simp)
          · exact halone
    · cases ht
  | setsid p sess pg =>
    simp only [Server.step] at ht
    split at ht
    · rename_i husable
      rcases procSetsid_cases ht with rfl | ⟨hperm, hsess, hpg, rfl⟩
      · exact ho
      · exact ho.setsid h husable.1 hsess hpg (hok.2.resolve_left hperm)
    · cases ht
  | markExec p =>
    simp only [Server.step] at ht
    split at ht
    · cases ht
      exact ho
    · cases ht
  | makeTaskNamespace p notify =>
    simp only [Server.step, Proc.step] at ht
    split at ht
    · cases ht
    · rename_i tree htree
      cases ht
      split at htree
      · split at htree
        · cases htree
          exact ho
        · cases htree
          exact ho
      · cases htree
  | taskDied p =>
    simp only [Server.step] at ht
    split at ht
    · rename_i hp
      rcases processHasExited_cases hf hp hok.1 ht with ⟨-, rfl⟩ | ⟨hlive, r, tree, hd, hend⟩
      · exact ho
      · have hdead : ¬ s.tree.dead p = true := by
          rw [hlive]
          exact Bool.false_ne_true
        have hnow := ho.died hf hd (hok.2.resolve_left hdead)
        rcases hend with rfl | rfl
        · exact hnow
        · exact hnow.reap (hd.left.known.symm ▸ hp)
    · cases ht
  | wait p child =>
    simp only [Server.step] at ht
    split at ht
    · rename_i hwait
      rw [completeExit_reap hwait.2.2.2.1 ht]
      exact ho.reap hwait.2.1
    · cases ht

end Calls

/-- Each count is that of the members whose parent is in another group of the session, and is zero
when there is none. -/
structure OrphcntOk (s : Server) : Prop where
  count : ∀ pg ∈ s.groups, s.orphcnt pg =
    ((s.tree.known.filter fun p => s.pgrp p = pg ∧ s.ParentOutside p pg).card : Int)
  orphaned : ∀ pg ∈ s.groups,
    s.orphcnt pg = 0 ↔ ∀ p ∈ s.tree.known, s.pgrp p = pg → ¬ s.ParentOutside p pg

theorem OrphInv.orphcntOk {s : Server} (ho : OrphInv s) : OrphcntOk s := by
  have hcount : ∀ pg ∈ s.groups, s.orphcnt pg =
      ((s.tree.known.filter fun p => s.pgrp p = pg ∧ s.ParentOutside p pg).card : Int) := by
    intro pg hpg
    rw [ho pg hpg]
    congr 2
    refine filter_congr fun p _ => and_congr_right fun hp => ?_
    rw [keeps, decide_eq_true_iff, KeptFrom, hp]
    rfl
  refine ⟨hcount, fun pg hpg => ?_⟩
  rw [hcount pg hpg, Int.natCast_eq_zero, card_eq_zero, filter_eq_empty_iff]
  exact ⟨fun h p hp hpg hout => h hp ⟨hpg, hout⟩, fun h p hp hand => h p hp hand.1 hand.2⟩

theorem boot_orphInv : OrphInv boot := by
  have hempty : OrphInv (initOnly.bootSetsid initProc 1 1) := by
    intro pg hpg
    obtain rfl : pg = 1 := mem_singleton.mp hpg
    rfl
  exact (hempty.completeProc bootSetsid_inv (by decide)).completeProc
    (bootSetsid_inv.completeProc (by decide) rfl) (by decide)

/-- In every run in which init stays and no call changes what the children of a process add to the
counts of their groups. -/
theorem orphan_counts_ok {s : Server}
    (h : Reach Server.step (fun s c => InitLives c ∧ OrphansOk s c) boot s) : OrphcntOk s := by
  obtain ⟨-, ho⟩ : Inv s ∧ OrphInv s := by
    refine h.invariant (fun s => Inv s ∧ OrphInv s) ⟨boot_inv, boot_orphInv⟩ ?_
    rintro s c t ⟨hinv, ho⟩ hok ht
    exact ⟨hinv.step hok.1 ht, ho.step hinv hok ht⟩
  exact ho.orphcntOk

theorem orphan_counts_ok_run :
    ∃ s, Reach Server.step (fun s c => InitLives c ∧ OrphansOk s c) boot s ∧ OrphcntOk s ∧
      s.tree.known = {1, 3} ∧ s.tree.parent 3 = 1 ∧ s.pgrp 3 = 5 ∧ s.orphcnt 5 = 1 := by
  let calls : List GroupCall := [.child 2 3, .setpgrp 3 0 0 5, .taskDied 2, .wait 1 2]
  obtain ⟨s, hs, hend⟩ : ∃ s, runLabels Server.step boot calls = some s ∧
      s.tree.known = {1, 3} ∧ s.tree.parent 3 = 1 ∧ s.pgrp 3 = 5 ∧ s.orphcnt 5 = 1 :=
    exists_run calls _ (by decide)
  have hok : AdmitsLabels Server.step (fun s c => InitLives c ∧ OrphansOk s c) boot calls := by
    refine ⟨⟨trivial, .inr (.inl ⟨rfl, rfl⟩)⟩, ⟨trivial, ?_⟩, ⟨(by decide : 2 ≠ initProc), .inr ?_⟩,
      ⟨trivial, trivial⟩, trivial⟩
    · intro p hp
      obtain rfl : 3 = p := Option.some.inj hp
      exact .inr (.inr ⟨rfl, by decide⟩)
    · intro r hr
      obtain rfl : initProc = r := Option.some.inj hr
      decide
  have hreach := Reach.labels calls .start hok hs
  exact ⟨s, hreach, orphan_counts_ok hreach, hend⟩

/-- A process is given a parent that has left its group: the count of the group becomes negative. -/
theorem orphan_count_negative :
    ¬ ∀ s, Reach Server.step (fun _ c => InitLives c) boot s → OrphcntOk s := by
  intro h
  let calls : List GroupCall := [.setpgrp 2 0 0 5, .child 2 3]
  obtain ⟨s, hs, hmem, hneg⟩ : ∃ s, runLabels Server.step boot calls = some s ∧
      1 ∈ s.groups ∧ s.orphcnt 1 = -1 := exists_run calls _ (by decide)
  have hreach : Reach Server.step (fun _ c => InitLives c) boot s :=
    Reach.labels calls .start ⟨trivial, trivial, trivial⟩ hs
  have hcount := (h s hreach).count 1 hmem
  rw [hneg] at hcount
  omega

end Hurd.Proc.Server
