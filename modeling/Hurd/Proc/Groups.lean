import Hurd.Framework.Indexed
import Hurd.Proc.ChildLists
import Hurd.Proc.Pgrp

/-!
# The lists of groups and sessions

Each process is in the list of its group and each group in the list of its session. No group and no
session is empty, and the tables have exactly the processes and the groups that exist in them. Every
call keeps it so, as long as init stays.
-/

namespace Hurd.Proc.Server

open Function Finset Option

section Frame

variable {s t u : Server} {p q pg sess n : Nat}

/-- The state differs in lists, tables of groups and sessions, and counts only. -/
structure SameProcs (s t : Server) : Prop where
  tree : t.tree = s.tree
  pid : t.pid = s.pid
  exec : t.exec = s.exec
  pidhash : t.pidhash = s.pidhash
  nextpid : t.nextpid = s.nextpid
  wrap : t.wrap = s.wrap

theorem SameProcs.trans (h : SameProcs s t) (h' : SameProcs t u) : SameProcs s u :=
  ⟨h'.tree.trans h.tree, h'.pid.trans h.pid, h'.exec.trans h.exec, h'.pidhash.trans h.pidhash,
    h'.nextpid.trans h.nextpid, h'.wrap.trans h.wrap⟩

theorem sameProcs_freePgrp : SameProcs s (s.freePgrp pg) := by
  unfold freePgrp
  simp only
  split <;> exact ⟨rfl, rfl, rfl, rfl, rfl, rfl⟩

theorem sameProcs_leavePgrp : SameProcs s (s.leavePgrp p) := by
  unfold leavePgrp
  simp only
  split
  · exact .trans (t := { s with members := s.members.leave p }) ⟨rfl, rfl, rfl, rfl, rfl, rfl⟩
      sameProcs_freePgrp
  · split <;> exact ⟨rfl, rfl, rfl, rfl, rfl, rfl⟩

theorem sameProcs_joinPgrp : SameProcs s (s.joinPgrp p) := by
  unfold joinPgrp
  simp only
  split <;> exact ⟨rfl, rfl, rfl, rfl, rfl, rfl⟩

theorem sameProcs_setPgrp : SameProcs s (s.setPgrp p pg) := ⟨rfl, rfl, rfl, rfl, rfl, rfl⟩

theorem sameProcs_newPgrp : SameProcs s (s.newPgrp pg n sess) := ⟨rfl, rfl, rfl, rfl, rfl, rfl⟩

theorem sameProcs_newSession : SameProcs s (s.newSession sess p) := ⟨rfl, rfl, rfl, rfl, rfl, rfl⟩

theorem pgrp_freePgrp : (s.freePgrp pg).pgrp = s.pgrp := by
  unfold freePgrp
  simp only
  split <;> rfl

theorem pgrp_leavePgrp : (s.leavePgrp p).pgrp = s.pgrp := by
  have hleave : Server.pgrp { s with members := s.members.leave p } = s.pgrp :=
    Roster.owner_leave
  unfold leavePgrp
  simp only
  split
  · exact pgrp_freePgrp.trans hleave
  · split <;> exact hleave

theorem session_freePgrp : (s.freePgrp pg).session = s.session := by
  have hleave : Server.session { s with pgrps := s.pgrps.leave pg } = s.session :=
    Roster.owner_leave
  unfold freePgrp
  simp only
  split <;> exact hleave

theorem session_leavePgrp : (s.leavePgrp p).session = s.session := by
  unfold leavePgrp
  simp only
  split
  · exact session_freePgrp
  · split <;> rfl

theorem sid_leavePgrp : (s.leavePgrp p).sid = s.sid := by
  unfold leavePgrp freePgrp
  simp only
  split
  · split <;> rfl
  · split <;> rfl

theorem pgrp_join : ((s.setPgrp p pg).joinPgrp p).pgrp = update s.pgrp p pg := by
  unfold joinPgrp
  simp only
  split <;> rfl

theorem groups_join : ((s.setPgrp p pg).joinPgrp p).groups = s.groups := by
  unfold joinPgrp
  simp only
  split <;> rfl

theorem session_join : ((s.setPgrp p pg).joinPgrp p).session = s.session := by
  unfold joinPgrp
  simp only
  split <;> rfl

theorem tree_join : ((s.setPgrp p pg).joinPgrp p).tree = s.tree :=
  sameProcs_joinPgrp.tree

theorem pgid_leavePgrp : (s.leavePgrp p).pgid = s.pgid := by
  unfold leavePgrp freePgrp
  simp only
  split
  · split <;> rfl
  · split <;> rfl

theorem pgid_join : ((s.setPgrp p pg).joinPgrp p).pgid = s.pgid := by
  unfold joinPgrp
  simp only
  split <;> rfl

end Frame

/-- The processes `K` are in groups and all groups are in sessions. Only the groups `e` may be
empty. -/
structure GroupInv (s : Server) (K : Finset Nat) (e : Nat → Prop) : Prop where
  members : s.members.Ok s.groups K
  used : ∀ pg ∈ s.groups, e pg ∨ ∃ p ∈ K, s.pgrp p = pg
  pgrps : s.pgrps.Ok s.sessions s.groups
  sessions_used : ∀ x ∈ s.sessions, ∃ pg ∈ s.groups, s.session pg = x
  pgids : Indexed s.pghash s.groups s.pgid

section Invariant

variable {s t : Server} {K : Finset Nat} {e : Nat → Prop} {p q pg sess n : Nat}

theorem GroupInv.pgrp_mem (h : GroupInv s K e) (hp : p ∈ K) : s.pgrp p ∈ s.groups :=
  h.members.owner_mem hp

theorem GroupInv.session_mem (h : GroupInv s K e) (hpg : pg ∈ s.groups) :
    s.session pg ∈ s.sessions :=
  h.pgrps.owner_mem hpg

theorem GroupInv.freePgrp (h : GroupInv s K fun g => e g ∨ g = pg) (hpg : pg ∈ s.groups)
    (hempty : ∀ p ∈ K, s.pgrp p ≠ pg) : GroupInv (s.freePgrp pg) K e := by
  have hleave := h.pgrps.leave hpg
  have hsess : s.session pg ∈ s.sessions := h.session_mem hpg
  have hused : ∀ g ∈ s.groups.erase pg, e g ∨ ∃ p ∈ K, s.pgrp p = g := by
    intro g hg
    obtain ⟨hne, hg⟩ := mem_erase.mp hg
    rcases h.used g hg with (he | heq) | hp
    · exact .inl he
    · exact absurd heq hne
    · exact .inr hp
  have hown : (s.pgrps.leave pg).owner = s.session := Roster.owner_leave
  have hfirst := hleave.first_eq_none_iff hsess
  rw [hown] at hfirst
  unfold Server.freePgrp
  simp only
  split
  · rename_i hnone
    change (s.pgrps.leave pg).first ((s.pgrps.leave pg).owner pg) = none at hnone
    rw [hown, hfirst] at hnone
    have hdrop := hleave.dropOwner (q := s.session pg) (by rw [hown]; exact hnone)
    refine ⟨h.members.dropOwner hempty, hused, ?_, ?_, h.pgids.remove hpg⟩
    · change (s.pgrps.leave pg).Ok (s.sessions.erase ((s.pgrps.leave pg).owner pg)) _
      rw [hown]
      exact hdrop
    · change ∀ x ∈ s.sessions.erase ((s.pgrps.leave pg).owner pg),
        ∃ g ∈ s.groups.erase pg, (s.pgrps.leave pg).owner g = x
      rw [hown]
      intro x hx
      obtain ⟨hne, hx⟩ := mem_erase.mp hx
      obtain ⟨g, hg, rfl⟩ := h.sessions_used x hx
      refine ⟨g, mem_erase.mpr ⟨?_, hg⟩, rfl⟩
      rintro rfl
      exact hne rfl
  · rename_i hsome
    change ¬ (s.pgrps.leave pg).first ((s.pgrps.leave pg).owner pg) = none at hsome
    rw [hown, hfirst] at hsome
    refine ⟨h.members.dropOwner hempty, hused, hleave, ?_, h.pgids.remove hpg⟩
    change ∀ x ∈ s.sessions, ∃ g ∈ s.groups.erase pg, (s.pgrps.leave pg).owner g = x
    rw [hown]
    intro x hx
    by_cases heq : x = s.session pg
    · by_contra hnone
      push Not at hnone
      exact hsome fun g hg => heq ▸ hnone g hg
    · obtain ⟨g, hg, rfl⟩ := h.sessions_used x hx
      refine ⟨g, mem_erase.mpr ⟨?_, hg⟩, rfl⟩
      rintro rfl
      exact heq rfl

theorem GroupInv.leavePgrp (h : GroupInv s K e) (hp : p ∈ K) :
    GroupInv (s.leavePgrp p) (K.erase p) e := by
  have hleave := h.members.leave hp
  have hown : (s.members.leave p).owner = s.pgrp := Roster.owner_leave
  have hpg := h.pgrp_mem hp
  have hfirst := hleave.first_eq_none_iff hpg
  rw [hown] at hfirst
  let u : Server := { s with members := s.members.leave p }
  have hused : ∀ g ∈ s.groups, (e g ∨ g = s.pgrp p) ∨ ∃ q ∈ K.erase p, u.pgrp q = g := by
    intro g hg
    by_cases heq : g = s.pgrp p
    · exact .inl (.inr heq)
    · rcases h.used g hg with he | ⟨q, hq, hqg⟩
      · exact .inl (.inl he)
      · refine .inr ⟨q, mem_erase.mpr ⟨?_, hq⟩, (congrFun hown q).trans hqg⟩
        rintro rfl
        exact heq hqg.symm
  have hu : GroupInv u (K.erase p) fun g => e g ∨ g = s.pgrp p :=
    ⟨hleave, hused, h.pgrps, h.sessions_used, h.pgids⟩
  unfold Server.leavePgrp
  simp only
  split
  · rename_i hnone
    refine hu.freePgrp hpg fun q hq => ?_
    change (s.members.leave p).owner q ≠ s.pgrp p
    rw [hown]
    exact hfirst.mp hnone q hq
  · rename_i hsome
    have hused' : ∀ g ∈ s.groups, e g ∨ ∃ q ∈ K.erase p, u.pgrp q = g := by
      intro g hg
      rcases hused g hg with (he | heq) | hq
      · exact .inl he
      · by_contra hnot
        push Not at hnot
        refine hsome (hfirst.mpr fun q hq hqg => hnot.2 q hq ?_)
        rw [heq, ← hqg]
        exact congrFun hown q
      · exact .inr hq
    split
    · exact ⟨hleave, hused', h.pgrps, h.sessions_used, h.pgids⟩
    · exact ⟨hleave, hused', h.pgrps, h.sessions_used, h.pgids⟩

theorem mem_groups_leavePgrp (hg : q ∈ s.groups) (hne : q ≠ s.pgrp p) :
    q ∈ (s.leavePgrp p).groups := by
  unfold leavePgrp freePgrp
  simp only
  split
  · split <;> exact mem_erase.mpr ⟨hne, hg⟩
  · split <;> exact hg

theorem GroupInv.join (h : GroupInv s K fun g => e g ∨ g = pg) (hp : p ∉ K) (hpg : pg ∈ s.groups) :
    GroupInv ((s.setPgrp p pg).joinPgrp p) (insert p K) e := by
  have hown : (s.members.setOwner p pg).owner p = pg := by rw [Roster.owner_setOwner, update_self]
  have hjoin := (h.members.setOwner hp pg).join hp (hown.symm ▸ hpg)
  have hused : ∀ g ∈ s.groups, e g ∨ ∃ q ∈ insert p K, (s.members.setOwner p pg).owner q = g := by
    intro g hg
    rcases h.used g hg with (he | rfl) | ⟨q, hq, hqg⟩
    · exact .inl he
    · exact .inr ⟨p, mem_insert_self p K, hown⟩
    · refine .inr ⟨q, mem_insert_of_mem hq, ?_⟩
      rw [← hqg]
      exact update_of_ne (fun heq : q = p => hp (heq ▸ hq)) pg s.members.owner
  unfold joinPgrp
  simp only
  split
  · exact ⟨hjoin, hused, h.pgrps, h.sessions_used, h.pgids⟩
  · exact ⟨hjoin, hused, h.pgrps, h.sessions_used, h.pgids⟩

theorem GroupInv.newPgrp (h : GroupInv s K e) (hpg : pg ∉ s.groups) (hsess : sess ∈ s.sessions)
    (hn : s.pghash n = none) : GroupInv (s.newPgrp pg n sess) K fun g => e g ∨ g = pg := by
  have hown : (s.pgrps.setOwner pg sess).owner pg = sess := by rw [Roster.owner_setOwner, update_self]
  refine ⟨h.members.addOwner hpg, ?_, (h.pgrps.setOwner hpg sess).join hpg (hown.symm ▸ hsess), ?_,
    h.pgids.add hpg hn⟩
  · intro g hg
    rcases mem_insert.mp hg with rfl | hg
    · exact .inl (.inr rfl)
    · rcases h.used g hg with he | hp
      · exact .inl (.inl he)
      · exact .inr hp
  · intro x hx
    obtain ⟨g, hg, hgx⟩ := h.sessions_used x hx
    refine ⟨g, mem_insert_of_mem hg, ?_⟩
    rw [← hgx]
    exact update_of_ne (fun heq : g = pg => hpg (heq ▸ hg)) sess s.pgrps.owner

theorem GroupInv.newSession (h : GroupInv s K e) (hsess : sess ∉ s.sessions) (hpg : pg ∉ s.groups)
    (hn : s.pghash n = none) :
    GroupInv ((s.newSession sess p).newPgrp pg n sess) K fun g => e g ∨ g = pg := by
  let r := s.pgrps.addOwner sess
  have hown : (r.setOwner pg sess).owner pg = sess := by rw [Roster.owner_setOwner, update_self]
  have hjoin := ((h.pgrps.addOwner hsess).setOwner hpg sess).join hpg
    (hown.symm ▸ mem_insert_self sess s.sessions)
  refine ⟨h.members.addOwner hpg, ?_, hjoin, ?_, h.pgids.add hpg hn⟩
  · intro g hg
    rcases mem_insert.mp hg with rfl | hg
    · exact .inl (.inr rfl)
    · rcases h.used g hg with he | hq
      · exact .inl (.inl he)
      · exact .inr hq
  · intro x hx
    rcases mem_insert.mp hx with rfl | hx
    · exact ⟨pg, mem_insert_self pg s.groups, hown⟩
    · obtain ⟨g, hg, hgx⟩ := h.sessions_used x hx
      refine ⟨g, mem_insert_of_mem hg, ?_⟩
      rw [← hgx]
      exact update_of_ne (fun heq : g = pg => hpg (heq ▸ hg)) sess s.pgrps.owner

theorem GroupInv.move (h : GroupInv s K fun g => e g ∨ g = pg) (hp : p ∈ K) (hpg : pg ∈ s.groups)
    (hne : pg ≠ s.pgrp p) : GroupInv (((s.leavePgrp p).setPgrp p pg).joinPgrp p) K e := by
  have hjoin := (h.leavePgrp hp).join (notMem_erase p K) (mem_groups_leavePgrp hpg hne)
  rwa [insert_erase hp] at hjoin

theorem GroupInv.congr (h : GroupInv s K e) (hm : t.members = s.members) (hg : t.groups = s.groups)
    (hr : t.pgrps = s.pgrps) (hx : t.sessions = s.sessions) (hph : t.pghash = s.pghash)
    (hpg : t.pgid = s.pgid) : GroupInv t K e := by
  have hpgrp : t.pgrp = s.pgrp := congrArg Roster.owner hm
  have hsession : t.session = s.session := congrArg Roster.owner hr
  constructor
  · rw [hm, hg]
    exact h.members
  · rw [hg, hpgrp]
    exact h.used
  · rw [hr, hx, hg]
    exact h.pgrps
  · rw [hx, hg, hsession]
    exact h.sessions_used
  · rw [hph, hg, hpg]
    exact h.pgids

end Invariant

section Numbers

variable {s t : Server} {n m : Nat}

theorem nextFree_spec (left n : Nat) :
    s.Pidfree (s.nextFree left n) ∨ s.nextFree left n = n + left := by
  induction left generalizing n with
  | zero => exact .inr rfl
  | succ left ih =>
    rw [nextFree]
    split
    · exact .inl ‹_›
    · rcases ih (n + 1) with hfree | heq
      · exact .inl hfree
      · exact .inr (by omega)

theorem nextFreeFrom_spec {left : Nat} (h : s.nextFreeFrom left n = some m) : s.Pidfree m := by
  induction left generalizing n with
  | zero => cases h
  | succ left ih =>
    rw [nextFreeFrom] at h
    split at h
    · rename_i hfree
      cases h
      exact hfree
    · exact ih h

theorem genpid_spec (h : s.genpid = some (n, t)) :
    s.Pidfree n ∧ ∃ a b, t = { s with nextpid := a, wrap := b } := by
  unfold genpid at h
  simp only at h
  split at h
  · split at h
    · cases h
    · rename_i m hm
      split at h
      · cases h
      · cases h
        exact ⟨nextFreeFrom_spec hm, _, _, rfl⟩
  · rename_i hlt
    cases h
    refine ⟨?_, _, s.wrap, rfl⟩
    rcases nextFree_spec (s := s) (s.wrap - s.nextpid) s.nextpid with hfree | heq
    · exact hfree
    · omega

end Numbers

/-- What holds between calls. -/
structure Inv (s : Server) : Prop where
  groups : GroupInv s s.tree.known fun _ => False
  pids : Indexed s.pidhash s.tree.known s.pid
  lists : ∃ f, ListInv s.tree f
  parentset : s.tree.parentset initProc = true

/-- Init does not exit. -/
def InitLives : GroupCall → Prop
  | .taskDied p => p ≠ initProc
  | _ => True

section Calls

variable {s t : Server} {f : Nat → List Nat} {p q pg sess n : Nat}

theorem GroupInv.not_empty {K : Finset Nat} (h : GroupInv s K fun _ => False) :
    GroupInv s K fun g => False ∨ g = pg :=
  { h with used := fun g hg => (h.used g hg).imp .inl id }

theorem Inv.completeProc (h : Inv s) (hp : p ∉ s.tree.known) (hn : s.pidhash n = none) :
    Inv (s.completeProc p n) := by
  obtain ⟨f, hf⟩ := h.lists
  have hpi : p ≠ initProc := fun heq => hp (heq ▸ hf.init_known)
  let u : Server := { s with
    tree := Proc.completeProc s.tree p
    pid := update s.pid p n
    exec := update s.exec p false
    pidhash := update s.pidhash n (some p) }
  have hu : GroupInv u s.tree.known fun _ => False :=
    h.groups.congr rfl rfl rfl rfl rfl rfl
  have hjoin : GroupInv (s.completeProc p n) (insert p s.tree.known) fun _ => False :=
    hu.not_empty.join hp (hu.pgrp_mem hf.init_known)
  have hsame : SameProcs (u.setPgrp p (u.pgrp initProc)) (s.completeProc p n) :=
    sameProcs_joinPgrp
  have htree : (s.completeProc p n).tree = Proc.completeProc s.tree p := hsame.tree
  have hknown : (s.completeProc p n).tree.known = insert p s.tree.known := by
    rw [htree]
    rfl
  constructor
  · rw [hknown]
    exact hjoin
  · rw [hknown, hsame.pidhash, hsame.pid]
    exact h.pids.add hp hn
  · rw [htree]
    exact ⟨_, hf.create hp⟩
  · rw [htree]
    change update s.tree.parentset p false initProc = true
    rw [update_of_ne hpi.symm]
    exact h.parentset

theorem Inv.of_groups (h : Inv s) (hsame : SameProcs s t)
    (hg : GroupInv t s.tree.known fun _ => False) : Inv t := by
  constructor
  · rw [hsame.tree]
    exact hg
  · rw [hsame.tree, hsame.pid, hsame.pidhash]
    exact h.pids
  · rw [hsame.tree]
    exact h.lists
  · rw [hsame.tree]
    exact h.parentset

theorem Inv.of_tree (h : Inv s) {tree : Procs} (hknown : tree.known = s.tree.known)
    (hf : ListInv tree f) (hset : tree.parentset initProc = true) :
    Inv { s with tree := tree } := by
  have hg : GroupInv { s with tree := tree } s.tree.known fun _ => False :=
    h.groups.congr rfl rfl rfl rfl rfl rfl
  exact ⟨hknown.symm ▸ hg, hknown.symm ▸ h.pids, ⟨f, hf⟩, hset⟩

theorem sameProcs_move : SameProcs s (((s.leavePgrp p).setPgrp p pg).joinPgrp p) :=
  (sameProcs_leavePgrp.trans sameProcs_setPgrp).trans sameProcs_joinPgrp

theorem Inv.move (h : Inv s) (hp : p ∈ s.tree.known) (hpg : pg ∈ s.groups) (hne : pg ≠ s.pgrp p) :
    Inv (((s.leavePgrp p).setPgrp p pg).joinPgrp p) :=
  h.of_groups sameProcs_move (h.groups.not_empty.move hp hpg hne)

/-- `proc_child` has put the child under its new parent. -/
structure Adopted (s : Server) (parentp childp : Nat) (tree : Procs) : Prop where
  ne_init : childp ≠ initProc
  parentset : s.tree.parentset childp = false
  old_parent : s.tree.parent childp = initProc
  parent : tree.parent = update s.tree.parent childp parentp
  known : tree.known = s.tree.known
  dead : tree.dead = s.tree.dead
  waited : tree.waited = s.tree.waited
  init : tree.parentset initProc = true
  lists : ∃ f, ListInv tree f

theorem Inv.procChild_cases (h : Inv s) {parentp childp : Nat} (hparent : s.tree.Usable parentp)
    (hchild : s.tree.Usable childp) (hs : s.procChild parentp childp = some t) :
    t = s ∨ ∃ tree, Adopted s parentp childp tree ∧
      (s.pgrp childp = s.pgrp parentp ∧ t = { s with tree := tree } ∨
        s.pgrp childp ≠ s.pgrp parentp ∧
        t = ((Server.leavePgrp { s with tree := tree } childp).setPgrp childp
          (s.pgrp parentp)).joinPgrp childp) := by
  obtain ⟨f, hf⟩ := h.lists
  unfold procChild at hs
  split at hs
  · cases hs
  · rename_i tree htree
    split at hs
    · exact .inl (some.inj hs).symm
    · rename_i hset
      have hci : childp ≠ initProc := fun heq => hset (heq ▸ h.parentset)
      have hadopted : Adopted s parentp childp tree := by
        rcases hf.child hparent hchild hci htree with ⟨htrue, -⟩ | hmoved
        · exact absurd htrue hset
        · obtain ⟨hset, hold, hpar, hknown, hdead, hwaited, hpset, hlists⟩ := hmoved
          refine ⟨hci, hset, hold, hpar, hknown, hdead, hwaited, ?_, _, hlists⟩
          rw [hpset, update_of_ne hci.symm]
          exact h.parentset
      refine .inr ⟨tree, hadopted, ?_⟩
      simp only at hs
      split at hs
      · rename_i hne
        exact .inr ⟨hne, (some.inj hs).symm⟩
      · rename_i heq
        exact .inl ⟨not_not.mp heq, (some.inj hs).symm⟩

theorem Inv.adopted (h : Inv s) {parentp childp : Nat} {tree : Procs}
    (ha : Adopted s parentp childp tree) : Inv { s with tree := tree } := by
  obtain ⟨f, hf⟩ := ha.lists
  exact h.of_tree ha.known hf ha.init

/-- What `proc_setpgrp` does before `p` leaves its group for `pg`: `pg` is found as number `n`, or is
made. -/
structure Setpgrp (s : Server) (p pg n : Nat) (u : Server) : Prop where
  known : p ∈ s.tree.known
  ne : pg ≠ s.pgrp p
  found : u = s ∧ s.pghash n = some pg ∨
    u = s.newPgrp pg n (s.session (s.pgrp p)) ∧ s.pghash n = none ∧ pg ∉ s.groups

theorem Inv.changePgrp_cases (h : Inv s) (hp : p ∈ s.tree.known) {new : Nat}
    (hs : s.changePgrp p n new (s.pghash n) = some t) :
    t = s ∨ ∃ pg u, Setpgrp s p pg n u ∧ t = ((u.leavePgrp p).setPgrp p pg).joinPgrp p := by
  unfold changePgrp at hs
  split at hs
  · rename_i o pg ho
    split at hs
    · exact .inl (some.inj hs).symm
    · rename_i hne
      exact .inr ⟨pg, s, ⟨hp, Ne.symm hne, .inl ⟨rfl, ho⟩⟩, (some.inj hs).symm⟩
  · rename_i o ho
    split at hs
    · cases hs
    · rename_i hnew
      refine .inr ⟨new, _, ⟨hp, ?_, .inr ⟨rfl, ho, hnew⟩⟩, (some.inj hs).symm⟩
      intro heq
      exact hnew (heq ▸ h.groups.pgrp_mem hp)

theorem Inv.setpgrpProc_known (h : Inv s) {callerp : Nat} {pid : Int}
    (hcaller : s.tree.Usable callerp) (hp : s.setpgrpProc callerp pid = some p) :
    p ∈ s.tree.known := by
  unfold setpgrpProc at hp
  split at hp
  · cases hp
    exact hcaller.1
  · obtain ⟨hfind, -⟩ := Option.filter_eq_some_iff.mp hp
    unfold find at hfind
    split at hfind
    · cases hfind
    · exact ((h.pids _ p).mp hfind).1

theorem Inv.procSetpgrp_cases (h : Inv s) {callerp new : Nat} {pid pgid : Int}
    (hcaller : s.tree.Usable callerp) (hs : s.procSetpgrp callerp pid pgid new = some t) :
    t = s ∨ ∃ p pg u, s.setpgrpProc callerp pid = some p ∧
      ¬ s.SetpgrpRefused callerp p (s.setpgrpPgid p pgid) ∧
      find s.pghash (s.setpgrpPgid p pgid) = s.pghash (s.setpgrpPgid p pgid).toNat ∧
      Setpgrp s p pg (s.setpgrpPgid p pgid).toNat u ∧
      t = ((u.leavePgrp p).setPgrp p pg).joinPgrp p := by
  unfold procSetpgrp at hs
  split at hs
  · exact .inl (some.inj hs).symm
  · rename_i p hp
    split at hs
    · exact .inl (some.inj hs).symm
    · rename_i hperm
      have hpos : ¬ s.setpgrpPgid p pgid < 0 := by
        intro hneg
        refine hperm (.inr (.inr (.inr (.inr ⟨by omega, ?_⟩))))
        rw [find, if_pos hneg]
        rfl
      have hfind : find s.pghash (s.setpgrpPgid p pgid) =
          s.pghash (s.setpgrpPgid p pgid).toNat := by
        rw [find, if_neg hpos]
      rw [hfind] at hs
      rcases h.changePgrp_cases (h.setpgrpProc_known hcaller hp) hs with heq | ⟨pg, u, hu, ht⟩
      · exact .inl heq
      · exact .inr ⟨p, pg, u, hp, hperm, hfind, hu, ht⟩

theorem Inv.setpgrp (h : Inv s) {u : Server} (hu : Setpgrp s p pg n u) :
    Inv (((u.leavePgrp p).setPgrp p pg).joinPgrp p) := by
  rcases hu.found with ⟨rfl, hn⟩ | ⟨rfl, hn, hpg⟩
  · exact h.move hu.known ((h.groups.pgids n pg).mp hn).1 hu.ne
  · have hg := h.groups.newPgrp hpg (h.groups.session_mem (h.groups.pgrp_mem hu.known)) hn
    refine h.of_groups (sameProcs_newPgrp.trans sameProcs_move) (hg.move hu.known ?_ hu.ne)
    exact mem_insert_self pg s.groups

theorem procSetsid_cases (hs : s.procSetsid p sess pg = some t) :
    t = s ∨ ¬ s.SetsidRefused p ∧
      sess ∉ (s.leavePgrp p).sessions ∧ pg ∉ (s.leavePgrp p).groups ∧
      t = ((((s.leavePgrp p).newSession sess p).newPgrp pg (s.pid p) sess).setPgrp p pg).joinPgrp
        p := by
  unfold procSetsid at hs
  split at hs
  · exact .inl (some.inj hs).symm
  · rename_i hperm
    simp only at hs
    split at hs
    · cases hs
    · rename_i hfresh
      push Not at hfresh
      refine .inr ⟨hperm, hfresh.1, hfresh.2, (some.inj hs).symm.trans ?_⟩
      rw [show ((s.leavePgrp p).newSession sess p).pid = s.pid from sameProcs_leavePgrp.pid]

theorem pghash_leavePgrp (hn : s.pghash n = none) : (s.leavePgrp p).pghash n = none := by
  have hfree : ∀ k, update s.pghash k none n = none := by
    intro k
    by_cases hk : n = k
    · rw [hk, update_self]
    · rw [update_of_ne hk, hn]
  unfold leavePgrp freePgrp
  simp only
  split
  · split <;> exact hfree _
  · split <;> exact hn

theorem Inv.setsid (h : Inv s) (hp : p ∈ s.tree.known) (hperm : ¬ s.SetsidRefused p)
    (hsess : sess ∉ (s.leavePgrp p).sessions) (hpg : pg ∉ (s.leavePgrp p).groups) :
    Inv (((((s.leavePgrp p).newSession sess p).newPgrp pg (s.pid p) sess).setPgrp p pg).joinPgrp
      p) := by
  have hnone : s.pghash (s.pid p) = none := not_not.mp fun hne => hperm (.inr hne)
  have hnew := (h.groups.leavePgrp hp).newSession (p := p) hsess hpg (pghash_leavePgrp hnone)
  have hjoin := hnew.join (notMem_erase p _) (mem_insert_self pg _)
  rw [insert_erase hp] at hjoin
  refine h.of_groups (.trans ?_ sameProcs_joinPgrp) hjoin
  exact ((sameProcs_leavePgrp.trans sameProcs_newSession).trans sameProcs_newPgrp).trans
    sameProcs_setPgrp

/-- The processes that are left when `p` has been freed. -/
def forget (s : Server) (p : Nat) : Server :=
  { s with
    tree := { s.tree.unlink p with known := s.tree.known.erase p }
    pidhash := update s.pidhash (s.pid p) none }

theorem completeExit_reap (hdead : s.tree.dead p = true)
    (hs : Server.completeExit { s with
      tree := { s.tree with waited := update s.tree.waited p true } } p = some t) :
    t = (forget { s with
      tree := { s.tree with waited := update s.tree.waited p true } } p).leavePgrp p := by
  unfold completeExit at hs
  split at hs
  · cases hs
  · rename_i tree htree
    cases hs
    rw [Proc.completeExit, if_pos ⟨hdead, update_self _ _ _⟩] at htree
    cases htree
    rfl

theorem Inv.reap (h : Inv s) (hp : p ∈ s.tree.known) (hdead : s.tree.dead p = true) :
    Inv ((forget { s with
      tree := { s.tree with waited := update s.tree.waited p true } } p).leavePgrp p) := by
  obtain ⟨f, hf⟩ := h.lists
  let v : Procs := { s.tree with waited := update s.tree.waited p true }
  have hv : ListInv v f := hf.congr (by funext k; cases k <;> rfl) rfl rfl rfl rfl
  let u : Server := forget { s with tree := v } p
  have hsame : Procs.SameButLinks v (v.unlink p) := Procs.sameButLinks_unlink
  have hu : GroupInv u s.tree.known fun _ => False := h.groups.congr rfl rfl rfl rfl rfl rfl
  have hframe : SameProcs u (u.leavePgrp p) := sameProcs_leavePgrp
  constructor
  · rw [hframe.tree]
    exact hu.leavePgrp hp
  · rw [hframe.tree, hframe.pid, hframe.pidhash]
    exact h.pids.remove hp
  · rw [hframe.tree]
    exact ⟨_, hv.completeExit hp hdead⟩
  · rw [hframe.tree]
    change (v.unlink p).parentset initProc = true
    rw [hsame.parentset]
    exact h.parentset

/-- The process has left its children to `r` and is marked as dead. -/
structure Died (s : Server) (f : Nat → List Nat) (p r : Nat) (tree : Procs) : Prop where
  heir : heir s.tree p = some r ∨ f p = [] ∧ r = initProc
  usable : s.tree.Usable r
  ne : p ≠ r
  left : Left { s.tree with waited := update s.tree.waited p false } tree f p r
  lists : ListInv { tree with dead := update tree.dead p true } (moved f p r)

/-- The server when `p` is dead. -/
def died (s : Server) (p : Nat) (tree : Procs) : Server :=
  { s with tree := { tree with dead := update tree.dead p true } }

theorem died_dead {tree : Procs} : (s.died p tree).tree.dead p = true := by
  change update tree.dead p true p = true
  rw [update_self]

theorem processHasExited_cases (hf : ListInv s.tree f) (hp : p ∈ s.tree.known) (hpi : p ≠ initProc)
    (hs : s.processHasExited p = some t) :
    s.tree.dead p = true ∧ t = s ∨ s.tree.dead p = false ∧ ∃ r tree, Died s f p r tree ∧ (t = s.died p tree ∨
      t = (forget { s.died p tree with tree := { (s.died p tree).tree with
        waited := update (s.died p tree).tree.waited p true } } p).leavePgrp p) := by
  unfold processHasExited at hs
  split at hs
  · rename_i hdead
    exact .inl ⟨hdead, (some.inj hs).symm⟩
  · rename_i hdead
    replace hdead : s.tree.dead p = false := by simpa using hdead
    split at hs
    · cases hs
    · rename_i tree htree
      obtain ⟨r, hheir, hr, hpr, hleft, hlists⟩ := hf.dies ⟨hp, hdead⟩ hpi htree
      refine .inr ⟨hdead, r, tree, ⟨hheir, hr, hpr, hleft, hlists⟩, ?_⟩
      split at hs
      · exact .inr (completeExit_reap died_dead hs)
      · exact .inl (some.inj hs).symm

theorem Inv.died (h : Inv s) {r : Nat} {tree : Procs} (hd : Died s f p r tree) :
    Inv (s.died p tree) := by
  refine h.of_tree hd.left.known hd.lists ?_
  exact (congrFun hd.left.parentset initProc).trans h.parentset

theorem Inv.processHasExited (h : Inv s) (hp : p ∈ s.tree.known) (hpi : p ≠ initProc)
    (hs : s.processHasExited p = some t) : Inv t := by
  obtain ⟨f, hf⟩ := h.lists
  rcases processHasExited_cases hf hp hpi hs with ⟨-, rfl⟩ | ⟨-, r, tree, hd, rfl | rfl⟩
  · exact h
  · exact h.died hd
  · have hknown : p ∈ (s.died p tree).tree.known := hd.left.known.symm ▸ hp
    exact (h.died hd).reap hknown died_dead

theorem Inv.step (h : Inv s) {c : GroupCall} (hok : InitLives c)
    (hs : s.step c = some t) : Inv t := by
  obtain ⟨f, hf⟩ := h.lists
  cases c with
  | create p =>
    simp only [Server.step] at hs
    split at hs
    · cases hs
    · rename_i hp
      split at hs
      · cases hs
      · rename_i n u hu
        cases hs
        obtain ⟨hfree, a, b, rfl⟩ := genpid_spec hu
        refine Inv.completeProc ⟨?_, h.pids, h.lists, h.parentset⟩ hp hfree.1
        exact h.groups.congr rfl rfl rfl rfl rfl rfl
  | child parentp childp =>
    simp only [Server.step] at hs
    split at hs
    · rename_i husable
      rcases h.procChild_cases husable.1 husable.2 hs with
        rfl | ⟨tree, ha, ⟨-, rfl⟩ | ⟨hne, rfl⟩⟩
      · exact h
      · exact h.adopted ha
      · refine (h.adopted ha).move (ha.known.symm ▸ husable.2.1) ?_ (Ne.symm hne)
        exact h.groups.pgrp_mem husable.1.1
    · cases hs
  | setpgrp callerp pid pgid new =>
    simp only [Server.step] at hs
    split at hs
    · rename_i husable
      rcases h.procSetpgrp_cases husable hs with rfl | ⟨p, pg, u, -, -, -, hu, rfl⟩
      · exact h
      · exact h.setpgrp hu
    · cases hs
  | setsid p sess pg =>
    simp only [Server.step] at hs
    split at hs
    · rename_i husable
      rcases procSetsid_cases hs with rfl | ⟨hperm, hsess, hpg, rfl⟩
      · exact h
      · exact h.setsid husable.1 hperm hsess hpg
    · cases hs
  | markExec p =>
    simp only [Server.step] at hs
    split at hs
    · cases hs
      refine ⟨?_, h.pids, h.lists, h.parentset⟩
      exact h.groups.congr rfl rfl rfl rfl rfl rfl
    · cases hs
  | makeTaskNamespace p notify =>
    simp only [Server.step, Proc.step] at hs
    split at hs
    · cases hs
    · rename_i tree htree
      cases hs
      split at htree
      · split at htree
        · cases htree
          exact h
        · cases htree
          refine h.of_tree rfl (f := f) ?_ h.parentset
          exact hf.congr (by funext k; cases k <;> rfl) rfl rfl rfl rfl
      · cases htree
  | taskDied p =>
    simp only [Server.step] at hs
    split at hs
    · rename_i hp
      exact h.processHasExited hp hok hs
    · cases hs
  | wait p child =>
    simp only [Server.step] at hs
    split at hs
    · rename_i hwait
      rw [completeExit_reap hwait.2.2.2.1 hs]
      exact h.reap hwait.2.1 hwait.2.2.2.1
    · cases hs

end Calls

theorem bootSetsid_inv : Inv (initOnly.bootSetsid initProc 1 1) := by
  have hnone : Indexed (fun _ : Nat => (none : Option Nat)) ∅ fun _ => 0 := by
    intro k x
    simp
  have hempty : GroupInv initOnly ∅ fun _ => False := by
    refine ⟨Roster.ok_empty, ?_, Roster.ok_empty, ?_, hnone⟩
    · intro pg hpg
      exact absurd hpg (notMem_empty pg)
    · intro x hx
      exact absurd hx (notMem_empty x)
  have hnew : GroupInv ((initOnly.newSession 1 initProc).newPgrp 1 1 1) ∅ fun g =>
      False ∨ g = 1 :=
    hempty.newSession (notMem_empty 1) (notMem_empty 1) rfl
  have hjoin := hnew.join (notMem_empty initProc) (mem_insert_self 1 _)
  have hsame : SameProcs (((initOnly.newSession 1 initProc).newPgrp 1 1 1).setPgrp initProc 1)
      (initOnly.bootSetsid initProc 1 1) := by
    unfold bootSetsid
    exact sameProcs_joinPgrp
  constructor
  · rw [hsame.tree]
    exact hjoin
  · rw [hsame.tree, hsame.pid, hsame.pidhash]
    intro k x
    change (if k = 1 then some initProc else none) = some x ↔ x ∈ {initProc} ∧ 1 = k
    rw [Option.ite_none_right_eq_some, Option.some.injEq, mem_singleton]
    exact ⟨fun h => ⟨h.2.symm, h.1.symm⟩, fun h => ⟨h.2.symm, h.1.symm⟩⟩
  · rw [hsame.tree]
    exact ⟨_, createInitProc_lists⟩
  · rw [hsame.tree]
    rfl

theorem boot_inv : Inv boot := by
  refine (bootSetsid_inv.completeProc ?_ ?_).completeProc ?_ ?_
  · decide
  · rfl
  · decide
  · rfl

end Hurd.Proc.Server
