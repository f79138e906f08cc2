import Hurd.Proc.Groups

/-!
# The numbers of sessions

Processes, groups and sessions are in their lists and in the tables under distinct numbers, as long
as no process makes a session whose number another session still has.
-/

namespace Hurd.Proc.Server

open Function

/-- The table of sessions has exactly the sessions in it. -/
def Sids (s : Server) : Prop := Indexed s.sidhash s.sessions s.sid

/-- Whoever makes a session does not leave behind one that has its number. -/
def SetsidOk (s : Server) : GroupCall → Prop
  | .setsid p _ _ => s.SetsidRefused p ∨
      ∀ q ∈ s.tree.known, s.sid (s.session (s.pgrp q)) = s.pid p → q = p
  | _ => True

section Table

variable {s t : Server} {K : Finset Nat} {e : Nat → Prop} {f : Nat → List Nat} {p pg sess n : Nat}

theorem Sids.freePgrp (hs : Sids s) (hsess : s.session pg ∈ s.sessions) : Sids (s.freePgrp pg) := by
  have hown : (s.pgrps.leave pg).owner = s.session := Roster.owner_leave
  unfold Server.freePgrp
  simp only
  split
  · change Indexed (update s.sidhash (s.sid ((s.pgrps.leave pg).owner pg)) none)
      (s.sessions.erase ((s.pgrps.leave pg).owner pg)) s.sid
    rw [hown]
    exact hs.remove hsess
  · exact hs

theorem Sids.leavePgrp (hs : Sids s) (h : GroupInv s K e) (hp : p ∈ K) : Sids (s.leavePgrp p) := by
  have hsess := h.session_mem (h.pgrp_mem hp)
  have hu : Sids { s with members := s.members.leave p } := hs
  unfold Server.leavePgrp
  simp only
  split
  · exact hu.freePgrp hsess
  · split <;> exact hs

theorem Sids.joinPgrp (hs : Sids s) : Sids (s.joinPgrp p) := by
  unfold Server.joinPgrp
  simp only
  split <;> exact hs

theorem Sids.move (hs : Sids s) (h : GroupInv s K e) (hp : p ∈ K) :
    Sids (((s.leavePgrp p).setPgrp p pg).joinPgrp p) := by
  have hleave : Sids ((s.leavePgrp p).setPgrp p pg) := hs.leavePgrp h hp
  exact hleave.joinPgrp

theorem Inv.sidhash_leavePgrp (h : Inv s) (hs : Sids s) (hp : p ∈ s.tree.known)
    (hown : ∀ q ∈ s.tree.known, s.sid (s.session (s.pgrp q)) = s.pid p → q = p) :
    (s.leavePgrp p).sidhash (s.pid p) = none := by
  have hleave := h.groups.leavePgrp hp
  rw [(hs.leavePgrp h.groups hp).eq_none_iff, sid_leavePgrp]
  intro x hx hxp
  obtain ⟨g, hg, rfl⟩ := hleave.sessions_used x hx
  obtain ⟨q, hq, hqg⟩ := (hleave.used g hg).resolve_left id
  obtain ⟨hqp, hq⟩ := Finset.mem_erase.mp hq
  rw [session_leavePgrp, ← hqg, pgrp_leavePgrp] at hxp
  exact hqp (hown q hq hxp)

theorem Sids.setsid (hs : Sids s) (h : Inv s) (hp : p ∈ s.tree.known)
    (hown : ∀ q ∈ s.tree.known, s.sid (s.session (s.pgrp q)) = s.pid p → q = p)
    (hsess : sess ∉ (s.leavePgrp p).sessions) :
    Sids (((((s.leavePgrp p).newSession sess p).newPgrp pg n sess).setPgrp p pg).joinPgrp p) := by
  have hfree := h.sidhash_leavePgrp hs hp hown
  have hpid : (s.leavePgrp p).pid = s.pid := sameProcs_leavePgrp.pid
  have hnew : Sids ((s.leavePgrp p).newSession sess p) :=
    (hs.leavePgrp h.groups hp).add hsess (hpid.symm ▸ hfree)
  have hset : Sids ((((s.leavePgrp p).newSession sess p).newPgrp pg n sess).setPgrp p pg) := hnew
  exact hset.joinPgrp

theorem Sids.reap (hs : Sids s) (h : Inv s) (hp : p ∈ s.tree.known) :
    Sids ((forget { s with
      tree := { s.tree with waited := update s.tree.waited p true } } p).leavePgrp p) := by
  let u := forget { s with tree := { s.tree with waited := update s.tree.waited p true } } p
  have hu : GroupInv u s.tree.known fun _ => False := h.groups.congr rfl rfl rfl rfl rfl rfl
  have hsu : Sids u := hs
  exact hsu.leavePgrp hu hp

theorem Sids.step (hs : Sids s) (h : Inv s) {c : GroupCall} (hok : InitLives c ∧ SetsidOk s c)
    (ht : s.step c = some t) : Sids t := by
  obtain ⟨f, hf⟩ := h.lists
  cases c with
  | create p =>
    simp only [Server.step] at ht
    split at ht
    · cases ht
    · split at ht
      · cases ht
      · rename_i n u hu
        cases ht
        obtain ⟨-, a, b, rfl⟩ := genpid_spec hu
        exact Sids.joinPgrp hs
  | child parentp childp =>
    simp only [Server.step] at ht
    split at ht
    · rename_i husable
      rcases h.procChild_cases husable.1 husable.2 ht with
        rfl | ⟨tree, ha, ⟨-, rfl⟩ | ⟨hne, rfl⟩⟩
      · exact hs
      · exact hs
      · have hu : Sids { s with tree := tree } := hs
        exact hu.move (h.adopted ha).groups (ha.known.symm ▸ husable.2.1)
    · cases ht
  | setpgrp callerp pid pgid new =>
    simp only [Server.step] at ht
    split at ht
    · rename_i husable
      rcases h.procSetpgrp_cases husable ht with rfl | ⟨p, pg, u, -, -, -, hu, rfl⟩
      · exact hs
      · rcases hu.found with ⟨rfl, -⟩ | ⟨rfl, hn, hpg⟩
        · exact hs.move h.groups hu.known
        · have hsess := h.groups.session_mem (h.groups.pgrp_mem hu.known)
          have hnew : Sids (s.newPgrp pg (s.setpgrpPgid p pgid).toNat
            (s.session (s.pgrp p))) := hs
          exact hnew.move (h.groups.newPgrp hpg hsess hn) hu.known
    · cases ht
  | setsid p sess pg =>
    simp only [Server.step] at ht
    split at ht
    · rename_i husable
      rcases procSetsid_cases ht with rfl | ⟨hperm, hsess, hpg, rfl⟩
      · exact hs
      · exact hs.setsid h husable.1 (hok.2.resolve_left hperm) hsess
    · cases ht
  | markExec p =>
    simp only [Server.step] at ht
    split at ht
    · cases ht
      exact hs
    · cases ht
  | makeTaskNamespace p notify =>
    simp only [Server.step] at ht
    split at ht
    · cases ht
    · cases ht
      exact hs
  | taskDied p =>
    simp only [Server.step] at ht
    split at ht
    · rename_i hp
      rcases processHasExited_cases hf hp hok.1 ht with ⟨-, rfl⟩ | ⟨-, r, tree, hd, rfl | rfl⟩
      · exact hs
      · exact hs
      · have hu : Sids (s.died p tree) := hs
        exact hu.reap (h.died hd) (hd.left.known.symm ▸ hp)
    · cases ht
  | wait p child =>
    simp only [Server.step] at ht
    split at ht
    · rename_i hwait
      rw [completeExit_reap hwait.2.2.2.1 ht]
      exact hs.reap h hwait.2.1
    · cases ht

theorem boot_sids : Sids boot := by
  have hnone : Indexed (fun _ : Nat => (none : Option Nat)) ∅ fun _ => 0 := by
    intro k x
    simp
  have hnew : Sids (initOnly.newSession 1 initProc) := hnone.add (Finset.notMem_empty 1) rfl
  have hboot : Sids (initOnly.bootSetsid initProc 1 1) := Sids.joinPgrp hnew
  have hstartup : Sids ((initOnly.bootSetsid initProc 1 1).completeProc 2 pidStartup) :=
    Sids.joinPgrp hboot
  exact Sids.joinPgrp hstartup

end Table

/-- The groups, the sessions and the tables are as they should be, and `genpid` finds a number that
nothing has. -/
structure GroupsOk (s : Server) : Prop where
  members : s.members.Ok s.groups s.tree.known
  groups_used : ∀ pg ∈ s.groups, ∃ p ∈ s.tree.known, s.pgrp p = pg
  pgrps : s.pgrps.Ok s.sessions s.groups
  sessions_used : ∀ x ∈ s.sessions, ∃ pg ∈ s.groups, s.session pg = x
  pids : Indexed s.pidhash s.tree.known s.pid ∧ Set.InjOn s.pid s.tree.known
  pgids : Indexed s.pghash s.groups s.pgid ∧ Set.InjOn s.pgid s.groups
  sids : Indexed s.sidhash s.sessions s.sid ∧ Set.InjOn s.sid s.sessions
  genpid : ∀ n t, s.genpid = some (n, t) → (∀ p ∈ s.tree.known, s.pid p ≠ n) ∧
    (∀ pg ∈ s.groups, s.pgid pg ≠ n) ∧ ∀ x ∈ s.sessions, s.sid x ≠ n

theorem Inv.groupsOk {s : Server} (h : Inv s) (hs : Sids s) : GroupsOk s := by
  refine ⟨h.groups.members, ?_, h.groups.pgrps, h.groups.sessions_used, ⟨h.pids, ?_⟩,
    ⟨h.groups.pgids, ?_⟩, ⟨hs, ?_⟩, ?_⟩
  · exact fun pg hpg => (h.groups.used pg hpg).resolve_left id
  · exact fun p hp q hq => h.pids.injOn hp hq
  · exact fun p hp q hq => h.groups.pgids.injOn hp hq
  · exact fun p hp q hq => hs.injOn hp hq
  · intro n t ht
    obtain ⟨hpid, hpg, hsess⟩ := (genpid_spec ht).1
    exact ⟨h.pids.eq_none_iff.mp hpid, h.groups.pgids.eq_none_iff.mp hpg,
      hs.eq_none_iff.mp hsess⟩

/-- In every run in which init stays and no process makes a session whose number another session
has. -/
theorem groups_sessions_ok {s : Server}
    (h : Reach Server.step (fun s c => InitLives c ∧ SetsidOk s c) boot s) : GroupsOk s := by
  obtain ⟨hinv, hs⟩ : Inv s ∧ Sids s := by
    refine h.invariant (fun s => Inv s ∧ Sids s) ⟨boot_inv, boot_sids⟩ ?_
    rintro s c t ⟨hinv, hs⟩ hok ht
    exact ⟨hinv.step hok.1 ht, hs.step hinv hok ht⟩
  exact hinv.groupsOk hs

theorem groups_sessions_ok_run :
    ∃ s, Reach Server.step (fun s c => InitLives c ∧ SetsidOk s c) boot s ∧ GroupsOk s ∧
      s.tree.known = {1, 3} ∧ s.groups = {1, 7} ∧ s.sessions = {1, 6} := by
  let calls : List GroupCall :=
    [.setsid 2 6 6, .child 2 3, .setpgrp 3 0 0 7, .taskDied 2, .wait 1 2]
  obtain ⟨s, hs, hend⟩ : ∃ s, runLabels Server.step boot calls = some s ∧
      s.tree.known = {1, 3} ∧ s.groups = {1, 7} ∧ s.sessions = {1, 6} :=
    exists_run calls _ (by decide)
  have hok : AdmitsLabels Server.step (fun s c => InitLives c ∧ SetsidOk s c) boot calls :=
    ⟨⟨trivial, .inr (by decide)⟩, ⟨trivial, trivial⟩, ⟨trivial, trivial⟩,
      ⟨(by decide : 2 ≠ initProc), trivial⟩, ⟨trivial, trivial⟩, trivial⟩
  have hreach := Reach.labels calls .start hok hs
  exact ⟨s, hreach, groups_sessions_ok hreach, hend⟩

/-- A process leaves its session behind when it is moved to another parent, and makes another one
with the same number. -/
theorem session_number_twice :
    ¬ ∀ s, Reach Server.step (fun _ c => InitLives c) boot s → GroupsOk s := by
  intro h
  let calls : List GroupCall :=
    [.setsid 2 6 6, .child 2 3, .setpgrp 3 0 0 7, .child 1 2, .setsid 2 8 8]
  obtain ⟨s, hs, hone, htwo, hsid⟩ : ∃ s, runLabels Server.step boot calls = some s ∧
      6 ∈ s.sessions ∧ 8 ∈ s.sessions ∧ s.sid 6 = s.sid 8 :=
    exists_run calls _ (by decide)
  have hreach : Reach Server.step (fun _ c => InitLives c) boot s :=
    Reach.labels calls .start ⟨trivial, trivial, trivial, trivial, trivial, trivial⟩ hs
  exact absurd ((h s hreach).sids.2 hone htwo hsid) (by decide)

end Hurd.Proc.Server
