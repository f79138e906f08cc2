import Hurd.Proc.Groups
import Hurd.Proc.Wait

/-!
# What a call of the server changes

The wake-ups and the accounts leave the processes and their groups alone, so these stay in order. The
requests that are blocked change only where a condition is broadcast and where a thread waits.
-/

namespace Hurd.Proc.WaitServer

open Function List Option Finset

/-- Init does not exit. -/
def InitLives : WaitCall → Prop
  | .taskDied p => p ≠ initProc
  | _ => True

section Frame

variable {w v : WaitServer} {p q : Nat} {u : Rusage} {s : Procs}

@[simp] theorem server_wake : (w.wake q).server = w.server := by
  unfold wake
  split <;> rfl

@[simp] theorem server_alertParent : (w.alertParent p).server = w.server :=
  server_wake

/-- The flags of processes that are not about waiting. -/
structure SameFlags (w v : WaitServer) : Prop where
  stopped : v.stopped = w.stopped
  continued : v.continued = w.continued
  traced : v.traced = w.traced
  rusage : v.rusage = w.rusage

theorem SameFlags.trans {x : WaitServer} (h : SameFlags w v) (h' : SameFlags v x) : SameFlags w x :=
  ⟨h'.stopped.trans h.stopped, h'.continued.trans h.continued, h'.traced.trans h.traced,
    h'.rusage.trans h.rusage⟩

theorem sameFlags_wake : SameFlags w (w.wake q) := by
  unfold wake
  split <;> exact ⟨rfl, rfl, rfl, rfl⟩

theorem sameFlags_alertParent : SameFlags w (w.alertParent p) :=
  .trans (v := (w.addChildRusage _ _).addDescendants _ _) ⟨rfl, rfl, rfl, rfl⟩ sameFlags_wake

end Frame

section Lists

variable {s : Procs} {f : Nat → List Nat} {p c : Nat}

theorem childrenFrom_eq {ps : List Nat} {l : Link Nat} {b : Nat → Link Nat} {fuel : Nat}
    (h : BackLinked s.deref b l ps) (hfuel : ps.length ≤ fuel) :
    childrenFrom s fuel (s.deref l) = some ps := by
  induction ps generalizing l fuel with
  | nil =>
    rw [show s.deref l = none from h]
    cases fuel <;> rfl
  | cons a ps ih =>
    obtain ⟨ha, -, hrest⟩ := h
    obtain ⟨fuel, rfl⟩ : ∃ n, fuel = n + 1 := ⟨fuel - 1, by simp at hfuel; omega⟩
    rw [ha, childrenFrom, show s.sib a = s.deref (.next a) from rfl,
      ih hrest (by simpa using hfuel)]
    rfl

theorem childrenFrom_ochild (h : ListInv s f) (hp : s.Usable p) :
    childrenFrom s (s.known.card + 1) (s.ochild p) = some (f p) :=
  childrenFrom_eq (h.siblings.linked p hp) (h.length_le p)

theorem isdead_eq {ps : List Nat} {l : Link Nat} {b : Nat → Link Nat} {fuel : Nat}
    (h : BackLinked s.deref b l ps) (hc : s.deref l = some c) (hfuel : ps.length ≤ fuel) :
    isdead s fuel c = some (ps.dropLast.any s.dead) := by
  induction ps generalizing l c fuel with
  | nil => exact absurd (h.symm.trans hc) (by simp)
  | cons a ps ih =>
    obtain ⟨ha, -, hrest⟩ := h
    obtain rfl : a = c := some.inj (ha.symm.trans hc)
    obtain ⟨fuel, rfl⟩ : ∃ n, fuel = n + 1 := ⟨fuel - 1, by simp at hfuel; omega⟩
    cases ps with
    | nil =>
      have hsib : s.sib a = none := hrest
      simp only [isdead, hsib]
      rfl
    | cons x xs =>
      have hsib : s.sib a = some x := hrest.1
      simp only [isdead, hsib]
      rw [ih hrest hrest.1 (by simpa using hfuel)]
      simp

theorem isdead_ochild (h : ListInv s f) (hp : s.Usable p) (hc : s.ochild p = some c) :
    isdead s (s.known.card + 1) c = some ((f p).dropLast.any s.dead) :=
  isdead_eq (h.siblings.linked p hp) hc (h.length_le p)

end Lists

/-- Whoever is blocked and has not been woken is known to be waiting. -/
def Waits (w : WaitServer) : Prop := ∀ b ∈ w.blocked, b.woken = false → w.waiting b.proc = true

section Unwoken

variable {w : WaitServer} {p q : Nat} {b : Blocked}

theorem unwoken_broadcast (hb : b ∈ (w.broadcast q).blocked) (hn : b.woken = false) :
    b ∈ w.blocked ∧ b.proc ≠ q := by
  obtain ⟨a, ha, rfl⟩ := mem_map.mp hb
  by_cases hq : a.proc = q
  · rw [if_pos hq] at hn
    cases hn
  · rw [if_neg hq]
    exact ⟨ha, hq⟩

theorem unwoken_wake (h : Waits w) (hb : b ∈ (w.wake q).blocked) (hn : b.woken = false) :
    b ∈ w.blocked ∧ b.proc ≠ q := by
  unfold wake at hb
  split at hb
  · exact unwoken_broadcast hb hn
  · rename_i hwaiting
    refine ⟨hb, ?_⟩
    rintro rfl
    exact hwaiting (h b hb hn)

theorem Waits.broadcast (h : Waits w) : Waits (w.broadcast q) := by
  intro b hb hn
  exact h b (unwoken_broadcast hb hn).1 hn

theorem Waits.wake (h : Waits w) : Waits (w.wake q) := by
  intro b hb hn
  obtain ⟨hb', hne⟩ := unwoken_wake h hb hn
  unfold WaitServer.wake
  split
  · change update w.waiting q false b.proc = true
    rw [update_of_ne hne]
    exact h b hb' hn
  · exact h b hb' hn

theorem unwoken_alertParent (h : Waits w) (hb : b ∈ (w.alertParent p).blocked)
    (hn : b.woken = false) : b ∈ w.blocked ∧ b.proc ≠ w.tree.parent p := by
  have hadd : Waits ((w.addChildRusage (w.tree.parent p) (w.rusage p)).addDescendants
    (w.tree.parent p) p) := h
  have hwoken := unwoken_wake hadd hb hn
  exact hwoken

theorem Waits.alertParent (h : Waits w) : Waits (w.alertParent p) := by
  have hadd : Waits ((w.addChildRusage (w.tree.parent p) (w.rusage p)).addDescendants
    (w.tree.parent p) p) := h
  exact hadd.wake

end Unwoken

section Exit

variable {w v : WaitServer} {f : Nat → List Nat} {p r : Nat} {s : Server}

/-- The server when a process that has left its children to `r` is dead, and perhaps freed. -/
structure Exited (s : Server) (f : Nat → List Nat) (p r : Nat) (t : Server) : Prop where
  live : s.tree.dead p = false
  result : ∃ tree, Server.Died s f p r tree ∧ (t = s.died p tree ∨
    t = (Server.forget { s.died p tree with tree := { (s.died p tree).tree with
      waited := update (s.died p tree).tree.waited p true } } p).leavePgrp p)

/-- What `process_has_exited` does apart from the alert of the parent and the change of the server:
the heir is alerted if a child is dead that is not the last one, and the threads of the process are
woken. -/
def exitAlerts (w : WaitServer) (p r : Nat) (dead : Bool) : WaitServer :=
  (if dead = true then w.alertParent r else w).wakeSelf p

theorem alertHeir_eq (hf : ListInv w.tree f) (hp : w.tree.Usable p)
    (hr : heir w.tree p = some r ∨ f p = [] ∧ r = initProc) :
    alertHeir v w.tree p =
      some (if (f p).dropLast.any w.tree.dead = true then v.alertParent r else v) := by
  unfold alertHeir
  cases hc : w.tree.ochild p with
  | none =>
    rw [hf.childless hp hc]
    rfl
  | some c =>
    have hne : ¬ (f p = [] ∧ r = initProc) := by
      rintro ⟨hnil, -⟩
      have hlinked := hf.siblings.linked p hp
      rw [hnil] at hlinked
      exact absurd (hlinked.symm.trans hc) (by simp)
    simp only [hr.resolve_right hne, isdead_ochild hf hp hc]

theorem processHasExited_cases (hf : ListInv w.tree f) (hp : p ∈ w.tree.known) (hpi : p ≠ initProc)
    (hs : w.processHasExited p = some v) :
    w.tree.dead p = true ∧ v = w ∨ ∃ r s, Exited w.server f p r s ∧
      v = exitAlerts { w.alertParent p with server := s } p r ((f p).dropLast.any w.tree.dead) := by
  unfold processHasExited at hs
  split at hs
  · rename_i hdead
    exact .inl ⟨hdead, (some.inj hs).symm⟩
  · rename_i hdead
    have hlive : w.tree.dead p = false := by simpa using hdead
    split at hs
    · cases hs
    · rename_i s hserver
      rcases Server.processHasExited_cases hf hp hpi hserver with
        ⟨htrue, -⟩ | ⟨-, r, tree, hd, hresult⟩
      · exact absurd htrue hdead
      · refine .inr ⟨r, s, ⟨hlive, tree, hd, hresult⟩, ?_⟩
        rw [alertHeir_eq hf ⟨hp, hlive⟩ hd.heir, map_some] at hs
        exact (some.inj hs).symm

@[simp] theorem server_wakeSelf : (w.wakeSelf p).server = w.server := by
  unfold wakeSelf
  split <;> rfl

theorem sameFlags_wakeSelf : SameFlags w (w.wakeSelf p) := by
  unfold wakeSelf
  split <;> exact ⟨rfl, rfl, rfl, rfl⟩

@[simp] theorem server_exitAlerts {b : Bool} : (w.exitAlerts p r b).server = w.server := by
  unfold exitAlerts
  rw [server_wakeSelf]
  split
  · exact server_alertParent
  · rfl

theorem inv_exited (h : Server.Inv w.server) (hp : p ∈ w.tree.known)
    (he : Exited w.server f p r s) : Server.Inv s := by
  obtain ⟨tree, hd, rfl | rfl⟩ := he.result
  · exact h.died hd
  · exact (h.died hd).reap (hd.left.known.symm ▸ hp) Server.died_dead

end Exit

section Step

variable {w v : WaitServer} {p : Nat} {pid : Int} {options : WaitOptions} {child : Nat}

inductive Reported (s : Server) (child : Nat) : Server → Prop
  /-- Nothing is said about the child. -/
  | nothing : Reported s child s
  | living : Reported s child
      { s with tree := { s.tree with waited := update s.tree.waited child true } }
  | freed (hdead : s.tree.dead child = true) : Reported s child
      ((Server.forget { s with
        tree := { s.tree with waited := update s.tree.waited child true } } child).leavePgrp child)

theorem reap_cases (hs : w.reap options child = some v) :
    ∃ s, Reported w.server child s ∧ v = { w with server := s } := by
  unfold reap at hs
  split at hs
  · exact ⟨w.server, .nothing, (some.inj hs).symm⟩
  · split at hs
    · rename_i hdead
      obtain ⟨s, hexit, rfl⟩ := map_eq_some_iff.mp hs
      rw [Server.completeExit_reap hdead hexit]
      exact ⟨_, .freed hdead, rfl⟩
    · exact ⟨_, .living, (some.inj hs).symm⟩

theorem inv_reported {s t : Server} (h : Server.Inv s) (hchild : child ∈ s.tree.known)
    (hr : Reported s child t) : Server.Inv t := by
  cases hr with
  | nothing => exact h
  | living =>
    obtain ⟨f, hf⟩ := h.lists
    refine h.of_tree rfl (f := f) ?_ h.parentset
    exact hf.congr (by funext k; cases k <;> rfl) rfl rfl rfl rfl
  | freed hdead => exact h.reap hchild hdead

theorem startOver_cases (h : Server.Inv w.server) (hp : w.tree.Usable p)
    (hs : w.startOver p pid options = some v) :
    v = w ∨ (∃ child s, child ∈ w.tree.known ∧ Reported w.server child s ∧
        v = { w with server := s }) ∨
      (v = w.block p pid options ∧ ∀ c ∈ w.tree.known, w.tree.parent c = p →
        (0 < pid ∧ w.server.pidhash pid.toNat = some c ∨
          pid ≤ 0 ∧ waiterCares pid (w.pgidOf p) (w.server.pid c) (w.pgidOf c) = true) →
        w.reapable options c = false) := by
  obtain ⟨f, hf⟩ := h.lists
  unfold startOver at hs
  split at hs
  · exact .inl (some.inj hs).symm
  · rename_i first hfirst
    split at hs
    · rename_i hpos
      split at hs
      · exact .inl (some.inj hs).symm
      · rename_i child hfind
        have hknown : child ∈ w.tree.known := ((h.pids _ child).mp hfind).1
        split at hs
        · exact .inl (some.inj hs).symm
        · split at hs
          · obtain ⟨s, hr, hv⟩ := reap_cases hs
            exact .inr (.inl ⟨child, s, hknown, hr, hv⟩)
          · rename_i hnot
            refine .inr (.inr ⟨(some.inj hs).symm, fun c _ _ hc => ?_⟩)
            rcases hc with ⟨-, hc⟩ | ⟨hle, -⟩
            · cases hfind.symm.trans hc
              simpa using hnot
            · exact absurd hpos (not_lt.mpr hle)
    · rename_i hpos
      have hall : childrenFrom w.tree (w.tree.known.card + 1) (some first) = some (f p) := by
        rw [← hfirst]
        exact childrenFrom_ochild hf hp
      rw [hall] at hs
      simp only at hs
      split at hs
      · rename_i child hfind
        have hmem : child ∈ f p := mem_of_find?_eq_some hfind
        obtain ⟨s, hr, hv⟩ := reap_cases hs
        exact .inr (.inl ⟨child, s, ((hf.mem_iff child p).mp hmem).1, hr, hv⟩)
      · rename_i hnone
        split at hs
        · refine .inr (.inr ⟨(some.inj hs).symm, fun c hc hparent hcares => ?_⟩)
          replace hcares := (hcares.resolve_left fun hand => hpos hand.1).2
          have hnot := List.find?_eq_none.mp hnone c ((hf.mem_iff c p).mpr ⟨hc, hparent⟩)
          rw [hcares, Bool.true_and] at hnot
          simpa using hnot
        · exact .inl (some.inj hs).symm

@[simp] theorem server_block : (w.block p pid options).server = w.server := by
  unfold block
  split <;> rfl

end Step

/-- The call has changed at most the parents of the processes, which are now `par`, and the numbers of
their groups, which are now `num`. -/
structure Regrouped (s t : Server) (par num : Nat → Nat) : Prop where
  known : t.tree.known = s.tree.known
  dead : t.tree.dead = s.tree.dead
  waited : t.tree.waited = s.tree.waited
  pid : t.pid = s.pid
  pidhash : t.pidhash = s.pidhash
  parent : t.tree.parent = par
  number : ∀ q ∈ s.tree.known, t.pgid (t.pgrp q) = num q

section Regroup

variable {s t u : Server} {p pg n sess : Nat}

/-- `pg_pgid` of the group of the process. -/
def groupNumber (s : Server) (p : Nat) : Nat := s.pgid (s.pgrp p)

theorem regrouped_tree {tree : Procs} (hk : tree.known = s.tree.known) (hd : tree.dead = s.tree.dead)
    (hw : tree.waited = s.tree.waited) (hpar : tree.parent = s.tree.parent) :
    Regrouped s { s with tree := tree } s.tree.parent (groupNumber s) :=
  ⟨hk, hd, hw, rfl, rfl, hpar, fun _ _ => rfl⟩

theorem number_move (hpg : s.pgid pg = n) (q : Nat) :
    groupNumber (((s.leavePgrp p).setPgrp p pg).joinPgrp p) q = update (groupNumber s) p n q := by
  unfold groupNumber
  rw [Server.pgid_join, Server.pgrp_join, Server.pgid_leavePgrp, Server.pgrp_leavePgrp]
  by_cases hq : q = p
  · rw [hq, update_self, update_self, hpg]
  · rw [update_of_ne hq, update_of_ne hq]

theorem regrouped_move (hpg : s.pgid pg = n) :
    Regrouped s (((s.leavePgrp p).setPgrp p pg).joinPgrp p) s.tree.parent
      (update (groupNumber s) p n) := by
  have hsame : Server.SameProcs s (((s.leavePgrp p).setPgrp p pg).joinPgrp p) :=
    Server.sameProcs_move
  exact ⟨congrArg Procs.known hsame.tree, congrArg Procs.dead hsame.tree,
    congrArg Procs.waited hsame.tree, hsame.pid, hsame.pidhash, congrArg Procs.parent hsame.tree,
    fun q _ => number_move hpg q⟩

theorem regrouped_setpgrp (h : Server.Inv s) (hu : Server.Setpgrp s p pg n u) :
    Regrouped s (((u.leavePgrp p).setPgrp p pg).joinPgrp p) s.tree.parent
      (update (groupNumber s) p n) := by
  rcases hu.found with ⟨rfl, hn⟩ | ⟨rfl, hn, hpg⟩
  · exact regrouped_move ((h.groups.pgids n pg).mp hn).2
  · have hnew : (s.newPgrp pg n (s.session (s.pgrp p))).pgid pg = n := by
      change update s.pgid pg n pg = n
      rw [update_self]
    have hmove := regrouped_move (p := p) hnew
    refine ⟨hmove.known, hmove.dead, hmove.waited, hmove.pid, hmove.pidhash, hmove.parent, ?_⟩
    intro q hq
    rw [hmove.number q hq]
    by_cases hqp : q = p
    · rw [hqp, update_self, update_self]
    · rw [update_of_ne hqp, update_of_ne hqp]
      change update s.pgid pg n (s.pgrp q) = s.pgid (s.pgrp q)
      rw [update_of_ne fun heq : s.pgrp q = pg => hpg (heq ▸ h.groups.pgrp_mem hq)]

theorem regrouped_setsid (h : Server.Inv s) (hp : p ∈ s.tree.known)
    (hpg : pg ∉ (s.leavePgrp p).groups) :
    Regrouped s (((((s.leavePgrp p).newSession sess p).newPgrp pg n sess).setPgrp p pg).joinPgrp p)
      s.tree.parent (update (groupNumber s) p n) := by
  have hsame : Server.SameProcs s (s.leavePgrp p) := Server.sameProcs_leavePgrp
  have hjoin : Server.SameProcs
      ((((s.leavePgrp p).newSession sess p).newPgrp pg n sess).setPgrp p pg)
      (((((s.leavePgrp p).newSession sess p).newPgrp pg n sess).setPgrp p pg).joinPgrp p) :=
    Server.sameProcs_joinPgrp
  have htree := hjoin.tree.trans hsame.tree
  refine ⟨congrArg Procs.known htree, congrArg Procs.dead htree, congrArg Procs.waited htree,
    hjoin.pid.trans hsame.pid, hjoin.pidhash.trans hsame.pidhash, congrArg Procs.parent htree, ?_⟩
  intro q hq
  rw [Server.pgid_join, Server.pgrp_join]
  change update (s.leavePgrp p).pgid pg n (update (s.leavePgrp p).pgrp p pg q) = _
  rw [Server.pgid_leavePgrp, Server.pgrp_leavePgrp]
  by_cases hqp : q = p
  · rw [hqp, update_self, update_self, update_self]
  · have hmem : s.pgrp q ∈ (s.leavePgrp p).groups := by
      rw [← Server.pgrp_leavePgrp (s := s) (p := p)]
      exact (h.groups.leavePgrp hp).pgrp_mem (mem_erase.mpr ⟨hqp, hq⟩)
    rw [update_of_ne hqp, update_of_ne hqp, update_of_ne fun heq : s.pgrp q = pg => hpg (heq ▸ hmem)]
    rfl

theorem regrouped_adopted {parentp childp : Nat} {tree : Procs}
    (ha : Server.Adopted s parentp childp tree) (hsame : s.pgrp childp = s.pgrp parentp) :
    Regrouped s { s with tree := tree } (update s.tree.parent childp parentp)
      (update (groupNumber s) childp (groupNumber s parentp)) := by
  refine ⟨ha.known, ha.dead, ha.waited, rfl, rfl, ha.parent, fun q _ => ?_⟩
  by_cases hq : q = childp
  · rw [hq, update_self]
    exact congrArg s.pgid hsame
  · rw [update_of_ne hq]
    rfl

theorem regrouped_adoptedMove {parentp childp : Nat} {tree : Procs}
    (ha : Server.Adopted s parentp childp tree) :
    Regrouped s (((Server.leavePgrp { s with tree := tree } childp).setPgrp childp
      (s.pgrp parentp)).joinPgrp childp) (update s.tree.parent childp parentp)
      (update (groupNumber s) childp (groupNumber s parentp)) := by
  let u : Server := { s with tree := tree }
  have hmove : Regrouped u (((u.leavePgrp childp).setPgrp childp (s.pgrp parentp)).joinPgrp childp)
      tree.parent (update (groupNumber u) childp (groupNumber s parentp)) := regrouped_move rfl
  exact ⟨hmove.known.trans ha.known, hmove.dead.trans ha.dead, hmove.waited.trans ha.waited,
    hmove.pid, hmove.pidhash, hmove.parent.trans ha.parent,
    fun q hq => hmove.number q (ha.known.symm ▸ hq)⟩

/-- What a call that neither makes nor ends a process does to the server. -/
def moveOf (s : Server) : GroupCall → (Nat → Nat) × (Nat → Nat) → Prop
  | .child parentp childp, m => s.tree.parentset childp = false ∧
      m = (update s.tree.parent childp parentp,
        update (groupNumber s) childp (groupNumber s parentp))
  | .setpgrp callerp pid pgid _, m => ∃ p, s.setpgrpProc callerp pid = some p ∧
      ¬ s.SetpgrpRefused callerp p (s.setpgrpPgid p pgid) ∧
      m = (s.tree.parent, update (groupNumber s) p (s.setpgrpPgid p pgid).toNat)
  | .setsid p _ _, m => ¬ s.SetsidRefused p ∧
      m = (s.tree.parent, update (groupNumber s) p (s.pid p))
  | _, _ => False

theorem regrouped_cases (h : Server.Inv s) {c : GroupCall} (hc : ∀ p, c ≠ .create p)
    (hd : ∀ p, c ≠ .taskDied p) (hw : ∀ p q, c ≠ .wait p q) (ht : s.step c = some t) :
    ∃ par num, Regrouped s t par num ∧
      (par = s.tree.parent ∧ num = groupNumber s ∨ moveOf s c (par, num)) := by
  have hsame : Regrouped s s s.tree.parent (groupNumber s) := regrouped_tree rfl rfl rfl rfl
  cases c with
  | create p => exact absurd rfl (hc p)
  | child parentp childp =>
    simp only [Server.step] at ht
    split at ht
    · rename_i husable
      rcases h.procChild_cases husable.1 husable.2 ht with
        rfl | ⟨tree, ha, ⟨heq, rfl⟩ | ⟨hne, rfl⟩⟩
      · exact ⟨_, _, hsame, .inl ⟨rfl, rfl⟩⟩
      · exact ⟨_, _, regrouped_adopted ha heq, .inr ⟨ha.parentset, rfl⟩⟩
      · exact ⟨_, _, regrouped_adoptedMove ha, .inr ⟨ha.parentset, rfl⟩⟩
    · cases ht
  | setpgrp callerp pid pgid new =>
    simp only [Server.step] at ht
    split at ht
    · rename_i husable
      rcases h.procSetpgrp_cases husable ht with rfl | ⟨p, pg, u, hp, hperm, -, hu, rfl⟩
      · exact ⟨_, _, hsame, .inl ⟨rfl, rfl⟩⟩
      · exact ⟨_, _, regrouped_setpgrp h hu, .inr ⟨p, hp, hperm, rfl⟩⟩
    · cases ht
  | setsid p sess pg =>
    simp only [Server.step] at ht
    split at ht
    · rename_i husable
      rcases Server.procSetsid_cases ht with rfl | ⟨hperm, hsess, hpg, rfl⟩
      · exact ⟨_, _, hsame, .inl ⟨rfl, rfl⟩⟩
      · exact ⟨_, _, regrouped_setsid h husable.1 hpg, .inr ⟨hperm, rfl⟩⟩
    · cases ht
  | markExec p =>
    simp only [Server.step] at ht
    split at ht
    · cases ht
      exact ⟨_, _, ⟨rfl, rfl, rfl, rfl, rfl, rfl, fun _ _ => rfl⟩, .inl ⟨rfl, rfl⟩⟩
    · cases ht
  | makeTaskNamespace p notify =>
    simp only [Server.step, Proc.step] at ht
    split at ht
    · cases ht
    · rename_i tree htree
      cases ht
      split at htree
      · split at htree
        · cases htree
          exact ⟨_, _, hsame, .inl ⟨rfl, rfl⟩⟩
        · cases htree
          exact ⟨_, _, regrouped_tree rfl rfl rfl rfl, .inl ⟨rfl, rfl⟩⟩
      · cases htree
  | taskDied p => exact absurd rfl (hd p)
  | wait p child => exact absurd rfl (hw p child)

end Regroup

/-- What a new process adds to the server. -/
structure Created (s : Server) (p : Nat) (t : Server) : Prop where
  fresh : p ∉ s.tree.known
  inv : Server.Inv t
  known : t.tree.known = insert p s.tree.known
  dead : t.tree.dead = update s.tree.dead p false
  waited : t.tree.waited = update s.tree.waited p false
  parent : t.tree.parent = update s.tree.parent p initProc
  pid : ∀ q ∈ s.tree.known, t.pid q = s.pid q
  pidhash : ∀ k q, q ∈ s.tree.known → t.pidhash k = some q → s.pidhash k = some q
  number : ∀ q ∈ s.tree.known, groupNumber t q = groupNumber s q

section Calls

variable {s t : Server} {w v : WaitServer} {p : Nat}

theorem created_completeProc {n : Nat} (h : Server.Inv s) (hp : p ∉ s.tree.known)
    (hn : s.pidhash n = none) : Created s p (s.completeProc p n) := by
  obtain ⟨u, hu⟩ : ∃ u : Server, u = { s with
    tree := Proc.completeProc s.tree p
    pid := update s.pid p n
    exec := update s.exec p false
    pidhash := update s.pidhash n (some p) } := ⟨_, rfl⟩
  have heq : s.completeProc p n = (u.setPgrp p (u.pgrp initProc)).joinPgrp p := by
    rw [hu]
    rfl
  have hsame : Server.SameProcs (u.setPgrp p (u.pgrp initProc)) (s.completeProc p n) :=
    heq ▸ Server.sameProcs_joinPgrp
  have htree : (s.completeProc p n).tree = Proc.completeProc s.tree p := by
    rw [hsame.tree, hu]
    rfl
  have hpid : (s.completeProc p n).pid = update s.pid p n := by
    rw [hsame.pid, hu]
    rfl
  have hhash : (s.completeProc p n).pidhash = update s.pidhash n (some p) := by
    rw [hsame.pidhash, hu]
    rfl
  have hne : ∀ q ∈ s.tree.known, q ≠ p := fun q hq heq => hp (heq ▸ hq)
  refine ⟨hp, h.completeProc hp hn, htree ▸ rfl, htree ▸ rfl, htree ▸ rfl, htree ▸ rfl, ?_, ?_, ?_⟩
  · intro q hq
    rw [hpid, update_of_ne (hne q hq)]
  · intro k q hq hk
    rw [hhash] at hk
    by_cases hkn : k = n
    · rw [hkn, update_self] at hk
      exact absurd (some.inj hk).symm (hne q hq)
    · rwa [update_of_ne hkn] at hk
  · intro q hq
    rw [groupNumber, heq, Server.pgid_join, Server.pgrp_join, update_of_ne (hne q hq), hu]
    rfl

theorem created (h : Server.Inv s) (ht : s.step (.create p) = some t) : Created s p t := by
  simp only [Server.step] at ht
  split at ht
  · cases ht
  · rename_i hp
    split at ht
    · cases ht
    · rename_i n u hu
      cases ht
      obtain ⟨hfree, a, b, rfl⟩ := Server.genpid_spec hu
      have hinv : Server.Inv { s with nextpid := a, wrap := b } :=
        ⟨h.groups.congr rfl rfl rfl rfl rfl rfl, h.pids, h.lists, h.parentset⟩
      have hc := created_completeProc hinv hp hfree.1
      exact ⟨hc.fresh, hc.inv, hc.known, hc.dead, hc.waited, hc.parent, hc.pid, hc.pidhash,
        hc.number⟩

/-- The processes that have a thread blocked. -/
def blockedProcs (w : WaitServer) : List Nat := w.blocked.map Blocked.proc

@[simp] theorem blockedProcs_broadcast {q : Nat} :
    (w.broadcast q).blockedProcs = w.blockedProcs := by
  simp only [blockedProcs, broadcast, List.map_map]
  refine List.map_congr_left fun b _ => ?_
  simp only [comp_apply]
  split <;> rfl

@[simp] theorem blockedProcs_wake {q : Nat} : (w.wake q).blockedProcs = w.blockedProcs := by
  unfold wake
  split
  · exact blockedProcs_broadcast
  · rfl

@[simp] theorem blockedProcs_alertParent : (w.alertParent p).blockedProcs = w.blockedProcs :=
  blockedProcs_wake

@[simp] theorem blockedProcs_exitAlerts {r : Nat} {b : Bool} :
    (w.exitAlerts p r b).blockedProcs = w.blockedProcs := by
  have hself : ∀ x : WaitServer, (x.wakeSelf p).blockedProcs = x.blockedProcs := by
    intro x
    unfold wakeSelf
    split
    · exact blockedProcs_broadcast
    · rfl
  unfold exitAlerts
  rw [hself]
  split
  · exact blockedProcs_alertParent
  · rfl

theorem Waits.exitAlerts {r : Nat} {b : Bool} (h : Waits w) : Waits (w.exitAlerts p r b) := by
  have hself : ∀ x : WaitServer, Waits x → Waits (x.wakeSelf p) := by
    intro x hx
    unfold wakeSelf
    split
    · exact hx.broadcast
    · exact hx
  refine hself _ ?_
  split
  · exact h.alertParent
  · exact h

/-- What holds between calls, whoever is woken. -/
structure Ordered (w : WaitServer) : Prop where
  inv : Server.Inv w.server
  procs : ∀ q ∈ w.blockedProcs, q ∈ w.tree.known ∨ w.tree.dead q = true
  waits : Waits w

theorem exited_known_or_dead {f : Nat → List Nat} {r q : Nat} (he : Exited s f p r t)
    (hq : q ∈ s.tree.known ∨ s.tree.dead q = true) : q ∈ t.tree.known ∨ t.tree.dead q = true := by
  obtain ⟨tree, hd, ht⟩ := he.result
  have hsame : ∀ x : Procs, Procs.SameButLinks x (x.unlink p) :=
    fun _ => Procs.sameButLinks_unlink
  have hdead : t.tree.dead = update tree.dead p true := by
    rcases ht with rfl | rfl
    · rfl
    · rw [Server.sameProcs_leavePgrp.tree]
      exact (hsame _).dead
  have hknown : ∀ q ∈ s.tree.known, q ≠ p → q ∈ t.tree.known := by
    intro q hq hqp
    have hq' : q ∈ tree.known := hd.left.known.symm ▸ hq
    rcases ht with rfl | rfl
    · exact hq'
    · rw [Server.sameProcs_leavePgrp.tree]
      exact mem_erase.mpr ⟨hqp, hq'⟩
  by_cases hqp : q = p
  · right
    rw [hdead, hqp, update_self]
  · rcases hq with hq | hq
    · exact .inl (hknown q hq hqp)
    · right
      rw [hdead, update_of_ne hqp, hd.left.dead]
      exact hq

theorem reported_known_or_dead {child q : Nat} (hr : Reported s child t)
    (hq : q ∈ s.tree.known ∨ s.tree.dead q = true) : q ∈ t.tree.known ∨ t.tree.dead q = true := by
  cases hr with
  | nothing => exact hq
  | living => exact hq
  | freed hdead =>
    have hsame : ∀ x : Procs, Procs.SameButLinks x (x.unlink child) :=
      fun _ => Procs.sameButLinks_unlink
    rw [Server.sameProcs_leavePgrp.tree]
    change q ∈ s.tree.known.erase child ∨ (Procs.unlink _ child).dead q = true
    rw [(hsame _).dead]
    by_cases hqc : q = child
    · rw [hqc]
      exact .inr hdead
    · rcases hq with hq | hq
      · exact .inl (mem_erase.mpr ⟨hqc, hq⟩)
      · exact .inr hq

theorem Ordered.startOver {pid : Int} {options : WaitOptions} (h : Ordered w)
    (hp : w.tree.Usable p) (hs : w.startOver p pid options = some v) : Ordered v := by
  rcases startOver_cases h.inv hp hs with rfl | ⟨child, s, hchild, hr, rfl⟩ | ⟨rfl, -⟩
  · exact h
  · exact ⟨inv_reported h.inv hchild hr, fun q hq => reported_known_or_dead hr (h.procs q hq),
      h.waits⟩
  · unfold block
    split
    · exact h
    · refine ⟨h.inv, fun q hq => ?_, fun b hb hn => ?_⟩
      · rcases mem_cons.mp hq with rfl | hq
        · exact .inl hp.1
        · exact h.procs q hq
      · change update w.waiting p true b.proc = true
        by_cases hbp : b.proc = p
        · rw [hbp, update_self]
        · rw [update_of_ne hbp]
          rcases mem_cons.mp hb with rfl | hb
          · exact absurd rfl hbp
          · exact h.waits b hb hn

theorem Ordered.erase (h : Ordered w) (b : Blocked) :
    Ordered { w with blocked := w.blocked.erase b } := by
  refine ⟨h.inv, fun q hq => ?_, fun a ha => h.waits a (mem_of_mem_erase ha)⟩
  obtain ⟨a, ha, rfl⟩ := mem_map.mp hq
  exact h.procs a.proc (mem_map_of_mem (mem_of_mem_erase ha))

theorem Ordered.resume {b : Blocked} {cancel : Bool} (h : Ordered w) (hb : b ∈ w.blocked)
    (hs : w.resume b cancel = some v) : Ordered v := by
  have herase := h.erase b
  unfold WaitServer.resume at hs
  split at hs
  · cases hs
    exact herase
  · rename_i hnot
    push Not at hnot
    have hlive : w.tree.dead b.proc = false := by simpa using hnot.1
    have hknown := (h.procs b.proc (mem_map_of_mem hb)).resolve_right hnot.1
    exact herase.startOver ⟨hknown, hlive⟩ hs

theorem Ordered.create (h : Ordered w) (hs : w.create p = some v) :
    Ordered v ∧ ∃ t, Created w.server p t ∧ (∀ b ∈ w.blocked, b.proc ≠ p) ∧ v = { w with
      server := t
      stopped := update w.stopped p false
      continued := update w.continued p false
      traced := update w.traced p false
      waiting := update w.waiting p false
      rusage := update w.rusage p .zero
      childRusage := update w.childRusage p .zero } := by
  unfold WaitServer.create at hs
  split at hs
  · rename_i hfree
    obtain ⟨t, ht, rfl⟩ := map_eq_some_iff.mp hs
    have hc := created h.inv ht
    refine ⟨⟨hc.inv, fun q hq => ?_, fun b hb hn => ?_⟩, t, hc, hfree, rfl⟩
    · obtain ⟨b, hb, rfl⟩ := mem_map.mp hq
      change b.proc ∈ t.tree.known ∨ t.tree.dead b.proc = true
      rw [hc.known, hc.dead, update_of_ne (hfree b hb), mem_insert]
      exact (h.procs b.proc hq).imp .inr id
    · change update w.waiting p false b.proc = true
      rw [update_of_ne (hfree b hb)]
      exact h.waits b hb hn
  · cases hs

theorem Ordered.flags (h : Ordered w) {tree : Procs} (hserver : v.server = { w.server with tree := tree })
    (hd : tree.deref = w.tree.deref) (hb : tree.prevsib = w.tree.prevsib)
    (hk : tree.known = w.tree.known) (hpar : tree.parent = w.tree.parent)
    (hdead : tree.dead = w.tree.dead) (hset : tree.parentset = w.tree.parentset)
    (hblocked : v.blockedProcs = w.blockedProcs) (hwaits : Waits v) : Ordered v := by
  obtain ⟨f, hf⟩ := h.inv.lists
  have hlists : ListInv tree f := hf.congr hd hb hk hpar hdead
  refine ⟨?_, fun q hq => ?_, hwaits⟩
  · rw [hserver]
    exact h.inv.of_tree hk hlists ((congrFun hset initProc).trans h.inv.parentset)
  · rw [hblocked] at hq
    change q ∈ v.server.tree.known ∨ v.server.tree.dead q = true
    rw [hserver]
    exact (h.procs q hq).imp (hk.symm ▸ ·) fun hq => (congrFun hdead q).trans hq

theorem Ordered.wakeFlags (h : Ordered w) {q : Nat} {tree : Procs}
    (hserver : v.server = { w.server with tree := tree })
    (hd : tree.deref = w.tree.deref) (hb : tree.prevsib = w.tree.prevsib)
    (hk : tree.known = w.tree.known) (hpar : tree.parent = w.tree.parent)
    (hdead : tree.dead = w.tree.dead) (hset : tree.parentset = w.tree.parentset)
    (hblocked : v.blocked = w.blocked) (hwaiting : v.waiting = w.waiting) : Ordered (v.wake q) := by
  have hwaits : Waits v := by
    intro b hb hn
    rw [hwaiting]
    exact h.waits b (hblocked ▸ hb) hn
  refine h.flags (server_wake.trans hserver) hd hb hk hpar hdead hset ?_ hwaits.wake
  rw [blockedProcs_wake, blockedProcs, hblocked]
  rfl

theorem Ordered.exited {f : Nat → List Nat} {r : Nat} {b : Bool} (h : Ordered w)
    (hp : p ∈ w.tree.known) (he : Exited w.server f p r t) :
    Ordered (exitAlerts { w.alertParent p with server := t } p r b) := by
  have hwaits : Waits { w.alertParent p with server := t } := h.waits.alertParent
  refine ⟨?_, fun q hq => ?_, hwaits.exitAlerts⟩
  · rw [server_exitAlerts]
    exact inv_exited h.inv hp he
  · have hq' : q ∈ w.blockedProcs := by
      rw [blockedProcs_exitAlerts] at hq
      exact blockedProcs_alertParent (p := p) ▸ hq
    change q ∈ (exitAlerts _ p r b).server.tree.known ∨ (exitAlerts _ p r b).server.tree.dead q = true
    rw [server_exitAlerts]
    exact exited_known_or_dead he (h.procs q hq')

theorem Ordered.regrouped {par num : Nat → Nat} (h : Ordered w) (ht : Server.Inv t)
    (hr : Regrouped w.server t par num) : Ordered { w with server := t } := by
  refine ⟨ht, fun q hq => ?_, h.waits⟩
  change q ∈ t.tree.known ∨ t.tree.dead q = true
  rw [hr.known, hr.dead]
  exact h.procs q hq

theorem Ordered.group_cases (h : Ordered w) {c : GroupCall} (hc : ∀ p, c ≠ .create p)
    (hs : w.step (.group c) = some v) :
    ∃ t par num, Server.Inv t ∧ Regrouped w.server t par num ∧ v = { w with server := t } ∧
      (par = w.tree.parent ∧ num = groupNumber w.server ∨ moveOf w.server c (par, num)) := by
  have hserver : ∀ c, (∀ p, c ≠ .create p) → (∀ p, c ≠ .taskDied p) → (∀ p q, c ≠ .wait p q) →
      ((w.server.step c).map fun s => { w with server := s }) = some v →
      ∃ t par num, Server.Inv t ∧ Regrouped w.server t par num ∧ v = { w with server := t } ∧
        (par = w.tree.parent ∧ num = groupNumber w.server ∨ moveOf w.server c (par, num)) := by
    intro c hcreate hdied hwait hstep
    obtain ⟨t, ht, rfl⟩ := map_eq_some_iff.mp hstep
    obtain ⟨par, num, hr, hmove⟩ := regrouped_cases h.inv hcreate hdied hwait ht
    have hlives : Server.InitLives c := by
      cases c with
      | taskDied p => exact absurd rfl (hdied p)
      | _ => trivial
    exact ⟨t, par, num, h.inv.step hlives ht, hr, rfl, hmove⟩
  cases c with
  | create p => exact absurd rfl (hc p)
  | taskDied p => cases hs
  | wait p q => cases hs
  | child parentp childp => exact hserver _ (by simp) (by simp) (by simp) hs
  | setpgrp callerp pid pgid new => exact hserver _ (by simp) (by simp) (by simp) hs
  | setsid p sess pg => exact hserver _ (by simp) (by simp) (by simp) hs
  | markExec p => exact hserver _ (by simp) (by simp) (by simp) hs
  | makeTaskNamespace p notify => exact hserver _ (by simp) (by simp) (by simp) hs

theorem Ordered.step (h : Ordered w) {c : WaitCall} (hok : InitLives c)
    (hs : w.step c = some v) : Ordered v := by
  obtain ⟨f, hf⟩ := h.inv.lists
  cases c with
  | group c =>
    by_cases hc : ∃ p, c = .create p
    · obtain ⟨p, rfl⟩ := hc
      exact (h.create hs).1
    · obtain ⟨t, par, num, ht, hr, rfl, -⟩ :=
        h.group_cases (fun p heq => hc ⟨p, heq⟩) hs
      exact h.regrouped ht hr
  | taskDied p =>
    simp only [WaitServer.step] at hs
    split at hs
    · rename_i hp
      rcases processHasExited_cases hf hp hok hs with ⟨-, rfl⟩ | ⟨r, t, he, rfl⟩
      · exact h
      · exact h.exited hp he
    · cases hs
  | markExit p usage =>
    simp only [WaitServer.step] at hs
    split at hs
    · cases hs
      exact ⟨h.inv, h.procs, h.waits⟩
    · cases hs
  | markStop p =>
    simp only [WaitServer.step] at hs
    split at hs
    · cases hs
      exact h.wakeFlags rfl (by funext k; cases k <;> rfl) rfl rfl rfl rfl rfl rfl rfl
    · cases hs
  | markCont p =>
    simp only [WaitServer.step] at hs
    split at hs
    · cases hs
      exact h.wakeFlags rfl (by funext k; cases k <;> rfl) rfl rfl rfl rfl rfl rfl rfl
    · cases hs
  | markTraced p =>
    simp only [WaitServer.step] at hs
    split at hs
    · cases hs
      exact ⟨h.inv, h.procs, h.waits⟩
    · cases hs
  | wait p pid options =>
    simp only [WaitServer.step] at hs
    split at hs
    · rename_i husable
      exact h.startOver husable hs
    · cases hs
  | resume b cancel =>
    simp only [WaitServer.step] at hs
    split at hs
    · rename_i hb
      exact h.resume hb hs
    · cases hs
  | broadcast p =>
    cases hs
    refine ⟨h.inv, fun q hq => h.procs q ?_, h.waits.broadcast⟩
    exact blockedProcs_broadcast (w := w) (q := p) ▸ hq

end Calls

end Hurd.Proc.WaitServer
